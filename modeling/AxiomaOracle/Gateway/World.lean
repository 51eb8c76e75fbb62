import AxiomaOracle.Lib.Process
import AxiomaOracle.Gateway.Config

/-!
# The gateway's world

The file system is a map from paths to files (and the one socket), with the descriptors of the
running process. Every system call the gateway makes is an operation; `Env` is what the environment
decides about one call: whether it fails, how many bytes of a write reach the file first, what the
read calls deliver, what the oracle answers and what the clock says. A call that dies with the
process leaves one of the states it can leave alive, so a crash inside a write leaves any part of
it.

Three fields are history, which no code reads: the oracle calls, the bytes sent to clients, and the
ledger at each creation of the intent file.
-/

namespace AxiomaOracle

open Lib

/-! ## Paths and descriptors -/

/-- The six configured files. `exportCopy` is the file at `export_path`. -/
inductive Role where
  | socket | ledger | wal | log | fixture | exportCopy
  deriving DecidableEq, Repr

def GwConfig.path (cfg : GwConfig) : Role → Bytes
  | .socket => cfg.socketPath.bytes
  | .ledger => cfg.ledgerPath.bytes
  | .wal => cfg.walPath.bytes
  | .log => cfg.logPath.bytes
  | .fixture => cfg.fixtureCapturePath.bytes
  | .exportCopy => cfg.exportPath.bytes

inductive Node where
  | file (bytes : Bytes)
  | sock
  deriving DecidableEq

/-- An open file: its offset, whether its path still names it, and `O_APPEND`. -/
structure Fd where
  off : Nat
  live : Bool
  append : Bool
  deriving DecidableEq

/-- `gwc_outcome_t`. -/
inductive GwcOutcome where
  | ok | httpFail | timeout | transport | overcap
  deriving DecidableEq

/-- `gwc_result_t`. -/
structure GwcResult where
  outcome : GwcOutcome
  httpStatus : Int
  attempts : Int
  body : Option Bytes
  errbuf : CStr

/-- The results of successive `read` calls: an error, or at most that many bytes and one more. After
the last entry every call delivers all it was asked for. For a stream the first is that of
`fopen`. -/
abbrev ReadScript := List (Option Nat)

structure World where
  node : Bytes → Option Node
  fd : Role → Option Fd
  calls : List (Bytes × Option GwcResult)
  sent : Bytes
  walMarks : List (Bytes × Nat)

/-- What the environment decides about one call. -/
structure Env where
  fails : Bool := false
  amount : Nat := 0
  script : ReadScript := []
  reply : Option GwcResult := none
  clock : Bytes := ascii "1970-01-01T00:00:00Z"

/-! ## Operations -/

/-- Calls that touch no file. -/
inductive SysCall where
  | malloc | curlInit | socket | chmod | listen | notify
  deriving DecidableEq

inductive Op where
  | openCreat (r : Role)
  | openExcl (r : Role)
  | openTrunc (r : Role)
  | openAppend (r : Role)
  | slurp (r : Role)
  | read (r : Role)
  | pread (r : Role)
  | seekEnd (r : Role)
  | tell (r : Role)
  | write (r : Role) (bytes : Bytes)
  | fsync (r : Role)
  | fsyncDir (r : Role)
  | ftruncate (r : Role) (size : Nat)
  | close (r : Role)
  | unlink (r : Role)
  | bind (r : Role)
  | sys (c : SysCall)
  | time
  | gwcCall (request : Bytes)
  | send (bytes : Bytes)

@[reducible] def Ans : Op → Type
  | .openCreat _ | .openExcl _ | .openTrunc _ | .openAppend _ => Bool
  | .slurp _ => Option Bytes
  | .read _ | .pread _ => Bytes × ReadScript
  | .seekEnd _ | .close _ => Unit
  | .tell _ => Nat
  | .write _ _ | .fsync _ | .fsyncDir _ | .ftruncate _ _ | .unlink _ | .bind _ => Bool
  | .sys _ => Bool
  | .time => Bytes
  | .gwcCall _ => Option GwcResult
  | .send _ => Bool

abbrev Io := Prog Op Ans

/-- One system call. -/
abbrev sys (o : Op) : Io (Ans o) := Prog.perform o

/-- `off_t` ends here: a write that would go past it fails. -/
def offMax : Nat := 2 ^ 63 - 1

namespace World

variable (cfg : GwConfig) (w : World)

/-- The bytes of the file at a path; none for no file and for the socket. -/
def fileAt (p : Bytes) : Option Bytes :=
  match w.node p with
  | some (.file bs) => some bs
  | _ => none

def file (r : Role) : Option Bytes := w.fileAt (cfg.path r)

/-- The bytes of the file of a role, none when it does not exist. -/
def content (r : Role) : Bytes := (w.file cfg r).getD []

def setNode (p : Bytes) (n : Option Node) : World :=
  { w with node := fun q => if q = p then n else w.node q }

def setFile (r : Role) (bs : Bytes) : World := w.setNode (cfg.path r) (some (.file bs))

def setFd (r : Role) (f : Option Fd) : World :=
  { w with fd := fun q => if q = r then f else w.fd q }

/-- After an unlink no descriptor of the path is reachable through it. -/
def detach (p : Bytes) : World :=
  { w with fd := fun q => if cfg.path q = p then (w.fd q).map fun f => { f with live := false }
    else w.fd q }

end World

/-- The file after `bs` is written at `off`; a gap reads as zeros. -/
def writeAt (file : Bytes) (off : Nat) (bs : Bytes) : Bytes :=
  file.take off ++ List.replicate (off - file.length) 0 ++ bs ++ file.drop (off + bs.length)

/-- How many of `n` bytes a write moves: all of them, or those before the failure. -/
def written (env : Env) (off n : Nat) : Nat :=
  min (if env.fails then min env.amount (n - 1) else n) (offMax - off)

/-! ## Their effect -/

def execOpen (cfg : GwConfig) (env : Env) (w : World) (r : Role) (trunc append : Bool) :
    Bool × World :=
  if env.fails then (false, w)
  else match w.node (cfg.path r) with
    | some .sock => (false, w)
    | some (.file bs) =>
      (true, (w.setFile cfg r (if trunc then [] else bs)).setFd r (some ⟨0, true, append⟩))
    | none => (true, (w.setFile cfg r []).setFd r (some ⟨0, true, append⟩))

def execOpenExcl (cfg : GwConfig) (env : Env) (w : World) (r : Role) : Bool × World :=
  if env.fails || (w.node (cfg.path r)).isSome then (false, w)
  else
    let w' := (w.setFile cfg r []).setFd r (some ⟨0, true, false⟩)
    (true, if r = .wal then
      { w' with walMarks := (w.content cfg .ledger, w.calls.length) :: w.walMarks } else w')

def execWrite (cfg : GwConfig) (env : Env) (w : World) (r : Role) (bs : Bytes) : Bool × World :=
  match w.fd r with
  | none => (false, w)
  | some f =>
    let off := if f.append then (w.content cfg r).length else f.off
    let n := written env off bs.length
    let w' := if f.live then w.setFile cfg r (writeAt (w.content cfg r) off (bs.take n)) else w
    (n == bs.length, w'.setFd r (some { f with off := off + n }))

def execFtruncate (cfg : GwConfig) (env : Env) (w : World) (r : Role) (size : Nat) : Bool × World :=
  match w.fd r with
  | none => (false, w)
  | some f =>
    if env.fails then (false, w)
    else
      let bs := w.content cfg r
      (true, if f.live then
        w.setFile cfg r (bs.take size ++ List.replicate (size - bs.length) 0) else w)

def execUnlink (cfg : GwConfig) (env : Env) (w : World) (r : Role) : Bool × World :=
  if env.fails || (w.node (cfg.path r)).isNone then (false, w)
  else (true, (w.setNode (cfg.path r) none).detach cfg (cfg.path r))

/-- What a system call answers and leaves. -/
def exec (cfg : GwConfig) : (o : Op) → Env → World → Ans o × World
  | .openCreat r, env, w => execOpen cfg env w r false false
  | .openTrunc r, env, w => execOpen cfg env w r true false
  | .openAppend r, env, w => execOpen cfg env w r false true
  | .openExcl r, env, w => execOpenExcl cfg env w r
  | .slurp r, env, w =>
    -- the first result is that of `fopen`; a later error looks like the end of the file to `fgets`
    (if env.script.head? = some none then none else (w.file cfg r).map fun bs =>
      if env.script.contains none then bs.take env.amount else bs, w)
  | .read r, env, w =>
    (match w.fd r with
      | some f => if f.live then ((w.content cfg r).drop f.off, env.script) else ([], env.script)
      | none => ([], [none]), w)
  | .pread r, env, w => ((w.content cfg r, env.script), w)
  | .seekEnd r, _, w =>
    ((), match w.fd r with
      | some f => w.setFd r (some { f with off := (w.content cfg r).length })
      | none => w)
  | .tell r, _, w => ((w.fd r).elim 0 Fd.off, w)
  | .write r bs, env, w => execWrite cfg env w r bs
  | .fsync _, env, w => (!env.fails, w)
  | .fsyncDir _, env, w => (!env.fails, w)
  | .ftruncate r size, env, w => execFtruncate cfg env w r size
  | .close r, _, w => ((), w.setFd r none)
  | .unlink r, env, w => execUnlink cfg env w r
  | .bind r, env, w =>
    if env.fails || (w.node (cfg.path r)).isSome then (false, w)
    else (true, w.setNode (cfg.path r) (some .sock))
  | .sys _, env, w => (!env.fails, w)
  | .time, env, w => (env.clock, w)
  | .gwcCall request, env, w => (env.reply, { w with calls := (request, env.reply) :: w.calls })
  | .send bs, env, w =>
    let n := if env.fails then min env.amount (bs.length - 1) else bs.length
    (n == bs.length, { w with sent := w.sent ++ bs.take n })

/-- The machine the gateway runs on, for its configured paths. -/
@[reducible] def machine (cfg : GwConfig) : Machine Op Ans where
  State := World
  Env := Env
  exec := exec cfg

/-- The end of a process closes its descriptors. -/
def World.release (w : World) : World := { w with fd := fun _ => none }

/-- Nothing opened, called or sent yet. -/
def World.initial (node : Bytes → Option Node) : World := ⟨node, fun _ => none, [], [], []⟩

end AxiomaOracle
