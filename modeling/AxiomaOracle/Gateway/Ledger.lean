import AxiomaOracle.Gateway.World

/-!
# The durable ledger (`gw_ledger.c`)

Frames are `tag_len` (4 bytes), tag, `payload_len` (8 bytes), payload, commit (32 bytes), lengths in
little-endian order. `replay` is the loop of `gwl_open` over the bytes of the file and the results
of its read calls; `gwlOpen`, `gwlAppend` and `gwlExportEnable` are the programs around it.
-/

namespace AxiomaOracle

open Lib

def gwlTagMax : Nat := 32
def gwlPayloadMax : Nat := 256 * 1024

def wrU32le (v : Nat) : Bytes := leEncode 4 v
def wrU64le (v : Nat) : Bytes := leEncode 8 v
def rdU32le (b : Bytes) : Nat := leDecode b
def rdU64le (b : Bytes) : Nat := leDecode b

/-! ## Reading -/

/-- `read_exact`: reads until `n` bytes or the end of the file. Returns what it got (nothing on a
read error), the bytes not yet read and the read results not yet used. -/
def readExact : Nat → Bytes → ReadScript → Option Bytes × Bytes × ReadScript
  | n, rest, [] => (some (rest.take n), rest.drop n, [])
  | 0, rest, r :: script => (some [], rest, r :: script)
  | _ + 1, rest, none :: script => (none, rest, script)
  | n + 1, rest, some k :: script =>
    let chunk := rest.take (min (n + 1) (k + 1))
    if chunk = [] then (some [], rest, script)
    else
      let (r, rest, script) := readExact (n + 1 - chunk.length) (rest.drop chunk.length) script
      (r.map (chunk ++ ·), rest, script)

/-- How reading one frame ends: the `goto` it takes, or the fields it read. -/
inductive FrameRead where
  | eof | fail | torn
  | frame (tag payload stored : Bytes)
  deriving DecidableEq

/-- `read_exact(..) != 0 || got < n`. -/
def shortRead (r : Option Bytes) (n : Nat) : Bool :=
  match r with
  | none => true
  | some bs => bs.length < n

/-- The reads of one pass of the loop, with the bytes and read results left. -/
def readFrame (rest : Bytes) (script : ReadScript) : FrameRead × Bytes × ReadScript :=
  match readExact 4 rest script with
  | (none, rest, script) => (.fail, rest, script)
  | (some h4, rest, script) =>
    if h4.length = 0 then (.eof, rest, script)
    else if h4.length < 4 then (.torn, rest, script)
    else
      let tagLen := rdU32le h4
      if tagLen = 0 ∨ tagLen > gwlTagMax then (.fail, rest, script)
      else match readExact tagLen rest script with
        | (tag, rest, script) =>
          if shortRead tag tagLen then (.torn, rest, script)
          else match readExact 8 rest script with
            | (h8, rest, script) =>
              if shortRead h8 8 then (.torn, rest, script)
              else
                let plen := rdU64le (h8.getD [])
                if plen = 0 ∨ plen > gwlPayloadMax then (.fail, rest, script)
                else match readExact plen rest script with
                  | (payload, rest, script) =>
                    if shortRead payload plen then (.torn, rest, script)
                    else match readExact 32 rest script with
                      | (stored, rest, script) =>
                        if shortRead stored 32 then (.torn, rest, script)
                        else (.frame (tag.getD []) (payload.getD []) (stored.getD []), rest, script)

/-! ## Replay -/

/-- What the loop has built: the chain, the last payload, the end of the last accepted frame, and
the frames it has read (tag field and payload), which the code does not keep. -/
structure Replayed (S : Substrate) where
  ctx : S.LedgerCtx
  lastPayload : Bytes
  goodEnd : Nat
  frames : List (Bytes × Bytes)

inductive ReplayEnd where
  | clean | torn | fail
  deriving DecidableEq

section Replay

variable (S : Substrate)

/-- The checks on a frame that was read in full, and the append to the chain. The tag goes to
`ax_commit_evidence` as a NUL-terminated string. -/
def acceptFrame (r : Replayed S) (tag payload stored : Bytes) : Option (Replayed S) :=
  match S.axCommitEvidence (.ofBytes tag) payload with
  | none => none
  | some computed =>
    if computed.bytes ≠ stored then none
    else match S.axLedgerAppend r.ctx computed with
      | none => none
      | some ctx => some {
          ctx := ctx
          lastPayload := payload
          goodEnd := r.goodEnd + (4 + tag.length + 8 + payload.length + 32)
          frames := r.frames ++ [(tag, payload)] }

/-- The `for (;;)` loop. The first argument bounds the number of passes. -/
def replayLoop : Nat → Bytes → ReadScript → Replayed S → ReplayEnd × Replayed S
  | 0, _, _, r => (.fail, r)
  | fuel + 1, rest, script, r =>
    match readFrame rest script with
    | (.eof, _, _) => (.clean, r)
    | (.fail, _, _) => (.fail, r)
    | (.torn, _, _) => (.torn, r)
    | (.frame tag payload stored, rest, script) =>
      match acceptFrame S r tag payload stored with
      | none => (.fail, r)
      | some r => replayLoop fuel rest script r

/-- Replay from the start of the file. Every pass but the last one consumes bytes, so their number
is bounded by the length. -/
def replay (genesis : S.LedgerCtx) (file : Bytes) (script : ReadScript) : ReplayEnd × Replayed S :=
  replayLoop S (file.length + 1) file script ⟨genesis, [], 0, []⟩

/-! ## The open ledger -/

/-- The statics of the module: `g_ctx`, `g_fd >= 0`, `g_export_fd >= 0` and `g_last_payload`. -/
structure Gwl where
  ctx : S.LedgerCtx
  isOpen : Bool
  exportActive : Bool
  lastPayload : Bytes

def closeFail {α : Type} : Io (Option α) := do
  sys (.close .ledger)
  return none

/-- `gwl_open`. The flag of the result is `*truncated`. -/
def gwlOpen (tornTailOk : Bool) : Io (Option (Gwl S × Bool)) :=
  match S.axLedgerGenesis with
  | none => return none
  | some genesis => do
    if !(← sys (.openCreat .ledger)) then return none
    let (file, script) ← sys (.read .ledger)
    match replay S genesis file script with
    | (.fail, _) => closeFail
    | (.clean, r) => do
      sys (.seekEnd .ledger)
      return some (⟨r.ctx, true, false, r.lastPayload⟩, false)
    | (.torn, r) =>
      if !tornTailOk then closeFail
      else do
        if !(← sys (.ftruncate .ledger r.goodEnd)) then closeFail
        else do
          sys (.seekEnd .ledger)
          return some (⟨r.ctx, true, false, r.lastPayload⟩, true)

/-- Writes in order, stopping at the first that fails. -/
def writeAll (r : Role) : List Bytes → Io Bool
  | [] => return true
  | bs :: rest => do
    if !(← sys (.write r bs)) then return false
    writeAll r rest

/-- The five writes of a frame. -/
def frameChunks (tag payload commit : Bytes) : List Bytes :=
  [wrU32le tag.length, tag, wrU64le payload.length, payload, commit]

variable {S}

/-- The mirror of a frame into the export: a failed write drops it. -/
def mirrorFrame (g : Gwl S) (chunks : List Bytes) : Io (Gwl S) :=
  if g.exportActive then do
    if !(← writeAll .exportCopy chunks) then do
      sys (.close .exportCopy)
      return { g with exportActive := false }
    else return g
  else return g

/-- `gwl_append`: the new statics, and head and sequence number on success. -/
def gwlAppend (g : Gwl S) (tag : CStr) (payload : Bytes) : Io (Gwl S × Option (Digest × UInt64)) :=
  if !g.isOpen then return (g, none)
  else if tag.bytes.length = 0 ∨ tag.bytes.length > gwlTagMax then return (g, none)
  else if payload.length = 0 ∨ payload.length > gwlPayloadMax then return (g, none)
  else match S.axCommitEvidence tag payload with
    | none => return (g, none)
    | some commit => do
      let chunks := frameChunks tag.bytes payload commit.bytes
      if !(← writeAll .ledger chunks) then return (g, none)
      if !(← sys (.fsync .ledger)) then return (g, none)
      let g ← mirrorFrame g chunks
      match S.axLedgerAppend g.ctx commit with
      | none => return (g, none)
      | some ctx =>
        return ({ g with ctx := ctx, lastPayload := payload },
          some (S.currentHash ctx, S.sequence ctx))

def gwlSeq (g : Gwl S) : UInt64 := S.sequence g.ctx

/-- The copy loop of `gwl_export_enable`: `pread` in 64 KiB pieces up to `size`. -/
def exportLoop : Nat → Nat → Bytes → ReadScript → Io Bool
  | 0, _, _, _ => return false
  | fuel + 1, size, rest, script =>
    if size = 0 then return true
    else
      let limit := match script with
        | [] => some (64 * 1024)
        | none :: _ => none
        | some k :: _ => some (min (64 * 1024) (k + 1))
      match limit with
      | none => return false
      | some limit =>
        let chunk := rest.take limit
        if chunk = [] then return false
        else do
          if !(← sys (.write .exportCopy chunk)) then return false
          exportLoop fuel (size - chunk.length) (rest.drop chunk.length) script.tail

/-- The second half of `gwl_export_enable`: the copy of the file into a new export. -/
def exportCopy (g : Gwl S) : Io (Gwl S × Bool) := do
  if !(← sys (.openTrunc .exportCopy)) then return (g, false)
  let size ← sys (.tell .ledger)
  let (file, script) ← sys (.pread .ledger)
  if !(← exportLoop (size + 1) size file script) then do
    sys (.close .exportCopy)
    return (g, false)
  if !(← sys (.fsync .exportCopy)) then do
    sys (.close .exportCopy)
    return (g, false)
  return ({ g with exportActive := true }, true)

def gwlExportEnable (cfg : GwConfig) (g : Gwl S) : Io (Gwl S × Bool) :=
  if !g.isOpen || cfg.exportPath.bytes = [] then return (g, false)
  else do
    if g.exportActive then sys (.close .exportCopy)
    exportCopy { g with exportActive := false }

/-- The test of `gwl_last_payload_contains`, on `g_last_payload`. -/
def lastPayloadContains (lastPayload needle : Bytes) : Bool :=
  if lastPayload.length = 0 then false
  else if needle.length = 0 ∨ needle.length > lastPayload.length then false
  else C.contains needle lastPayload

def gwlLastPayloadContains (g : Gwl S) (needle : Bytes) : Bool :=
  lastPayloadContains g.lastPayload needle

end Replay

end AxiomaOracle
