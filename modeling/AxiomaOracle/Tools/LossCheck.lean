import AxiomaOracle.Lib.Json

/-!
# The historical checker (`obs_v1_loss_check.py`)

It reads a frame file or a file of lines, and classifies each record by the defects older producers
left. `json.loads` after a strict `decode("utf-8")` is a parameter; `Rfc8259` is what is relied on
of it. It answers or raises the `ValueError` that the checker catches: the `RecursionError` of a
text nested too deep for the interpreter, which nothing catches, is left out.
-/

namespace AxiomaOracle.LossCheck

open Lib

/-! ## Python values -/

/-- The values `json.loads` builds. The checker never looks into a list or a float. -/
inductive PyValue where
  | none
  | bool (b : Bool)
  | int (n : Int)
  | float
  | str (s : Bytes)
  | list
  | dict (items : List (Bytes × PyValue))

mutual

/-- What the conversion table of the `json` module makes of a JSON value: a number without fraction
and exponent is an `int`, any other a `float`. -/
inductive Decodes : Json → PyValue → Prop where
  | null : Decodes .null .none
  | bool (b : Bool) : Decodes (.bool b) (.bool b)
  | int (n : Int) : Decodes (.num n 0) (.int n)
  | float (m e : Int) : Decodes (.num m e) .float
  | str (s : Bytes) : Decodes (.str s) (.str s)
  | list (vs : List Json) : Decodes (.arr vs) .list
  | dict {ms : List (Bytes × Json)} {items : List (Bytes × PyValue)} :
      DecodesItems ms items → Decodes (.obj ms) (.dict items)

inductive DecodesItems : List (Bytes × Json) → List (Bytes × PyValue) → Prop where
  | nil : DecodesItems [] []
  | cons {k : Bytes} {v : Json} {p : PyValue} {ms : List (Bytes × Json)}
      {items : List (Bytes × PyValue)} : Decodes v p → DecodesItems ms items →
      DecodesItems ((k, v) :: ms) ((k, p) :: items)

end

/-- The loader decodes every RFC 8259 text. -/
def Rfc8259 (loads : Bytes → Option PyValue) : Prop :=
  ∀ s v, Json.decode s = some v → ∃ p, loads s = some p ∧ Decodes v p

/-- `rec.get(key)`: of several items with one key, the last. -/
def get (key : Bytes) : List (Bytes × PyValue) → Option PyValue
  | [] => none
  | (k, v) :: items =>
    match get key items with
    | some w => some w
    | none => if k = key then some v else none

/-- `v == s` for a string `s`. -/
def eqStr (v : Option PyValue) (s : Bytes) : Bool :=
  match v with
  | some (.str t) => t = s
  | _ => false

/-- `isinstance(v, int) and v > 0`; a `bool` is an `int`. -/
def isPositiveInt (v : Option PyValue) : Bool :=
  match v with
  | some (.int n) => 0 < n
  | some (.bool b) => b
  | _ => false

/-! ## Classification -/

def obsTag : Bytes := ascii "AX:OBS:v1"
def maxObsBytes : Nat := 65536
def unknownEnum : Bytes := ascii "UNKNOWN"

def v1States : List Bytes := [ascii "COMPLETE", ascii "TRUNCATED", ascii "ERROR"]
def v1Failures : List (Option Bytes) :=
  [none, some (ascii "TIMEOUT"), some (ascii "INVALID_OUTPUT"), some (ascii "TRANSPORT_ERROR")]

def permittedPairs : List (Bytes × Option Bytes) :=
  [(ascii "COMPLETE", none), (ascii "TRUNCATED", none), (ascii "ERROR", some (ascii "TIMEOUT")),
    (ascii "ERROR", some (ascii "INVALID_OUTPUT")), (ascii "ERROR", some (ascii "TRANSPORT_ERROR"))]

inductive Signature where
  | outputLoss | overSizeLimit | identifierUnverifiable | unknownEnum | forbiddenStatePair
  | ok | notObs | unparseable
  deriving DecidableEq

inductive Category where
  | lossOrCorruption | schemaAnomaly
  deriving DecidableEq

def category : Signature → Option Category
  | .outputLoss | .overSizeLimit | .identifierUnverifiable => some .lossOrCorruption
  | .unknownEnum | .forbiddenStatePair => some .schemaAnomaly
  | .ok | .notObs | .unparseable => none

def isForbiddenPair (rec : List (Bytes × PyValue)) : Bool :=
  match get (ascii "completion_state") rec, get (ascii "failure_type") rec with
  | some (.str cs), some ft =>
    if cs ∉ v1States then false
    else match ft with
      | .none => (cs, none) ∉ permittedPairs
      | .str f => if some f ∉ v1Failures then false else (cs, some f) ∉ permittedPairs
      | _ => false
  | _, _ => false

/-- All signatures of a record in precedence order, or a single class that is not a finding. -/
def signatures (loads : Bytes → Option PyValue) (payload : Bytes) : List Signature :=
  match loads payload with
  | none => [.unparseable]
  | some (.dict rec) =>
    if !eqStr (get (ascii "schema_version") rec) obsTag then [.notObs]
    else
      let found :=
        (if eqStr (get (ascii "output") rec) [] && isPositiveInt (get (ascii "output_size") rec)
          then [Signature.outputLoss] else []) ++
        (if payload.length > maxObsBytes then [Signature.overSizeLimit] else []) ++
        (if eqStr (get (ascii "model_id") rec) [] || eqStr (get (ascii "oracle_id") rec) []
          then [Signature.identifierUnverifiable] else []) ++
        (if eqStr (get (ascii "completion_state") rec) unknownEnum ||
            eqStr (get (ascii "failure_type") rec) unknownEnum then [Signature.unknownEnum]
          else if isForbiddenPair rec then [Signature.forbiddenStatePair] else [])
      if found = [] then [.ok] else found
  | some _ => [.notObs]

/-! ## The file -/

/-- The `ValueError`s of `frames`. -/
inductive FramesError where
  | tornHeader (off : Nat)
  | tornLength (off : Nat)
  | tornFrame (seq : Nat)
  deriving DecidableEq

/-- The loop of `frames` from an offset. The first argument bounds the number of frames. -/
def framesLoop (data : Bytes) : Nat → Nat → Nat → Except FramesError (List (Nat × Bytes × Bytes))
  | 0, _, _ => .ok []
  | fuel + 1, off, seq =>
    if off < data.length then
      if off + 4 > data.length then .error (.tornHeader off)
      else
        let tlen := leDecode ((data.drop off).take 4)
        let off := off + 4
        let tag := (data.drop off).take tlen
        let off := off + tlen
        if off + 8 > data.length then .error (.tornLength off)
        else
          let plen := leDecode ((data.drop off).take 8)
          let off := off + 8
          let payload := (data.drop off).take plen
          let off := off + (plen + 32)
          if off > data.length then .error (.tornFrame seq)
          else (framesLoop data fuel off (seq + 1)).map ((seq + 1, tag, payload) :: ·)
    else .ok []

/-- Every frame with its number, tag and payload. -/
def frames (data : Bytes) : Except FramesError (List (Nat × Bytes × Bytes)) :=
  framesLoop data data.length 0 0

inductive Mode where
  | frames | jsonl

/-- Whitespace of `bytes.strip`. -/
def isSpace (b : UInt8) : Bool := b == 0x20 || (0x09 ≤ b.toNat && b.toNat ≤ 0x0D)

/-- The records of the file. Without its newline, a line of a file is a piece between newlines; an
empty one after the last newline is no line, and blank lines are dropped. -/
def items : Mode → Bytes → Except FramesError (List (Nat × Bytes))
  | .frames, data => (frames data).map fun fs =>
      fs.filterMap fun f => if f.2.1 = obsTag then some (f.1, f.2.2) else none
  | .jsonl, data => .ok (((data.splitOn (chr '\n')).zipIdx 1).filterMap fun l =>
      if l.1.all isSpace then none else some (l.2, l.1))

/-- What `main` prints: one label a record, and the counts. -/
structure Report where
  labels : List (Nat × Signature)
  defects : Nat
  lossOrCorruption : Nat
  schemaAnomaly : Nat

/-- The label is a `V1_` class. -/
def isFinding (s : Signature) : Bool := (category s).isSome

def report (loads : Bytes → Option PyValue) (records : List (Nat × Bytes)) : Report :=
  let sigs := records.map fun r => (r.1, signatures loads r.2)
  let findings := sigs.filter fun s => isFinding (s.2.headD .ok)
  let count (c : Category) := findings.countP fun s => s.2.any fun x => category x == some c
  { labels := sigs.map fun s => (s.1, s.2.headD .ok)
    defects := findings.length
    lossOrCorruption := count .lossOrCorruption
    schemaAnomaly := count .schemaAnomaly }

/-- `main` on a file that could be read. -/
def main (loads : Bytes → Option PyValue) (mode : Mode) (data : Bytes) :
    Except FramesError Report :=
  (items mode data).map (report loads)

/-- What `main` returns to the shell. -/
def exitStatus : Except FramesError Report → Nat
  | .error _ => 1
  | .ok r => if r.defects > 0 then 3 else 0

end AxiomaOracle.LossCheck
