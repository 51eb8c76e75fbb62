import AxiomaOracle.Lib.CLib
import AxiomaOracle.Tools.LossCheck

/-!
# The corpus harvest (`harvest_corpus.py`)

It reads the operator log as UTF-8, decodes each line and keeps the distinct messages of the
`oracle_fail` events that are not the gateway's own. A string of Python is its UTF-8 text here, and
`json.loads` a parameter that answers or raises a `ValueError`: the `RecursionError` of a line
nested too deep for the interpreter is left out.
-/

namespace AxiomaOracle.Harvest

open Lib LossCheck

def criterionN : Nat := 8

/-! ## One message -/

def gatewayAuthored : List Bytes :=
  [ascii "200 body failed structural parse",
    ascii "output failed admission; recording INVALID_OUTPUT"]

def isGatewayAuthored (msg : Bytes) : Bool :=
  gatewayAuthored.contains msg ||
    ((ascii "response exceeded ").isPrefixOf msg && (ascii " bytes").isSuffixOf msg)

/-- The class of a message. No other character than an ASCII letter becomes one of `timed out` in
lower case, unless a combining mark stands behind it. -/
def classify (msg : Bytes) (status : Option PyValue) : Bytes :=
  match status with
  | some (.int n) =>
    if n ≥ 400 then ascii "http_" ++ C.ld n
    else if C.contains (ascii "timed out") (msg.map C.tolower) then ascii "timeout"
    else ascii "transport"
  | _ =>
    if C.contains (ascii "timed out") (msg.map C.tolower) then ascii "timeout"
      else ascii "transport"

/-! ## One line -/

/-- The characters `str.strip` takes off. -/
def spaces : List Bytes :=
  ([0x09, 0x0A, 0x0B, 0x0C, 0x0D, 0x1C, 0x1D, 0x1E, 0x1F, 0x20, 0x85, 0xA0, 0x1680, 0x2000, 0x2001,
    0x2002, 0x2003, 0x2004, 0x2005, 0x2006, 0x2007, 0x2008, 0x2009, 0x200A, 0x2028, 0x2029, 0x202F,
    0x205F, 0x3000] : List Nat).map Utf8.encode

/-- The first argument of both bounds the number of characters. -/
def lstrip : Nat → Bytes → Bytes
  | 0, s => s
  | fuel + 1, s =>
    match spaces.find? (·.isPrefixOf s) with
    | none => s
    | some c => lstrip fuel (s.drop c.length)

def rstrip : Nat → Bytes → Bytes
  | 0, s => s
  | fuel + 1, s =>
    match spaces.find? (·.isSuffixOf s) with
    | none => s
    | some c => rstrip fuel (s.take (s.length - c.length))

/-- `raw.strip()`. -/
def strip (s : Bytes) : Bytes := rstrip s.length (lstrip s.length s)

/-- The uncaught exceptions, each of which ends the run with status 1: `UnicodeDecodeError` on the
log, `AttributeError` on a line that is JSON and no object, `UnicodeEncodeError` on the corpus. -/
inductive HarvestError where
  | cannotOpen | notUtf8 | notAnObject | notEncodable
  deriving DecidableEq

/-- The variables of the loop. `seen` is the dictionary of messages and classes, in the order of
insertion. -/
structure Gathered where
  seen : List (Bytes × Bytes)
  lines : Nat
  bad : Nat

/-- One pass of the loop. -/
def harvestLine (loads : Bytes → Option PyValue) (h : Gathered) (raw : Bytes) :
    Except HarvestError Gathered :=
  let raw := strip raw
  if raw = [] then .ok h
  else
    let h := { h with lines := h.lines + 1 }
    match loads raw with
    | none => .ok { h with bad := h.bad + 1 }
    | some (.dict rec) =>
      if !eqStr (get (ascii "event") rec) (ascii "oracle_fail") then .ok h
      else match get (ascii "message") rec with
        | some (.str msg) =>
          if msg = [] then .ok h
          else if isGatewayAuthored msg then .ok h
          else if (h.seen.map Prod.fst).contains msg then .ok h
          else .ok { h with seen := h.seen ++ [(msg, classify msg (get (ascii "status") rec))] }
        | _ => .ok h
    | some _ => .error .notAnObject

/-! ## The log and the corpus -/

/-- The lines of a file in text mode, each without its end: a line feed, a carriage return or both.
Between the two of both stands an empty line more than Python sees, which is skipped. -/
def textLines (data : Bytes) : List Bytes :=
  data.splitOnP fun b => b == chr '\n' || b == chr '\r'

/-- The loop over the file. -/
def harvest (loads : Bytes → Option PyValue) (data : Bytes) : Except HarvestError Gathered :=
  if !Utf8.check data then .error .notUtf8
  else (textLines data).foldlM (harvestLine loads) ⟨[], 0, 0⟩

/-- `(e["class"], e["message"])` in the order of Python's strings, which is that of their UTF-8. -/
def entryLe (a b : Bytes × Bytes) : Bool :=
  if a.1 = b.1 then decide (a.2 ≤ b.2) else decide (a.1 ≤ b.1)

/-- The sorted entries, as pairs of class and message. -/
def entries (h : Gathered) : List (Bytes × Bytes) := (h.seen.map Prod.swap).mergeSort entryLe

/-- The corpus `json.dumps` writes. -/
def corpus (source : Bytes) (es : List (Bytes × Bytes)) : Json :=
  .obj [(ascii "source", .str source), (ascii "criterion_n", .int criterionN),
    (ascii "distinct", .int es.length),
    (ascii "strings", .arr (es.map fun e =>
      .obj [(ascii "class", .str e.1), (ascii "message", .str e.2)]))]

/-- `by_class[c] = by_class.get(c, 0) + 1`. -/
def countClass (c : Bytes) : List (Bytes × Nat) → List (Bytes × Nat)
  | [] => [(c, 1)]
  | (d, n) :: counts => if d = c then (d, n + 1) :: counts else (d, n) :: countClass c counts

/-- The coverage report, sorted by class. -/
def coverage (es : List (Bytes × Bytes)) : List (Bytes × Nat) :=
  (es.foldl (fun counts e => countClass e.1 counts) []).mergeSort fun a b => decide (a.1 ≤ b.1)

/-- What a run leaves: the corpus, and the report on the error stream. -/
structure Report where
  corpus : Json
  lines : Nat
  bad : Nat
  distinct : Nat
  coverage : List (Bytes × Nat)

/-- `main` on a log, `none` when it cannot be opened. A string with half a surrogate pair cannot be
written. -/
def main (loads : Bytes → Option PyValue) (source : Bytes) (log : Option Bytes) :
    Except HarvestError Report := do
  let some data := log | .error .cannotOpen
  let h ← harvest loads data
  let es := entries h
  if !(es.all fun e => Utf8.check e.2) then .error .notEncodable
  return ⟨corpus source es, h.lines, h.bad, es.length, coverage es⟩

/-- What `main` returns to the shell. -/
def exitStatus : Except HarvestError Report → Nat
  | .error _ => 1
  | .ok r => if r.distinct ≥ criterionN then 0 else 3

end AxiomaOracle.Harvest
