import AxiomaOracle.Oracle.Validate
import AxiomaOracle.Gateway.Json

/-!
# The UTF-8 scanners, read by read

`ax_validate_utf8` and the checking loop of `gwj_escape_utf8` once more, as the loops over an index
that they are in C. `mem` is the memory at the start of the text and `len` the length the caller
passes; a read `mem[i]?` that finds no byte makes the whole scan `none`. `Oracle.Validate` and
`Gateway.Json` have the same scanners over what is left of the text.
-/

namespace AxiomaOracle

open Lib

/-- The loop of `ax_validate_utf8` from index `p` on. -/
def axValidateUtf8From (mem : Bytes) (len p : Nat) : Option Bool :=
  if p < len then do
    let c ← mem[p]?
    if c.toNat < 0x80 then axValidateUtf8From mem len (p + 1)
    else if c.toNat &&& 0xE0 = 0xC0 then
      if p + 1 ≥ len then some false
      else do
        let b1 ← mem[p + 1]?
        if !isContinuation b1 then some false
        else if c.toNat &&& 0x1E = 0 then some false
        else axValidateUtf8From mem len (p + 2)
    else if c.toNat &&& 0xF0 = 0xE0 then
      if p + 2 ≥ len then some false
      else do
        let b1 ← mem[p + 1]?
        if !isContinuation b1 then some false
        else do
          let b2 ← mem[p + 2]?
          if !isContinuation b2 then some false
          else if codePoint3 c b1 b2 < 0x800 then some false
          else if 0xD800 ≤ codePoint3 c b1 b2 ∧ codePoint3 c b1 b2 ≤ 0xDFFF then some false
          else axValidateUtf8From mem len (p + 3)
    else if c.toNat &&& 0xF8 = 0xF0 then
      if p + 3 ≥ len then some false
      else do
        let b1 ← mem[p + 1]?
        if !isContinuation b1 then some false
        else do
          let b2 ← mem[p + 2]?
          if !isContinuation b2 then some false
          else do
            let b3 ← mem[p + 3]?
            if !isContinuation b3 then some false
            else if codePoint4 c b1 b2 b3 < 0x10000 ∨ codePoint4 c b1 b2 b3 > 0x10FFFF then
              some false
            else axValidateUtf8From mem len (p + 4)
    else some false
  else some true
termination_by len - p

def axValidateUtf8At (mem : Bytes) (len : Nat) : Option Bool := axValidateUtf8From mem len 0

/-- `utf8_seq_len(mem + i, len)`. -/
def utf8SeqLenAt (mem : Bytes) (i len : Nat) : Option Nat := do
  let c ← mem[i]?
  if c.toNat < 0x80 then some 1
  else if 0xC2 ≤ c.toNat ∧ c.toNat ≤ 0xDF then
    if len ≥ 2 then do
      let b1 ← mem[i + 1]?
      some (if b1.toNat &&& 0xC0 = 0x80 then 2 else 0)
    else some 0
  else if 0xE0 ≤ c.toNat ∧ c.toNat ≤ 0xEF then
    let lo := if c = 0xE0 then 0xA0 else 0x80
    let hi := if c = 0xED then 0x9F else 0xBF
    if len ≥ 3 then do
      let b1 ← mem[i + 1]?
      if lo ≤ b1.toNat ∧ b1.toNat ≤ hi then do
        let b2 ← mem[i + 2]?
        some (if b2.toNat &&& 0xC0 = 0x80 then 3 else 0)
      else some 0
    else some 0
  else if 0xF0 ≤ c.toNat ∧ c.toNat ≤ 0xF4 then
    let lo := if c = 0xF0 then 0x90 else 0x80
    let hi := if c = 0xF4 then 0x8F else 0xBF
    if len ≥ 4 then do
      let b1 ← mem[i + 1]?
      if lo ≤ b1.toNat ∧ b1.toNat ≤ hi then do
        let b2 ← mem[i + 2]?
        if b2.toNat &&& 0xC0 = 0x80 then do
          let b3 ← mem[i + 3]?
          some (if b3.toNat &&& 0xC0 = 0x80 then 4 else 0)
        else some 0
      else some 0
    else some 0
  else some 0

/-- The checking loop of `gwj_escape_utf8` from index `i` on: `true` when it reaches `len`. -/
def escapeUtf8From (mem : Bytes) (len i : Nat) : Option Bool :=
  if i < len then
    match utf8SeqLenAt mem i (len - i) with
    | none => none
    | some 0 => some false
    | some (n + 1) => escapeUtf8From mem len (i + (n + 1))
  else some true
termination_by len - i

def escapeUtf8At (mem : Bytes) (len : Nat) : Option Bool := escapeUtf8From mem len 0

end AxiomaOracle
