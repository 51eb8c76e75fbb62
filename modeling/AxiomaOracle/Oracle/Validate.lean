import AxiomaOracle.Oracle.Types
import AxiomaOracle.Oracle.Canonical

/-!
# Encoding validation (`validate.c`)

The UTF-8 scanner, the control-character test, line-ending normalisation, the combining-mark test
and the two combined checks. The scanners move a pointer over the bytes; here they recurse on what
is left of them, so a look past the end is a failed pattern and never a read.
-/

namespace AxiomaOracle

open Lib

/-- `(b & 0xC0) == 0x80`. -/
def isContinuation (b : UInt8) : Bool := b.toNat &&& 0xC0 == 0x80

def codePoint3 (c b1 b2 : UInt8) : Nat :=
  ((c.toNat &&& 0x0F) <<< 12) ||| ((b1.toNat &&& 0x3F) <<< 6) ||| (b2.toNat &&& 0x3F)

def codePoint4 (c b1 b2 b3 : UInt8) : Nat :=
  ((c.toNat &&& 0x07) <<< 18) ||| ((b1.toNat &&& 0x3F) <<< 12) ||| ((b2.toNat &&& 0x3F) <<< 6) |||
    (b3.toNat &&& 0x3F)

def axValidateUtf8 : Bytes → Bool
  | [] => true
  | c :: p =>
    if c.toNat < 0x80 then axValidateUtf8 p
    else if c.toNat &&& 0xE0 = 0xC0 then
      match p with
      | b1 :: p =>
        if !isContinuation b1 then false
        else if c.toNat &&& 0x1E = 0 then false
        else axValidateUtf8 p
      | _ => false
    else if c.toNat &&& 0xF0 = 0xE0 then
      match p with
      | b1 :: b2 :: p =>
        if !isContinuation b1 then false
        else if !isContinuation b2 then false
        else if codePoint3 c b1 b2 < 0x800 then false
        else if 0xD800 ≤ codePoint3 c b1 b2 ∧ codePoint3 c b1 b2 ≤ 0xDFFF then false
        else axValidateUtf8 p
      | _ => false
    else if c.toNat &&& 0xF8 = 0xF0 then
      match p with
      | b1 :: b2 :: b3 :: p =>
        if !isContinuation b1 then false
        else if !isContinuation b2 then false
        else if !isContinuation b3 then false
        else if codePoint4 c b1 b2 b3 < 0x10000 ∨ codePoint4 c b1 b2 b3 > 0x10FFFF then false
        else axValidateUtf8 p
      | _ => false
    else false

def isForbiddenControl (c : UInt8) : Bool := (c.toNat < 0x20 && c != 0x0A) || c == 0x7F

def axContainsForbiddenControl (data : Bytes) : Bool := data.any isForbiddenControl

/-- The copy loop: at most `room` bytes are written. Returns what was written and what is left of
the source. -/
def normaliseLoop : Nat → Bytes → Bytes × Bytes
  | _, [] => ([], [])
  | 0, c :: src => ([], c :: src)
  | room + 1, c :: src =>
    if c = chr '\r' then
      match src with
      | [] => ([chr '\n'], [])
      | d :: src' =>
        if d = chr '\n' then
          let (w, rest) := normaliseLoop room src'
          (chr '\n' :: w, rest)
        else
          let (w, rest) := normaliseLoop room (d :: src')
          (chr '\n' :: w, rest)
    else
      let (w, rest) := normaliseLoop room src
      (c :: w, rest)

def axNormaliseLineEndings (dstSize : Nat) (src : Bytes) : Except AxError Bytes :=
  match normaliseLoop (sizePred dstSize) src with
  | (w, []) => .ok w
  | (_, _ :: _) => .error .buffer

def isCombining2 (cp : Nat) : Bool := 0x0300 ≤ cp && cp ≤ 0x036F

def isCombining3 (cp : Nat) : Bool :=
  (0x1DC0 ≤ cp && cp ≤ 0x1DFF) || (0x20D0 ≤ cp && cp ≤ 0x20FF) || (0xFE20 ≤ cp && cp ≤ 0xFE2F)

def axIsNfc : Bytes → Bool
  | [] => true
  | c :: p =>
    if c.toNat < 0x80 then axIsNfc p
    else if c.toNat &&& 0xE0 = 0xC0 then
      match p with
      | b1 :: p =>
        if isCombining2 (((c.toNat &&& 0x1F) <<< 6) ||| (b1.toNat &&& 0x3F)) then false
        else axIsNfc p
      | _ => false
    else if c.toNat &&& 0xF0 = 0xE0 then
      match p with
      | b1 :: b2 :: p => if isCombining3 (codePoint3 c b1 b2) then false else axIsNfc p
      | _ => false
    else if c.toNat &&& 0xF8 = 0xF0 then
      -- `p += 4` with no look at the bytes: past the end the loop simply stops
      match p with
      | _ :: _ :: _ :: p => axIsNfc p
      | _ => true
    else false

def axValidateEncoding (data : Bytes) : Except AxError Unit :=
  if !axValidateUtf8 data then .error .encoding
  else if !axIsNfc data then .error .encoding
  else .ok ()

def axValidateAndNormalise (dstSize : Nat) (src : Bytes) (faults : AxL3FaultFlags) :
    Except AxError Bytes × AxL3FaultFlags :=
  if !axValidateUtf8 src then (.error .encoding, { faults with encoding := true })
  else match axNormaliseLineEndings dstSize src with
    | .error e => (.error e, { faults with size := true })
    | .ok dst =>
      if axContainsForbiddenControl dst then (.error .encoding, { faults with encoding := true })
      else if !axIsNfc dst then (.error .encoding, { faults with encoding := true })
      else (.ok dst, faults)

end AxiomaOracle
