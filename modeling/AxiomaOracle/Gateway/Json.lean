import AxiomaOracle.Lib.CLib

/-!
# JSON for the upstream API (`gw_json.c`)

The escapers, the scanner and the three extractors. A scanner position is what is left of the body,
so a test for the end is a match on the empty list. Where the code compares with `strcmp`, a decoded
string ends at its first NUL.
-/

namespace AxiomaOracle

open Lib

/-! ## Escaping -/

/-- The replacement of one byte; `gw_log.c` uses the same table. -/
def jsonEscape (c : UInt8) : Bytes :=
  if c = chr '"' then ascii "\\\""
  else if c = chr '\\' then ascii "\\\\"
  else if c = chr '\n' then ascii "\\n"
  else if c = chr '\r' then ascii "\\r"
  else if c = chr '\t' then ascii "\\t"
  else if c.toNat < 0x20 then
    [chr '\\', chr 'u', chr '0', chr '0', hexDigit (c.toNat / 16), hexDigit (c.toNat % 16)]
  else [c]

/-- The loop of `gwj_escape` from output position `o`. -/
def gwjEscapeLoop (cap : Nat) : Nat → Bytes → Option Bytes
  | _, [] => some []
  | o, c :: src =>
    let rep := jsonEscape c
    if o + rep.length > cap then none
    else (gwjEscapeLoop cap (o + rep.length) src).map (rep ++ ·)

def gwjEscape (cap : Nat) (src : Bytes) : Option Bytes := gwjEscapeLoop cap 0 src

def utf8SeqLen (s : Bytes) : Nat :=
  match s with
  | [] => 0
  | c :: s =>
    if c.toNat < 0x80 then 1
    else if 0xC2 ≤ c.toNat ∧ c.toNat ≤ 0xDF then
      match s with
      | b1 :: _ => if b1.toNat &&& 0xC0 = 0x80 then 2 else 0
      | [] => 0
    else if 0xE0 ≤ c.toNat ∧ c.toNat ≤ 0xEF then
      let lo := if c = 0xE0 then 0xA0 else 0x80
      let hi := if c = 0xED then 0x9F else 0xBF
      match s with
      | b1 :: b2 :: _ =>
        if lo ≤ b1.toNat ∧ b1.toNat ≤ hi ∧ b2.toNat &&& 0xC0 = 0x80 then 3 else 0
      | _ => 0
    else if 0xF0 ≤ c.toNat ∧ c.toNat ≤ 0xF4 then
      let lo := if c = 0xF0 then 0x90 else 0x80
      let hi := if c = 0xF4 then 0x8F else 0xBF
      match s with
      | b1 :: b2 :: b3 :: _ =>
        if lo ≤ b1.toNat ∧ b1.toNat ≤ hi ∧ b2.toNat &&& 0xC0 = 0x80 ∧ b3.toNat &&& 0xC0 = 0x80
        then 4 else 0
      | _ => 0
    else 0

/-- The checking loop of `gwj_escape_utf8`; the first argument bounds the number of sequences. -/
def utf8Loop : Nat → Bytes → Bool
  | _, [] => true
  | 0, _ :: _ => false
  | fuel + 1, c :: s =>
    let n := utf8SeqLen (c :: s)
    if n = 0 then false else utf8Loop fuel ((c :: s).drop n)

def gwjEscapeUtf8 (cap : Nat) (src : Bytes) : Option Bytes :=
  if utf8Loop src.length src then gwjEscape cap src else none

/-! ## Scanning -/

def sWs (s : Bytes) : Bytes :=
  s.dropWhile fun c => c == chr ' ' || c == chr '\t' || c == chr '\n' || c == chr '\r'

/-- `s_skip_string` after the opening quote. -/
def skipStringBody : Bytes → Option Bytes
  | [] => none
  | c :: s =>
    if c = chr '"' then some s
    else if c = chr '\\' then
      match s with
      | [] => none
      | e :: s =>
        if e = chr 'u' then
          match s with
          | _ :: _ :: _ :: _ :: s => skipStringBody s
          | _ => none
        else skipStringBody s
    else skipStringBody s

def sSkipString : Bytes → Option Bytes
  | [] => none
  | c :: s => if c = chr '"' then skipStringBody s else none

def hexval (c : UInt8) : Option Nat :=
  if 48 ≤ c.toNat ∧ c.toNat ≤ 57 then some (c.toNat - 48)
  else if 97 ≤ c.toNat ∧ c.toNat ≤ 102 then some (c.toNat - 97 + 10)
  else if 65 ≤ c.toNat ∧ c.toNat ≤ 70 then some (c.toNat - 65 + 10)
  else none

/-- `s_read_u4` on its four bytes. -/
def readU4 (a b c d : UInt8) : Option Nat :=
  match hexval a, hexval b, hexval c, hexval d with
  | some a, some b, some c, some d => some (((a * 16 + b) * 16 + c) * 16 + d)
  | _, _, _, _ => none

/-- The bytes `put_utf8` writes. -/
def utf8Bytes (cp : Nat) : Option Bytes :=
  if cp < 0x80 then some [UInt8.ofNat cp]
  else if cp < 0x800 then
    some [UInt8.ofNat (0xC0 ||| cp >>> 6), UInt8.ofNat (0x80 ||| cp &&& 0x3F)]
  else if cp < 0x10000 then
    some [UInt8.ofNat (0xE0 ||| cp >>> 12), UInt8.ofNat (0x80 ||| cp >>> 6 &&& 0x3F),
      UInt8.ofNat (0x80 ||| cp &&& 0x3F)]
  else if cp ≤ 0x10FFFF then
    some [UInt8.ofNat (0xF0 ||| cp >>> 18), UInt8.ofNat (0x80 ||| cp >>> 12 &&& 0x3F),
      UInt8.ofNat (0x80 ||| cp >>> 6 &&& 0x3F), UInt8.ofNat (0x80 ||| cp &&& 0x3F)]
  else none

/-- What a two-character escape stands for. -/
def shortEscape (e : UInt8) : Option UInt8 :=
  if e = chr '"' ∨ e = chr '\\' ∨ e = chr '/' then some e
  else if e = chr 'b' then some 0x08
  else if e = chr 'f' then some 0x0C
  else if e = chr 'n' then some 0x0A
  else if e = chr 'r' then some 0x0D
  else if e = chr 't' then some 0x09
  else none

/-- The decoded bytes `bs`, when they fit at output position `o`, before what follows. -/
def putBytes (cap o : Nat) (bs : Bytes) (k : Nat → Option (Bytes × Bytes)) :
    Option (Bytes × Bytes) :=
  if o + bs.length > cap then none else (k (o + bs.length)).map fun (t, s) => (bs ++ t, s)

/-- `s_decode_string` after the opening quote, from output position `o`: the decoded bytes and the
position after the closing quote. -/
def decodeBody (cap : Nat) : Nat → Bytes → Option (Bytes × Bytes)
  | _, [] => none
  | o, c :: s =>
    if c = chr '"' then some ([], s)
    else if c = chr '\\' then
      match s with
      | [] => none
      | e :: s =>
        if e = chr 'u' then
          match s with
          | a :: b :: c :: d :: s =>
            match readU4 a b c d with
            | none => none
            | some u1 =>
              if 0xD800 ≤ u1 ∧ u1 ≤ 0xDBFF then
                match s with
                | p :: q :: a :: b :: c :: d :: s =>
                  if p ≠ chr '\\' ∨ q ≠ chr 'u' then none
                  else match readU4 a b c d with
                    | none => none
                    | some u2 =>
                      if u2 < 0xDC00 ∨ u2 > 0xDFFF then none
                      else match utf8Bytes (0x10000 + ((u1 - 0xD800) <<< 10 ||| (u2 - 0xDC00))) with
                        | none => none
                        | some bs => putBytes cap o bs fun o => decodeBody cap o s
                | _ => none
              else if 0xDC00 ≤ u1 ∧ u1 ≤ 0xDFFF then none
              else match utf8Bytes u1 with
                | none => none
                | some bs => putBytes cap o bs fun o => decodeBody cap o s
          | _ => none
        else match shortEscape e with
          | none => none
          | some b => putBytes cap o [b] fun o => decodeBody cap o s
    else putBytes cap o [c] fun o => decodeBody cap o s

def sDecodeString (cap o : Nat) : Bytes → Option (Bytes × Bytes)
  | [] => none
  | c :: s => if c = chr '"' then decodeBody cap o s else none

/-- `strchr(tok, c) != NULL`: also the terminating NUL is found. -/
def isTokenChar (c : UInt8) : Bool := (ascii "0123456789+-.eEtruefalsn").contains c || c == 0

mutual

/-- `s_skip_value`. The first argument bounds the number of calls. -/
def skipValue : Nat → Nat → Bytes → Option Bytes
  | 0, _, _ => none
  | fuel + 1, depth, s =>
    if depth > 64 then none
    else match sWs s with
      | [] => none
      | c :: s =>
        if c = chr '"' then skipStringBody s
        else if c = chr '{' ∨ c = chr '[' then
          let close := if c = chr '{' then chr '}' else chr ']'
          let s := sWs s
          if s.head? = some close then some s.tail
          else skipItems fuel depth (c = chr '{') close s
        else if isTokenChar c then some (s.dropWhile isTokenChar)
        else none

/-- The `for (;;)` loop of `s_skip_value`, one member or element a pass. -/
def skipItems : Nat → Nat → Bool → UInt8 → Bytes → Option Bytes
  | 0, _, _, _, _ => none
  | fuel + 1, depth, isObject, close, s => do
    let s ← if isObject then do
        let s ← sSkipString (sWs s)
        let s := sWs s
        if s.head? = some (chr ':') then some s.tail else none
      else some s
    let s ← skipValue fuel (depth + 1) s
    let s := sWs s
    match s with
    | [] => none
    | c :: s =>
      if c = chr ',' then skipItems fuel depth isObject close s
      else if c = close then some s
      else none

end

/-- Enough calls for any value in `s`. -/
def skipFuel (s : Bytes) : Nat := 2 * s.length + 2

def sSkipValue (s : Bytes) : Option Bytes := skipValue (skipFuel s) 0 s

/-! ## Extraction -/

/-- A decoded string as `strcmp` sees it. -/
def cstr (bs : Bytes) : Bytes := (CStr.ofBytes bs).bytes

/-- A key and the colon after it: the key and the position of the value. -/
def memberKey (cap : Nat) (s : Bytes) : Option (Bytes × Bytes) := do
  let (key, s) ← sDecodeString cap 0 s
  let s := sWs s
  if s.head? = some (chr ':') then some (cstr key, sWs s.tail) else none

/-- The member loop of `gwj_top_string`. -/
def topStringLoop (key : Bytes) (cap : Nat) : Nat → Bytes → Option Bytes
  | 0, _ => none
  | fuel + 1, s =>
    let s := sWs s
    if s.head? = some (chr '}') then none
    else match memberKey 63 s with
      | none => none
      | some (k, s) =>
        if k = key then (sDecodeString (cap - 1) 0 s).map Prod.fst
        else match sSkipValue s with
          | none => none
          | some s =>
            match sWs s with
            | [] => none
            | c :: s => if c = chr ',' then topStringLoop key cap fuel s else none

/-- `gwj_top_string`: the bytes it leaves in `dst`, before the NUL it adds. -/
def gwjTopString (body key : Bytes) (cap : Nat) : Option Bytes :=
  match sWs body with
  | [] => none
  | c :: s => if c = chr '{' then topStringLoop key cap body.length s else none

/-- The member loop of one content block: whether its type is `text`, and where its last `text`
member is. -/
def blockLoop : Nat → Bool → Option Bytes → Bytes → Option (Bool × Option Bytes × Bytes)
  | 0, _, _, _ => none
  | fuel + 1, isText, textAt, s =>
    let s := sWs s
    if s.head? = some (chr '}') then some (isText, textAt, s.tail)
    else do
      let (key, s) ← memberKey 31 s
      let (isText, textAt, s) ←
        if key = ascii "type" then do
          let (tv, s) ← sDecodeString 15 0 s
          some (isText || cstr tv = ascii "text", textAt, s)
        else if key = ascii "text" then do
          let s' ← sSkipString s
          some (isText, some s, s')
        else do
          let s ← sSkipValue s
          some (isText, textAt, s)
      match sWs s with
      | [] => none
      | c :: s =>
        if c = chr ',' then blockLoop fuel isText textAt s
        else if c = chr '}' then some (isText, textAt, s)
        else none

/-- The element loop of the content array; `text` is what has been extracted. -/
def contentLoop (cap : Nat) : Nat → Bytes → Bytes → Option (Bytes × Bytes)
  | 0, _, _ => none
  | fuel + 1, text, s =>
    match sWs s with
    | [] => none
    | c :: s =>
      if c ≠ chr '{' then none
      else do
        let (isText, textAt, s) ← blockLoop (s.length + 1) false none s
        let text ← match isText, textAt with
          | true, some at_ => (sDecodeString cap text.length at_).map fun (t, _) => text ++ t
          | _, _ => some text
        match sWs s with
        | [] => none
        | c :: s =>
          if c = chr ',' then contentLoop cap fuel text s
          else if c = chr ']' then some (text, s)
          else none

/-- The member loop of `gwj_content_text`. -/
def contentTextLoop (cap : Nat) : Nat → Bool → Bytes → Bytes → Option (Bool × Bytes)
  | 0, _, _, _ => none
  | fuel + 1, found, text, s =>
    let s := sWs s
    if s.head? = some (chr '}') then some (found, text)
    else do
      let (key, s) ← memberKey 63 s
      let (found, text, s) ←
        if key = ascii "content" then
          match s with
          | [] => none
          | c :: s =>
            if c ≠ chr '[' then none
            else
              let s := sWs s
              if s.head? = some (chr ']') then some (true, text, s.tail)
              else (contentLoop cap (s.length + 1) text s).map fun (t, s) => (true, t, s)
        else (sSkipValue s).map fun s => (found, text, s)
      match sWs s with
      | [] => none
      | c :: s =>
        if c = chr ',' then contentTextLoop cap fuel found text s
        else if c = chr '}' then some (found, text)
        else none

/-- `gwj_content_text`: the extracted text. -/
def gwjContentText (body : Bytes) (cap : Nat) : Option Bytes :=
  match sWs body with
  | [] => none
  | c :: s =>
    if c ≠ chr '{' then none
    else match contentTextLoop cap (body.length + 1) false [] s with
      | some (true, text) => some text
      | _ => none

/-- The member loop of `gwj_error_message`. -/
def errorMessageLoop (cap : Nat) : Nat → Bytes → Option Bytes
  | 0, _ => none
  | fuel + 1, s =>
    let s := sWs s
    if s.head? = some (chr '}') then none
    else match memberKey 31 s with
      | none => none
      | some (k, s) =>
        if k = ascii "error" then
          if s.head? = some (chr '{') then gwjTopString s (ascii "message") cap else none
        else match sSkipValue s with
          | none => none
          | some s =>
            match sWs s with
            | [] => none
            | c :: s => if c = chr ',' then errorMessageLoop cap fuel s else none

def gwjErrorMessage (body : Bytes) (cap : Nat) : Option Bytes :=
  match sWs body with
  | [] => none
  | c :: s => if c = chr '{' then errorMessageLoop cap body.length s else none

end AxiomaOracle
