import AxiomaOracle.Gateway.Json
import AxiomaOracle.Lib.Access

/-!
# The JSON scanners, access by access

The scanning half of `gw_json.c` once more, over the block of memory `mem` that holds the body, with
every read, every move of `s->p` and every write checked. `size` is the size of the buffer a routine
writes into and `cap` the capacity it is given, `dst` what the buffer holds so far. A `for (;;)` has
a bound on its passes, and running out of it is a stop of its own; so is a frame of `s_skip_value`
below the 66th. `Gateway.Json` has the same functions over what is left of the body.
-/

namespace AxiomaOracle

open Lib Lib.Access

/-! ## Strings -/

/-- `s_ws`. -/
def sWsAt (mem : Bytes) (p : Nat) : Access Nat :=
  if p < mem.length then do
    let c ← byteAt mem p
    if c == chr ' ' || c == chr '\t' || c == chr '\n' || c == chr '\r' then do
      moveTo mem (p + 1)
      sWsAt mem (p + 1)
    else .ok p
  else .ok p
termination_by mem.length - p

/-- `s_eof(s) || *s->p != c`: a return of -1. -/
def sNeedAt (mem : Bytes) (p : Nat) (c : UInt8) : Access Unit :=
  if p < mem.length then do
    let b ← byteAt mem p
    if b = c then .ok () else reject
  else reject

/-- `!s_eof(s) && *s->p == c`. -/
def sSeesAt (mem : Bytes) (p : Nat) (c : UInt8) : Access Bool :=
  if p < mem.length then do
    let b ← byteAt mem p
    .ok (b = c)
  else .ok false

/-- `*s->p` behind `if (s_eof(s)) return -1`. -/
def sByteAt (mem : Bytes) (p : Nat) : Access UInt8 :=
  if p < mem.length then byteAt mem p else reject

/-- `s_skip_string` after the opening quote. The escaped character is read behind the step. -/
def skipStringBodyAt (mem : Bytes) (p : Nat) : Access Nat :=
  if p < mem.length then do
    let c ← byteAt mem p
    moveTo mem (p + 1)
    if c = chr '"' then .ok (p + 1)
    else if c = chr '\\' then
      if p + 1 ≥ mem.length then reject
      else do
        moveTo mem (p + 2)
        let e ← byteAt mem (p + 2 - 1)
        if e = chr 'u' then
          if mem.length - (p + 2) < 4 then reject
          else do
            moveTo mem (p + 6)
            skipStringBodyAt mem (p + 6)
        else skipStringBodyAt mem (p + 2)
    else skipStringBodyAt mem (p + 1)
  else reject
termination_by mem.length - p

def sSkipStringAt (mem : Bytes) (p : Nat) : Access Nat := do
  sNeedAt mem p (chr '"')
  moveTo mem (p + 1)
  skipStringBodyAt mem (p + 1)

/-- `hexval(s->p[i])`. -/
def hexvalAt (mem : Bytes) (p : Nat) : Access Nat := do
  let c ← byteAt mem p
  ofOption (hexval c)

def sReadU4At (mem : Bytes) (p : Nat) : Access Nat :=
  if mem.length - p < 4 then reject
  else do
    let a ← hexvalAt mem p
    let b ← hexvalAt mem (p + 1)
    let c ← hexvalAt mem (p + 2)
    let d ← hexvalAt mem (p + 3)
    moveTo mem (p + 4)
    .ok (((a * 16 + b) * 16 + c) * 16 + d)

/-- `if (o + n > cap) return -1` and the write of `n` bytes. -/
def putAt (size cap : Nat) (dst bs : Bytes) : Access Bytes :=
  if dst.length + bs.length > cap then reject else put size dst bs

def putUtf8At (size cap : Nat) (dst : Bytes) (cp : Nat) : Access Bytes := do
  let bs ← ofOption (utf8Bytes cp)
  putAt size cap dst bs

/-- The code point of a `\u` escape and the number of bytes it takes from position `p`, behind the
`u`, on. -/
def codePointAt (mem : Bytes) (p : Nat) : Access (Nat × Nat) := do
  let u1 ← sReadU4At mem p
  if 0xD800 ≤ u1 ∧ u1 ≤ 0xDBFF then
    if mem.length - (p + 4) < 6 then reject
    else do
      let q1 ← byteAt mem (p + 4)
      if q1 ≠ chr '\\' then reject
      else do
        let q2 ← byteAt mem (p + 4 + 1)
        if q2 ≠ chr 'u' then reject
        else do
          moveTo mem (p + 6)
          let u2 ← sReadU4At mem (p + 6)
          if u2 < 0xDC00 ∨ u2 > 0xDFFF then reject
          else .ok (0x10000 + ((u1 - 0xD800) <<< 10 ||| (u2 - 0xDC00)), 10)
  else if 0xDC00 ≤ u1 ∧ u1 ≤ 0xDFFF then reject
  else .ok (u1, 4)

/-- `s_decode_string` after the opening quote. -/
def decodeBodyAt (size cap : Nat) (mem dst : Bytes) (p : Nat) : Access (Bytes × Nat) :=
  if p < mem.length then do
    let c ← byteAt mem p
    moveTo mem (p + 1)
    if c = chr '"' then .ok (dst, p + 1)
    else if c = chr '\\' then
      if p + 1 ≥ mem.length then reject
      else do
        let e ← byteAt mem (p + 1)
        moveTo mem (p + 2)
        if e = chr 'u' then do
          let (cp, n) ← codePointAt mem (p + 2)
          let dst ← putUtf8At size cap dst cp
          decodeBodyAt size cap mem dst (p + 2 + n)
        else do
          let b ← ofOption (shortEscape e)
          let dst ← putAt size cap dst [b]
          decodeBodyAt size cap mem dst (p + 2)
    else do
      let dst ← putAt size cap dst [c]
      decodeBodyAt size cap mem dst (p + 1)
  else reject
termination_by mem.length - p

/-- `s_decode_string`: the buffer and the position behind the closing quote. -/
def sDecodeStringAt (size cap : Nat) (mem dst : Bytes) (p : Nat) : Access (Bytes × Nat) := do
  sNeedAt mem p (chr '"')
  moveTo mem (p + 1)
  decodeBodyAt size cap mem dst (p + 1)

/-! ## Values -/

/-- The loop over the characters of a number or a literal. -/
def tokenAt (mem : Bytes) (p : Nat) : Access Nat :=
  if p < mem.length then do
    let c ← byteAt mem p
    if isTokenChar c then do
      moveTo mem (p + 1)
      tokenAt mem (p + 1)
    else .ok p
  else .ok p
termination_by mem.length - p

/-- The key of a member with its colon, in front of a value of the loop of `s_skip_value`. -/
def itemKeyAt (isObject : Bool) (mem : Bytes) (p : Nat) : Access Nat :=
  if isObject then do
    let p ← sWsAt mem p
    let p ← sSkipStringAt mem p
    let p ← sWsAt mem p
    sNeedAt mem p (chr ':')
    moveTo mem (p + 1)
    .ok (p + 1)
  else .ok p

mutual

/-- `s_skip_value`; the first argument bounds the number of calls and passes. -/
def skipValueAt : Nat → Nat → Bytes → Nat → Access Nat
  | 0, _, _, _ => .error .fuel
  | fuel + 1, depth, mem, p =>
    if depth > 65 then .error .deep
    else if depth > 64 then reject
    else do
      let p ← sWsAt mem p
      let c ← sByteAt mem p
      if c = chr '"' then sSkipStringAt mem p
      else if c = chr '{' ∨ c = chr '[' then do
        moveTo mem (p + 1)
        let p ← sWsAt mem (p + 1)
        if ← sSeesAt mem p (if c = chr '{' then chr '}' else chr ']') then do
          moveTo mem (p + 1)
          .ok (p + 1)
        else skipItemsAt fuel depth (c = chr '{') (if c = chr '{' then chr '}' else chr ']') mem p
      else if isTokenChar c then tokenAt mem p
      else reject

/-- The `for (;;)` loop of `s_skip_value`. -/
def skipItemsAt : Nat → Nat → Bool → UInt8 → Bytes → Nat → Access Nat
  | 0, _, _, _, _, _ => .error .fuel
  | fuel + 1, depth, isObject, close, mem, p => do
    let p ← itemKeyAt isObject mem p
    let p ← skipValueAt fuel (depth + 1) mem p
    let p ← sWsAt mem p
    let c ← sByteAt mem p
    if c = chr ',' then do
      moveTo mem (p + 1)
      skipItemsAt fuel depth isObject close mem (p + 1)
    else if c = close then do
      moveTo mem (p + 1)
      .ok (p + 1)
    else reject

end

def sSkipValueAt (mem : Bytes) (p : Nat) : Access Nat :=
  skipValueAt (2 * (mem.length - p) + 2) 0 mem p

/-! ## Extraction -/

/-- A key in a buffer of `size` bytes with its NUL, the colon, and the position of the value. -/
def memberKeyAt (size : Nat) (mem : Bytes) (p : Nat) : Access (Bytes × Nat) := do
  let (kbuf, p) ← sDecodeStringAt size (size - 1) mem [] p
  let _ ← put size kbuf [0]
  let p ← sWsAt mem p
  sNeedAt mem p (chr ':')
  moveTo mem (p + 1)
  let p ← sWsAt mem (p + 1)
  .ok (cstr kbuf, p)

/-- The member loop of `gwj_top_string`. -/
def topStringLoopAt (key : Bytes) (cap : Nat) : Nat → Bytes → Nat → Access Bytes
  | 0, _, _ => .error .fuel
  | fuel + 1, mem, p => do
    let p ← sWsAt mem p
    if ← sSeesAt mem p (chr '}') then reject
    else do
      let (k, p) ← memberKeyAt 64 mem p
      if k = key then do
        sNeedAt mem p (chr '"')
        let (dst, _) ← sDecodeStringAt cap (cap - 1) mem [] p
        let _ ← put cap dst [0]
        .ok dst
      else do
        let p ← sSkipValueAt mem p
        let p ← sWsAt mem p
        let c ← sByteAt mem p
        if c = chr ',' then do
          moveTo mem (p + 1)
          topStringLoopAt key cap fuel mem (p + 1)
        else reject

/-- `gwj_top_string` on the body that starts at position `p`. -/
def gwjTopStringAt (mem : Bytes) (p : Nat) (key : Bytes) (cap : Nat) : Access Bytes := do
  let start ← sWsAt mem p
  sNeedAt mem start (chr '{')
  moveTo mem (start + 1)
  topStringLoopAt key cap (mem.length - p) mem (start + 1)

/-- One member of a content block, from its key on; `text_at` is a position. -/
def blockMemberAt (isText : Bool) (textAt : Option Nat) (ek mem : Bytes) (p : Nat) :
    Access (Bool × Option Nat × Nat) :=
  if ek = ascii "type" then do
    sNeedAt mem p (chr '"')
    let (tv, p) ← sDecodeStringAt 16 15 mem [] p
    let _ ← put 16 tv [0]
    .ok (isText || cstr tv = ascii "text", textAt, p)
  else if ek = ascii "text" then do
    sNeedAt mem p (chr '"')
    let p' ← sSkipStringAt mem p
    .ok (isText, some p, p')
  else do
    let p ← sSkipValueAt mem p
    .ok (isText, textAt, p)

/-- The member loop of one content block. -/
def blockLoopAt : Nat → Bool → Option Nat → Bytes → Nat → Access (Bool × Option Nat × Nat)
  | 0, _, _, _, _ => .error .fuel
  | fuel + 1, isText, textAt, mem, p => do
    let p ← sWsAt mem p
    if ← sSeesAt mem p (chr '}') then do
      moveTo mem (p + 1)
      .ok (isText, textAt, p + 1)
    else do
      let (ek, p) ← memberKeyAt 32 mem p
      let (isText, textAt, p) ← blockMemberAt isText textAt ek mem p
      let p ← sWsAt mem p
      let c ← sByteAt mem p
      if c = chr ',' then do
        moveTo mem (p + 1)
        blockLoopAt fuel isText textAt mem (p + 1)
      else if c = chr '}' then do
        moveTo mem (p + 1)
        .ok (isText, textAt, p + 1)
      else reject

/-- The deferred decode of a block's text into the caller's buffer. -/
def blockTextAt (cap : Nat) (isText : Bool) (textAt : Option Nat) (mem dst : Bytes) :
    Access Bytes :=
  match isText, textAt with
  | true, some at_ => do
    let (dst, _) ← sDecodeStringAt cap cap mem dst at_
    .ok dst
  | _, _ => .ok dst

/-- The element loop of the content array. -/
def contentLoopAt (cap : Nat) : Nat → Bytes → Bytes → Nat → Access (Bytes × Nat)
  | 0, _, _, _ => .error .fuel
  | fuel + 1, mem, dst, p => do
    let p ← sWsAt mem p
    sNeedAt mem p (chr '{')
    moveTo mem (p + 1)
    let (isText, textAt, p) ← blockLoopAt (mem.length - (p + 1) + 1) false none mem (p + 1)
    let dst ← blockTextAt cap isText textAt mem dst
    let p ← sWsAt mem p
    let c ← sByteAt mem p
    if c = chr ',' then do
      moveTo mem (p + 1)
      contentLoopAt cap fuel mem dst (p + 1)
    else if c = chr ']' then do
      moveTo mem (p + 1)
      .ok (dst, p + 1)
    else reject

/-- One member of the body, from its key on. -/
def topMemberAt (cap : Nat) (found : Bool) (dst key mem : Bytes) (p : Nat) :
    Access (Bool × Bytes × Nat) :=
  if key = ascii "content" then do
    sNeedAt mem p (chr '[')
    moveTo mem (p + 1)
    let p ← sWsAt mem (p + 1)
    if ← sSeesAt mem p (chr ']') then do
      moveTo mem (p + 1)
      .ok (true, dst, p + 1)
    else do
      let (dst, p) ← contentLoopAt cap (mem.length - p + 1) mem dst p
      .ok (true, dst, p)
  else do
    let p ← sSkipValueAt mem p
    .ok (found, dst, p)

/-- The member loop of `gwj_content_text`. -/
def contentTextLoopAt (cap : Nat) : Nat → Bool → Bytes → Bytes → Nat → Access (Bool × Bytes)
  | 0, _, _, _, _ => .error .fuel
  | fuel + 1, found, mem, dst, p => do
    let p ← sWsAt mem p
    if ← sSeesAt mem p (chr '}') then .ok (found, dst)
    else do
      let (key, p) ← memberKeyAt 64 mem p
      let (found, dst, p) ← topMemberAt cap found dst key mem p
      let p ← sWsAt mem p
      let c ← sByteAt mem p
      if c = chr ',' then do
        moveTo mem (p + 1)
        contentTextLoopAt cap fuel found mem dst (p + 1)
      else if c = chr '}' then .ok (found, dst)
      else reject

def gwjContentTextAt (mem : Bytes) (cap : Nat) : Access Bytes := do
  let p ← sWsAt mem 0
  sNeedAt mem p (chr '{')
  moveTo mem (p + 1)
  let (found, dst) ← contentTextLoopAt cap (mem.length + 1) false mem [] (p + 1)
  if found then .ok dst else reject

/-- The member loop of `gwj_error_message`. -/
def errorMessageLoopAt (cap : Nat) : Nat → Bytes → Nat → Access Bytes
  | 0, _, _ => .error .fuel
  | fuel + 1, mem, p => do
    let p ← sWsAt mem p
    if ← sSeesAt mem p (chr '}') then reject
    else do
      let (k, p) ← memberKeyAt 32 mem p
      if k = ascii "error" then do
        sNeedAt mem p (chr '{')
        gwjTopStringAt mem p (ascii "message") cap
      else do
        let p ← sSkipValueAt mem p
        let p ← sWsAt mem p
        let c ← sByteAt mem p
        if c = chr ',' then do
          moveTo mem (p + 1)
          errorMessageLoopAt cap fuel mem (p + 1)
        else reject

def gwjErrorMessageAt (mem : Bytes) (cap : Nat) : Access Bytes := do
  let p ← sWsAt mem 0
  sNeedAt mem p (chr '{')
  moveTo mem (p + 1)
  errorMessageLoopAt cap mem.length mem (p + 1)

end AxiomaOracle
