import AxiomaOracle.Lib.Utf8

/-!
# JSON texts (RFC 8259)

`decode` is the RFC's grammar, read left to right over the bytes of a text: whitespace between
tokens, the four escape forms, numbers with fraction and exponent, no trailing commas, one value
and nothing after it, and UTF-8 throughout (section 8.1). A string decodes to its bytes; a number
to mantissa and power of ten, so that no numeral is rounded.

`render` is the compact writing of a value with minimal escaping: `"` and `\` behind a backslash,
the other controls as `\u00xx`, everything else as it is. `decode_render` is the round trip, so the
compact text of a value determines it (`render_injective`).
-/

namespace Lib

inductive Json where
  | null
  | bool (b : Bool)
  | num (mantissa exponent : Int)
  | str (s : Bytes)
  | arr (vs : List Json)
  | obj (ms : List (Bytes × Json))

namespace Json

/-- The integer `n`. -/
abbrev int (n : Int) : Json := .num n 0

/-! ## Reading -/

def isWs (b : UInt8) : Bool := b == 0x20 || b == 0x09 || b == 0x0A || b == 0x0D

def skipWs (bs : Bytes) : Bytes := bs.dropWhile isWs

def hexVal (b : UInt8) : Option Nat :=
  let n := b.toNat
  if 48 ≤ n ∧ n ≤ 57 then some (n - 48)
  else if 97 ≤ n ∧ n ≤ 102 then some (n - 87)
  else if 65 ≤ n ∧ n ≤ 70 then some (n - 55)
  else none

def hex4 (a b c d : UInt8) : Option Nat := do
  some ((← hexVal a) * 4096 + (← hexVal b) * 256 + (← hexVal c) * 16 + (← hexVal d))

/-- The character a two-character escape stands for. -/
def simpleEscape (e : UInt8) : Option UInt8 :=
  match e.toNat with
  | 34 => some 34
  | 92 => some 92
  | 47 => some 47
  | 98 => some 8
  | 102 => some 12
  | 110 => some 10
  | 114 => some 13
  | 116 => some 9
  | _ => none

/-- The characters of a string after its opening quote, up to the closing one: bytes as written,
and the code unit of each `\u` escape. -/
def units : Bytes → Option (List (UInt8 ⊕ Nat) × Bytes)
  | [] => none
  | b :: r =>
    if b = 34 then some ([], r)
    else if b = 92 then
      match r with
      | [] => none
      | e :: r =>
        if e = 117 then
          match r with
          | h1 :: h2 :: h3 :: h4 :: r => do
            let u ← hex4 h1 h2 h3 h4
            let (us, r) ← units r
            some (.inr u :: us, r)
          | _ => none
        else do
          let c ← simpleEscape e
          let (us, r) ← units r
          some (.inl c :: us, r)
    else if b.toNat < 0x20 then none
    else do
      let (us, r) ← units r
      some (.inl b :: us, r)

/-- Code units to bytes, with the high surrogate still waiting for its low one: a surrogate pair is
one character, an unpaired surrogate keeps its three-byte form. -/
def assemble : Option Nat → List (UInt8 ⊕ Nat) → Bytes
  | none, [] => []
  | some h, [] => Utf8.encode h
  | none, .inl b :: us => b :: assemble none us
  | some h, .inl b :: us => Utf8.encode h ++ b :: assemble none us
  | none, .inr u :: us =>
    if 0xD800 ≤ u ∧ u < 0xDC00 then assemble (some u) us
    else Utf8.encode u ++ assemble none us
  | some h, .inr u :: us =>
    if 0xDC00 ≤ u ∧ u < 0xE000 then
      Utf8.encode (0x10000 + (h - 0xD800) * 0x400 + (u - 0xDC00)) ++ assemble none us
    else if 0xD800 ≤ u ∧ u < 0xDC00 then Utf8.encode h ++ assemble (some u) us
    else Utf8.encode h ++ Utf8.encode u ++ assemble none us

def string (bs : Bytes) : Option (Bytes × Bytes) :=
  (units bs).map fun (us, r) => (assemble none us, r)

def fraction : Bytes → Option (Bytes × Bytes)
  | [] => some ([], [])
  | b :: r =>
    if b = 46 then
      let ds := r.takeWhile isDigit
      if ds = [] then none else some (ds, r.dropWhile isDigit)
    else some ([], b :: r)

def exponent : Bytes → Option (Int × Bytes)
  | [] => some (0, [])
  | b :: r =>
    if b = 101 ∨ b = 69 then
      let neg := r.head? = some 45
      let r := if r.head? = some 45 ∨ r.head? = some 43 then r.tail else r
      let ds := r.takeWhile isDigit
      if ds = [] then none
      else some (if neg then -(decValue ds : Int) else decValue ds, r.dropWhile isDigit)
    else some (0, b :: r)

def number (bs : Bytes) : Option (Json × Bytes) :=
  let neg := bs.head? = some 45
  let bs := if neg then bs.tail else bs
  let ds := bs.takeWhile isDigit
  if ds = [] ∨ (ds.head? = some 48 ∧ ds ≠ [48]) then none
  else do
    let (fs, r) ← fraction (bs.dropWhile isDigit)
    let (e, r) ← exponent r
    let m : Int := decValue (ds ++ fs)
    some (.num (if neg then -m else m) (e - fs.length), r)

/-- `null`, `true` and `false`. -/
def literal (bs : Bytes) : Option (Json × Bytes) :=
  if ascii "null" <+: bs then some (.null, bs.drop 4)
  else if ascii "true" <+: bs then some (.bool true, bs.drop 4)
  else if ascii "false" <+: bs then some (.bool false, bs.drop 5)
  else none

mutual

/-- One value, with whitespace before it. The first argument bounds the nesting and the number of
members; the length of the text is always enough. -/
def value : Nat → Bytes → Option (Json × Bytes)
  | 0, _ => none
  | n + 1, bs =>
    match skipWs bs with
    | [] => none
    | b :: r =>
      if b = 34 then (string r).map fun (s, r) => (.str s, r)
      else if b = 91 then
        match skipWs r with
        | [] => none
        | c :: r' =>
          if c = 93 then some (.arr [], r')
          else (elements n (c :: r')).map fun (vs, r) => (.arr vs, r)
      else if b = 123 then
        match skipWs r with
        | [] => none
        | c :: r' =>
          if c = 125 then some (.obj [], r')
          else (members n (c :: r')).map fun (ms, r) => (.obj ms, r)
      else if b = 110 ∨ b = 116 ∨ b = 102 then literal (b :: r)
      else number (b :: r)

/-- The values of an array up to its closing bracket, at least one. -/
def elements : Nat → Bytes → Option (List Json × Bytes)
  | 0, _ => none
  | n + 1, bs => do
    let (v, r) ← value n bs
    match skipWs r with
    | [] => none
    | b :: r =>
      if b = 93 then some ([v], r)
      else if b = 44 then do
        let (vs, r) ← elements n r
        some (v :: vs, r)
      else none

/-- The members of an object up to its closing brace, at least one. -/
def members : Nat → Bytes → Option (List (Bytes × Json) × Bytes)
  | 0, _ => none
  | n + 1, bs =>
    match skipWs bs with
    | [] => none
    | q :: r =>
      if q = 34 then do
        let (k, r) ← string r
        match skipWs r with
        | [] => none
        | b :: r =>
          if b = 58 then do
            let (v, r) ← value n r
            match skipWs r with
            | [] => none
            | b :: r =>
              if b = 125 then some ([(k, v)], r)
              else if b = 44 then do
                let (ms, r) ← members n r
                some ((k, v) :: ms, r)
              else none
          else none
      else none

end

/-- The value of a JSON text. -/
def decode (bs : Bytes) : Option Json :=
  if Utf8.check bs then
    match value (bs.length + 1) bs with
    | some (v, r) => if skipWs r = [] then some v else none
    | none => none
  else none

/-! ## Writing -/

/-- Minimal escaping of one byte. -/
def escapeByte (b : UInt8) : Bytes :=
  if b = 34 then [92, 34]
  else if b = 92 then [92, 92]
  else if b.toNat < 0x20 then [92, 117, 48, 48, hexDigit (b.toNat / 16), hexDigit (b.toNat % 16)]
  else [b]

def escape (s : Bytes) : Bytes := s.flatMap escapeByte

/-- A quoted, escaped string. -/
def quote (s : Bytes) : Bytes := 34 :: escape s ++ [34]

/-- An integer numeral. -/
def numeral : Int → Bytes
  | .ofNat n => decimal n
  | .negSucc n => 45 :: decimal (n + 1)

mutual

/-- The compact text of a value. Numbers are written as integers times a power of ten. -/
def render : Json → Bytes
  | .null => ascii "null"
  | .bool true => ascii "true"
  | .bool false => ascii "false"
  | .num m e => if e = 0 then numeral m else numeral m ++ 101 :: numeral e
  | .str s => quote s
  | .arr [] => [91, 93]
  | .arr (v :: vs) => 91 :: render v ++ renderElements vs
  | .obj [] => [123, 125]
  | .obj ((k, v) :: ms) => 123 :: quote k ++ 58 :: render v ++ renderMembers ms

/-- The values of an array after its first one, with the closing bracket. -/
def renderElements : List Json → Bytes
  | [] => [93]
  | v :: vs => 44 :: render v ++ renderElements vs

/-- The members of an object after its first one, with the closing brace. -/
def renderMembers : List (Bytes × Json) → Bytes
  | [] => [125]
  | (k, v) :: ms => 44 :: quote k ++ 58 :: render v ++ renderMembers ms

end

mutual

/-- Every number is an integer and every string is text. -/
def Plain : Json → Prop
  | .num _ e => e = 0
  | .str s => Utf8.Valid s
  | .arr vs => PlainElements vs
  | .obj ms => PlainMembers ms
  | _ => True

def PlainElements : List Json → Prop
  | [] => True
  | v :: vs => Plain v ∧ PlainElements vs

def PlainMembers : List (Bytes × Json) → Prop
  | [] => True
  | (k, v) :: ms => Utf8.Valid k ∧ Plain v ∧ PlainMembers ms

end

/-! ## Tokens read back -/

theorem hexVal_hexDigit {d : Nat} (h : d < 16) : hexVal (hexDigit d) = some d := by
  unfold hexVal
  simp only [hexDigit_toNat h]
  by_cases hd : d < 10
  · rw [if_pos hd, if_pos (by omega), Nat.add_sub_cancel_left]
  · rw [if_neg hd, if_neg (by omega), if_pos (by omega), Nat.add_sub_cancel_left]

theorem skipWs_cons {b : UInt8} {r : Bytes} (h : isWs b = false) : skipWs (b :: r) = b :: r := by
  simp [skipWs, h]

/-- The units `escape` writes for a byte. -/
def unitOf (b : UInt8) : UInt8 ⊕ Nat := if b.toNat < 0x20 then .inr b.toNat else .inl b

theorem units_escapeByte {b : UInt8} {bs r : Bytes} {us : List (UInt8 ⊕ Nat)}
    (h : units bs = some (us, r)) : units (escapeByte b ++ bs) = some (unitOf b :: us, r) := by
  have hb := byte_lt b
  unfold escapeByte unitOf
  by_cases h34 : b = 34
  · subst h34
    rw [if_pos rfl, if_neg (by decide), List.cons_append, List.cons_append, List.nil_append,
      units.eq_def]
    simp only [show (92 : UInt8) ≠ 34 by decide, show (34 : UInt8) ≠ 117 by decide, if_false,
      if_true, h]
    rfl
  by_cases h92 : b = 92
  · subst h92
    rw [if_neg (by decide), if_pos rfl, if_neg (by decide), List.cons_append, List.cons_append,
      List.nil_append, units.eq_def]
    simp only [show (92 : UInt8) ≠ 34 by decide, show (92 : UInt8) ≠ 117 by decide, if_false,
      if_true, h]
    rfl
  rw [if_neg h34, if_neg h92]
  by_cases hlow : b.toNat < 0x20
  · rw [if_pos hlow, if_pos hlow]
    have h0 : hexVal 48 = some 0 := by decide
    have hx : hex4 48 48 (hexDigit (b.toNat / 16)) (hexDigit (b.toNat % 16)) = some b.toNat := by
      rw [hex4, h0, hexVal_hexDigit (by omega), hexVal_hexDigit (by omega)]
      simp only [Option.bind_eq_bind, Option.bind_some, Option.some.injEq]
      omega
    simp only [List.cons_append, List.nil_append]
    rw [units.eq_def]
    simp only [show (92 : UInt8) ≠ 34 by decide, if_false, if_true, hx, h]
    rfl
  · rw [if_neg hlow, if_neg hlow, List.singleton_append, units.eq_def]
    simp only [h34, h92, hlow, if_false, h]
    rfl

theorem units_escape (s r : Bytes) : units (escape s ++ 34 :: r) = some (s.map unitOf, r) := by
  induction s with
  | nil => simp [escape, units.eq_def]
  | cons b s ih =>
    have : escape (b :: s) ++ 34 :: r = escapeByte b ++ (escape s ++ 34 :: r) := by
      simp [escape]
    rw [this, units_escapeByte ih, List.map_cons]

theorem assemble_unitOf (s : Bytes) : assemble none (s.map unitOf) = s := by
  induction s with
  | nil => rfl
  | cons b s ih =>
    rw [List.map_cons, unitOf]
    split
    · rw [assemble, if_neg (by omega), Utf8.encode_ascii (by omega), UInt8.ofNat_toNat, ih]
      rfl
    · rw [assemble, ih]

/-- An escaped string reads back as itself, whatever its bytes. -/
theorem string_escape (s r : Bytes) : string (escape s ++ 34 :: r) = some (s, r) := by
  simp only [string, units_escape, Option.map_some, assemble_unitOf]

/-- What may follow a value in a compact text. -/
def Delimited (r : Bytes) : Prop := ∀ b ∈ r.head?, b = 44 ∨ b = 93 ∨ b = 125

theorem Delimited.span {r : Bytes} (hr : Delimited r) {ds : Bytes}
    (hds : ∀ b ∈ ds, isDigit b = true) :
    (ds ++ r).takeWhile isDigit = ds ∧ (ds ++ r).dropWhile isDigit = r := by
  have hnil : r.takeWhile isDigit = [] ∧ r.dropWhile isDigit = r := by
    cases r with
    | nil => exact ⟨rfl, rfl⟩
    | cons b r =>
      have hb : isDigit b = false := by
        rcases hr b (by simp) with rfl | rfl | rfl <;> decide
      simp [hb]
  constructor
  · rw [List.takeWhile_append_of_pos hds, hnil.1, List.append_nil]
  · rw [List.dropWhile_append_of_pos hds, hnil.2]

theorem Delimited.fraction {r : Bytes} (hr : Delimited r) : fraction r = some ([], r) := by
  cases r with
  | nil => rfl
  | cons b r =>
    have : b ≠ 46 := by rcases hr b (by simp) with rfl | rfl | rfl <;> decide
    rw [Json.fraction, if_neg this]

theorem Delimited.exponent {r : Bytes} (hr : Delimited r) : exponent r = some (0, r) := by
  cases r with
  | nil => rfl
  | cons b r =>
    have : ¬ (b = 101 ∨ b = 69) := by rcases hr b (by simp) with rfl | rfl | rfl <;> decide
    rw [Json.exponent, if_neg this]

theorem decimal_head_ne_sign (n : Nat) (r : Bytes) : (decimal n ++ r).head? ≠ some 45 := by
  cases hd : decimal n with
  | nil => exact absurd hd (decimal_ne_nil n)
  | cons b bs =>
    have hb := decimal_isDigit n b (by simp [hd])
    intro e
    simp only [List.cons_append, List.head?_cons, Option.some.injEq] at e
    subst e
    exact absurd hb (by decide)

theorem decimal_no_leading_zero (n : Nat) :
    ¬ (decimal n = [] ∨ ((decimal n).head? = some 48 ∧ decimal n ≠ [48])) := by
  rintro (h | ⟨h1, h2⟩)
  · exact decimal_ne_nil n h
  · rcases decimal_head n with h | h
    · exact h2 h
    · exact h 48 h1 rfl

theorem number_numeral {r : Bytes} (hr : Delimited r) (m : Int) :
    number (numeral m ++ r) = some (.num m 0, r) := by
  cases m with
  | ofNat n =>
    obtain ⟨h1, h2⟩ := hr.span (decimal_isDigit n)
    have hs := decimal_head_ne_sign n r
    simp only [numeral, number, hs, if_false, h1, h2, hr.fraction]
    rw [if_neg (decimal_no_leading_zero n)]
    simp [hr.exponent, decValue_decimal]
  | negSucc n =>
    obtain ⟨h1, h2⟩ := hr.span (decimal_isDigit (n + 1))
    simp only [numeral, number, List.cons_append, List.head?_cons, if_true, List.tail_cons, h1, h2,
      hr.fraction]
    rw [if_neg (decimal_no_leading_zero (n + 1))]
    simp [hr.exponent, decValue_decimal]
    omega

/-! ## Values read back -/

mutual

/-- A bound on the recursion that reads the compact text of a value. -/
def depth : Json → Nat
  | .arr vs => 1 + depthElements vs
  | .obj ms => 1 + depthMembers ms
  | _ => 1

def depthElements : List Json → Nat
  | [] => 0
  | v :: vs => 1 + depth v + depthElements vs

def depthMembers : List (Bytes × Json) → Nat
  | [] => 0
  | (_, v) :: ms => 1 + depth v + depthMembers ms

end

theorem numeral_head (m : Int) : ∃ b t, numeral m = b :: t ∧ (isDigit b = true ∨ b = 45) := by
  cases m with
  | ofNat n =>
    cases hd : decimal n with
    | nil => exact absurd hd (decimal_ne_nil n)
    | cons b t => exact ⟨b, t, hd, Or.inl (decimal_isDigit n b (by simp [hd]))⟩
  | negSucc n => exact ⟨45, decimal (n + 1), rfl, Or.inr rfl⟩

/-- The first byte of a value is neither whitespace nor a closing bracket. -/
def Opens (b : UInt8) : Prop := isWs b = false ∧ b ≠ 93 ∧ b ≠ 125

theorem opens_of_isDigit {b : UInt8} (h : isDigit b = true ∨ b = 45) :
    Opens b ∧ b ≠ 34 ∧ b ≠ 91 ∧ b ≠ 123 ∧ ¬ (b = 110 ∨ b = 116 ∨ b = 102) := by
  rcases h with h | rfl
  · have hb : ∀ n : Nat, (n < 48 ∨ 57 < n) → n < 256 → b ≠ UInt8.ofNat n := by
      rintro n hn hlt rfl
      simp only [isDigit, ofNat_toNat_of_lt hlt, Bool.and_eq_true, decide_eq_true_eq] at h
      omega
    have hws : isWs b = false := by
      simp only [isWs, Bool.or_eq_false_iff, beq_eq_false_iff_ne]
      exact ⟨⟨⟨hb 32 (by decide) (by decide), hb 9 (by decide) (by decide)⟩,
        hb 10 (by decide) (by decide)⟩, hb 13 (by decide) (by decide)⟩
    refine ⟨⟨hws, hb 93 (by decide) (by decide), hb 125 (by decide) (by decide)⟩,
      hb 34 (by decide) (by decide), hb 91 (by decide) (by decide), hb 123 (by decide) (by decide),
      ?_⟩
    rintro (h | h | h)
    · exact hb 110 (by decide) (by decide) h
    · exact hb 116 (by decide) (by decide) h
    · exact hb 102 (by decide) (by decide) h
  · exact ⟨⟨by decide, by decide, by decide⟩, by decide, by decide, by decide, by decide⟩

theorem render_head {v : Json} : ∃ b t, render v = b :: t ∧ Opens b := by
  match v with
  | .null => exact ⟨_, _, rfl, by decide, by decide, by decide⟩
  | .bool true => exact ⟨_, _, rfl, by decide, by decide, by decide⟩
  | .bool false => exact ⟨_, _, rfl, by decide, by decide, by decide⟩
  | .num m e =>
    obtain ⟨b, t, hm, hb⟩ := numeral_head m
    rw [render, hm]
    split
    · exact ⟨b, t, rfl, (opens_of_isDigit hb).1⟩
    · exact ⟨b, _, rfl, (opens_of_isDigit hb).1⟩
  | .str s => exact ⟨34, _, by rw [render]; rfl, by decide, by decide, by decide⟩
  | .arr [] => exact ⟨91, _, by rw [render], by decide, by decide, by decide⟩
  | .arr (v :: vs) => exact ⟨91, _, by rw [render]; rfl, by decide, by decide, by decide⟩
  | .obj [] => exact ⟨123, _, by rw [render], by decide, by decide, by decide⟩
  | .obj ((k, v) :: ms) => exact ⟨123, _, by rw [render]; rfl, by decide, by decide, by decide⟩

theorem delimited_renderElements (vs : List Json) (r : Bytes) :
    Delimited (renderElements vs ++ r) := by
  cases vs <;> simp [renderElements, Delimited]

theorem delimited_renderMembers (ms : List (Bytes × Json)) (r : Bytes) :
    Delimited (renderMembers ms ++ r) := by
  rcases ms with _ | ⟨⟨k, v⟩, ms⟩ <;> simp [renderMembers, Delimited]

theorem value_number {n : Nat} {m : Int} {r : Bytes} (hr : Delimited r) :
    value (n + 1) (numeral m ++ r) = some (.num m 0, r) := by
  have hnum := number_numeral hr m
  obtain ⟨b, t, hm, hb⟩ := numeral_head m
  obtain ⟨⟨hws, -, -⟩, h34, h91, h123, hlit⟩ := opens_of_isDigit hb
  rw [hm, List.cons_append] at hnum ⊢
  rw [value, skipWs_cons hws]
  simp only [h34, h91, h123, hlit, if_false, hnum]

mutual

theorem value_render : ∀ (v : Json) (n : Nat) (r : Bytes), Plain v → depth v ≤ n → Delimited r →
    value n (render v ++ r) = some (v, r)
  | v, 0, _, _, hn, _ => by
    exfalso
    cases v <;> simp only [depth] at hn <;> omega
  | .null, n + 1, r, _, _, _ => by
    rw [render, value]
    have : skipWs (ascii "null" ++ r) = 110 :: ([117, 108, 108] ++ r) := rfl
    rw [this]
    simp only [show (110 : UInt8) ≠ 34 by decide, show (110 : UInt8) ≠ 91 by decide,
      show (110 : UInt8) ≠ 123 by decide, if_false, true_or, if_true]
    rw [literal, if_pos ⟨r, rfl⟩]
    rfl
  | .bool true, n + 1, r, _, _, _ => by
    rw [render, value]
    have : skipWs (ascii "true" ++ r) = 116 :: ([114, 117, 101] ++ r) := rfl
    rw [this]
    simp only [show (116 : UInt8) ≠ 34 by decide, show (116 : UInt8) ≠ 91 by decide,
      show (116 : UInt8) ≠ 123 by decide, if_false, true_or, or_true, if_true]
    rw [literal, if_neg (fun ⟨t, ht⟩ => by simp [ascii] at ht), if_pos ⟨r, rfl⟩]
    rfl
  | .bool false, n + 1, r, _, _, _ => by
    rw [render, value]
    have : skipWs (ascii "false" ++ r) = 102 :: ([97, 108, 115, 101] ++ r) := rfl
    rw [this]
    simp only [show (102 : UInt8) ≠ 34 by decide, show (102 : UInt8) ≠ 91 by decide,
      show (102 : UInt8) ≠ 123 by decide, if_false, or_true, if_true]
    rw [literal, if_neg (fun ⟨t, ht⟩ => by simp [ascii] at ht),
      if_neg (fun ⟨t, ht⟩ => by simp [ascii] at ht), if_pos ⟨r, rfl⟩]
    rfl
  | .num m e, n + 1, r, hp, _, hr => by
    simp only [Plain] at hp
    subst hp
    rw [render, if_pos rfl]
    exact value_number hr
  | .str s, n + 1, r, _, _, _ => by
    rw [render, quote, value]
    have : skipWs (34 :: escape s ++ [34] ++ r) = 34 :: (escape s ++ 34 :: r) := by
      simp [skipWs_cons (show isWs 34 = false by decide)]
    rw [this]
    simp only [if_true, string_escape, Option.map_some]
  | .arr [], n + 1, r, _, _, _ => by
    rw [render, value]
    rfl
  | .arr (v :: vs), n + 1, r, hp, hn, _ => by
    simp only [Plain, PlainElements] at hp
    simp only [depth, depthElements] at hn
    obtain ⟨b, t, hb, hws, h93, -⟩ := render_head (v := v)
    have ih := elements_render v vs n r hp.1 hp.2 (by omega)
    rw [render, value]
    have h1 : skipWs (91 :: render v ++ renderElements vs ++ r) =
        91 :: (render v ++ renderElements vs ++ r) := skipWs_cons (by decide)
    have h2 : skipWs (render v ++ renderElements vs ++ r) =
        b :: (t ++ renderElements vs ++ r) := by rw [hb]; exact skipWs_cons hws
    have h3 : b :: (t ++ renderElements vs ++ r) = render v ++ renderElements vs ++ r := by
      rw [hb]; rfl
    rw [← h3] at ih
    rw [h1]
    simp only [show (91 : UInt8) ≠ 34 by decide, if_false, if_true, h2, h93, ih, Option.map_some]
  | .obj [], n + 1, r, _, _, _ => by
    rw [render, value]
    rfl
  | .obj ((k, v) :: ms), n + 1, r, hp, hn, _ => by
    simp only [Plain, PlainMembers] at hp
    simp only [depth, depthMembers] at hn
    have ih := members_render k v ms n r hp.2.1 hp.2.2 (by omega)
    rw [render, value]
    have h1 : skipWs (123 :: quote k ++ 58 :: render v ++ renderMembers ms ++ r) =
        123 :: (quote k ++ 58 :: render v ++ renderMembers ms ++ r) := by
      simp [skipWs_cons (show isWs 123 = false by decide)]
    have h2 : skipWs (quote k ++ 58 :: render v ++ renderMembers ms ++ r) =
        34 :: (escape k ++ [34] ++ 58 :: render v ++ renderMembers ms ++ r) := by
      simp [quote, skipWs_cons (show isWs 34 = false by decide)]
    have h3 : 34 :: (escape k ++ [34] ++ 58 :: render v ++ renderMembers ms ++ r) =
        quote k ++ 58 :: render v ++ renderMembers ms ++ r := by simp [quote]
    rw [← h3] at ih
    rw [h1]
    simp only [show (123 : UInt8) ≠ 34 by decide, show (123 : UInt8) ≠ 91 by decide,
      show (34 : UInt8) ≠ 125 by decide, if_false, if_true, h2, ih, Option.map_some]

theorem elements_render : ∀ (v : Json) (vs : List Json) (n : Nat) (r : Bytes), Plain v →
    PlainElements vs → 1 + depth v + depthElements vs ≤ n →
    elements n (render v ++ renderElements vs ++ r) = some (v :: vs, r)
  | v, vs, 0, _, _, _, hn => by omega
  | v, [], n + 1, r, hv, _, hn => by
    simp only [depthElements] at hn
    have ih := value_render v n (93 :: r) hv (by omega) (by simp [Delimited])
    rw [elements, renderElements, List.append_assoc, List.singleton_append, ih]
    simp [skipWs_cons (show isWs 93 = false by decide)]
  | v, w :: vs, n + 1, r, hv, hvs, hn => by
    simp only [depthElements] at hn
    simp only [PlainElements] at hvs
    have ih1 := value_render v n (renderElements (w :: vs) ++ r) hv (by omega)
      (delimited_renderElements _ r)
    have ih2 := elements_render w vs n r hvs.1 hvs.2 (by omega)
    rw [elements, List.append_assoc, ih1]
    simp [renderElements, skipWs_cons (show isWs 44 = false by decide)] at ih2 ⊢
    simp [ih2]

theorem members_render : ∀ (k : Bytes) (v : Json) (ms : List (Bytes × Json)) (n : Nat) (r : Bytes),
    Plain v → PlainMembers ms → 1 + depth v + depthMembers ms ≤ n →
    members n (quote k ++ 58 :: render v ++ renderMembers ms ++ r) = some ((k, v) :: ms, r)
  | k, v, ms, 0, _, _, _, hn => by omega
  | k, v, [], n + 1, r, hv, _, hn => by
    simp only [depthMembers] at hn
    have ih := value_render v n (125 :: r) hv (by omega) (by simp [Delimited])
    have hq : skipWs (quote k ++ 58 :: render v ++ renderMembers [] ++ r) =
        34 :: (escape k ++ 34 :: 58 :: (render v ++ 125 :: r)) := by
      simp [quote, renderMembers, skipWs_cons (show isWs 34 = false by decide)]
    rw [members, hq]
    simp [string_escape, skipWs_cons (show isWs 58 = false by decide), ih,
      skipWs_cons (show isWs 125 = false by decide)]
  | k, v, (k', w) :: ms, n + 1, r, hv, hms, hn => by
    simp only [depthMembers] at hn
    simp only [PlainMembers] at hms
    have ih1 := value_render v n (renderMembers ((k', w) :: ms) ++ r) hv (by omega)
      (delimited_renderMembers _ r)
    have ih2 := members_render k' w ms n r hms.2.1 hms.2.2 (by omega)
    have hq : skipWs (quote k ++ 58 :: render v ++ renderMembers ((k', w) :: ms) ++ r) =
        34 :: (escape k ++ 34 :: 58 :: (render v ++ (renderMembers ((k', w) :: ms) ++ r))) := by
      simp [quote, skipWs_cons (show isWs 34 = false by decide)]
    rw [members, hq]
    simp only [if_true, string_escape, Option.bind_eq_bind, Option.bind_some,
      skipWs_cons (show isWs 58 = false by decide), ih1]
    simp [renderMembers, skipWs_cons (show isWs 44 = false by decide)] at ih2 ⊢
    simp [ih2]

end

theorem numeral_ne_nil (m : Int) : 1 ≤ (numeral m).length := by
  obtain ⟨b, t, h, -⟩ := numeral_head m
  rw [h]; simp

mutual

theorem depth_le_length : ∀ v : Json, depth v ≤ (render v).length
  | .null => by decide
  | .bool true => by decide
  | .bool false => by decide
  | .num m e => by
    have := numeral_ne_nil m
    rw [render, depth]
    · split
      · exact this
      · rw [List.length_append]; omega
    all_goals simp
  | .str s => by rw [render, depth] <;> simp [quote]
  | .arr [] => by simp [render, depth, depthElements]
  | .arr (v :: vs) => by
    have h1 := depth_le_length v
    have h2 := depthElements_le_length vs
    simp only [render, depth, depthElements, List.length_append, List.length_cons]
    omega
  | .obj [] => by simp [render, depth, depthMembers]
  | .obj ((k, v) :: ms) => by
    have h1 := depth_le_length v
    have h2 := depthMembers_le_length ms
    simp only [render, quote, depth, depthMembers, List.length_append, List.length_cons]
    omega

theorem depthElements_le_length : ∀ vs : List Json,
    1 + depthElements vs ≤ (renderElements vs).length
  | [] => by simp [renderElements, depthElements]
  | v :: vs => by
    have h1 := depth_le_length v
    have h2 := depthElements_le_length vs
    simp only [renderElements, depthElements, List.length_append, List.length_cons]
    omega

theorem depthMembers_le_length : ∀ ms : List (Bytes × Json),
    1 + depthMembers ms ≤ (renderMembers ms).length
  | [] => by simp [renderMembers, depthMembers]
  | (k, v) :: ms => by
    have h1 := depth_le_length v
    have h2 := depthMembers_le_length ms
    simp only [renderMembers, quote, depthMembers, List.length_append, List.length_cons]
    omega

end

/-! ## Rendered text is UTF-8 -/

theorem escapeByte_low {b : UInt8} (h : b.toNat < 0x80) : ∀ c ∈ escapeByte b, c.toNat < 0x80 := by
  unfold escapeByte
  split
  · decide
  split
  · decide
  split
  · intro c hc
    simp only [List.mem_cons, List.not_mem_nil, or_false] at hc
    rcases hc with rfl | rfl | rfl | rfl | rfl | rfl
    · decide
    · decide
    · decide
    · decide
    · rw [hexDigit_toNat (by omega)]; split <;> omega
    · rw [hexDigit_toNat (by omega)]; split <;> omega
  · intro c hc
    rw [List.mem_singleton.1 hc]
    exact h

theorem escape_append (s t : Bytes) : escape (s ++ t) = escape s ++ escape t := by
  simp [escape]

theorem escape_of_clean {s : Bytes} (h : ∀ b ∈ s, b ≠ 34 ∧ b ≠ 92 ∧ 0x20 ≤ b.toNat) :
    escape s = s := by
  induction s with
  | nil => rfl
  | cons b s ih =>
    obtain ⟨h34, h92, hlow⟩ := h b List.mem_cons_self
    have hs := ih fun b hb => h b (List.mem_cons_of_mem _ hb)
    have hb : escapeByte b = [b] := by
      rw [escapeByte, if_neg h34, if_neg h92, if_neg (by omega)]
    calc escape (b :: s) = escapeByte b ++ escape s := by simp [escape]
      _ = b :: s := by rw [hb, hs]; rfl

theorem escape_of_high {s : Bytes} (h : ∀ b ∈ s, 0x80 ≤ b.toNat) : escape s = s := by
  refine escape_of_clean fun b hb => ⟨?_, ?_, by have := h b hb; omega⟩
  · rintro rfl
    exact absurd (h _ hb) (by decide)
  · rintro rfl
    exact absurd (h _ hb) (by decide)

/-- Escaping works on ASCII only, so it keeps a text a text. -/
theorem escape_valid {s : Bytes} (h : Utf8.Valid s) : Utf8.Valid (escape s) := by
  refine Utf8.Valid.induction (P := fun s => Utf8.Valid (escape s)) .nil ?_ ?_ h
  · intro b s hb _ ih
    have : escape (b :: s) = escapeByte b ++ escape s := by simp [escape]
    rw [this]
    exact (Utf8.Valid.of_ascii (escapeByte_low hb)).append ih
  · intro c s hc hhigh _ ih
    rw [escape_append, escape_of_high (Utf8.encode_high hc hhigh)]
    exact (Utf8.Valid.encode hc).append ih

theorem quote_valid {s : Bytes} (h : Utf8.Valid s) : Utf8.Valid (quote s) :=
  ((Utf8.Valid.of_ascii (s := [34]) (by decide)).append (escape_valid h)).append
    (.of_ascii (s := [34]) (by decide))

theorem isDigit_low {b : UInt8} (h : isDigit b = true) : b.toNat < 0x80 := by
  simp only [isDigit, Bool.and_eq_true, decide_eq_true_eq] at h
  omega

theorem numeral_valid (m : Int) : Utf8.Valid (numeral m) := by
  cases m with
  | ofNat n => exact .of_ascii fun b hb => isDigit_low (decimal_isDigit n b hb)
  | negSucc n =>
    refine .of_ascii fun b hb => ?_
    rcases List.mem_cons.1 hb with rfl | hb
    · decide
    · exact isDigit_low (decimal_isDigit _ b hb)

theorem byte_valid {b : UInt8} (h : b.toNat < 0x80) : Utf8.Valid [b] :=
  .of_ascii (by simpa using h)

mutual

theorem render_valid : ∀ v : Json, Plain v → Utf8.Valid (render v)
  | .null, _ => .of_ascii (by decide)
  | .bool true, _ => .of_ascii (by decide)
  | .bool false, _ => .of_ascii (by decide)
  | .num m e, h => by
    simp only [Plain] at h
    rw [render, if_pos h]
    exact numeral_valid m
  | .str s, h => by
    simp only [Plain] at h
    rw [render]
    exact quote_valid h
  | .arr [], _ => by rw [render]; exact .of_ascii (by decide)
  | .arr (v :: vs), h => by
    simp only [Plain, PlainElements] at h
    rw [render]
    exact ((byte_valid (b := 91) (by decide)).append (render_valid v h.1)).append
      (renderElements_valid vs h.2)
  | .obj [], _ => by rw [render]; exact .of_ascii (by decide)
  | .obj ((k, v) :: ms), h => by
    simp only [Plain, PlainMembers] at h
    rw [render]
    exact (((byte_valid (b := 123) (by decide)).append (quote_valid h.1)).append
      ((byte_valid (b := 58) (by decide)).append (render_valid v h.2.1))).append
      (renderMembers_valid ms h.2.2)

theorem renderElements_valid : ∀ vs : List Json, PlainElements vs → Utf8.Valid (renderElements vs)
  | [], _ => by rw [renderElements]; exact .of_ascii (by decide)
  | v :: vs, h => by
    simp only [PlainElements] at h
    rw [renderElements]
    exact ((byte_valid (b := 44) (by decide)).append (render_valid v h.1)).append
      (renderElements_valid vs h.2)

theorem renderMembers_valid : ∀ ms : List (Bytes × Json), PlainMembers ms →
    Utf8.Valid (renderMembers ms)
  | [], _ => by rw [renderMembers]; exact .of_ascii (by decide)
  | (k, v) :: ms, h => by
    simp only [PlainMembers] at h
    rw [renderMembers]
    exact (((byte_valid (b := 44) (by decide)).append (quote_valid h.1)).append
      ((byte_valid (b := 58) (by decide)).append (render_valid v h.2.1))).append
      (renderMembers_valid ms h.2.2)

end

/-- **The compact text of a value decodes to the value.** -/
theorem decode_render {v : Json} (h : Plain v) : decode (render v) = some v := by
  have hv := value_render v ((render v).length + 1) [] h (by have := depth_le_length v; omega)
    (by simp [Delimited])
  rw [List.append_nil] at hv
  rw [decode, if_pos ((Utf8.check_iff _).2 (render_valid v h)), hv]
  rfl

theorem render_injective {v w : Json} (hv : Plain v) (hw : Plain w) (h : render v = render w) :
    v = w := by
  have := decode_render hv
  rw [h, decode_render hw] at this
  exact (Option.some.inj this).symm

end Json

end Lib
