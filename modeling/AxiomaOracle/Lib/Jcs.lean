import AxiomaOracle.Lib.Json

/-!
# The JSON canonicalization scheme (RFC 8785)

`serialise` is the RFC's text of a value: no whitespace, members sorted by the UTF-16 code units of
their names, the escapes of ECMAScript and everything else as it is. Of the numbers it has those the
RFC writes as plain integers without rounding, up to 2^53.

It differs from the compact text `Json.render` in the order of the members and in five escapes. A
value whose members stand in order is written alike by both exactly when no string of it holds one
of the five controls (`serialise_eq_render_iff`). `serialiseWith` takes the table of the short
escapes; with an empty table it is the compact text of every such value.
-/

namespace Lib

namespace Jcs

/-! ## Strings and numbers -/

/-- The letter of the two-character escape, for the five controls that have one. -/
def shortEscape (b : UInt8) : Option UInt8 :=
  if b = 0x08 then some (chr 'b')
  else if b = 0x09 then some (chr 't')
  else if b = 0x0A then some (chr 'n')
  else if b = 0x0C then some (chr 'f')
  else if b = 0x0D then some (chr 'r')
  else none

/-- No control has a short escape. -/
def noShort : UInt8 → Option UInt8 := fun _ => none

section Serialise

variable (short : UInt8 → Option UInt8)

/-- The escapes, with the letters of `short` for two-character escapes. -/
def escapeByte (b : UInt8) : Bytes :=
  if b = chr '"' then [chr '\\', chr '"']
  else if b = chr '\\' then [chr '\\', chr '\\']
  else match short b with
    | some c => [chr '\\', c]
    | none =>
      if b.toNat < 0x20 then
        [chr '\\', chr 'u', chr '0', chr '0', hexDigit (b.toNat / 16), hexDigit (b.toNat % 16)]
      else [b]

def string (s : Bytes) : Bytes := chr '"' :: s.flatMap (escapeByte short) ++ [chr '"']

/-- An integer up to 2^53 is a double, and its shortest text is its numeral. -/
def number (m e : Int) : Option Bytes :=
  if e = 0 ∧ m.natAbs ≤ 2 ^ 53 then some (Json.numeral m) else none

/-! ## The order of names -/

/-- What the first byte of a character has of its code point. -/
def leadBits (b : UInt8) : Nat :=
  if b.toNat < 0x80 then b.toNat
  else if b.toNat < 0xE0 then b.toNat - 0xC0
  else if b.toNat < 0xF0 then b.toNat - 0xE0
  else b.toNat - 0xF0

/-- The code points of a text behind those already read, last one first. -/
def codePointsFrom : List Nat → Bytes → List Nat
  | acc, [] => acc.reverse
  | acc, b :: s =>
    if Utf8.isTail b then
      codePointsFrom (acc.modifyHead fun c => c * 64 + (b.toNat - 0x80)) s
    else codePointsFrom (leadBits b :: acc) s

/-- A code point above the basic plane is a surrogate pair. -/
def units (c : Nat) : List Nat :=
  if c < 0x10000 then [c]
  else [0xD800 + (c - 0x10000) / 0x400, 0xDC00 + (c - 0x10000) % 0x400]

def utf16 (s : Bytes) : List Nat := (codePointsFrom [] s).flatMap units

/-- Names are compared code unit by code unit. -/
def nameLe (k l : Bytes) : Bool := !(utf16 l).lex (utf16 k) fun a b => decide (a < b)

/-! ## Values -/

def memberText (m : Bytes × Bytes) : Bytes := string short m.1 ++ chr ':' :: m.2

mutual

def serialiseWith : Json → Option Bytes
  | .null => some (ascii "null")
  | .bool true => some (ascii "true")
  | .bool false => some (ascii "false")
  | .num m e => number m e
  | .str s => some (string short s)
  | .arr vs => do
    let ts ← elements vs
    return chr '[' :: [chr ','].intercalate ts ++ [chr ']']
  | .obj ms => do
    let ts ← members ms
    let ts := ts.mergeSort fun m n => nameLe m.1 n.1
    return chr '{' :: [chr ','].intercalate (ts.map (memberText short)) ++ [chr '}']

def elements : List Json → Option (List Bytes)
  | [] => some []
  | v :: vs => do
    let t ← serialiseWith v
    let ts ← elements vs
    return t :: ts

/-- The names with the texts of the values, in the order of the value. -/
def members : List (Bytes × Json) → Option (List (Bytes × Bytes))
  | [] => some []
  | (k, v) :: ms => do
    let t ← serialiseWith v
    let ts ← members ms
    return (k, t) :: ts

end

end Serialise

/-- The RFC's text. -/
def serialise (v : Json) : Option Bytes := serialiseWith shortEscape v

mutual

/-- Members in order, and integers that are doubles. -/
def Ready : Json → Prop
  | .null | .bool _ | .str _ => True
  | .num m e => e = 0 ∧ m.natAbs ≤ 2 ^ 53
  | .arr vs => ReadyElements vs
  | .obj ms => (ms.map Prod.fst).Pairwise (fun k l => nameLe k l = true) ∧ ReadyMembers ms

def ReadyElements : List Json → Prop
  | [] => True
  | v :: vs => Ready v ∧ ReadyElements vs

def ReadyMembers : List (Bytes × Json) → Prop
  | [] => True
  | (_, v) :: ms => Ready v ∧ ReadyMembers ms

end

section Long

variable (short : UInt8 → Option UInt8)

/-- No byte has a short escape. -/
def Long (s : Bytes) : Prop := ∀ b ∈ s, short b = none

instance (s : Bytes) : Decidable (Long short s) :=
  inferInstanceAs (Decidable (∀ b ∈ s, short b = none))

mutual

/-- No string or name has a byte with a short escape. -/
def LongOnly : Json → Prop
  | .null | .bool _ | .num _ _ => True
  | .str s => Long short s
  | .arr vs => LongElements vs
  | .obj ms => LongMembers ms

def LongElements : List Json → Prop
  | [] => True
  | v :: vs => LongOnly v ∧ LongElements vs

def LongMembers : List (Bytes × Json) → Prop
  | [] => True
  | (k, v) :: ms => Long short k ∧ LongOnly v ∧ LongMembers ms

end

end Long

mutual

theorem longOnly_noShort : ∀ v : Json, LongOnly noShort v
  | .null | .bool _ | .num _ _ => trivial
  | .str _ => fun _ _ => rfl
  | .arr vs => longElements_noShort vs
  | .obj ms => longMembers_noShort ms

theorem longElements_noShort : ∀ vs : List Json, LongElements noShort vs
  | [] => trivial
  | v :: vs => ⟨longOnly_noShort v, longElements_noShort vs⟩

theorem longMembers_noShort : ∀ ms : List (Bytes × Json), LongMembers noShort ms
  | [] => trivial
  | (_, v) :: ms => ⟨fun _ _ => rfl, longOnly_noShort v, longMembers_noShort ms⟩

end

/-! ## Beside the compact text -/

/-- `t` is nowhere longer than `r`, and the same exactly when `p` holds. -/
structure Agrees (t r : Bytes) (p : Prop) : Prop where
  le : t.length ≤ r.length
  same : p → t = r
  full : t.length = r.length → p

namespace Agrees

variable {t t' r r' : Bytes} {p q : Prop}

theorem refl (t : Bytes) : Agrees t t True := ⟨Nat.le_refl _, fun _ => rfl, fun _ => trivial⟩

theorem append (h : Agrees t r p) (h' : Agrees t' r' q) : Agrees (t ++ t') (r ++ r') (p ∧ q) := by
  have hle := h.le
  have hle' := h'.le
  refine ⟨?_, fun hpq => by rw [h.same hpq.1, h'.same hpq.2], fun hlen => ?_⟩
  · rw [List.length_append, List.length_append]
    omega
  · rw [List.length_append, List.length_append] at hlen
    exact ⟨h.full (by omega), h'.full (by omega)⟩

theorem cons (b : UInt8) (h : Agrees t r p) : Agrees (b :: t) (b :: r) p where
  le := Nat.succ_le_succ h.le
  same hp := by rw [h.same hp]
  full hlen := h.full (Nat.succ.inj hlen)

theorem congr (h : Agrees t r p) (hpq : p ↔ q) : Agrees t r q :=
  ⟨h.le, fun hq => h.same (hpq.2 hq), fun hlen => hpq.1 (h.full hlen)⟩

theorem eq_iff (h : Agrees t r p) : t = r ↔ p :=
  ⟨fun heq => h.full (congrArg List.length heq), h.same⟩

end Agrees

/-- Only controls have short escapes. -/
def Controls (short : UInt8 → Option UInt8) : Prop := ∀ b : UInt8, 0x20 ≤ b.toNat → short b = none

theorem controls_shortEscape : Controls shortEscape := by
  intro b h
  have hne : ∀ d : UInt8, d.toNat < 0x20 → b ≠ d := by
    rintro d hd rfl
    omega
  rw [shortEscape, if_neg (hne _ (by decide)), if_neg (hne _ (by decide)),
    if_neg (hne _ (by decide)), if_neg (hne _ (by decide)), if_neg (hne _ (by decide))]

theorem controls_noShort : Controls noShort := fun _ _ => rfl

section Agrees

variable {short : UInt8 → Option UInt8}

theorem escapeByte_agrees (hs : Controls short) (b : UInt8) :
    Agrees (escapeByte short b) (Json.escapeByte b) (short b = none) := by
  unfold escapeByte Json.escapeByte
  have hquote : chr '"' = 34 := rfl
  have hback : chr '\\' = 92 := rfl
  rw [hquote, hback]
  by_cases h34 : b = 34
  · subst h34
    exact (Agrees.refl _).congr (iff_of_true trivial (hs 34 (by decide)))
  by_cases h92 : b = 92
  · subst h92
    rw [if_neg (by decide), if_pos rfl, if_neg (by decide), if_pos rfl]
    exact (Agrees.refl _).congr (iff_of_true trivial (hs 92 (by decide)))
  rw [if_neg h34, if_neg h92, if_neg h34, if_neg h92]
  cases hshort : short b with
  | none => exact (Agrees.refl _).congr (iff_of_true trivial rfl)
  | some c =>
    -- two bytes where the compact text has six
    have hlow : b.toNat < 0x20 := by
      by_contra hhigh
      rw [hs b (Nat.le_of_not_lt hhigh)] at hshort
      cases hshort
    dsimp only
    rw [if_pos hlow]
    exact ⟨by simp, nofun, fun hlen => by simp at hlen⟩

theorem flatMap_agrees (hs : Controls short) (s : Bytes) :
    Agrees (s.flatMap (escapeByte short)) (Json.escape s) (Long short s) := by
  induction s with
  | nil => exact (Agrees.refl []).congr (iff_of_true trivial nofun)
  | cons b s ih =>
    have hall : (short b = none ∧ Long short s) ↔ Long short (b :: s) := by
      unfold Long
      rw [List.forall_mem_cons]
    exact ((escapeByte_agrees hs b).append ih).congr hall

theorem string_agrees (hs : Controls short) (s : Bytes) :
    Agrees (string short s) (Json.quote s) (Long short s) :=
  (((flatMap_agrees hs s).cons 34).append (.refl [34])).congr (and_iff_left trivial)

/-- A list joined by commas, and a closing byte. -/
theorem intercalate_comma (t : Bytes) (ts : List Bytes) :
    [chr ','].intercalate (t :: ts) = t ++ ts.flatMap (44 :: ·) := by
  induction ts generalizing t with
  | nil => simp
  | cons u ts ih =>
    rw [List.intercalate_cons_cons, ih, List.flatMap_cons]
    simp only [List.append_assoc, List.cons_append, List.nil_append]
    rfl

mutual

/-- A value whose members stand in order has a canonical text. -/
theorem serialise_agrees (hs : Controls short) : ∀ v : Json, Ready v →
    ∃ t, serialiseWith short v = some t ∧ Agrees t (Json.render v) (LongOnly short v)
  | .null, _ => ⟨_, by rw [serialiseWith], by rw [Json.render, LongOnly]; exact .refl _⟩
  | .bool true, _ => ⟨_, by rw [serialiseWith], by rw [Json.render, LongOnly]; exact .refl _⟩
  | .bool false, _ => ⟨_, by rw [serialiseWith], by rw [Json.render, LongOnly]; exact .refl _⟩
  | .num m e, h => by
    rw [Ready] at h
    refine ⟨Json.numeral m, ?_, ?_⟩
    · rw [serialiseWith, number, if_pos h]
    · rw [Json.render, LongOnly, if_pos h.1]
      exact .refl _
  | .str s, _ => ⟨_, by rw [serialiseWith], by rw [Json.render, LongOnly]; exact string_agrees hs s⟩
  | .arr [], _ => by
    refine ⟨[91, 93], by rw [serialiseWith, elements]; rfl, ?_⟩
    rw [Json.render, LongOnly, LongElements]
    exact .refl _
  | .arr (v :: vs), h => by
    rw [Ready, ReadyElements] at h
    obtain ⟨t, ht, hagree⟩ := serialise_agrees hs v h.1
    obtain ⟨ts, hts, hrest⟩ := elements_agrees hs vs h.2
    refine ⟨91 :: t ++ (ts.flatMap (44 :: ·) ++ [93]), ?_, ?_⟩
    · rw [serialiseWith, elements, ht, hts]
      simp only [Option.bind_eq_bind, Option.bind_some, Option.pure_def, intercalate_comma,
        List.cons_append, List.append_assoc]
      rfl
    · rw [Json.render, LongOnly, LongElements]
      exact (hagree.cons 91).append hrest
  | .obj [], _ => by
    refine ⟨[123, 125], ?_, ?_⟩
    · rw [serialiseWith, members]
      simp only [Option.bind_eq_bind, Option.bind_some, List.mergeSort_nil]
      rfl
    · rw [Json.render, LongOnly, LongMembers]
      exact .refl _
  | .obj ((k, v) :: ms), h => by
    rw [Ready, ReadyMembers] at h
    obtain ⟨hsorted, hv, hms⟩ := h
    obtain ⟨t, ht, hagree⟩ := serialise_agrees hs v hv
    obtain ⟨ts, hts, hnames, hrest⟩ := members_agrees hs ms hms
    have hsort : ((k, t) :: ts).mergeSort (fun m n => nameLe m.1 n.1) = (k, t) :: ts := by
      have hpairs : (((k, t) :: ts).map Prod.fst).Pairwise fun k l => nameLe k l = true := by
        rw [List.map_cons, hnames]
        exact hsorted
      rw [List.pairwise_map] at hpairs
      exact List.mergeSort_of_pairwise hpairs
    refine ⟨123 :: string short k ++ (58 :: t ++ (ts.flatMap (44 :: memberText short ·) ++ [125])),
      ?_, ?_⟩
    · rw [serialiseWith, members, ht, hts]
      simp only [Option.bind_eq_bind, Option.bind_some, Option.pure_def, hsort, List.map_cons,
        intercalate_comma, List.flatMap_map, memberText, List.cons_append, List.append_assoc]
      rfl
    · have hmember := ((string_agrees hs k).cons 123).append ((hagree.cons 58).append hrest)
      rw [Json.render, LongOnly, LongMembers]
      simpa only [List.append_assoc, List.cons_append] using hmember

theorem elements_agrees (hs : Controls short) : ∀ vs : List Json, ReadyElements vs →
    ∃ ts, elements short vs = some ts ∧
      Agrees (ts.flatMap (44 :: ·) ++ [93]) (Json.renderElements vs) (LongElements short vs)
  | [], _ => by
    refine ⟨[], by rw [elements], ?_⟩
    rw [Json.renderElements, LongElements]
    exact .refl _
  | v :: vs, h => by
    rw [ReadyElements] at h
    obtain ⟨t, ht, hagree⟩ := serialise_agrees hs v h.1
    obtain ⟨ts, hts, hrest⟩ := elements_agrees hs vs h.2
    refine ⟨t :: ts, ?_, ?_⟩
    · rw [elements, ht, hts]
      rfl
    · rw [Json.renderElements, LongElements, List.flatMap_cons, List.append_assoc]
      exact (hagree.cons 44).append hrest

theorem members_agrees (hs : Controls short) : ∀ ms : List (Bytes × Json), ReadyMembers ms →
    ∃ ts, members short ms = some ts ∧ ts.map Prod.fst = ms.map Prod.fst ∧
      Agrees (ts.flatMap (44 :: memberText short ·) ++ [125]) (Json.renderMembers ms)
        (LongMembers short ms)
  | [], _ => by
    refine ⟨[], by rw [members], rfl, ?_⟩
    rw [Json.renderMembers, LongMembers]
    exact .refl _
  | (k, v) :: ms, h => by
    rw [ReadyMembers] at h
    obtain ⟨t, ht, hagree⟩ := serialise_agrees hs v h.1
    obtain ⟨ts, hts, hnames, hrest⟩ := members_agrees hs ms h.2
    refine ⟨(k, t) :: ts, ?_, ?_, ?_⟩
    · rw [members, ht, hts]
      rfl
    · rw [List.map_cons, hnames, List.map_cons]
    · have hmember := ((string_agrees hs k).cons 44).append ((hagree.cons 58).append hrest)
      have hcolon : chr ':' = 58 := rfl
      rw [Json.renderMembers, LongMembers, List.flatMap_cons, memberText, hcolon]
      simpa only [List.append_assoc, List.cons_append] using hmember

end

/-- **The compact text of a value in order is the canonical one** exactly when none of the five
controls is in it. -/
theorem serialise_eq_render_iff {v : Json} (h : Ready v) :
    serialise v = some (Json.render v) ↔ LongOnly shortEscape v := by
  obtain ⟨t, ht, hagree⟩ := serialise_agrees controls_shortEscape v h
  rw [serialise, ht, Option.some.injEq]
  exact hagree.eq_iff

/-- Without short escapes it is the compact text. -/
theorem serialiseWith_noShort {v : Json} (h : Ready v) :
    serialiseWith noShort v = some (Json.render v) := by
  obtain ⟨t, ht, hagree⟩ := serialise_agrees controls_noShort v h
  rw [ht, hagree.same (longOnly_noShort v)]

end Agrees

end Jcs

end Lib
