import AxiomaOracle.Lib.Json

/-!
# JSON texts put together by hand

A program that writes JSON piece by piece has its own escape table and its own way with numbers, so
its text is not `render` of a value. `Denotes v t` says that the reader takes `t` for the value `v`
wherever a value may stand, and the rules below follow the grammar: a string with any escape table
that is read back byte by byte, an integer, a decimal fraction, an array, an object from its
members. `decode_of_denotes` closes a whole text.
-/

namespace Lib

namespace Json

/-- The characters `e` between two quotes are read as the string `s`. -/
def StringText (s e : Bytes) : Prop := ∀ r, string (e ++ 34 :: r) = some (s, r)

/-- The text is read as the value, before any delimiter. -/
structure Denotes (v : Json) (t : Bytes) : Prop where
  opens : ∃ b r, t = b :: r ∧ Opens b
  read : ∀ n r, t.length ≤ n → Delimited r → value n (t ++ r) = some (v, r)

/-- The text, with its closing bracket, is read as the elements of an array. -/
structure ElementsText (vs : List Json) (t : Bytes) : Prop where
  opens : ∃ b r, t = b :: r ∧ Opens b
  read : ∀ n r, t.length ≤ n → elements n (t ++ r) = some (vs, r)

/-- The text, with its closing brace, is read as the members of an object. -/
structure MembersText (ms : List (Bytes × Json)) (t : Bytes) : Prop where
  opens : ∃ r, t = 34 :: r
  read : ∀ n r, t.length ≤ n → members n (t ++ r) = some (ms, r)

/-! ## Strings -/

theorem units_plain {b : UInt8} {bs r : Bytes} {us : List (UInt8 ⊕ Nat)} (h34 : b ≠ 34)
    (h92 : b ≠ 92) (hlow : 0x20 ≤ b.toNat) (h : units bs = some (us, r)) :
    units (b :: bs) = some (.inl b :: us, r) := by
  rw [units.eq_def]
  simp only [h34, h92, Nat.not_lt.2 hlow, if_false, h]
  rfl

theorem units_simpleEscape {e c : UInt8} {bs r : Bytes} {us : List (UInt8 ⊕ Nat)} (he : e ≠ 117)
    (hc : simpleEscape e = some c) (h : units bs = some (us, r)) :
    units (92 :: e :: bs) = some (.inl c :: us, r) := by
  rw [units.eq_def]
  simp only [show (92 : UInt8) ≠ 34 by decide, he, if_false, if_true, hc, h]
  rfl

theorem units_hexEscape {h1 h2 h3 h4 : UInt8} {u : Nat} {bs r : Bytes} {us : List (UInt8 ⊕ Nat)}
    (hu : hex4 h1 h2 h3 h4 = some u) (h : units bs = some (us, r)) :
    units (92 :: 117 :: h1 :: h2 :: h3 :: h4 :: bs) = some (.inr u :: us, r) := by
  rw [units.eq_def]
  simp only [show (92 : UInt8) ≠ 34 by decide, if_false, if_true, hu, h]
  rfl

/-- A table that gives each byte as itself, or as the code unit of an ASCII character, is read back
byte by byte. -/
theorem stringText_flatMap {esc : UInt8 → Bytes} {unit : UInt8 → UInt8 ⊕ Nat}
    (hesc : ∀ b bs us r, units bs = some (us, r) → units (esc b ++ bs) = some (unit b :: us, r))
    (hunit : ∀ b, unit b = .inl b ∨ unit b = .inr b.toNat ∧ b.toNat < 0x80) (s : Bytes) :
    StringText s (s.flatMap esc) := by
  intro r
  have hunits : units (s.flatMap esc ++ 34 :: r) = some (s.map unit, r) := by
    induction s with
    | nil => simp [units.eq_def]
    | cons b s ih =>
      rw [List.flatMap_cons, List.append_assoc, hesc b _ _ _ ih, List.map_cons]
  have hassemble : assemble none (s.map unit) = s := by
    clear hunits
    induction s with
    | nil => rfl
    | cons b s ih =>
      rw [List.map_cons]
      rcases hunit b with hb | ⟨hb, hlow⟩
      · rw [hb, assemble, ih]
      · rw [hb, assemble, if_neg (by omega), Utf8.encode_ascii hlow, UInt8.ofNat_toNat, ih]
        rfl
  simp only [string, hunits, Option.map_some, hassemble]

/-- A text that needs no escapes. -/
theorem stringText_clean {s : Bytes} (h : ∀ b ∈ s, b ≠ 34 ∧ b ≠ 92 ∧ 0x20 ≤ b.toNat) :
    StringText s s := by
  intro r
  have hread := string_escape s r
  rwa [escape_of_clean h] at hread

/-- A table that touches ASCII only keeps a text a text. -/
theorem flatMap_valid {esc : UInt8 → Bytes}
    (hlow : ∀ b, b.toNat < 0x80 → ∀ c ∈ esc b, c.toNat < 0x80)
    (hhigh : ∀ b, 0x80 ≤ b.toNat → esc b = [b]) {s : Bytes} (hs : Utf8.Valid s) :
    Utf8.Valid (s.flatMap esc) := by
  have hkeep : ∀ t : Bytes, (∀ b ∈ t, 0x80 ≤ b.toNat) → t.flatMap esc = t := by
    intro t ht
    induction t with
    | nil => rfl
    | cons b t ih =>
      rw [List.flatMap_cons, hhigh b (ht b List.mem_cons_self),
        ih fun c hc => ht c (List.mem_cons_of_mem _ hc)]
      rfl
  refine Utf8.Valid.induction (P := fun s => Utf8.Valid (s.flatMap esc)) .nil ?_ ?_ hs
  · intro b s hb _ ih
    rw [List.flatMap_cons]
    exact (Utf8.Valid.of_ascii (hlow b hb)).append ih
  · intro c s hc hc80 _ ih
    rw [List.flatMap_append, hkeep _ (Utf8.encode_high hc hc80)]
    exact (Utf8.Valid.encode hc).append ih

/-- High bytes of the written text are high bytes of the text. -/
theorem flatMap_high {esc : UInt8 → Bytes}
    (hlow : ∀ b, b.toNat < 0x80 → esc b ≠ [] ∧ ∀ c ∈ esc b, c.toNat < 0x80)
    (hhigh : ∀ b, 0x80 ≤ b.toNat → esc b = [b]) {s h t : Bytes} (hh : ∀ b ∈ h, 0x80 ≤ b.toNat)
    (heq : s.flatMap esc = h ++ t) : ∃ s', s = h ++ s' ∧ s'.flatMap esc = t := by
  induction h generalizing s with
  | nil => exact ⟨s, rfl, heq⟩
  | cons a h ih =>
    have ha := hh a List.mem_cons_self
    cases s with
    | nil => cases heq
    | cons b s =>
      rw [List.flatMap_cons] at heq
      by_cases hb : b.toNat < 0x80
      · obtain ⟨c, e, hc⟩ := List.exists_cons_of_ne_nil (hlow b hb).1
        rw [hc, List.cons_append, List.cons_append] at heq
        have hclow := (hlow b hb).2 c (hc ▸ List.mem_cons_self)
        rw [(List.cons.inj heq).1] at hclow
        omega
      · rw [hhigh b (Nat.le_of_not_lt hb), List.singleton_append, List.cons_append] at heq
        obtain ⟨rfl, hrest⟩ := List.cons.inj heq
        obtain ⟨s', rfl, hs'⟩ := ih (fun c hc => hh c (List.mem_cons_of_mem _ hc)) hrest
        exact ⟨s', rfl, hs'⟩

/-- **A table that touches ASCII only** keeps a text a text, and makes none of what is no text. -/
theorem flatMap_valid_iff {esc : UInt8 → Bytes}
    (hlow : ∀ b, b.toNat < 0x80 → esc b ≠ [] ∧ ∀ c ∈ esc b, c.toNat < 0x80)
    (hhigh : ∀ b, 0x80 ≤ b.toNat → esc b = [b]) (s : Bytes) :
    Utf8.Valid (s.flatMap esc) ↔ Utf8.Valid s := by
  refine ⟨fun h => ?_, flatMap_valid (fun b hb => (hlow b hb).2) hhigh⟩
  induction hn : s.length using Nat.strong_induction_on generalizing s with
  | _ n ih =>
  cases s with
  | nil => exact .nil
  | cons b s =>
    rw [List.length_cons] at hn
    by_cases hb : b.toNat < 0x80
    · rw [List.flatMap_cons, Utf8.valid_append_iff (.of_ascii (hlow b hb).2)] at h
      have hone : Utf8.Valid [b] := .of_ascii (by simpa using hb)
      exact hone.append (ih s.length (by omega) s h rfl)
    · obtain ⟨cs, hcs, heq⟩ := h
      have hhead := congrArg List.head? heq
      rw [List.flatMap_cons, hhigh b (Nat.le_of_not_lt hb), List.singleton_append,
        List.head?_cons] at hhead
      cases cs with
      | nil => cases hhead
      | cons c cs =>
        have hc := hcs c List.mem_cons_self
        rw [List.flatMap_cons] at hhead
        have hc80 : 0x80 ≤ c := by
          by_contra hlt
          rw [Utf8.encode_ascii (Nat.lt_of_not_le hlt), List.singleton_append,
            List.head?_cons] at hhead
          have hbyte := ofNat_toNat_of_lt (n := c) (by omega)
          rw [← Option.some.inj hhead] at hbyte
          omega
        obtain ⟨s', hs', hrest⟩ := flatMap_high (s := b :: s) hlow hhigh
          (Utf8.encode_high hc hc80) (heq.trans List.flatMap_cons)
        have hpos : 0 < (Utf8.encode c).length := by
          obtain ⟨d, t, hd, -⟩ := Utf8.encode_head hc
          rw [hd]
          exact Nat.succ_pos _
        have hlen := congrArg List.length hs'
        rw [List.length_append, List.length_cons] at hlen
        have hvalid : Utf8.Valid (s'.flatMap esc) :=
          ⟨cs, fun d hd => hcs d (List.mem_cons_of_mem _ hd), hrest⟩
        rw [hs']
        exact (Utf8.Valid.encode hc).append (ih s'.length (by omega) s' hvalid rfl)

theorem Denotes.str {s e : Bytes} (h : StringText s e) : Denotes (.str s) (34 :: e ++ [34]) where
  opens := ⟨34, _, rfl, by decide, by decide, by decide⟩
  read n r hn _ := by
    obtain ⟨n, rfl⟩ : ∃ m, n = m + 1 := ⟨n - 1, by simp at hn; omega⟩
    have hskip : skipWs (34 :: e ++ [34] ++ r) = 34 :: (e ++ 34 :: r) := by
      simp [skipWs_cons (show isWs 34 = false by decide)]
    rw [value, hskip]
    simp only [if_true, h r, Option.map_some]

/-! ## Numbers -/

theorem value_of_number {n : Nat} {t r : Bytes} {v : Json} {b : UInt8} {u : Bytes}
    (ht : t = b :: u) (hb : isDigit b = true ∨ b = 45) (hnum : number (t ++ r) = some (v, r)) :
    value (n + 1) (t ++ r) = some (v, r) := by
  subst ht
  obtain ⟨⟨hws, -, -⟩, h34, h91, h123, hlit⟩ := opens_of_isDigit hb
  rw [List.cons_append] at hnum ⊢
  rw [value, skipWs_cons hws]
  simp only [h34, h91, h123, hlit, if_false, hnum]

theorem Denotes.int (m : Int) : Denotes (.num m 0) (numeral m) where
  opens := by
    obtain ⟨b, t, hm, hb⟩ := numeral_head m
    exact ⟨b, t, hm, (opens_of_isDigit hb).1⟩
  read n r hn hr := by
    obtain ⟨b, t, hm, hb⟩ := numeral_head m
    obtain ⟨n, rfl⟩ : ∃ k, n = k + 1 := ⟨n - 1, by rw [hm] at hn; simp at hn; omega⟩
    exact value_number hr

/-- A decimal fraction: the digits of both parts, at the power of ten of the second. -/
theorem Denotes.fraction (ip : Nat) {fs : Bytes} (hfs : ∀ b ∈ fs, isDigit b = true)
    (hne : fs ≠ []) :
    Denotes (.num (decValue (decimal ip ++ fs)) (-fs.length)) (decimal ip ++ 46 :: fs) := by
  obtain ⟨b, t, hd⟩ : ∃ b t, decimal ip = b :: t := by
    cases hd : decimal ip with
    | nil => exact absurd hd (decimal_ne_nil ip)
    | cons b t => exact ⟨b, t, rfl⟩
  have hb : isDigit b = true ∨ b = 45 := .inl (decimal_isDigit ip b (by rw [hd]; simp))
  have hcons : decimal ip ++ 46 :: fs = b :: (t ++ 46 :: fs) := by rw [hd]; rfl
  refine ⟨⟨b, _, hcons, (opens_of_isDigit hb).1⟩, ?_⟩
  intro n r hn hr
  obtain ⟨n, rfl⟩ : ∃ k, n = k + 1 := ⟨n - 1, by rw [hcons] at hn; simp at hn; omega⟩
  refine value_of_number hcons hb ?_
  have h46 : isDigit 46 = false := by decide
  have hspan : (decimal ip ++ (46 :: (fs ++ r))).takeWhile isDigit = decimal ip ∧
      (decimal ip ++ (46 :: (fs ++ r))).dropWhile isDigit = 46 :: (fs ++ r) := by
    rw [List.takeWhile_append_of_pos (decimal_isDigit ip),
      List.dropWhile_append_of_pos (decimal_isDigit ip)]
    simp [h46]
  obtain ⟨hf1, hf2⟩ := hr.span hfs
  have hfrac : Json.fraction (46 :: (fs ++ r)) = some (fs, r) := by
    rw [Json.fraction, if_pos rfl]
    simp only [hf1, hf2, if_neg hne]
  have hs := decimal_head_ne_sign ip (46 :: (fs ++ r))
  rw [List.append_assoc, List.cons_append]
  simp only [number, hs, if_false, hspan.1, hspan.2, hfrac]
  rw [if_neg (decimal_no_leading_zero ip)]
  simp [hr.exponent]

/-! ## Arrays and objects -/

theorem ElementsText.single {v : Json} {t : Bytes} (h : Denotes v t) :
    ElementsText [v] (t ++ [93]) where
  opens := by
    obtain ⟨b, r, rfl, hb⟩ := h.opens
    exact ⟨b, _, rfl, hb⟩
  read n r hn := by
    obtain ⟨n, rfl⟩ : ∃ k, n = k + 1 := ⟨n - 1, by simp at hn; omega⟩
    have hv := h.read n (93 :: r) (by simp at hn; omega) (by simp [Delimited])
    rw [elements, List.append_assoc, List.singleton_append, hv]
    simp [skipWs_cons (show isWs 93 = false by decide)]

theorem Denotes.arr {vs : List Json} {t : Bytes} (h : ElementsText vs t) :
    Denotes (.arr vs) (91 :: t) where
  opens := ⟨91, t, rfl, by decide, by decide, by decide⟩
  read n r hn _ := by
    obtain ⟨n, rfl⟩ : ∃ k, n = k + 1 := ⟨n - 1, by simp at hn; omega⟩
    obtain ⟨b, u, rfl, hws, h93, -⟩ := h.opens
    have he := h.read n r (by simp at hn ⊢; omega)
    rw [List.cons_append] at he
    rw [List.cons_append, List.cons_append, value, skipWs_cons (by decide)]
    simp only [show (91 : UInt8) ≠ 34 by decide, if_false, if_true, skipWs_cons hws, h93, he,
      Option.map_some]

/-- One member, with what follows it. -/
theorem members_step {k ek tv : Bytes} {v : Json} (hk : StringText k ek) (hv : Denotes v tv)
    {n : Nat} {r : Bytes} (hn : tv.length ≤ n) (hr : Delimited r) :
    members (n + 1) (34 :: ek ++ 34 :: 58 :: tv ++ r) =
      match skipWs r with
      | [] => none
      | b :: r =>
        if b = 125 then some ([(k, v)], r)
        else if b = 44 then do
          let (ms, r) ← members n r
          some ((k, v) :: ms, r)
        else none := by
  have hskip : skipWs (34 :: ek ++ 34 :: 58 :: tv ++ r) =
      34 :: (ek ++ 34 :: 58 :: (tv ++ r)) := by
    simp [skipWs_cons (show isWs 34 = false by decide)]
  have hcolon : skipWs (58 :: (tv ++ r)) = 58 :: (tv ++ r) := skipWs_cons (by decide)
  rw [members, hskip]
  cases hws : skipWs r with
  | nil =>
    simp only [if_true, hk _, Option.bind_eq_bind, Option.bind_some, hcolon, hv.read n r hn hr, hws]
  | cons b t =>
    simp only [if_true, hk _, Option.bind_eq_bind, Option.bind_some, hcolon, hv.read n r hn hr, hws]

theorem MembersText.single {k ek tv : Bytes} {v : Json} (hk : StringText k ek)
    (hv : Denotes v tv) : MembersText [(k, v)] (34 :: ek ++ 34 :: 58 :: tv ++ [125]) where
  opens := ⟨_, rfl⟩
  read n r hn := by
    obtain ⟨n, rfl⟩ : ∃ k, n = k + 1 := ⟨n - 1, by simp at hn; omega⟩
    rw [List.append_assoc, List.singleton_append,
      members_step hk hv (by simp at hn; omega) (by simp [Delimited]),
      skipWs_cons (show isWs 125 = false by decide)]
    simp

theorem MembersText.cons {k ek tv t : Bytes} {v : Json} {ms : List (Bytes × Json)}
    (hk : StringText k ek) (hv : Denotes v tv) (h : MembersText ms t) :
    MembersText ((k, v) :: ms) (34 :: ek ++ 34 :: 58 :: tv ++ 44 :: t) where
  opens := ⟨_, rfl⟩
  read n r hn := by
    obtain ⟨n, rfl⟩ : ∃ k, n = k + 1 := ⟨n - 1, by simp at hn; omega⟩
    have hms := h.read n r (by simp at hn; omega)
    have hsplit : 34 :: ek ++ 34 :: 58 :: tv ++ 44 :: t ++ r =
        34 :: ek ++ 34 :: 58 :: tv ++ 44 :: (t ++ r) := by simp
    rw [hsplit, members_step hk hv (by simp at hn; omega) (by simp [Delimited]),
      skipWs_cons (show isWs 44 = false by decide)]
    simp [hms]

theorem Denotes.obj {ms : List (Bytes × Json)} {t : Bytes} (h : MembersText ms t) :
    Denotes (.obj ms) (123 :: t) where
  opens := ⟨123, t, rfl, by decide, by decide, by decide⟩
  read n r hn _ := by
    obtain ⟨n, rfl⟩ : ∃ k, n = k + 1 := ⟨n - 1, by simp at hn; omega⟩
    obtain ⟨u, rfl⟩ := h.opens
    have hm := h.read n r (by simp at hn ⊢; omega)
    rw [List.cons_append] at hm
    rw [List.cons_append, List.cons_append, value, skipWs_cons (by decide)]
    simp only [show (123 : UInt8) ≠ 34 by decide, show (123 : UInt8) ≠ 91 by decide, if_false,
      if_true, skipWs_cons (show isWs 34 = false by decide), show (34 : UInt8) ≠ 125 by decide, hm,
      Option.map_some]

/-- A member as it is written, and what its two texts are read as. -/
structure Member where
  key : Bytes
  keyText : Bytes
  value : Json
  valueText : Bytes
  key_reads : StringText key keyText
  value_reads : Denotes value valueText

def Member.text (m : Member) : Bytes := 34 :: m.keyText ++ 34 :: 58 :: m.valueText

def Member.pair (m : Member) : Bytes × Json := (m.key, m.value)

/-- **An object from its members**, with a comma in front of each but the first. -/
theorem Denotes.members (m : Member) (ms : List Member) :
    Denotes (.obj ((m :: ms).map Member.pair))
      (123 :: (m.text ++ (ms.flatMap (44 :: Member.text ·) ++ [125]))) := by
  refine .obj ?_
  induction ms generalizing m with
  | nil => exact .single m.key_reads m.value_reads
  | cons m' ms ih =>
    rw [List.flatMap_cons, List.cons_append, List.cons_append, List.append_assoc]
    exact .cons m.key_reads m.value_reads (ih m')

/-- **A whole text.** -/
theorem decode_of_denotes {v : Json} {t : Bytes} (hv : Utf8.Valid t) (h : Denotes v t) :
    decode t = some v := by
  have hread := h.read (t.length + 1) [] (Nat.le_succ _) (by simp [Delimited])
  rw [List.append_nil] at hread
  rw [decode, if_pos ((Utf8.check_iff _).2 hv), hread]
  rfl

end Json

end Lib
