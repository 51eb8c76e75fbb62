import AxiomaOracle.Lib.Bytes

/-!
# UTF-8 (RFC 3629)

`Valid` is the definition: a concatenation of encodings of Unicode scalar values. `check` is the
octet grammar of the RFC's section 4, one alternative of the table a branch, and `check_iff` says
they are the same language. A valid string can be extended on the right without changing the
verdict on the rest (`check_append`), which is what a reader working left to right uses. It can be
cut before every byte that is not the tail of a character, and nowhere else (`Valid.take_iff`).
-/

namespace Lib.Utf8

open Lib

/-- A Unicode scalar value: a code point that is not a surrogate. -/
def IsScalar (c : Nat) : Prop := c < 0xD800 ∨ (0xE000 ≤ c ∧ c < 0x110000)

/-- The encoding of a code point, in the shortest form. -/
def encode (c : Nat) : Bytes :=
  if c < 0x80 then [UInt8.ofNat c]
  else if c < 0x800 then [UInt8.ofNat (0xC0 + c / 64), UInt8.ofNat (0x80 + c % 64)]
  else if c < 0x10000 then
    [UInt8.ofNat (0xE0 + c / 4096), UInt8.ofNat (0x80 + c / 64 % 64), UInt8.ofNat (0x80 + c % 64)]
  else
    [UInt8.ofNat (0xF0 + c / 262144), UInt8.ofNat (0x80 + c / 4096 % 64),
      UInt8.ofNat (0x80 + c / 64 % 64), UInt8.ofNat (0x80 + c % 64)]

/-- A concatenation of encodings of scalar values. -/
def Valid (s : Bytes) : Prop := ∃ cs : List Nat, (∀ c ∈ cs, IsScalar c) ∧ s = cs.flatMap encode

/-- `c` is one of the code points of `s`. -/
def CodePoint (s : Bytes) (c : Nat) : Prop :=
  ∃ cs : List Nat, (∀ c ∈ cs, IsScalar c) ∧ s = cs.flatMap encode ∧ c ∈ cs

/-- `UTF8-tail`. -/
def isTail (b : UInt8) : Bool := 0x80 ≤ b.toNat && b.toNat ≤ 0xBF

/-- `UTF8-2`. -/
def isTwo (a b : UInt8) : Bool := 0xC2 ≤ a.toNat && a.toNat ≤ 0xDF && isTail b

/-- `UTF8-3`. -/
def isThree (a b c : UInt8) : Bool :=
  0xE0 ≤ a.toNat && a.toNat ≤ 0xEF && isTail b && isTail c &&
    (a.toNat != 0xE0 || 0xA0 ≤ b.toNat) && (a.toNat != 0xED || b.toNat ≤ 0x9F)

/-- `UTF8-4`. -/
def isFour (a b c d : UInt8) : Bool :=
  0xF0 ≤ a.toNat && a.toNat ≤ 0xF4 && isTail b && isTail c && isTail d &&
    (a.toNat != 0xF0 || 0x90 ≤ b.toNat) && (a.toNat != 0xF4 || b.toNat ≤ 0x8F)

/-- `UTF8-octets`, decided from the left. -/
def check : Bytes → Bool
  | [] => true
  | a :: s =>
    if a.toNat < 0x80 then check s
    else match s with
      | [] => false
      | b :: s =>
        if isTwo a b then check s
        else match s with
          | [] => false
          | c :: s =>
            if isThree a b c then check s
            else match s with
              | [] => false
              | d :: s => isFour a b c d && check s

/-! ## The octet grammar and the encodings -/

theorem encode_ascii {c : Nat} (h : c < 0x80) : encode c = [UInt8.ofNat c] := by
  simp [encode, h]

theorem isTwo_encode {a b : UInt8} (h : isTwo a b = true) :
    ∃ c, IsScalar c ∧ 0x80 ≤ c ∧ encode c = [a, b] := by
  simp only [isTwo, isTail, Bool.and_eq_true, decide_eq_true_eq] at h
  refine ⟨(a.toNat - 0xC0) * 64 + (b.toNat - 0x80), Or.inl (by omega), by omega, ?_⟩
  rw [encode, if_neg (by omega), if_pos (by omega)]
  simp only [List.cons.injEq, and_true]
  exact ⟨ofNat_eq_of (by omega), ofNat_eq_of (by omega)⟩

theorem isThree_encode {a b c : UInt8} (h : isThree a b c = true) :
    ∃ e, IsScalar e ∧ 0x80 ≤ e ∧ encode e = [a, b, c] := by
  simp only [isThree, isTail, Bool.and_eq_true, Bool.or_eq_true, decide_eq_true_eq,
    bne_iff_ne] at h
  obtain ⟨⟨⟨⟨⟨h1, h2⟩, h3, h4⟩, h5, h6⟩, h7⟩, h8⟩ := h
  refine ⟨(a.toNat - 0xE0) * 4096 + (b.toNat - 0x80) * 64 + (c.toNat - 0x80), ?_, by omega, ?_⟩
  · unfold IsScalar; omega
  · rw [encode, if_neg (by omega), if_neg (by omega), if_pos (by omega)]
    simp only [List.cons.injEq, and_true]
    exact ⟨ofNat_eq_of (by omega), ofNat_eq_of (by omega), ofNat_eq_of (by omega)⟩

theorem isFour_encode {a b c d : UInt8} (h : isFour a b c d = true) :
    ∃ e, IsScalar e ∧ 0x80 ≤ e ∧ encode e = [a, b, c, d] := by
  simp only [isFour, isTail, Bool.and_eq_true, Bool.or_eq_true, decide_eq_true_eq,
    bne_iff_ne] at h
  obtain ⟨⟨⟨⟨⟨⟨h1, h2⟩, h3, h4⟩, h5, h6⟩, h7, h8⟩, h9⟩, h10⟩ := h
  refine ⟨(a.toNat - 0xF0) * 262144 + (b.toNat - 0x80) * 4096 + (c.toNat - 0x80) * 64 +
    (d.toNat - 0x80), Or.inr (by omega), by omega, ?_⟩
  rw [encode, if_neg (by omega), if_neg (by omega), if_neg (by omega)]
  simp only [List.cons.injEq, and_true]
  exact ⟨ofNat_eq_of (by omega), ofNat_eq_of (by omega), ofNat_eq_of (by omega),
    ofNat_eq_of (by omega)⟩

/-- The bytes of a character above ASCII are all above ASCII. -/
theorem encode_high {c : Nat} (hc : IsScalar c) (h : 0x80 ≤ c) :
    ∀ b ∈ encode c, 0x80 ≤ b.toNat := by
  unfold IsScalar at hc
  intro b hb
  unfold encode at hb
  split at hb
  · omega
  split at hb
  · simp only [List.mem_cons, List.not_mem_nil, or_false] at hb
    rcases hb with rfl | rfl <;> rw [ofNat_toNat_of_lt (by omega)] <;> omega
  split at hb
  · simp only [List.mem_cons, List.not_mem_nil, or_false] at hb
    rcases hb with rfl | rfl | rfl <;> rw [ofNat_toNat_of_lt (by omega)] <;> omega
  · simp only [List.mem_cons, List.not_mem_nil, or_false] at hb
    rcases hb with rfl | rfl | rfl | rfl <;> rw [ofNat_toNat_of_lt (by omega)] <;> omega

theorem check_encode_append {c : Nat} (hc : IsScalar c) (s : Bytes) :
    check (encode c ++ s) = check s := by
  unfold IsScalar at hc
  unfold encode
  split
  · rw [List.singleton_append, check.eq_def]
    simp only [ofNat_toNat_of_lt (n := c) (by omega), *, if_true]
  split
  · have h1 := ofNat_toNat_of_lt (n := 0xC0 + c / 64) (by omega)
    have h2 := ofNat_toNat_of_lt (n := 0x80 + c % 64) (by omega)
    have ht : isTwo (UInt8.ofNat (0xC0 + c / 64)) (UInt8.ofNat (0x80 + c % 64)) = true := by
      simp only [isTwo, isTail, h1, h2, Bool.and_eq_true, decide_eq_true_eq]; omega
    simp only [List.cons_append, List.nil_append]
    rw [check.eq_def]
    simp only [h1, ht, if_true, if_neg (show ¬ 0xC0 + c / 64 < 0x80 by omega)]
  split
  · have h1 := ofNat_toNat_of_lt (n := 0xE0 + c / 4096) (by omega)
    have h2 := ofNat_toNat_of_lt (n := 0x80 + c / 64 % 64) (by omega)
    have h3 := ofNat_toNat_of_lt (n := 0x80 + c % 64) (by omega)
    have hn : isTwo (UInt8.ofNat (0xE0 + c / 4096)) (UInt8.ofNat (0x80 + c / 64 % 64)) = false := by
      simp only [isTwo, isTail, h1, h2, Bool.and_eq_false_iff, decide_eq_false_iff_not]; omega
    have ht : isThree (UInt8.ofNat (0xE0 + c / 4096)) (UInt8.ofNat (0x80 + c / 64 % 64))
        (UInt8.ofNat (0x80 + c % 64)) = true := by
      simp only [isThree, isTail, h1, h2, h3, Bool.and_eq_true, Bool.or_eq_true,
        decide_eq_true_eq, bne_iff_ne]
      omega
    simp only [List.cons_append, List.nil_append]
    rw [check.eq_def]
    simp only [h1, hn, ht, if_true, Bool.false_eq_true, if_false,
      if_neg (show ¬ 0xE0 + c / 4096 < 0x80 by omega)]
  · have h1 := ofNat_toNat_of_lt (n := 0xF0 + c / 262144) (by omega)
    have h2 := ofNat_toNat_of_lt (n := 0x80 + c / 4096 % 64) (by omega)
    have h3 := ofNat_toNat_of_lt (n := 0x80 + c / 64 % 64) (by omega)
    have h4 := ofNat_toNat_of_lt (n := 0x80 + c % 64) (by omega)
    have hn : isTwo (UInt8.ofNat (0xF0 + c / 262144)) (UInt8.ofNat (0x80 + c / 4096 % 64)) =
        false := by
      simp only [isTwo, isTail, h1, h2, Bool.and_eq_false_iff, decide_eq_false_iff_not]; omega
    have hn' : isThree (UInt8.ofNat (0xF0 + c / 262144)) (UInt8.ofNat (0x80 + c / 4096 % 64))
        (UInt8.ofNat (0x80 + c / 64 % 64)) = false := by
      simp only [isThree, isTail, h1, h2, h3, Bool.and_eq_false_iff, decide_eq_false_iff_not]
      omega
    have ht : isFour (UInt8.ofNat (0xF0 + c / 262144)) (UInt8.ofNat (0x80 + c / 4096 % 64))
        (UInt8.ofNat (0x80 + c / 64 % 64)) (UInt8.ofNat (0x80 + c % 64)) = true := by
      simp only [isFour, isTail, h1, h2, h3, h4, Bool.and_eq_true, Bool.or_eq_true,
        decide_eq_true_eq, bne_iff_ne]
      omega
    simp only [List.cons_append, List.nil_append]
    rw [check.eq_def]
    simp only [h1, hn, hn', ht, Bool.true_and, Bool.false_eq_true, if_false,
      if_neg (show ¬ 0xF0 + c / 262144 < 0x80 by omega)]

/-! ## The language -/

theorem Valid.nil : Valid [] := ⟨[], by simp, rfl⟩

theorem Valid.append {s t : Bytes} (hs : Valid s) (ht : Valid t) : Valid (s ++ t) := by
  obtain ⟨cs, hcs, rfl⟩ := hs
  obtain ⟨ds, hds, rfl⟩ := ht
  refine ⟨cs ++ ds, fun c hc => ?_, by simp⟩
  rcases List.mem_append.1 hc with hc | hc
  · exact hcs c hc
  · exact hds c hc

theorem Valid.encode {c : Nat} (hc : IsScalar c) : Valid (encode c) :=
  ⟨[c], by simpa using hc, by simp⟩

/-- Text made of ASCII bytes is valid. -/
theorem Valid.of_ascii {s : Bytes} (h : ∀ b ∈ s, b.toNat < 0x80) : Valid s := by
  induction s with
  | nil => exact .nil
  | cons b s ih =>
    have hb := h b List.mem_cons_self
    have hv : Valid [b] := by
      have := Valid.encode (c := b.toNat) (Or.inl (by omega))
      rwa [encode_ascii hb, UInt8.ofNat_toNat] at this
    exact hv.append (ih fun b hb => h b (List.mem_cons_of_mem _ hb))

theorem check_append {s : Bytes} (hs : Valid s) (t : Bytes) : check (s ++ t) = check t := by
  obtain ⟨cs, hcs, rfl⟩ := hs
  induction cs with
  | nil => rfl
  | cons c cs ih =>
    rw [List.flatMap_cons, List.append_assoc, check_encode_append (hcs c List.mem_cons_self)]
    exact ih fun c hc => hcs c (List.mem_cons_of_mem _ hc)

theorem valid_of_check (s : Bytes) (h : check s = true) : Valid s := by
  -- one case for each alternative of the grammar, with the rest valid by induction
  fun_induction check s with
  | case1 => exact .nil
  | case2 a s ha ih =>
    have : Valid [a] := Valid.of_ascii (by simpa using ha)
    exact this.append (ih h)
  | case3 => cases h
  | case4 a ha b s hab ih =>
    obtain ⟨c, hc, -, he⟩ := isTwo_encode hab
    have := (Valid.encode hc).append (ih h)
    rwa [he] at this
  | case5 => cases h
  | case6 a ha b hab c s habc ih =>
    obtain ⟨e, hc, -, he⟩ := isThree_encode habc
    have := (Valid.encode hc).append (ih h)
    rwa [he] at this
  | case7 => cases h
  | case8 a ha b hab c habc d s ih =>
    rw [Bool.and_eq_true] at h
    obtain ⟨e, hc, -, he⟩ := isFour_encode h.1
    have := (Valid.encode hc).append (ih h.2)
    rwa [he] at this

/-- **The octet grammar accepts exactly the concatenations of encodings.** -/
theorem check_iff (s : Bytes) : check s = true ↔ Valid s := by
  refine ⟨valid_of_check s, fun h => ?_⟩
  have := check_append h []
  rwa [List.append_nil] at this

instance (s : Bytes) : Decidable (Valid s) := decidable_of_iff _ (check_iff s)

/-- Induction over a valid string, one character at a time: ASCII, or a run of high bytes. -/
theorem Valid.induction {P : Bytes → Prop} (nil : P [])
    (low : ∀ b s, b.toNat < 0x80 → Valid s → P s → P (b :: s))
    (high : ∀ c s, IsScalar c → 0x80 ≤ c → Valid s → P s → P (Utf8.encode c ++ s))
    {s : Bytes} (h : Valid s) : P s := by
  obtain ⟨cs, hcs, rfl⟩ := h
  induction cs with
  | nil => exact nil
  | cons c cs ih =>
    have hc := hcs c List.mem_cons_self
    have hcs' : ∀ c ∈ cs, IsScalar c := fun c hc => hcs c (List.mem_cons_of_mem _ hc)
    rw [List.flatMap_cons]
    by_cases hlow : c < 0x80
    · rw [encode_ascii hlow, List.singleton_append]
      exact low _ _ (by rw [ofNat_toNat_of_lt (by omega)]; exact hlow) ⟨cs, hcs', rfl⟩ (ih hcs')
    · exact high c _ hc (by omega) ⟨cs, hcs', rfl⟩ (ih hcs')

/-! ## Cutting a text -/

theorem isTail_iff (b : UInt8) : isTail b = true ↔ 0x80 ≤ b.toNat ∧ b.toNat ≤ 0xBF := by
  simp [isTail]

/-- Inside a character above ASCII the next byte is a tail, and what stands before it is no text. -/
theorem encode_inside {c n : Nat} (hc : IsScalar c) (hpos : 0 < n) (hn : n < (encode c).length) :
    ¬ Valid ((encode c).take n) ∧ ∃ b, (encode c)[n]? = some b ∧ isTail b = true := by
  have htail : ∀ d, isTail (UInt8.ofNat (0x80 + d % 64)) = true := by
    intro d
    rw [isTail_iff, ofNat_toNat_of_lt (by omega)]
    omega
  have hno : ∀ s, check s = false → ¬ Valid s := by
    intro s hs hv
    rw [(check_iff s).2 hv] at hs
    cases hs
  unfold IsScalar at hc
  unfold encode at hn ⊢
  split at hn
  · simp at hn
    omega
  split at hn
  · next h1 h2 =>
    obtain rfl : n = 1 := by simp at hn; omega
    rw [if_neg h1, if_pos h2]
    have hlead := ofNat_toNat_of_lt (n := 0xC0 + c / 64) (by omega)
    refine ⟨hno _ ?_, _, rfl, htail _⟩
    simp only [List.take_succ_cons, List.take_zero, check, hlead]
    rw [if_neg (by omega)]
  split at hn
  · next h1 h2 h3 =>
    rw [if_neg h1, if_neg h2, if_pos h3]
    have hlead := ofNat_toNat_of_lt (n := 0xE0 + c / 4096) (by omega)
    have h12 : n = 1 ∨ n = 2 := by simp at hn; omega
    rcases h12 with rfl | rfl
    · refine ⟨hno _ ?_, _, rfl, htail _⟩
      simp only [List.take_succ_cons, List.take_zero, check, hlead]
      rw [if_neg (by omega)]
    · refine ⟨hno _ ?_, _, rfl, htail _⟩
      simp only [List.take_succ_cons, List.take_zero, check, isTwo, hlead]
      rw [if_neg (by omega), if_neg (by simp; omega)]
  · next h1 h2 h3 =>
    rw [if_neg h1, if_neg h2, if_neg h3]
    have hlead := ofNat_toNat_of_lt (n := 0xF0 + c / 262144) (by omega)
    have h123 : n = 1 ∨ n = 2 ∨ n = 3 := by simp at hn; omega
    rcases h123 with rfl | rfl | rfl
    · refine ⟨hno _ ?_, _, rfl, htail _⟩
      simp only [List.take_succ_cons, List.take_zero, check, hlead]
      rw [if_neg (by omega)]
    · refine ⟨hno _ ?_, _, rfl, htail _⟩
      simp only [List.take_succ_cons, List.take_zero, check, isTwo, hlead]
      rw [if_neg (by omega), if_neg (by simp; omega)]
    · refine ⟨hno _ ?_, _, rfl, htail _⟩
      simp only [List.take_succ_cons, List.take_zero, check, isTwo, isThree, hlead]
      rw [if_neg (by omega), if_neg (by simp; omega), if_neg (by simp; omega)]

theorem encode_head {c : Nat} (hc : IsScalar c) :
    ∃ b t, encode c = b :: t ∧ isTail b = false := by
  unfold IsScalar at hc
  have hlead : ∀ d, d < 0x80 ∨ (0xC0 ≤ d ∧ d < 256) → isTail (UInt8.ofNat d) = false := by
    intro d hd
    rw [Bool.eq_false_iff, ne_eq, isTail_iff, ofNat_toNat_of_lt (by omega)]
    omega
  unfold encode
  split
  · exact ⟨_, _, rfl, hlead _ (by omega)⟩
  split
  · exact ⟨_, _, rfl, hlead _ (by omega)⟩
  split
  · exact ⟨_, _, rfl, hlead _ (by omega)⟩
  · exact ⟨_, _, rfl, hlead _ (by omega)⟩

theorem valid_append_iff {s : Bytes} (hs : Valid s) (t : Bytes) : Valid (s ++ t) ↔ Valid t := by
  rw [← check_iff, ← check_iff, check_append hs]

theorem CodePoint.append_right {s t : Bytes} {c : Nat} (h : CodePoint s c) (ht : Valid t) :
    CodePoint (s ++ t) c := by
  obtain ⟨cs, hcs, rfl, hc⟩ := h
  obtain ⟨ds, hds, rfl⟩ := ht
  refine ⟨cs ++ ds, fun c hc => ?_, by rw [List.flatMap_append], List.mem_append_left _ hc⟩
  rcases List.mem_append.1 hc with hc | hc
  · exact hcs c hc
  · exact hds c hc

/-- **A text may be cut before a byte exactly when that byte is no tail.** -/
theorem Valid.take_iff {s : Bytes} (h : Valid s) (n : Nat) :
    Valid (s.take n) ↔ ∀ b, s[n]? = some b → isTail b = false := by
  obtain ⟨cs, hcs, rfl⟩ := h
  induction cs generalizing n with
  | nil => simp [Valid.nil]
  | cons c cs ih =>
    have hc := hcs c List.mem_cons_self
    have hrest := ih (n - (Utf8.encode c).length) fun c hc => hcs c (List.mem_cons_of_mem _ hc)
    rw [List.flatMap_cons]
    by_cases hlen : (Utf8.encode c).length ≤ n
    · -- behind the first character
      rw [List.take_append, List.take_of_length_le hlen, valid_append_iff (.encode hc), hrest,
        List.getElem?_append_right hlen]
    rw [List.take_append_of_le_length (by omega), List.getElem?_append_left (by omega)]
    by_cases hpos : 0 < n
    · obtain ⟨hinvalid, b, hb, htail⟩ := encode_inside hc hpos (by omega)
      refine ⟨fun hv => absurd hv hinvalid, fun hall => ?_⟩
      rw [hall b hb] at htail
      cases htail
    · obtain rfl : n = 0 := by omega
      obtain ⟨b, t, hb, hhead⟩ := encode_head hc
      rw [List.take_zero, hb]
      refine ⟨fun _ b' hb' => ?_, fun _ => .nil⟩
      obtain rfl : b = b' := by simpa using hb'
      exact hhead

/-- An ASCII byte stands between two texts. -/
theorem Valid.split {s t : Bytes} {b : UInt8} (h : Valid (s ++ b :: t)) (hb : b.toNat < 0x80) :
    Valid s ∧ Valid t := by
  have hs : Valid s := by
    have hcut := (h.take_iff s.length).2 ?_
    · rwa [List.take_left] at hcut
    · intro c hc
      rw [List.getElem?_append_right (Nat.le_refl _), Nat.sub_self] at hc
      obtain rfl : b = c := Option.some.inj hc
      rw [Bool.eq_false_iff, ne_eq, isTail_iff]
      omega
  have hone : Valid [b] := .of_ascii (by simpa using hb)
  rw [valid_append_iff hs, ← List.singleton_append, valid_append_iff hone] at h
  exact ⟨hs, h⟩

/-- A text that is not empty stands between two texts. -/
theorem Valid.around {k l r : Bytes} (hk : Valid k) (hne : k ≠ []) :
    Valid (l ++ (k ++ r)) ↔ Valid l ∧ Valid r := by
  refine ⟨fun h => ?_, fun h => h.1.append (hk.append h.2)⟩
  obtain ⟨b, k', rfl⟩ := List.exists_cons_of_ne_nil hne
  have hhead : isTail b = false := (hk.take_iff 0).1 (by rw [List.take_zero]; exact .nil) b rfl
  have hl : Valid l := by
    have hcut := (h.take_iff l.length).2 fun c hc => ?_
    · rwa [List.take_left] at hcut
    · rw [List.getElem?_append_right (Nat.le_refl _), Nat.sub_self] at hc
      rw [← Option.some.inj hc]
      exact hhead
  rw [valid_append_iff hl, valid_append_iff hk] at h
  exact ⟨hl, h⟩

/-- **Stretches joined by a text** are a text exactly when each of them is. -/
theorem valid_intercalate {k : Bytes} (hk : Valid k) (hne : k ≠ []) (ps : List Bytes) :
    Valid (k.intercalate ps) ↔ ∀ p ∈ ps, Valid p := by
  induction ps with
  | nil => simp [Valid.nil]
  | cons p ps ih =>
    cases ps with
    | nil => simp
    | cons q ps =>
      rw [List.intercalate_cons_cons, List.append_assoc, hk.around hne, ih]
      exact List.forall_mem_cons.symm

theorem check_surrogate {a b : UInt8} (ha : a.toNat = 0xED) (hb : 0xA0 ≤ b.toNat) (c : UInt8)
    (t : Bytes) : check (a :: b :: c :: t) = false := by
  have htwo : isTwo a b = false := by simp [isTwo, ha]
  have hthree : isThree a b c = false := by
    have hrange : decide (b.toNat ≤ 0x9F) = false := decide_eq_false (by omega)
    simp [isThree, ha, hrange]
  have hfour : ∀ d, isFour a b c d = false := by simp [isFour, ha]
  rw [check.eq_def]
  cases t with
  | nil => simp [ha, htwo, hthree]
  | cons d t => simp [ha, htwo, hthree, hfour]

/-- A surrogate in three bytes is not UTF-8. -/
theorem not_valid_surrogate {u : Nat} (hlo : 0xD800 ≤ u) (hhi : u < 0xE000) (t : Bytes) :
    ¬ Valid (encode u ++ t) := by
  have hlead : (UInt8.ofNat (0xE0 + u / 4096)).toNat = 0xED := by
    rw [UInt8.toNat_ofNat']
    omega
  have hnext : 0xA0 ≤ (UInt8.ofNat (0x80 + u / 64 % 64)).toNat := by
    rw [UInt8.toNat_ofNat']
    omega
  rw [← check_iff, encode, if_neg (by omega), if_neg (by omega), if_pos (by omega)]
  simp only [List.cons_append, List.nil_append, check_surrogate hlead hnext]
  exact Bool.false_ne_true

end Lib.Utf8
