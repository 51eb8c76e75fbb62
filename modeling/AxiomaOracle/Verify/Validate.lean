import AxiomaOracle.Lib.Utf8
import AxiomaOracle.Oracle.Validate

/-!
# Encoding validation meets RFC 3629

The scanner of `validate.c` tests bits and recomputes code points; the grammar of RFC 3629 gives
byte ranges. They accept the same strings (`axValidateUtf8_eq_check`). Normalisation, when the
destination has room, is the pure function `normLF`, which keeps the encoding valid, leaves no
carriage return and is the identity exactly on texts that have none.
-/

namespace AxiomaOracle

open Lib

/-! ## Bit tests as byte ranges -/

/-- The masks of the scanner, on each of the 256 bytes. -/
theorem byte_masks : ∀ n < 256,
    (n &&& 0xE0 = 0xC0 ↔ 0xC0 ≤ n ∧ n ≤ 0xDF) ∧ (n &&& 0xF0 = 0xE0 ↔ 0xE0 ≤ n ∧ n ≤ 0xEF) ∧
    (n &&& 0xF8 = 0xF0 ↔ 0xF0 ≤ n ∧ n ≤ 0xF7) ∧ (n &&& 0xC0 = 0x80 ↔ 0x80 ≤ n ∧ n ≤ 0xBF) ∧
    (0xC0 ≤ n ∧ n ≤ 0xDF → (n &&& 0x1E = 0 ↔ n < 0xC2)) := by
  decide +kernel

theorem lead2_iff (a : UInt8) : a.toNat &&& 0xE0 = 0xC0 ↔ 0xC0 ≤ a.toNat ∧ a.toNat ≤ 0xDF :=
  (byte_masks a.toNat (byte_lt a)).1

theorem lead3_iff (a : UInt8) : a.toNat &&& 0xF0 = 0xE0 ↔ 0xE0 ≤ a.toNat ∧ a.toNat ≤ 0xEF :=
  (byte_masks a.toNat (byte_lt a)).2.1

theorem lead4_iff (a : UInt8) : a.toNat &&& 0xF8 = 0xF0 ↔ 0xF0 ≤ a.toNat ∧ a.toNat ≤ 0xF7 :=
  (byte_masks a.toNat (byte_lt a)).2.2.1

theorem overlong2_iff {a : UInt8} (ha : 0xC0 ≤ a.toNat ∧ a.toNat ≤ 0xDF) :
    a.toNat &&& 0x1E = 0 ↔ a.toNat < 0xC2 :=
  (byte_masks a.toNat (byte_lt a)).2.2.2.2 ha

theorem isContinuation_eq (b : UInt8) : isContinuation b = Utf8.isTail b := by
  have hmask := (byte_masks b.toNat (byte_lt b)).2.2.2.1
  rw [isContinuation, Utf8.isTail, Bool.eq_iff_iff, Bool.and_eq_true, beq_iff_eq,
    decide_eq_true_eq, decide_eq_true_eq]
  exact hmask

theorem shiftLeft_or {a b i : Nat} (h : b < 2 ^ i) : a <<< i ||| b = a * 2 ^ i + b := by
  rw [← Nat.shiftLeft_add_eq_or_of_lt h, Nat.shiftLeft_eq]

theorem codePoint3_eq (c b1 b2 : UInt8) : codePoint3 c b1 b2 =
    (c.toNat % 16) * 4096 + ((b1.toNat % 64) * 64 + b2.toNat % 64) := by
  have h4 : ∀ x : Nat, x &&& 0x0F = x % 16 := fun x => Nat.and_two_pow_sub_one_eq_mod x 4
  have h6 : ∀ x : Nat, x &&& 0x3F = x % 64 := fun x => Nat.and_two_pow_sub_one_eq_mod x 6
  unfold codePoint3
  rw [h4, h6, h6, Nat.or_assoc, shiftLeft_or (i := 6) (by omega), shiftLeft_or (by omega)]
  omega

theorem codePoint4_eq (c b1 b2 b3 : UInt8) : codePoint4 c b1 b2 b3 =
    (c.toNat % 8) * 262144 +
      ((b1.toNat % 64) * 4096 + ((b2.toNat % 64) * 64 + b3.toNat % 64)) := by
  have h3 : ∀ x : Nat, x &&& 0x07 = x % 8 := fun x => Nat.and_two_pow_sub_one_eq_mod x 3
  have h6 : ∀ x : Nat, x &&& 0x3F = x % 64 := fun x => Nat.and_two_pow_sub_one_eq_mod x 6
  unfold codePoint4
  rw [h3, h6, h6, h6, Nat.or_assoc, Nat.or_assoc, shiftLeft_or (i := 6) (by omega),
    shiftLeft_or (i := 12) (by omega), shiftLeft_or (by omega)]
  omega

/-! ## The scanner accepts the octet grammar -/

theorem isTwo_iff (a b : UInt8) : Utf8.isTwo a b = true ↔
    (a.toNat &&& 0xE0 = 0xC0 ∧ isContinuation b = true ∧ ¬ a.toNat &&& 0x1E = 0) := by
  rw [lead2_iff, isContinuation_eq]
  simp only [Utf8.isTwo, Bool.and_eq_true, decide_eq_true_eq]
  constructor
  · rintro ⟨⟨h1, h2⟩, h3⟩
    exact ⟨⟨by omega, h2⟩, h3, by rw [overlong2_iff ⟨by omega, h2⟩]; omega⟩
  · rintro ⟨h1, h2, h3⟩
    rw [overlong2_iff h1] at h3
    exact ⟨⟨by omega, h1.2⟩, h2⟩

theorem isThree_iff (a b c : UInt8) : Utf8.isThree a b c = true ↔
    (a.toNat &&& 0xF0 = 0xE0 ∧ isContinuation b = true ∧ isContinuation c = true ∧
      ¬ codePoint3 a b c < 0x800 ∧
      ¬ (0xD800 ≤ codePoint3 a b c ∧ codePoint3 a b c ≤ 0xDFFF)) := by
  rw [lead3_iff, isContinuation_eq, isContinuation_eq, codePoint3_eq]
  simp only [Utf8.isThree, Utf8.isTail, Bool.and_eq_true, Bool.or_eq_true, decide_eq_true_eq,
    bne_iff_ne]
  constructor
  · rintro ⟨⟨⟨⟨h1, h2⟩, h3⟩, h4⟩, h5⟩
    exact ⟨h1, h2, h3, by omega, by omega⟩
  · rintro ⟨h1, h2, h3, h4, h5⟩
    exact ⟨⟨⟨⟨h1, h2⟩, h3⟩, by omega⟩, by omega⟩

theorem isFour_iff (a b c d : UInt8) : Utf8.isFour a b c d = true ↔
    (a.toNat &&& 0xF8 = 0xF0 ∧ isContinuation b = true ∧ isContinuation c = true ∧
      isContinuation d = true ∧
      ¬ (codePoint4 a b c d < 0x10000 ∨ codePoint4 a b c d > 0x10FFFF)) := by
  rw [lead4_iff, isContinuation_eq, isContinuation_eq, isContinuation_eq, codePoint4_eq]
  simp only [Utf8.isFour, Utf8.isTail, Bool.and_eq_true, Bool.or_eq_true, decide_eq_true_eq,
    bne_iff_ne]
  constructor
  · rintro ⟨⟨⟨⟨⟨h1, h2⟩, h3⟩, h4⟩, h5⟩, h6⟩
    exact ⟨by omega, h2, h3, h4, by omega⟩
  · rintro ⟨h1, h2, h3, h4, h5⟩
    exact ⟨⟨⟨⟨⟨by omega, h2⟩, h3⟩, h4⟩, by omega⟩, by omega⟩

theorem lead3_not_lead2 {a : UInt8} (h : a.toNat &&& 0xF0 = 0xE0) : ¬ a.toNat &&& 0xE0 = 0xC0 := by
  rw [lead3_iff] at h
  rw [lead2_iff]
  omega

theorem lead4_not_lead23 {a : UInt8} (h : a.toNat &&& 0xF8 = 0xF0) :
    ¬ a.toNat &&& 0xE0 = 0xC0 ∧ ¬ a.toNat &&& 0xF0 = 0xE0 := by
  rw [lead4_iff] at h
  rw [lead2_iff, lead3_iff]
  omega

/-- **The scanner of `validate.c` accepts exactly RFC 3629.** -/
theorem axValidateUtf8_eq_check (s : Bytes) : axValidateUtf8 s = Utf8.check s := by
  fun_induction Utf8.check s with
  | case1 => rfl
  | case2 a s ha ih => rw [axValidateUtf8.eq_def]; simp only [ha, if_true, ih]
  | case3 a ha => rw [axValidateUtf8.eq_def]; simp [ha]
  | case4 a ha b s hab ih =>
    obtain ⟨h1, h2, h3⟩ := (isTwo_iff a b).1 hab
    rw [axValidateUtf8.eq_def]
    simp [ha, h1, h2, h3, ih]
  | case5 a ha b hab =>
    rw [isTwo_iff] at hab
    rw [axValidateUtf8.eq_def]
    simp only [if_neg ha]
    grind
  | case6 a ha b hab c s habc ih =>
    obtain ⟨h1, h2, h3, h4, h5⟩ := (isThree_iff a b c).1 habc
    rw [axValidateUtf8.eq_def]
    simp [ha, lead3_not_lead2 h1, h1, h2, h3, h4, h5, ih]
  | case7 a ha b hab c habc =>
    rw [isTwo_iff] at hab
    rw [isThree_iff] at habc
    rw [axValidateUtf8.eq_def]
    simp only [if_neg ha]
    grind
  | case8 a ha b hab c habc d s ih =>
    rw [isTwo_iff] at hab
    rw [isThree_iff] at habc
    rw [axValidateUtf8.eq_def, Bool.eq_iff_iff, Bool.and_eq_true, isFour_iff, ← ih]
    have h23 := lead4_not_lead23 (a := a)
    simp only [if_neg ha]
    grind

/-! ## Line endings -/

/-- Every `\r\n` and every other `\r` as one `\n`. -/
def normLF : Bytes → Bytes
  | [] => []
  | c :: src =>
    if c = chr '\r' then
      match src with
      | [] => [chr '\n']
      | d :: src' => if d = chr '\n' then chr '\n' :: normLF src' else chr '\n' ::
          normLF (d :: src')
    else c :: normLF src

theorem normLF_of_ne {c : UInt8} (hc : c ≠ chr '\r') (s : Bytes) :
    normLF (c :: s) = c :: normLF s := by
  rw [normLF.eq_def]
  simp only [if_neg hc]

/-- A carriage return is absorbed by a line feed after it and becomes one otherwise. -/
theorem normLF_cr (s : Bytes) :
    normLF (chr '\r' :: s) = normLF s ∨ normLF (chr '\r' :: s) = chr '\n' :: normLF s := by
  have hn : chr '\n' ≠ chr '\r' := by decide
  cases s with
  | nil => exact .inr rfl
  | cons d s =>
    rw [normLF.eq_def]
    simp only [if_true]
    split
    · next hd => exact .inl (by rw [hd, normLF_of_ne hn])
    · exact .inr rfl

theorem normaliseLoop_eq (room : Nat) (src : Bytes) :
    if (normLF src).length ≤ room then normaliseLoop room src = (normLF src, [])
    else (normaliseLoop room src).2 ≠ [] := by
  fun_induction normaliseLoop room src with
  | case1 => simp [normLF]
  | case2 c src =>
    have : (normLF (c :: src)).length ≠ 0 := by
      rw [normLF.eq_def]
      grind
    rw [if_neg (by omega)]
    simp
  | case3 room => rw [normLF.eq_def]; simp
  | case4 room src w rest hw ih => rw [normLF.eq_def]; grind
  | case5 room d src hd w rest hw ih => rw [normLF.eq_def]; grind
  | case6 room c src hc w rest hw ih => rw [normLF_of_ne hc]; grind

/-- **Normalisation is `normLF` or an error**, by the room in the destination. -/
theorem axNormaliseLineEndings_eq (dstSize : Nat) (src : Bytes) :
    axNormaliseLineEndings dstSize src =
      if (normLF src).length ≤ sizePred dstSize then .ok (normLF src) else .error .buffer := by
  have h := normaliseLoop_eq (sizePred dstSize) src
  unfold axNormaliseLineEndings
  split at h
  · next hl => rw [if_pos hl, h]
  · next hl =>
    rw [if_neg hl]
    split
    · next w hw => rw [hw] at h; exact absurd rfl h
    · rfl

theorem normLF_of_high {t : Bytes} (ht : ∀ b ∈ t, 0x80 ≤ b.toNat) (s : Bytes) :
    normLF (t ++ s) = t ++ normLF s := by
  induction t with
  | nil => rfl
  | cons b t ih =>
    have hb : b ≠ chr '\r' := by
      rintro rfl
      exact absurd (ht _ List.mem_cons_self) (by decide)
    rw [List.cons_append, normLF_of_ne hb, ih fun b hb => ht b (List.mem_cons_of_mem _ hb)]
    rfl

theorem normLF_valid {s : Bytes} (h : Utf8.Valid s) : Utf8.Valid (normLF s) := by
  refine Utf8.Valid.induction (P := fun s => Utf8.Valid (normLF s)) .nil ?_ ?_ h
  · intro b s hb _ ih
    have hn : Utf8.Valid [chr '\n'] := .of_ascii (by decide)
    have hb' : Utf8.Valid [b] := .of_ascii (by simpa using hb)
    by_cases hcr : b = chr '\r'
    · subst hcr
      rcases normLF_cr s with hs | hs
      · rw [hs]; exact ih
      · rw [hs]; exact hn.append ih
    · rw [normLF_of_ne hcr]
      exact hb'.append ih
  · intro c s hc hhigh _ ih
    rw [normLF_of_high (Utf8.encode_high hc hhigh)]
    exact (Utf8.Valid.encode hc).append ih

theorem cr_notMem_normLF (s : Bytes) : chr '\r' ∉ normLF s := by
  fun_induction normLF s with
  | case1 => simp
  | case2 => decide
  | case3 src ih => simp only [List.mem_cons, not_or]; exact ⟨by decide, ih⟩
  | case4 d src hd ih => simp only [List.mem_cons, not_or] at ih ⊢; exact ⟨by decide, ih⟩
  | case5 c src hc ih => simp only [List.mem_cons, not_or]; exact ⟨fun h => hc h.symm, ih⟩

theorem normLF_eq_self_iff (s : Bytes) : normLF s = s ↔ chr '\r' ∉ s := by
  refine ⟨fun h => h ▸ cr_notMem_normLF s, fun h => ?_⟩
  induction s with
  | nil => rfl
  | cons c s ih =>
    simp only [List.mem_cons, not_or] at h
    rw [normLF_of_ne fun hc => h.1 hc.symm, ih h.2]

theorem normLF_ne_nil {s : Bytes} (h : s ≠ []) : normLF s ≠ [] := by
  cases s with
  | nil => exact absurd rfl h
  | cons c s =>
    rw [normLF.eq_def]
    dsimp only
    repeat' split
    all_goals simp

theorem normLF_length_le (s : Bytes) : (normLF s).length ≤ s.length := by
  fun_induction normLF s with
  | case1 => exact Nat.le_refl _
  | case2 => exact Nat.le_refl _
  | case3 src ih => simp only [List.length_cons]; omega
  | case4 d src hd ih => simp only [List.length_cons] at ih ⊢; omega
  | case5 c src hc ih => simp only [List.length_cons]; omega

/-! ## Accepted outputs -/

theorem nulFree_of_control {s : Bytes} (h : axContainsForbiddenControl s = false) :
    (0 : UInt8) ∉ s := by
  intro h0
  have : isForbiddenControl 0 = false := by
    rw [axContainsForbiddenControl, List.any_eq_false] at h
    simpa using h 0 h0
  exact absurd this (by decide)

/-- What `ax_validate_and_normalise` has checked when it returns a length. -/
theorem axValidateAndNormalise_ok {dstSize : Nat} {src dst : Bytes} {f f' : AxL3FaultFlags}
    (h : axValidateAndNormalise dstSize src f = (.ok dst, f')) :
    dst = normLF src ∧ f' = f ∧ Utf8.Valid src ∧ axContainsForbiddenControl dst = false ∧
      axIsNfc dst = true := by
  unfold axValidateAndNormalise at h
  rw [axNormaliseLineEndings_eq, axValidateUtf8_eq_check] at h
  split at h
  · cases h
  · next hu =>
    have hv : Utf8.Valid src := (Utf8.check_iff src).1 (by simpa using hu)
    split at h
    · cases h
    · next d hd =>
      have hd' : normLF src = d := by
        split at hd
        · exact Except.ok.inj hd
        · cases hd
      subst hd'
      split at h
      · cases h
      split at h
      · cases h
      cases h
      exact ⟨rfl, rfl, hv, by simp_all, by simp_all⟩

theorem axValidateEncoding_normLF {src : Bytes} (hv : Utf8.Valid src)
    (hn : axIsNfc (normLF src) = true) : axValidateEncoding (normLF src) = .ok () := by
  have hu : axValidateUtf8 (normLF src) = true := by
    rw [axValidateUtf8_eq_check, Utf8.check_iff]
    exact normLF_valid hv
  simp [axValidateEncoding, hu, hn]

end AxiomaOracle
