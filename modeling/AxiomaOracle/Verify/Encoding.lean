import AxiomaOracle.Gateway.Scanners
import AxiomaOracle.Verify.Upstream

/-!
# The encoding checks, exactly

Three implementations of UTF-8 meet in the gateway: the scanner of `validate.c`, the loop of
`gwj_escape_utf8` and the standard. The first part shows that the loops over an index compute what
the recursive scanners do, without a read at or past the end, and that both accept RFC 3629.

The second part is about `ax_validate_and_normalise`. Its two later passes look at bytes and at code
points they decode without checks; on valid text both are statements about the code points
(`axIsNfc_flatMap`, `axContainsForbiddenControl_flatMap`), so that the whole function is determined
by `Storable`. The third part compares it with `ax_validate_encoding`.
-/

namespace AxiomaOracle

open Lib

/-! ## The scanners read by read -/

theorem read_append (pre s : Bytes) (k : Nat) : (pre ++ s)[pre.length + k]? = s[k]? := by
  rw [List.getElem?_append_right (by omega), Nat.add_sub_cancel_left]

/-- **The pointer loop of `ax_validate_utf8` computes the scanner** and finds every byte it
reads. -/
theorem axValidateUtf8From_eq (pre s : Bytes) :
    axValidateUtf8From (pre ++ s) (pre.length + s.length) pre.length = some (axValidateUtf8 s) := by
  induction hn : s.length using Nat.strong_induction_on generalizing pre s with
  | _ n ih =>
  subst hn
  -- the loop goes on behind the bytes it has passed
  have next : ∀ t s', s = t ++ s' → t ≠ [] →
      axValidateUtf8From (pre ++ s) (pre.length + s.length) (pre.length + t.length) =
        some (axValidateUtf8 s') := by
    rintro t s' rfl ht
    have hlen := List.length_pos_iff.2 ht
    have hrest := ih s'.length (by rw [List.length_append]; omega) (pre ++ t) s' rfl
    rwa [List.append_assoc, List.length_append, Nat.add_assoc, ← List.length_append] at hrest
  have read : ∀ k, (pre ++ s)[pre.length + k]? = s[k]? := read_append pre s
  have read0 : (pre ++ s)[pre.length]? = s[0]? := read 0
  have room : ∀ k, pre.length + k ≥ pre.length + s.length ↔ s.length ≤ k := by omega
  rw [axValidateUtf8From, axValidateUtf8.eq_def]
  cases s with
  | nil => simp only [List.length_nil, Nat.add_zero, Nat.lt_irrefl, if_false]
  | cons c p =>
    rw [if_pos (by simp)]
    simp only [read, read0, room, List.getElem?_cons_zero, List.getElem?_cons_succ,
      Option.bind_eq_bind, Option.bind_some]
    by_cases h1 : c.toNat < 0x80
    · rw [if_pos h1, if_pos h1]
      exact next [c] p rfl (by simp)
    rw [if_neg h1, if_neg h1]
    by_cases h2 : c.toNat &&& 0xE0 = 0xC0
    · rw [if_pos h2, if_pos h2]
      rcases p with _ | ⟨b1, p⟩
      · rfl
      have hrec := next [c, b1] p rfl (by simp)
      rw [if_neg (by simp)]
      simp only [List.getElem?_cons_zero, Option.bind_some, apply_ite some, ← hrec]
      rfl
    rw [if_neg h2, if_neg h2]
    by_cases h3 : c.toNat &&& 0xF0 = 0xE0
    · rw [if_pos h3, if_pos h3]
      rcases p with _ | ⟨b1, _ | ⟨b2, p⟩⟩
      · rfl
      · rfl
      have hrec := next [c, b1, b2] p rfl (by simp)
      rw [if_neg (by simp)]
      simp only [List.getElem?_cons_zero, List.getElem?_cons_succ, Option.bind_some,
        apply_ite some, ← hrec]
      rfl
    rw [if_neg h3, if_neg h3]
    by_cases h4 : c.toNat &&& 0xF8 = 0xF0
    · rw [if_pos h4, if_pos h4]
      rcases p with _ | ⟨b1, _ | ⟨b2, _ | ⟨b3, p⟩⟩⟩
      · rfl
      · rfl
      · rfl
      have hrec := next [c, b1, b2, b3] p rfl (by simp)
      rw [if_neg (by simp)]
      simp only [List.getElem?_cons_zero, List.getElem?_cons_succ, Option.bind_some,
        apply_ite some, ← hrec]
      rfl
    · rw [if_neg h4, if_neg h4]

theorem axValidateUtf8At_eq (s : Bytes) :
    axValidateUtf8At s s.length = some (axValidateUtf8 s) := by
  have h := axValidateUtf8From_eq [] s
  rwa [List.nil_append, List.length_nil, Nat.zero_add] at h

theorem utf8SeqLenAt_eq (pre : Bytes) (c : UInt8) (s : Bytes) :
    utf8SeqLenAt (pre ++ c :: s) pre.length (c :: s).length = some (utf8SeqLen (c :: s)) := by
  have read : ∀ k, (pre ++ c :: s)[pre.length + k]? = (c :: s)[k]? := read_append pre _
  have read0 : (pre ++ c :: s)[pre.length]? = (c :: s)[0]? := read 0
  unfold utf8SeqLenAt utf8SeqLen
  simp only [read, read0, List.getElem?_cons_zero, List.getElem?_cons_succ,
    Option.bind_eq_bind, Option.bind_some]
  by_cases h1 : c.toNat < 0x80
  · rw [if_pos h1, if_pos h1]
  rw [if_neg h1, if_neg h1]
  by_cases h2 : 0xC2 ≤ c.toNat ∧ c.toNat ≤ 0xDF
  · rw [if_pos h2, if_pos h2]
    rcases s with _ | ⟨b1, s⟩
    · rfl
    · simp only [ge_iff_le, List.length_cons, List.getElem?_cons_zero, Option.bind_some]
      rw [if_pos (by omega)]
  rw [if_neg h2, if_neg h2]
  by_cases h3 : 0xE0 ≤ c.toNat ∧ c.toNat ≤ 0xEF
  · rw [if_pos h3, if_pos h3]
    rcases s with _ | ⟨b1, _ | ⟨b2, s⟩⟩
    · rfl
    · rfl
    · simp only [ge_iff_le, List.length_cons, List.getElem?_cons_zero, List.getElem?_cons_succ,
        Option.bind_some]
      rw [if_pos (by omega)]
      grind
  rw [if_neg h3, if_neg h3]
  by_cases h4 : 0xF0 ≤ c.toNat ∧ c.toNat ≤ 0xF4
  · rw [if_pos h4, if_pos h4]
    rcases s with _ | ⟨b1, _ | ⟨b2, _ | ⟨b3, s⟩⟩⟩
    · rfl
    · rfl
    · rfl
    · simp only [ge_iff_le, List.length_cons, List.getElem?_cons_zero, List.getElem?_cons_succ,
        Option.bind_some]
      rw [if_pos (by omega)]
      grind
  · rw [if_neg h4, if_neg h4]

/-! ## The loop of `gwj_escape_utf8` accepts RFC 3629 -/

theorem isTail_of_and {b : UInt8} (h : b.toNat &&& 0xC0 = 0x80) : Utf8.isTail b = true := by
  rw [← isContinuation_eq, isContinuation, h]
  rfl

/-- A sequence length is the length of one character. -/
theorem utf8SeqLen_sound {c : UInt8} {s : Bytes} (h : utf8SeqLen (c :: s) ≠ 0) :
    utf8SeqLen (c :: s) ≤ (c :: s).length ∧
      Utf8.Valid ((c :: s).take (utf8SeqLen (c :: s))) := by
  have valid : ∀ {t : Bytes}, (∃ e, Utf8.IsScalar e ∧ 0x80 ≤ e ∧ Utf8.encode e = t) →
      Utf8.Valid t := by
    rintro t ⟨e, he, -, rfl⟩
    exact .encode he
  unfold utf8SeqLen at h ⊢
  dsimp only at h ⊢
  by_cases h1 : c.toNat < 0x80
  · rw [if_pos h1]
    exact ⟨by simp, .of_ascii (by simpa using h1)⟩
  rw [if_neg h1] at h ⊢
  by_cases h2 : 0xC2 ≤ c.toNat ∧ c.toNat ≤ 0xDF
  · rw [if_pos h2] at h ⊢
    rcases s with _ | ⟨b1, s⟩
    · exact absurd rfl h
    have hb : b1.toNat &&& 0xC0 = 0x80 := (ite_ne_right_iff.1 h).1
    dsimp only
    rw [if_pos hb]
    refine ⟨by simp, valid (Utf8.isTwo_encode ?_)⟩
    simp [Utf8.isTwo, h2, isTail_of_and hb]
  rw [if_neg h2] at h ⊢
  by_cases h3 : 0xE0 ≤ c.toNat ∧ c.toNat ≤ 0xEF
  · rw [if_pos h3] at h ⊢
    rcases s with _ | ⟨b1, _ | ⟨b2, s⟩⟩
    · exact absurd rfl h
    · exact absurd rfl h
    dsimp only at h ⊢
    have hb := (ite_ne_right_iff.1 h).1
    rw [if_pos hb]
    obtain ⟨hlo, hhi, ht⟩ := hb
    refine ⟨by simp, valid (Utf8.isThree_encode ?_)⟩
    have hE0 : c = 0xE0 ↔ c.toNat = 0xE0 := UInt8.toNat_inj.symm
    have hED : c = 0xED ↔ c.toNat = 0xED := UInt8.toNat_inj.symm
    simp only [hE0] at hlo
    simp only [hED] at hhi
    have htail : Utf8.isTail b1 = true := by
      rw [Utf8.isTail_iff]
      split at hlo <;> split at hhi <;> omega
    simp only [Utf8.isThree, h3, htail, isTail_of_and ht, Bool.and_eq_true, Bool.or_eq_true,
      decide_eq_true_eq, bne_iff_ne, decide_true, and_true, true_and]
    split at hlo <;> split at hhi <;> omega
  rw [if_neg h3] at h ⊢
  by_cases h4 : 0xF0 ≤ c.toNat ∧ c.toNat ≤ 0xF4
  · rw [if_pos h4] at h ⊢
    rcases s with _ | ⟨b1, _ | ⟨b2, _ | ⟨b3, s⟩⟩⟩
    · exact absurd rfl h
    · exact absurd rfl h
    · exact absurd rfl h
    dsimp only at h ⊢
    have hb := (ite_ne_right_iff.1 h).1
    rw [if_pos hb]
    obtain ⟨hlo, hhi, ht, hu⟩ := hb
    refine ⟨by simp, valid (Utf8.isFour_encode ?_)⟩
    have hF0 : c = 0xF0 ↔ c.toNat = 0xF0 := UInt8.toNat_inj.symm
    have hF4 : c = 0xF4 ↔ c.toNat = 0xF4 := UInt8.toNat_inj.symm
    simp only [hF0] at hlo
    simp only [hF4] at hhi
    have htail : Utf8.isTail b1 = true := by
      rw [Utf8.isTail_iff]
      split at hlo <;> split at hhi <;> omega
    simp only [Utf8.isFour, h4, htail, isTail_of_and ht, isTail_of_and hu, Bool.and_eq_true,
      Bool.or_eq_true, decide_eq_true_eq, bne_iff_ne, decide_true, and_true, true_and]
    split at hlo <;> split at hhi <;> omega
  · rw [if_neg h4] at h
    exact absurd rfl h

/-- The loop over the bytes that are left accepts exactly RFC 3629. -/
theorem utf8Loop_iff {fuel : Nat} {s : Bytes} (hfuel : s.length ≤ fuel) :
    utf8Loop fuel s = true ↔ Utf8.Valid s := by
  refine ⟨fun h => ?_, fun h => utf8Loop_of_check ((Utf8.check_iff s).2 h) hfuel⟩
  fun_induction utf8Loop fuel s with
  | case1 => exact .nil
  | case2 => cases h
  | case3 => cases h
  | case4 fuel c s n hn ih =>
    obtain ⟨hle, hv⟩ := utf8SeqLen_sound hn
    have hrest := ih (by simp at hfuel ⊢; omega) h
    have hall := hv.append hrest
    rwa [List.take_append_drop] at hall

/-- **The pointer loop of `gwj_escape_utf8` computes the loop over the rest**, and finds every byte
it reads. -/
theorem escapeUtf8From_eq (pre : Bytes) {fuel : Nat} {s : Bytes} (hfuel : s.length ≤ fuel) :
    escapeUtf8From (pre ++ s) (pre.length + s.length) pre.length = some (utf8Loop fuel s) := by
  induction fuel generalizing pre s with
  | zero =>
    obtain rfl : s = [] := List.length_eq_zero_iff.1 (by omega)
    rw [escapeUtf8From]
    simp [utf8Loop]
  | succ fuel ih =>
    cases s with
    | nil =>
      rw [escapeUtf8From]
      simp [utf8Loop]
    | cons c s =>
      rw [escapeUtf8From, if_pos (by simp), Nat.add_sub_cancel_left, utf8SeqLenAt_eq, utf8Loop]
      cases hn : utf8SeqLen (c :: s) with
      | zero => rfl
      | succ n =>
        have hle := (utf8SeqLen_sound (c := c) (s := s) (by omega)).1
        rw [hn] at hle
        have hrest := ih (pre ++ (c :: s).take (n + 1)) (s := (c :: s).drop (n + 1))
          (by simp at hfuel ⊢; omega)
        rw [List.append_assoc, List.take_append_drop, List.length_append,
          List.length_take_of_le hle, List.length_drop] at hrest
        dsimp only
        rw [if_neg (Nat.succ_ne_zero n), ← hrest]
        congr 1
        omega

theorem escapeUtf8At_eq (s : Bytes) : escapeUtf8At s s.length = some (utf8Loop s.length s) := by
  have h := escapeUtf8From_eq [] (Nat.le_refl s.length)
  rwa [List.nil_append, List.length_nil, Nat.zero_add] at h

theorem gwjEscapeLoop_none {cap o : Nat} {src : Bytes}
    (h : cap < o + (src.flatMap jsonEscape).length) (ho : o ≤ cap) :
    gwjEscapeLoop cap o src = none := by
  induction src generalizing o with
  | nil => simp at h; omega
  | cons c src ih =>
    rw [List.flatMap_cons, List.length_append] at h
    rw [gwjEscapeLoop]
    split
    · rfl
    · rw [ih (by omega) (by omega)]
      rfl

/-- `gwj_escape_utf8` fails on malformed text and for lack of space, and for no other reason. -/
theorem gwjEscapeUtf8_none_iff (cap : Nat) (src : Bytes) :
    gwjEscapeUtf8 cap src = none ↔
      ¬ Utf8.Valid src ∨ cap < (src.flatMap jsonEscape).length := by
  unfold gwjEscapeUtf8 gwjEscape
  by_cases hv : Utf8.Valid src
  · rw [if_pos ((utf8Loop_iff (Nat.le_refl _)).2 hv)]
    by_cases hfit : (src.flatMap jsonEscape).length ≤ cap
    · rw [gwjEscapeLoop_eq (by omega)]
      simp only [hv, not_true, Nat.not_lt.2 hfit, or_self, reduceCtorEq]
    · rw [gwjEscapeLoop_none (by omega) (Nat.zero_le _)]
      simp only [hv, not_true, Nat.not_le.1 hfit, or_true]
  · rw [if_neg (by rwa [utf8Loop_iff (Nat.le_refl _)])]
    simp [hv]

/-- **One UTF-8 language in three places.** Both scanners, run over the bytes of `s` and no others,
return (no read finds the end), and each accepts exactly the concatenations of encodings of scalar
values; so the escaper of the request fails on such a text only for lack of space. -/
theorem one_utf8_language (s : Bytes) :
    (axValidateUtf8At s s.length = some (axValidateUtf8 s) ∧
      (axValidateUtf8 s = true ↔ Utf8.Valid s)) ∧
    (escapeUtf8At s s.length = some (utf8Loop s.length s) ∧
      (utf8Loop s.length s = true ↔ Utf8.Valid s)) ∧
    ∀ cap, gwjEscapeUtf8 cap s = none ↔
      ¬ Utf8.Valid s ∨ cap < (s.flatMap jsonEscape).length := by
  refine ⟨⟨axValidateUtf8At_eq s, ?_⟩, ⟨escapeUtf8At_eq s, utf8Loop_iff (Nat.le_refl _)⟩, ?_⟩
  · rw [axValidateUtf8_eq_check]
    exact Utf8.check_iff s
  · exact fun cap => gwjEscapeUtf8_none_iff cap s

/-! ## Code points of a stored text -/

/-- A mark in one of the four blocks that are taken for a decomposed form. -/
def Combining (c : Nat) : Prop :=
  (0x0300 ≤ c ∧ c ≤ 0x036F) ∨ (0x1DC0 ≤ c ∧ c ≤ 0x1DFF) ∨ (0x20D0 ≤ c ∧ c ≤ 0x20FF) ∨
    (0xFE20 ≤ c ∧ c ≤ 0xFE2F)

/-- A code point below U+0020 other than LF, or DEL. -/
def Control (c : Nat) : Prop := (c < 0x20 ∧ c ≠ 0x0A) ∨ c = 0x7F

instance (c : Nat) : Decidable (Combining c) := inferInstanceAs (Decidable (_ ∨ _))

instance (c : Nat) : Decidable (Control c) := inferInstanceAs (Decidable (_ ∨ _))

/-- A code point that may stand in a stored text. -/
def Storable (c : Nat) : Prop := ¬ Control c ∧ ¬ Combining c

theorem codePoint2_eq {c : Nat} (hlo : 0x80 ≤ c) (hhi : c < 0x800) :
    (((UInt8.ofNat (0xC0 + c / 64)).toNat &&& 0x1F) <<< 6) |||
      ((UInt8.ofNat (0x80 + c % 64)).toNat &&& 0x3F) = c := by
  have h5 : ∀ x : Nat, x &&& 0x1F = x % 32 := fun x => Nat.and_two_pow_sub_one_eq_mod x 5
  have h6 : ∀ x : Nat, x &&& 0x3F = x % 64 := fun x => Nat.and_two_pow_sub_one_eq_mod x 6
  rw [ofNat_toNat_of_lt (by omega), ofNat_toNat_of_lt (by omega), h5, h6,
    shiftLeft_or (by omega)]
  omega

theorem codePoint3_encode {c : Nat} (hlo : 0x800 ≤ c) (hhi : c < 0x10000) :
    codePoint3 (UInt8.ofNat (0xE0 + c / 4096)) (UInt8.ofNat (0x80 + c / 64 % 64))
      (UInt8.ofNat (0x80 + c % 64)) = c := by
  rw [codePoint3_eq, ofNat_toNat_of_lt (by omega), ofNat_toNat_of_lt (by omega),
    ofNat_toNat_of_lt (by omega)]
  omega

/-- The combining-mark scan passes one character by its code point. -/
theorem axIsNfc_encode {c : Nat} (hc : Utf8.IsScalar c) (s : Bytes) :
    axIsNfc (Utf8.encode c ++ s) = (!decide (Combining c) && axIsNfc s) := by
  unfold Utf8.IsScalar at hc
  unfold Utf8.encode
  split
  · next h1 =>
    have hlead := ofNat_toNat_of_lt (n := c) (by omega)
    have hno : ¬ Combining c := by unfold Combining; omega
    rw [List.singleton_append, axIsNfc.eq_def]
    simp only [hlead, h1, if_true, hno, decide_false, Bool.not_false, Bool.true_and]
  split
  · next h1 h2 =>
    have hlead := ofNat_toNat_of_lt (n := 0xC0 + c / 64) (by omega)
    have h80 : ¬ (UInt8.ofNat (0xC0 + c / 64)).toNat < 0x80 := by omega
    have hE0 : (UInt8.ofNat (0xC0 + c / 64)).toNat &&& 0xE0 = 0xC0 := (lead2_iff _).2 (by omega)
    have hiff : isCombining2 c = true ↔ Combining c := by
      simp only [isCombining2, Combining, Bool.and_eq_true, decide_eq_true_eq]
      omega
    simp only [List.cons_append, List.nil_append]
    rw [axIsNfc.eq_def]
    simp only [h80, if_false, hE0, if_true, codePoint2_eq (c := c) (by omega) h2]
    by_cases hcomb : Combining c
    · simp [hcomb, hiff.2 hcomb]
    · simp [hcomb, Bool.eq_false_iff.2 (mt hiff.1 hcomb)]
  split
  · next h1 h2 h3 =>
    have hlead := ofNat_toNat_of_lt (n := 0xE0 + c / 4096) (by omega)
    have h80 : ¬ (UInt8.ofNat (0xE0 + c / 4096)).toNat < 0x80 := by omega
    have hF0 : (UInt8.ofNat (0xE0 + c / 4096)).toNat &&& 0xF0 = 0xE0 := (lead3_iff _).2 (by omega)
    have hiff : isCombining3 c = true ↔ Combining c := by
      simp only [isCombining3, Combining, Bool.and_eq_true, Bool.or_eq_true, decide_eq_true_eq]
      omega
    simp only [List.cons_append, List.nil_append]
    rw [axIsNfc.eq_def]
    simp only [h80, if_false, lead3_not_lead2 hF0, hF0, if_true,
      codePoint3_encode (c := c) (by omega) h3]
    by_cases hcomb : Combining c
    · simp [hcomb, hiff.2 hcomb]
    · simp [hcomb, Bool.eq_false_iff.2 (mt hiff.1 hcomb)]
  · next h1 h2 h3 =>
    have hlead := ofNat_toNat_of_lt (n := 0xF0 + c / 262144) (by omega)
    have h80 : ¬ (UInt8.ofNat (0xF0 + c / 262144)).toNat < 0x80 := by omega
    have hF8 : (UInt8.ofNat (0xF0 + c / 262144)).toNat &&& 0xF8 = 0xF0 := (lead4_iff _).2 (by omega)
    have hno : ¬ Combining c := by unfold Combining; omega
    simp only [List.cons_append, List.nil_append]
    rw [axIsNfc.eq_def]
    simp only [h80, if_false, lead4_not_lead23 hF8, hF8, if_true, hno, decide_false, Bool.not_false,
      Bool.true_and]

theorem axIsNfc_flatMap {cs : List Nat} (hcs : ∀ c ∈ cs, Utf8.IsScalar c) :
    axIsNfc (cs.flatMap Utf8.encode) = true ↔ ∀ c ∈ cs, ¬ Combining c := by
  induction cs with
  | nil => simp [axIsNfc]
  | cons c cs ih =>
    rw [List.flatMap_cons, axIsNfc_encode (hcs c List.mem_cons_self), List.forall_mem_cons,
      Bool.and_eq_true, ih fun c hc => hcs c (List.mem_cons_of_mem _ hc)]
    simp

theorem isForbiddenControl_iff (b : UInt8) : isForbiddenControl b = true ↔ Control b.toNat := by
  have hn : b = 0x0A ↔ b.toNat = 0x0A := UInt8.toNat_inj.symm
  have hd : b = 0x7F ↔ b.toNat = 0x7F := UInt8.toNat_inj.symm
  simp only [isForbiddenControl, Control, Bool.or_eq_true, Bool.and_eq_true, decide_eq_true_eq,
    bne_iff_ne, beq_iff_eq, ne_eq, hn, hd]

/-- The control test looks at bytes, and only a character of one byte can be a control. -/
theorem control_encode {c : Nat} (hc : Utf8.IsScalar c) :
    (∃ b ∈ Utf8.encode c, isForbiddenControl b = true) ↔ Control c := by
  by_cases hlow : c < 0x80
  · rw [Utf8.encode_ascii hlow]
    simp only [List.mem_singleton, exists_eq_left, isForbiddenControl_iff,
      ofNat_toNat_of_lt (n := c) (by omega)]
  · have hhigh := Utf8.encode_high hc (by omega)
    constructor
    · rintro ⟨b, hb, hctl⟩
      have hb80 := hhigh b hb
      rw [isForbiddenControl_iff] at hctl
      unfold Control at hctl
      omega
    · intro hctl
      unfold Control at hctl
      omega

theorem axContainsForbiddenControl_flatMap {cs : List Nat} (hcs : ∀ c ∈ cs, Utf8.IsScalar c) :
    axContainsForbiddenControl (cs.flatMap Utf8.encode) = false ↔ ∀ c ∈ cs, ¬ Control c := by
  rw [axContainsForbiddenControl, List.any_eq_false]
  constructor
  · intro h c hc hctl
    obtain ⟨b, hb, hbad⟩ := (control_encode (hcs c hc)).2 hctl
    exact h b (List.mem_flatMap.2 ⟨c, hc, hb⟩) hbad
  · intro h b hb hbad
    obtain ⟨c, hc, hbc⟩ := List.mem_flatMap.1 hb
    exact h c hc ((control_encode (hcs c hc)).1 ⟨b, hbc, hbad⟩)

/-- On valid text the two scans together are about the code points. -/
theorem storable_iff {s : Bytes} (hv : Utf8.Valid s) :
    (axContainsForbiddenControl s = false ∧ axIsNfc s = true) ↔
      ∀ c, Utf8.CodePoint s c → Storable c := by
  constructor
  · rintro ⟨hctl, hnfc⟩ c ⟨cs, hcs, rfl, hc⟩
    exact ⟨(axContainsForbiddenControl_flatMap hcs).1 hctl c hc, (axIsNfc_flatMap hcs).1 hnfc c hc⟩
  · intro h
    obtain ⟨cs, hcs, rfl⟩ := hv
    have hall : ∀ c ∈ cs, Storable c := fun c hc => h c ⟨cs, hcs, rfl, hc⟩
    exact ⟨(axContainsForbiddenControl_flatMap hcs).2 fun c hc => (hall c hc).1,
      (axIsNfc_flatMap hcs).2 fun c hc => (hall c hc).2⟩

/-! ## `ax_validate_and_normalise`, exactly -/

theorem axValidateAndNormalise_cases {dstSize : Nat} (src : Bytes) (f : AxL3FaultFlags)
    (hd : 1 ≤ dstSize) :
    axValidateAndNormalise dstSize src f =
      if ¬ Utf8.Valid src then (.error .encoding, { f with encoding := true })
      else if dstSize ≤ (normLF src).length then (.error .buffer, { f with size := true })
      else if axContainsForbiddenControl (normLF src) = false ∧ axIsNfc (normLF src) = true then
        (.ok (normLF src), f)
      else (.error .encoding, { f with encoding := true }) := by
  have hpred : (normLF src).length ≤ sizePred dstSize ↔ ¬ dstSize ≤ (normLF src).length := by
    rw [le_sizePred_iff hd, Nat.not_le]
  unfold axValidateAndNormalise
  rw [axNormaliseLineEndings_eq, axValidateUtf8_eq_check]
  by_cases hv : Utf8.Valid src
  · rw [if_neg (by simpa using (Utf8.check_iff src).2 hv), if_neg (not_not.2 hv)]
    by_cases hroom : dstSize ≤ (normLF src).length
    · rw [if_neg (by rw [hpred]; exact not_not.2 hroom), if_pos hroom]
    rw [if_pos (hpred.2 hroom), if_neg hroom]
    dsimp only
    by_cases hctl : axContainsForbiddenControl (normLF src) = true
    · rw [if_pos hctl, if_neg (by rw [hctl]; simp)]
    rw [if_neg hctl]
    by_cases hnfc : axIsNfc (normLF src) = true
    · rw [if_neg (by simpa using hnfc), if_pos ⟨Bool.eq_false_iff.2 hctl, hnfc⟩]
    · rw [if_pos (by simpa using hnfc), if_neg fun h => hnfc h.2]
  · rw [if_pos hv, if_pos]
    simpa using mt (Utf8.check_iff src).1 hv

/-- **Exact meaning of validate-and-normalise.** It returns a length exactly when the source is
valid UTF-8, the normalised text and its NUL fit, and every code point of it may be stored; then the
destination holds that text, which has no CR and no NUL and passes again unchanged. Otherwise lack
of room is `AX_ERR_BUFFER` and everything else `AX_ERR_ENCODING`, each with its flag. -/
theorem validate_normalise_exact (dstSize : Nat) (src : Bytes) (faults : AxL3FaultFlags)
    (hd : 1 ≤ dstSize) :
    ((∃ dst, (axValidateAndNormalise dstSize src faults).1 = .ok dst) ↔
      Utf8.Valid src ∧ (normLF src).length < dstSize ∧
        ∀ c, Utf8.CodePoint (normLF src) c → Storable c) ∧
    (∀ dst, (axValidateAndNormalise dstSize src faults).1 = .ok dst →
      dst = normLF src ∧ (axValidateAndNormalise dstSize src faults).2 = faults ∧
      Utf8.Valid dst ∧ chr '\r' ∉ dst ∧ 0 ∉ dst ∧
      axValidateAndNormalise dstSize dst faults = (.ok dst, faults)) ∧
    ∀ e, (axValidateAndNormalise dstSize src faults).1 = .error e →
      axValidateAndNormalise dstSize src faults =
        if Utf8.Valid src ∧ dstSize ≤ (normLF src).length then
          (.error .buffer, { faults with size := true })
        else (.error .encoding, { faults with encoding := true }) := by
  have hcases := axValidateAndNormalise_cases src faults hd
  by_cases hv : Utf8.Valid src
  · rw [if_neg (not_not.2 hv)] at hcases
    have hnv := normLF_valid hv
    have hstore := storable_iff hnv
    by_cases hroom : dstSize ≤ (normLF src).length
    · rw [if_pos hroom] at hcases
      rw [hcases]
      refine ⟨?_, ?_, ?_⟩
      · simp [Nat.not_lt.2 hroom]
      · rintro dst ⟨⟩
      · intro e _
        rw [if_pos ⟨hv, hroom⟩]
    rw [if_neg hroom] at hcases
    by_cases hok : axContainsForbiddenControl (normLF src) = false ∧ axIsNfc (normLF src) = true
    · rw [if_pos hok] at hcases
      rw [hcases]
      refine ⟨?_, ?_, ?_⟩
      · exact ⟨fun _ => ⟨hv, Nat.not_le.1 hroom, hstore.1 hok⟩, fun _ => ⟨_, rfl⟩⟩
      · rintro dst ⟨⟩
        have hcr := cr_notMem_normLF src
        have hidem : normLF (normLF src) = normLF src := (normLF_eq_self_iff _).2 hcr
        refine ⟨rfl, rfl, hnv, hcr, nulFree_of_control hok.1, ?_⟩
        rw [axValidateAndNormalise_cases _ _ hd, hidem, if_neg (not_not.2 hnv), if_neg hroom,
          if_pos hok]
      · rintro e ⟨⟩
    · rw [if_neg hok] at hcases
      rw [hcases]
      refine ⟨?_, ?_, ?_⟩
      · simp [hv, Nat.not_le.1 hroom, mt hstore.2 hok]
      · rintro dst ⟨⟩
      · intro e _
        rw [if_neg fun h => hroom h.2]
  · rw [if_pos hv] at hcases
    rw [hcases]
    refine ⟨?_, ?_, ?_⟩
    · simp [hv]
    · rintro dst ⟨⟩
    · intro e _
      rw [if_neg fun h => hv h.1]

/-- A line break of two bytes becomes one. -/
theorem validate_normalise_exact_sample :
    (∃ dst, (axValidateAndNormalise 8 (ascii "a\r\nb") {}).1 = .ok dst) ∧
    ∀ dst, (axValidateAndNormalise 8 (ascii "a\r\nb") {}).1 = .ok dst →
      dst = normLF (ascii "a\r\nb") ∧ axValidateAndNormalise 8 dst {} = (.ok dst, {}) := by
  obtain ⟨-, hok, -⟩ := validate_normalise_exact 8 (ascii "a\r\nb") {} (by decide)
  refine ⟨⟨ascii "a\nb", by decide⟩, fun dst hdst => ?_⟩
  obtain ⟨h1, -, -, -, -, h2⟩ := hok dst hdst
  exact ⟨h1, h2⟩

/-! ## `ax_validate_encoding` leaves out the control characters -/

theorem axValidateEncoding_ok_iff (s : Bytes) :
    axValidateEncoding s = .ok () ↔ Utf8.Valid s ∧ axIsNfc s = true := by
  unfold axValidateEncoding
  rw [axValidateUtf8_eq_check, ← Utf8.check_iff]
  cases Utf8.check s <;> cases axIsNfc s <;> simp

/-- On valid text the combining-mark scan alone is about the code points. -/
theorem axIsNfc_iff {s : Bytes} (hv : Utf8.Valid s) :
    axIsNfc s = true ↔ ¬ ∃ c, Utf8.CodePoint s c ∧ Combining c := by
  constructor
  · rintro hnfc ⟨c, ⟨cs, hcs, rfl, hc⟩, hcomb⟩
    exact (axIsNfc_flatMap hcs).1 hnfc c hc hcomb
  · intro h
    obtain ⟨cs, hcs, rfl⟩ := hv
    exact (axIsNfc_flatMap hcs).2 fun c hc hcomb => h ⟨c, ⟨cs, hcs, rfl, hc⟩, hcomb⟩

theorem axValidateAndNormalise_self_iff (s : Bytes) (f : AxL3FaultFlags) :
    (axValidateAndNormalise (s.length + 1) s f).1 = .ok s ↔
      Utf8.Valid s ∧ axContainsForbiddenControl s = false ∧ axIsNfc s = true := by
  have hlen := normLF_length_le s
  rw [axValidateAndNormalise_cases s f (by omega)]
  by_cases hv : Utf8.Valid s
  · rw [if_neg (not_not.2 hv), if_neg (by omega)]
    constructor
    · intro h
      split at h
      · next hok =>
        rw [Except.ok.inj h] at hok
        exact ⟨hv, hok⟩
      · cases h
    · rintro ⟨-, hctl, hnfc⟩
      have hcr : chr '\r' ∉ s := by
        intro hmem
        have hbad := List.any_eq_false.1 hctl _ hmem
        exact hbad (by decide)
      rw [(normLF_eq_self_iff s).2 hcr, if_pos ⟨hctl, hnfc⟩]
  · rw [if_pos hv]
    simp [hv]

/-- **Where the two checks agree.** `ax_validate_encoding` accepts exactly the texts that
normalisation accepts and leaves unchanged, for a text that is malformed, holds a combining mark, or
holds no control character (CR and DEL included). On the others, valid text whose only fault is a
control character, it returns `AX_OK` where normalisation rejects or rewrites. -/
theorem encoding_checks_agree (s : Bytes) (faults : AxL3FaultFlags) :
    (axValidateEncoding s = .ok () ↔ (axValidateAndNormalise (s.length + 1) s faults).1 = .ok s) ↔
      (¬ Utf8.Valid s ∨ (∃ c, Utf8.CodePoint s c ∧ Combining c) ∨
        ∀ b ∈ s, ¬ Control b.toNat) := by
  have hcontrol : axContainsForbiddenControl s = false ↔ ∀ b ∈ s, ¬ Control b.toNat := by
    rw [axContainsForbiddenControl, List.any_eq_false]
    exact forall₂_congr fun b _ => not_congr (isForbiddenControl_iff b)
  rw [axValidateEncoding_ok_iff, axValidateAndNormalise_self_iff, hcontrol]
  by_cases hv : Utf8.Valid s
  · have hnfc := axIsNfc_iff hv
    by_cases hcomb : ∃ c, Utf8.CodePoint s c ∧ Combining c
    · have hno : ¬ axIsNfc s = true := fun h => hnfc.1 h hcomb
      exact ⟨fun _ => .inr (.inl hcomb), fun _ =>
        ⟨fun h => absurd h.2 hno, fun h => absurd h.2.2 hno⟩⟩
    · have hyes : axIsNfc s = true := hnfc.2 hcomb
      constructor
      · intro h
        exact .inr (.inr (h.1 ⟨hv, hyes⟩).2.1)
      · rintro (h | h | h)
        · exact absurd hv h
        · exact absurd h hcomb
        · exact ⟨fun _ => ⟨hv, h, hyes⟩, fun _ => ⟨hv, hyes⟩⟩
  · exact ⟨fun _ => .inl hv, fun _ => ⟨fun h => absurd h.1 hv, fun h => absurd h.1 hv⟩⟩

/-- One control character, and the two checks differ. -/
theorem encoding_checks_differ :
    (0 : UInt8) ∉ [(0x01 : UInt8)] ∧
    ¬ (axValidateEncoding [0x01] = .ok () ↔
      (axValidateAndNormalise ([(0x01 : UInt8)].length + 1) [0x01] {}).1 = .ok [0x01]) := by
  decide

end AxiomaOracle
