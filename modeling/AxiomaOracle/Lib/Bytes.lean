import Mathlib.Algebra.Group.Int.Defs
import Mathlib.Algebra.Group.Nat.Defs
import Mathlib.Data.List.TakeWhile
import Mathlib.Tactic.Common

/-!
# Byte strings

The vocabulary every byte format is written in: ASCII text, NUL-terminated strings, little-endian
numbers of a fixed width, decimal numerals and lowercase hex. Each encoder comes with its decoder
and with the round trip, in the direction a reader of the format needs (`leDecode_leEncode`,
`leEncode_leDecode`, `decValue_decimal`, `hexOf_injective`).
-/

namespace Lib

abbrev Bytes := List UInt8

/-- The bytes of an ASCII text. -/
def ascii (s : String) : Bytes := s.toList.map fun c => UInt8.ofNat c.toNat

/-- The byte of an ASCII character. -/
def chr (c : Char) : UInt8 := UInt8.ofNat c.toNat

/-- A check of all bytes of a string runs through the string, not through the 256 bytes. -/
instance (priority := 2000) decidableForallBytes (s : Bytes) (p : UInt8 → Prop) [DecidablePred p] :
    Decidable (∀ b ∈ s, p b) := List.decidableBAll p s

theorem ofNat_toNat_of_lt {n : Nat} (h : n < 256) : (UInt8.ofNat n).toNat = n := by
  rw [UInt8.toNat_ofNat']; omega

theorem byte_lt (b : UInt8) : b.toNat < 256 := b.toNat_lt

/-- A fact about every byte, from the 256 of them. -/
theorem forall_byte {p : UInt8 → Prop} (h : ∀ n, n < 256 → p (UInt8.ofNat n)) (b : UInt8) :
    p b := by
  have hb := h b.toNat (byte_lt b)
  rwa [UInt8.ofNat_toNat] at hb

theorem byte_ext {a b : UInt8} (h : a.toNat = b.toNat) : a = b := UInt8.toNat_inj.1 h

theorem ofNat_eq_of {n : Nat} {b : UInt8} (h : n = b.toNat) : UInt8.ofNat n = b := by
  rw [h, UInt8.ofNat_toNat]

/-! ## NUL-terminated strings -/

/-- A C string: the bytes before the terminating NUL. -/
structure CStr where
  bytes : Bytes
  nulFree : (0 : UInt8) ∉ bytes
  deriving DecidableEq

namespace CStr

/-- The string a NUL-terminated buffer holding `bs` denotes: everything before the first NUL. -/
def ofBytes (bs : Bytes) : CStr :=
  ⟨bs.takeWhile (· != 0), fun h => by simpa using List.mem_takeWhile_imp h⟩

theorem ext {s t : CStr} (h : s.bytes = t.bytes) : s = t := by
  cases s; cases t; simp_all

theorem ofBytes_of_nulFree {bs : Bytes} (h : (0 : UInt8) ∉ bs) : (ofBytes bs).bytes = bs := by
  unfold ofBytes
  simp only [List.takeWhile_eq_self_iff, bne_iff_ne]
  intro b hb e
  exact h (e ▸ hb)

theorem ofBytes_length_le (bs : Bytes) : (ofBytes bs).bytes.length ≤ bs.length :=
  (List.takeWhile_prefix _).length_le

end CStr

/-! ## Little-endian numbers -/

/-- The `w` low bytes of `v`, least significant first. -/
def leEncode : Nat → Nat → Bytes
  | 0, _ => []
  | w + 1, v => UInt8.ofNat v :: leEncode w (v / 256)

/-- The number a byte string denotes, least significant byte first. -/
def leDecode : Bytes → Nat
  | [] => 0
  | b :: bs => b.toNat + 256 * leDecode bs

@[simp] theorem leEncode_length (w v : Nat) : (leEncode w v).length = w := by
  induction w generalizing v with
  | zero => rfl
  | succ w ih => simp [leEncode, ih]

theorem leDecode_leEncode {w v : Nat} (h : v < 256 ^ w) : leDecode (leEncode w v) = v := by
  induction w generalizing v with
  | zero => simp only [Nat.pow_zero, Nat.lt_one_iff] at h; simp [leEncode, leDecode, h]
  | succ w ih =>
    have hq : v / 256 < 256 ^ w := by
      rw [Nat.pow_succ] at h; exact Nat.div_lt_of_lt_mul (by omega)
    simp only [leEncode, leDecode, ih hq, UInt8.toNat_ofNat']
    omega

theorem leEncode_leDecode (bs : Bytes) : leEncode bs.length (leDecode bs) = bs := by
  induction bs with
  | nil => rfl
  | cons b bs ih =>
    have hb := byte_lt b
    have hdiv : (b.toNat + 256 * leDecode bs) / 256 = leDecode bs := by omega
    have hmod : UInt8.ofNat (b.toNat + 256 * leDecode bs) = b := by
      apply byte_ext; rw [UInt8.toNat_ofNat']; omega
    simp only [List.length_cons, leEncode, leDecode, hdiv, hmod, ih]

/-! ## Decimal numerals -/

/-- The ASCII digit of `d`. -/
def digit (d : Nat) : UInt8 := UInt8.ofNat (48 + d)

/-- The digits of `v`, least significant first, none for zero. The first argument bounds the
number of digits; `v` itself is always enough. -/
def decRev : Nat → Nat → Bytes
  | 0, _ => []
  | fuel + 1, v => if v = 0 then [] else digit (v % 10) :: decRev fuel (v / 10)

/-- The shortest decimal numeral of `v`. -/
def decimal (v : Nat) : Bytes := if v = 0 then [digit 0] else (decRev v v).reverse

/-- The value of a byte as an ASCII digit. -/
def digitValue (b : UInt8) : Nat := b.toNat - 48

def isDigit (b : UInt8) : Bool := 48 ≤ b.toNat && b.toNat ≤ 57

/-- The value of a string of digits, most significant first. -/
def decValue (bs : Bytes) : Nat := bs.foldl (fun acc b => 10 * acc + digitValue b) 0

theorem digit_toNat {d : Nat} (h : d < 10) : (digit d).toNat = 48 + d :=
  ofNat_toNat_of_lt (by omega)

theorem isDigit_digit {d : Nat} (h : d < 10) : isDigit (digit d) = true := by
  simp only [isDigit, digit_toNat h, Bool.and_eq_true, decide_eq_true_eq]; omega

/-- The digits, listed: a check of all of them runs through ten bytes. -/
theorem mem_digits {b : UInt8} (h : isDigit b = true) : b ∈ ascii "0123456789" := by
  have hall : ∀ d < 10, UInt8.ofNat (48 + d) ∈ ascii "0123456789" := by decide
  simp only [isDigit, Bool.and_eq_true, decide_eq_true_eq] at h
  have hb := hall (b.toNat - 48) (by omega)
  rwa [ofNat_eq_of (b := b) (by omega)] at hb

theorem decRev_isDigit (fuel v : Nat) : ∀ b ∈ decRev fuel v, isDigit b = true := by
  induction fuel generalizing v with
  | zero => simp [decRev]
  | succ fuel ih =>
    unfold decRev
    split
    · simp
    · intro b hb
      rcases List.mem_cons.1 hb with rfl | hb
      · exact isDigit_digit (Nat.mod_lt _ (by decide))
      · exact ih _ b hb

theorem decimal_isDigit (v : Nat) : ∀ b ∈ decimal v, isDigit b = true := by
  intro b hb
  unfold decimal at hb
  split at hb
  · simp only [List.mem_singleton] at hb
    subst hb
    exact isDigit_digit (by decide)
  · exact decRev_isDigit _ _ b (List.mem_reverse.1 hb)

theorem decRev_value {fuel v : Nat} (h : v ≤ fuel) : decValue (decRev fuel v).reverse = v := by
  induction fuel generalizing v with
  | zero => simp [decRev, decValue, Nat.le_zero.1 h]
  | succ fuel ih =>
    unfold decRev
    split
    · next hv => simp [decValue, hv]
    · have ih' := ih (v := v / 10) (by omega)
      unfold decValue at ih' ⊢
      rw [List.reverse_cons, List.foldl_append, ih']
      simp only [List.foldl_cons, List.foldl_nil, digitValue,
        digit_toNat (Nat.mod_lt v (by decide : 10 > 0))]
      omega

theorem decValue_decimal (v : Nat) : decValue (decimal v) = v := by
  unfold decimal
  split
  · next h => subst h; decide
  · exact decRev_value (Nat.le_refl v)

/-- Two numerals side by side. -/
theorem decValue_append (as bs : Bytes) :
    decValue (as ++ bs) = decValue as * 10 ^ bs.length + decValue bs := by
  induction bs generalizing as with
  | nil => simp [decValue]
  | cons b bs ih =>
    have hsnoc : decValue (as ++ [b]) = 10 * decValue as + digitValue b := by simp [decValue]
    have hone : decValue [b] = digitValue b := by simp [decValue]
    have hpow : decValue as * 10 ^ (bs.length + 1) = 10 * decValue as * 10 ^ bs.length := by
      rw [Nat.pow_succ, Nat.mul_comm 10, Nat.mul_assoc, Nat.mul_comm 10]
    rw [List.append_cons, ih, hsnoc, ← List.singleton_append, ih [b], hone, List.length_append,
      List.length_singleton, Nat.add_comm 1, hpow, Nat.add_mul, Nat.add_assoc]

/-- The bound on the digits does not matter once it is `v`. -/
theorem decRev_fuel {fuel fuel' v : Nat} (h : v ≤ fuel) (h' : v ≤ fuel') :
    decRev fuel v = decRev fuel' v := by
  induction fuel generalizing fuel' v with
  | zero =>
    obtain rfl := Nat.le_zero.1 h
    cases fuel' <;> rfl
  | succ fuel ih =>
    cases fuel' with
    | zero =>
      obtain rfl := Nat.le_zero.1 h'
      rfl
    | succ fuel' =>
      by_cases hv : v = 0
      · rw [decRev, decRev, if_pos hv, if_pos hv]
      · have hdiv : v / 10 ≤ fuel := by omega
        have hdiv' : v / 10 ≤ fuel' := by omega
        rw [decRev, decRev, if_neg hv, if_neg hv, ih hdiv hdiv']

theorem decRev_self {v : Nat} (h : v ≠ 0) :
    decRev v v = digit (v % 10) :: decRev (v / 10) (v / 10) := by
  obtain ⟨n, rfl⟩ := Nat.exists_eq_succ_of_ne_zero h
  have hdiv : (n + 1) / 10 ≤ n := by omega
  rw [decRev, if_neg h, decRev_fuel hdiv (Nat.le_refl _)]

theorem decRev_ne_nil {fuel v : Nat} (hf : 0 < fuel) (hv : v ≠ 0) : decRev fuel v ≠ [] := by
  cases fuel with
  | zero => omega
  | succ fuel => simp [decRev, hv]

theorem decimal_ne_nil (v : Nat) : decimal v ≠ [] := by
  unfold decimal
  split
  · simp
  · next h => simpa using decRev_ne_nil (Nat.pos_of_ne_zero h) h

/-- The most significant digit of a non-zero number is not `0`. -/
theorem decRev_getLast {fuel v : Nat} (h : v ≤ fuel) (hv : v ≠ 0) :
    ∀ b ∈ (decRev fuel v).getLast?, b ≠ digit 0 := by
  induction fuel generalizing v with
  | zero => omega
  | succ fuel ih =>
    unfold decRev
    rw [if_neg hv]
    intro b hb
    by_cases hq : v / 10 = 0
    · have hnil : decRev fuel (v / 10) = [] := by
        cases fuel <;> simp [decRev, hq]
      rw [hnil] at hb
      simp only [List.getLast?_singleton, Option.mem_def, Option.some.injEq] at hb
      subst hb
      intro e
      have := congrArg UInt8.toNat e
      rw [digit_toNat (Nat.mod_lt _ (by decide)), digit_toNat (by decide)] at this
      omega
    · have hne : decRev fuel (v / 10) ≠ [] := decRev_ne_nil (by omega) hq
      rw [List.getLast?_cons_of_ne_nil hne] at hb
      exact ih (by omega) hq b hb

/-- A numeral starts with `0` only when it is the numeral `0`. -/
theorem decimal_head (v : Nat) : decimal v = [digit 0] ∨ ∀ b ∈ (decimal v).head?, b ≠ digit 0 := by
  unfold decimal
  split
  · exact Or.inl rfl
  · next h =>
    refine Or.inr fun b hb => decRev_getLast (Nat.le_refl v) h b ?_
    rwa [List.head?_reverse] at hb

theorem decRev_length_le {fuel v k : Nat} (h : v < 10 ^ k) : (decRev fuel v).length ≤ k := by
  induction fuel generalizing v k with
  | zero => simp [decRev]
  | succ fuel ih =>
    unfold decRev
    split
    · simp
    · next hv =>
      cases k with
      | zero => simp only [Nat.pow_zero] at h; omega
      | succ k =>
        have hq : v / 10 < 10 ^ k := by
          rw [Nat.pow_succ] at h; exact Nat.div_lt_of_lt_mul (by omega)
        have := ih (v := v / 10) (k := k) hq
        simp only [List.length_cons]
        omega

theorem decimal_length_le {v k : Nat} (hk : 0 < k) (h : v < 10 ^ k) : (decimal v).length ≤ k := by
  unfold decimal
  split
  · exact hk
  · rw [List.length_reverse]; exact decRev_length_le h

/-- `s` spells `v`: a minus sign exactly for a negative number, and digits. -/
def Spells (v : Int) (s : Bytes) : Prop :=
  ∃ ds, s = (if v < 0 then chr '-' :: ds else ds) ∧ ds ≠ [] ∧ (∀ d ∈ ds, isDigit d = true) ∧
    decValue ds = v.natAbs

/-- A spelling with as few digits as any, so with no leading zeros. -/
structure Shortest (v : Int) (s : Bytes) : Prop where
  spells : Spells v s
  least : ∀ t, Spells v t → s.length ≤ t.length

theorem decValue_lt {ds : Bytes} (h : ∀ d ∈ ds, isDigit d = true) :
    decValue ds < 10 ^ ds.length := by
  induction ds with
  | nil => decide
  | cons d ds ih =>
    obtain ⟨hd, hds⟩ := List.forall_mem_cons.1 h
    simp only [isDigit, Bool.and_eq_true, decide_eq_true_eq] at hd
    have hfirst : decValue [d] ≤ 9 := by
      simp only [decValue, List.foldl_cons, List.foldl_nil, digitValue]
      omega
    have hmul := Nat.mul_le_mul_right (10 ^ ds.length) hfirst
    have hrest := ih hds
    have happend := decValue_append [d] ds
    rw [List.singleton_append] at happend
    rw [happend, List.length_cons, Nat.pow_succ]
    omega

theorem decimal_least {ds : Bytes} (hne : ds ≠ []) (h : ∀ d ∈ ds, isDigit d = true) :
    (decimal (decValue ds)).length ≤ ds.length :=
  decimal_length_le (List.length_pos_iff.2 hne) (decValue_lt h)

/-- The numeral of the magnitude, behind a minus sign for a negative number. -/
theorem shortest_decimal (v : Int) :
    Shortest v (if v < 0 then chr '-' :: decimal v.natAbs else decimal v.natAbs) where
  spells := ⟨decimal v.natAbs, rfl, decimal_ne_nil _, decimal_isDigit _, decValue_decimal _⟩
  least := by
    rintro t ⟨ds, rfl, hne, hdigits, hvalue⟩
    have hle := decimal_least hne hdigits
    rw [hvalue] at hle
    split
    · exact Nat.succ_le_succ hle
    · exact hle

/-! ## Lowercase hex -/

/-- The lowercase hex digit of `d`. -/
def hexDigit (d : Nat) : UInt8 := if d < 10 then UInt8.ofNat (48 + d) else UInt8.ofNat (87 + d)

/-- Two hex digits a byte, most significant first. -/
def hexOf (bs : Bytes) : Bytes :=
  bs.flatMap fun b => [hexDigit (b.toNat / 16), hexDigit (b.toNat % 16)]

@[simp] theorem hexOf_length (bs : Bytes) : (hexOf bs).length = 2 * bs.length := by
  induction bs with
  | nil => rfl
  | cons b bs ih =>
    have : hexOf (b :: bs) = hexDigit (b.toNat / 16) :: hexDigit (b.toNat % 16) :: hexOf bs := rfl
    rw [this, List.length_cons, List.length_cons, ih, List.length_cons]; omega

theorem hexDigit_toNat {d : Nat} (h : d < 16) :
    (hexDigit d).toNat = if d < 10 then 48 + d else 87 + d := by
  unfold hexDigit
  split <;> exact ofNat_toNat_of_lt (by omega)

theorem hexDigit_injective {d e : Nat} (hd : d < 16) (he : e < 16)
    (h : hexDigit d = hexDigit e) : d = e := by
  have := congrArg UInt8.toNat h
  rw [hexDigit_toNat hd, hexDigit_toNat he] at this
  split at this <;> split at this <;> omega

/-- Hex digits are printable ASCII other than the quote and the backslash. -/
theorem hexOf_range (bs : Bytes) : ∀ b ∈ hexOf bs, 48 ≤ b.toNat ∧ b.toNat ≤ 102 ∧ b.toNat ≠ 92 := by
  intro b hb
  obtain ⟨c, -, hc⟩ := List.mem_flatMap.1 hb
  have hlt := byte_lt c
  simp only [List.mem_cons, List.not_mem_nil, or_false] at hc
  rcases hc with rfl | rfl <;> rw [hexDigit_toNat (by omega)] <;> split <;> omega

theorem hexOf_injective : ∀ {as bs : Bytes}, hexOf as = hexOf bs → as = bs
  | [], [], _ => rfl
  | [], b :: bs, h => by simpa using congrArg List.length h
  | a :: as, [], h => by simpa using congrArg List.length h
  | a :: as, b :: bs, h => by
    have ha := byte_lt a
    have hb := byte_lt b
    simp only [hexOf, List.flatMap_cons, List.cons_append, List.nil_append, List.cons.injEq] at h
    obtain ⟨h1, h2, h3⟩ := h
    have e1 := hexDigit_injective (by omega) (by omega) h1
    have e2 := hexDigit_injective (by omega) (by omega) h2
    rw [byte_ext (a := a) (b := b) (by omega), hexOf_injective h3]

end Lib
