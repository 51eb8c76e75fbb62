import AxiomaOracle.Oracle.Writes
import AxiomaOracle.Verify.Admission

/-!
# Which stores stay inside the destination

A routine of the writer is determined by the text it is given (`writtenAt`): its stores are the text
from index 0 on, as far as `size - 1` allows, and a NUL when nothing was cut. For a size of zero
`size - 1` is the largest `size_t`, so the first byte is already outside; for every other size all
is inside. The formatting functions test the length first and are inside for every size. The
derivation buffer holds what it is given only up to its own size.
-/

namespace AxiomaOracle

open Lib

theorem AxError.code_neg (e : AxError) : e.code < 0 := by
  cases e <;> decide

/-- All stores are inside the destination, and so is the NUL after a result. -/
def Filled.InBounds (dstSize : Nat) (f : Filled) : Prop :=
  f.dst.Within dstSize ∧ (0 ≤ f.ret → f.ret + 1 ≤ dstSize)

section

variable {dstSize size : Nat} {s t src : Bytes}

theorem Filled.inBounds_error {dst : Stores} {e : AxError} :
    Filled.InBounds dstSize ⟨e.code, dst⟩ ↔ dst.Within dstSize := by
  refine and_iff_left_of_imp fun _ h => ?_
  have hneg := e.code_neg
  have hcode : 0 ≤ e.code := h
  omega

/-- A call that ends with the NUL after `text`. -/
theorem Filled.inBounds_run (text : Bytes) :
    Filled.InBounds dstSize ⟨C.intOfSize text.length, Stores.run 0 (text ++ [0])⟩ ↔
      text.length < dstSize := by
  have hret := C.intOfSize_le text.length
  have hlen : (text ++ [0]).length = text.length + 1 := by rw [List.length_append]; rfl
  constructor
  · intro h
    have hdst :=
      (Stores.within_run.1 h.1).resolve_left (List.append_ne_nil_of_right_ne_nil _ (by simp))
    omega
  · intro h
    refine ⟨Stores.within_run.2 (.inr (by omega)), fun _ => ?_⟩
    change C.intOfSize text.length + 1 ≤ dstSize
    omega

/-! ## The writer -/

/-- The context after the text `s` was written to a destination of `size` bytes. -/
def writtenAt (size : Nat) (s : Bytes) : WriteCtxAt where
  size := size
  pos := min s.length (sizePred size)
  overflow := sizePred size < s.length
  dst := Stores.run 0 (s.take (sizePred size))

theorem writeInitAt_eq (size : Nat) : writeInitAt size = writtenAt size [] := by
  simp [writeInitAt, writtenAt, Stores.run]

theorem writeCharAt_writtenAt (size : Nat) (s : Bytes) (c : UInt8) :
    writeCharAt (writtenAt size s) c = writtenAt size (s ++ [c]) := by
  by_cases h : s.length < sizePred size
  · have hpos : min s.length (sizePred size) = s.length := by omega
    have hlen : (s ++ [c]).length = s.length + 1 := by rw [List.length_append]; rfl
    have hfits : (s ++ [c]).length ≤ sizePred size := by omega
    simp only [writeCharAt, writtenAt, hpos, if_pos h, List.take_of_length_le (Nat.le_of_lt h),
      List.take_of_length_le hfits, Stores.run_append, Nat.zero_add, Nat.min_eq_left hfits]
    simp only [Stores.run, hlen, Nat.not_lt.2 (Nat.le_of_lt h),
      show ¬ sizePred size < s.length + 1 by omega]
  · have hle : sizePred size ≤ s.length := Nat.not_lt.1 h
    have hpos : min s.length (sizePred size) = sizePred size := by omega
    have hpos' : min (s ++ [c]).length (sizePred size) = sizePred size := by simp; omega
    simp only [writeCharAt, writtenAt, hpos, hpos', lt_irrefl, if_false,
      List.take_append_of_le_length hle]
    simp only [List.length_append, List.length_singleton,
      show sizePred size < s.length + 1 by omega, decide_true]

theorem writeStrAt_writtenAt (size : Nat) (s t : Bytes) :
    writeStrAt (writtenAt size s) t = writtenAt size (s ++ t) := by
  induction t generalizing s with
  | nil => rw [List.append_nil]; rfl
  | cons c t ih =>
    have hstep : writeStrAt (writtenAt size s) (c :: t) =
      writeStrAt (writeCharAt (writtenAt size s) c) t := rfl
    rw [hstep, writeCharAt_writtenAt, ih, List.append_assoc, List.singleton_append]

theorem writeEscapedByteAt_writtenAt (size : Nat) (s : Bytes) (c : UInt8) :
    writeEscapedByteAt (writtenAt size s) c = writtenAt size (s ++ Json.escapeByte c) := by
  have hq : chr '"' = 34 := rfl
  have hb : chr '\\' = 92 := rfl
  unfold writeEscapedByteAt Json.escapeByte
  rw [hq, hb]
  split
  · exact writeStrAt_writtenAt _ _ _
  split
  · exact writeStrAt_writtenAt _ _ _
  split
  · exact writeStrAt_writtenAt _ _ _
  · exact writeCharAt_writtenAt _ _ _

theorem writeEscapedAt_writtenAt (size : Nat) (s src : Bytes) :
    writeEscapedAt (writtenAt size s) src = writtenAt size (s ++ Json.escape src) := by
  induction src generalizing s with
  | nil => simp [writeEscapedAt, Json.escape]
  | cons c src ih =>
    have hstep : writeEscapedAt (writtenAt size s) (c :: src) =
      writeEscapedAt (writeEscapedByteAt (writtenAt size s) c) src := rfl
    rw [hstep, writeEscapedByteAt_writtenAt, ih, List.append_assoc]
    rfl

theorem writeOptEscapedAt_writtenAt (size : Nat) (s : Bytes) (f : Option CStr) :
    writeOptEscapedAt (writtenAt size s) f = writtenAt size (s ++ optEscaped f) := by
  cases f with
  | none => rw [optEscaped, List.append_nil]; rfl
  | some f => exact writeEscapedAt_writtenAt size s f.bytes

theorem writeOptStrAt_writtenAt (size : Nat) (s : Bytes) (f : Option CStr) :
    writeOptStrAt (writtenAt size s) f = writtenAt size (s ++ f.elim [] CStr.bytes) := by
  cases f with
  | none => rw [Option.elim_none, List.append_nil]; rfl
  | some f => exact writeStrAt_writtenAt size s f.bytes

theorem writeFinishAt_writtenAt (size : Nat) (s : Bytes) :
    writeFinishAt (writtenAt size s) =
      if s.length ≤ sizePred size then ⟨C.intOfSize s.length, Stores.run 0 (s ++ [0])⟩
      else ⟨AxError.buffer.code, Stores.run 0 (s.take (sizePred size))⟩ := by
  split
  · next h =>
    simp only [writeFinishAt, writtenAt, Nat.not_lt.2 h, decide_false, Bool.false_eq_true, if_false,
      Nat.min_eq_left h, List.take_of_length_le h, Stores.run_append, Nat.zero_add]
    rfl
  · next h =>
    simp only [writeFinishAt, writtenAt, Nat.lt_of_not_le h, decide_true, if_true]

/-- A destination filled up to `size - 1`. -/
theorem within_full (h : s.length = sizePred dstSize) :
    (Stores.run 0 s).Within dstSize ↔ 1 ≤ dstSize := by
  rw [Stores.within_run, Nat.zero_add, h]
  by_cases hd : dstSize = 0
  · subst hd
    have hne : s ≠ [] := by
      rintro rfl
      exact absurd h (by decide)
    exact iff_of_false (not_or.2 ⟨hne, by decide⟩) (by decide)
  · have hpred : sizePred dstSize = dstSize - 1 := if_neg hd
    exact iff_of_true (.inr (by omega)) (Nat.one_le_iff_ne_zero.2 hd)

/-- Text that is not cut, and its NUL. -/
theorem inBounds_run_iff (h : s.length ≤ sizePred dstSize) :
    Filled.InBounds dstSize ⟨C.intOfSize s.length, Stores.run 0 (s ++ [0])⟩ ↔ 1 ≤ dstSize := by
  rw [Filled.inBounds_run]
  exact ⟨fun hs => by omega, fun hd => (le_sizePred_iff hd).1 h⟩

/-- **The writer stays inside exactly a destination that is not empty.** -/
theorem writeFinishAt_inBounds_iff (dstSize : Nat) (s : Bytes) :
    (writeFinishAt (writtenAt dstSize s)).InBounds dstSize ↔ 1 ≤ dstSize := by
  rw [writeFinishAt_writtenAt]
  split
  · next h => exact inBounds_run_iff h
  · next h =>
    rw [Filled.inBounds_error]
    exact within_full (List.length_take_of_le (Nat.le_of_not_le h))

theorem axStringEscapeAt_eq (dstSize : Nat) (src : Bytes) :
    axStringEscapeAt dstSize src = writeFinishAt (writtenAt dstSize (Json.escape src)) := by
  rw [axStringEscapeAt, writeInitAt_eq, writeEscapedAt_writtenAt, List.nil_append]

theorem writtenAt_optInt (size : Nat) (s numBuf : Bytes) (b : Bool) (v : Int) :
    writtenAt size (s ++ if b then ascii "null" else if b then numBuf else Json.numeral v) =
      writtenAt size (s ++ (optInt b v).render) := by
  rw [render_optInt]
  cases b <;> rfl

theorem axParamsCanonicaliseAt_eq (dstSize : Nat) (p : AxOracleParams) :
    axParamsCanonicaliseAt dstSize p = writeFinishAt (writtenAt dstSize (paramsJson p).render) := by
  have hopen : [chr '{'] ++ ascii "\"max_tokens\":" = ascii "\x7b\"max_tokens\":" := by decide
  have hclose : [chr '}'] = ascii "\x7d" := by decide
  simp only [axParamsCanonicaliseAt, axFormatInt64_eq, axFormatQ16_eq, Int32.toInt_toInt64,
    writeInitAt_eq, writeCharAt_writtenAt, writeStrAt_writtenAt, writtenAt_optInt, List.nil_append,
    formatInto]
  rw [render_paramsJson, hopen, hclose]

theorem writtenAt_obsHash (size : Nat) (s t : Bytes) (includeHash : Bool) :
    (if (includeHash && t != []) = true then writtenAt size (s ++ t) else writtenAt size s) =
      writtenAt size (s ++ if includeHash then t else []) := by
  cases includeHash
  · rw [Bool.false_and, if_neg Bool.false_ne_true, if_neg Bool.false_ne_true, List.append_nil]
  · cases t with
    | nil => rw [if_neg (by decide), if_pos rfl, List.append_nil]
    | cons b t => rfl

theorem axObsCanonicaliseAt_eq (dstSize : Nat) (obs : AxObsRecord) (includeHash : Bool) :
    axObsCanonicaliseAt dstSize obs includeHash =
      writeFinishAt (writtenAt dstSize (obsText obs includeHash)) := by
  have hopen : [chr '{'] ++ ascii "\"completion_state\":" = ascii "\x7b\"completion_state\":" := by
    decide
  have q1 : chr '"' :: ascii ",\"ledger_seq\":" = ascii "\",\"ledger_seq\":" := by decide
  have q2 : chr '"' :: ascii ",\"obs_hash\":\"" = ascii "\",\"obs_hash\":\"" := by decide
  have q3 : chr '"' :: ascii ",\"oracle_id\":\"" = ascii "\",\"oracle_id\":\"" := by decide
  have q4 : chr '"' :: ascii ",\"output\":\"" = ascii "\",\"output\":\"" := by decide
  have q5 : chr '"' :: ascii ",\"output_size\":" = ascii "\",\"output_size\":" := by decide
  have q6 (s : Bytes) : s ++ [chr '"'] ++ [chr '}'] = s ++ ascii "\"\x7d" := by
    rw [List.append_assoc]; rfl
  simp only [axObsCanonicaliseAt, axFormatHashHex_eq, axFormatUint64_eq, axParamsCanonicalise_fits,
    writeInitAt_eq, writeCharAt_writtenAt, writeStrAt_writtenAt, writeOptEscapedAt_writtenAt,
    writeOptStrAt_writtenAt, writtenAt_obsHash, List.nil_append]
  rw [hopen, quote_append q1, quote_append q2, quote_append q3, quote_append q4,
    quote_append q5, q6]
  unfold obsText
  rfl

/-! ## Line endings -/

theorem normaliseStores_eq (room di : Nat) (src : Bytes) :
    normaliseStores room di src =
      (Stores.run di (normaliseLoop (room - di) src).1, (normaliseLoop (room - di) src).2) := by
  have hroom : ∀ {di}, di < room → room - di = (room - (di + 1)) + 1 := fun h => by omega
  fun_induction normaliseStores room di src with
  | case1 di => simp [normaliseLoop, Stores.run]
  | case2 di hlt => rw [hroom hlt]; simp [normaliseLoop, Stores.run]
  | case3 di hlt src w rest hw ih =>
    obtain ⟨rfl, rfl⟩ := Prod.mk.inj (hw.symm.trans ih)
    rw [hroom hlt]
    simp [normaliseLoop, Stores.run]
  | case4 di hlt d src hd w rest hw ih =>
    obtain ⟨rfl, rfl⟩ := Prod.mk.inj (hw.symm.trans ih)
    rw [hroom hlt]
    simp [normaliseLoop, Stores.run, hd]
  | case5 di c src hlt hc w rest hw ih =>
    obtain ⟨rfl, rfl⟩ := Prod.mk.inj (hw.symm.trans ih)
    rw [hroom hlt]
    simp [normaliseLoop, Stores.run, hc]
  | case6 di c src hlt =>
    rw [show room - di = 0 by omega]
    simp [normaliseLoop, Stores.run]

theorem normaliseLoop_length (room : Nat) (src : Bytes) :
    (normaliseLoop room src).1.length ≤ room ∧
      ((normaliseLoop room src).2 ≠ [] → (normaliseLoop room src).1.length = room) := by
  fun_induction normaliseLoop room src with
  | case1 => simp
  | case2 => simp
  | case3 => simp
  | case4 room src w rest hw ih => simpa [hw] using ih
  | case5 room d src hd w rest hw ih => simpa [hw] using ih
  | case6 room c src hc w rest hw ih => simpa [hw] using ih

theorem axNormaliseLineEndingsAt_inBounds_iff (dstSize : Nat) (src : Bytes) :
    (axNormaliseLineEndingsAt dstSize src).InBounds dstSize ↔ 1 ≤ dstSize := by
  obtain ⟨hle, hfull⟩ := normaliseLoop_length (sizePred dstSize) src
  rw [axNormaliseLineEndingsAt, normaliseStores_eq, Nat.sub_zero]
  cases hrest : (normaliseLoop (sizePred dstSize) src).2 with
  | nil =>
    simp only [Stores.length_run]
    have hnul := Stores.run_append 0 (normaliseLoop (sizePred dstSize) src).1 [0]
    rw [Nat.zero_add] at hnul
    exact (congrArg (Filled.InBounds dstSize ⟨_, ·⟩) hnul.symm).to_iff.trans (inBounds_run_iff hle)
  | cons c rest =>
    rw [Filled.inBounds_error]
    exact within_full (hfull (by simp [hrest]))

/-! ## Hashes -/

theorem hexStores_eq {i : Nat} {hash : Bytes} (h : (i + hash.length) * 2 ≤ sizeMod) :
    hexStores i hash = Stores.run (i * 2) (hexOf hash) := by
  induction hash generalizing i with
  | nil => rfl
  | cons b hash ih =>
    rw [List.length_cons] at h
    have hhex : hexOf (b :: hash) =
      hexDigit (b.toNat / 16) :: hexDigit (b.toNat % 16) :: hexOf hash := rfl
    rw [hexStores, ih (by omega), Nat.mod_eq_of_lt (by omega), Nat.mod_eq_of_lt (by omega), hhex,
      Stores.run, Stores.run, show i * 2 + 1 + 1 = (i + 1) * 2 by omega]

theorem mem_hexStores {i k : Nat} {hash : Bytes} (h : k < hash.length) :
    ∃ b, ((i + k) * 2 + 1) % sizeMod = b.1 ∧ b ∈ hexStores i hash := by
  induction hash generalizing i k with
  | nil => cases h
  | cons b hash ih =>
    cases k with
    | zero => exact ⟨_, rfl, List.mem_cons_of_mem _ List.mem_cons_self⟩
    | succ k =>
      obtain ⟨s, hs, hmem⟩ := ih (i := i + 1) (Nat.lt_of_succ_lt_succ h)
      refine ⟨s, by rw [← hs]; congr 2; omega, ?_⟩
      exact List.mem_cons_of_mem _ (List.mem_cons_of_mem _ hmem)

/-- Two digits a byte and the NUL are tested against the size; the sum wraps only for a hash of half
the address space. -/
theorem axFormatHashHexAt_inBounds_iff {dstSize : Nat} (hsize : dstSize < sizeMod) {hash : Bytes}
    (hlen : hash.length < sizeMod) : (axFormatHashHexAt dstSize hash).InBounds dstSize ↔
      hash.length < 2 ^ 63 ∨ dstSize < (hash.length * 2 + 1) % sizeMod := by
  have hmod : sizeMod = 2 ^ 64 := rfl
  by_cases hshort : dstSize < (hash.length * 2 + 1) % sizeMod
  · rw [axFormatHashHexAt, if_pos hshort, Filled.inBounds_error]
    exact iff_of_true (Stores.within_nil dstSize) (.inr hshort)
  rw [axFormatHashHexAt, if_neg hshort]
  by_cases hhalf : hash.length < 2 ^ 63
  · have hwrap : (hash.length * 2 + 1) % sizeMod = hash.length * 2 + 1 :=
      Nat.mod_eq_of_lt (by omega)
    have htext : (hexOf hash).length = hash.length * 2 := by rw [hexOf_length, Nat.mul_comm]
    have hdst : hexStores 0 hash ++ [(hash.length * 2, 0)] = Stores.run 0 (hexOf hash ++ [0]) := by
      rw [hexStores_eq (by omega), Stores.run_append, Nat.zero_mul, Nat.zero_add, htext]
      rfl
    rw [Nat.mod_eq_of_lt (by omega), hdst, ← htext, Filled.inBounds_run]
    exact iff_of_true (by omega) (.inl hhalf)
  · refine iff_of_false (fun h => ?_) (not_or.2 ⟨hhalf, hshort⟩)
    -- the last digit of the first 2^63 bytes goes to the last address
    obtain ⟨s, hs, hmem⟩ := mem_hexStores (i := 0) (show 2 ^ 63 - 1 < hash.length by omega)
    have hlast := h.1 s (List.mem_append_left _ hmem)
    have hindex : ((0 + (2 ^ 63 - 1)) * 2 + 1) % sizeMod = 2 ^ 64 - 1 := by decide
    rw [← hs, hindex] at hlast
    omega

/-! ## Numbers -/

theorem digitStores_eq {uval i : Nat} (hi : i + (decRev uval uval).length < 2 ^ 31) :
    digitStores uval i =
      some (Stores.run i (decRev uval uval), i + (decRev uval uval).length) := by
  fun_induction digitStores uval i with
  | case1 i => rfl
  | case2 uval i hne ih =>
    rw [decRev_self hne, List.length_cons] at hi
    have hdigit : C.signed 32 (48 + (uval % 10 : Nat)) = some (48 + (uval % 10 : Nat)) :=
      C.signed_eq (by omega) (by omega)
    have hnext : C.signed 32 ((i : Int) + 1) = some ((i + 1 : Nat) : Int) :=
      C.signed_eq (by omega) (by omega)
    have hrest := ih ((i + 1 : Nat) : Int) (by rw [Int.toNat_natCast]; omega)
    rw [Int.toNat_natCast] at hrest
    rw [hdigit, hnext, decRev_self hne, List.length_cons]
    simp only [Option.bind_eq_bind, Option.bind_some, Int.toNat_natCast, hrest]
    rw [Stores.run, digit, show i + ((decRev (uval / 10) (uval / 10)).length + 1) =
      i + 1 + (decRev (uval / 10) (uval / 10)).length by omega]
    rfl

theorem scratchDigits_length {uval : Nat} (h : uval < sizeMod) :
    (scratchDigits uval).length ≤ 20 := by
  have hlen := decimal_length_le_20 h
  rwa [← scratchDigits_reverse, List.length_reverse] at hlen

theorem scratchStores_eq {uval : Nat} (h : uval < sizeMod) :
    scratchStores uval =
      some (Stores.run 0 (scratchDigits uval), (scratchDigits uval).length) := by
  have hlen := scratchDigits_length h
  unfold scratchStores
  by_cases hzero : uval = 0
  · rw [if_pos hzero, scratchDigits, if_pos hzero]
    rfl
  · rw [scratchDigits, if_neg hzero] at hlen ⊢
    rw [if_neg hzero, digitStores_eq (by omega), Nat.zero_add]

theorem reverseStores_eq {bs : Bytes} {i : Nat} (h : i ≤ bs.length) (d : Nat) :
    reverseStores (Stores.run 0 bs) i d = some (Stores.run d ((bs.take i).reverse ++ [0])) := by
  induction i generalizing d with
  | zero => rfl
  | succ i ih =>
    have hread : (Stores.run 0 bs).read i = some bs[i] :=
      Stores.read_run (List.getElem?_eq_getElem h)
    rw [reverseStores, hread, Option.bind_eq_bind, Option.bind_some, ih (Nat.le_of_succ_le h),
      List.take_succ_eq_append_getElem h, List.reverse_concat]
    rfl

/-- What a formatting call does, given the text of the number. -/
def formatted (dstSize : Nat) (text : Bytes) : Formatted :=
  if text.length ≥ dstSize then ⟨AxError.buffer.code, Stores.run 0 text.reverse, []⟩
  else ⟨text.length, Stores.run 0 text.reverse, Stores.run 0 (text ++ [0])⟩

theorem formatFinish_eq (dstSize : Nat) (temp : Bytes) :
    formatFinish dstSize (Stores.run 0 temp) temp.length =
      some (formatted dstSize temp.reverse) := by
  unfold formatFinish formatted
  rw [List.length_reverse, List.reverse_reverse]
  split
  · rfl
  · rw [reverseStores_eq (Nat.le_refl _), List.take_length]
    rfl

theorem axFormatUint64At_eq (dstSize : Nat) (value : UInt64) :
    axFormatUint64At dstSize value = some (formatted dstSize (decimal value.toNat)) := by
  rw [axFormatUint64At, scratchStores_eq value.toNat_lt, Option.bind_eq_bind, Option.bind_some,
    ← scratchDigits_reverse]
  exact formatFinish_eq dstSize _

theorem axFormatInt64At_nonneg (dstSize : Nat) {value : Int64} {n : Nat} (h : value.toInt = n) :
    axFormatInt64At dstSize value = some (formatted dstSize (decimal n)) := by
  have hhi := value.toInt_lt
  have hn : n < sizeMod := by
    rw [h] at hhi
    unfold sizeMod
    omega
  rw [axFormatInt64At, if_neg (by omega), h, Int.toNat_natCast, scratchStores_eq hn,
    Option.bind_eq_bind, Option.bind_some, ← scratchDigits_reverse]
  exact formatFinish_eq dstSize _

/-- The magnitude of a negative value: `value + 1` and its negation stay inside, also at
`INT64_MIN`. -/
theorem negated_signed {n : Nat} (h : n < 2 ^ 63) :
    C.signed 64 (Int.negSucc n + 1) = some (-(n : Int)) ∧
      C.signed 64 (- -(n : Int)) = some (n : Int) := by
  have hadd : Int.negSucc n + 1 = -(n : Int) := by omega
  rw [hadd, Int.neg_neg]
  exact ⟨C.signed_eq (by omega) (by omega), C.signed_eq (by omega) (by omega)⟩

theorem signStores_eq {temp : Bytes} (h : temp.length + 1 < 2 ^ 31) :
    signStores (Stores.run 0 temp) temp.length =
      some (Stores.run 0 (temp ++ [chr '-']), (temp ++ [chr '-']).length) := by
  have hnext : C.signed 32 ((temp.length : Int) + 1) = some ((temp.length + 1 : Nat) : Int) :=
    C.signed_eq (by omega) (by omega)
  rw [signStores, hnext, Option.bind_eq_bind, Option.bind_some, Int.toNat_natCast,
    Stores.run_append, Nat.zero_add, List.length_append]
  rfl

theorem axFormatInt64At_neg (dstSize : Nat) {value : Int64} {n : Nat}
    (h : value.toInt = Int.negSucc n) :
    axFormatInt64At dstSize value = some (formatted dstSize (chr '-' :: decimal (n + 1))) := by
  have hlo := value.le_toInt
  rw [h] at hlo
  obtain ⟨hadd, hneg⟩ := negated_signed (n := n) (by omega)
  have hn : n + 1 < sizeMod := by
    unfold sizeMod
    omega
  have hlen := scratchDigits_length hn
  have hfinish := formatFinish_eq dstSize (scratchDigits (n + 1) ++ [chr '-'])
  rw [List.reverse_concat, scratchDigits_reverse] at hfinish
  rw [axFormatInt64At, if_pos (by omega), h, hadd, Option.bind_eq_bind, Option.bind_some, hneg,
    Option.bind_eq_bind, Option.bind_some, Int.toNat_natCast, Nat.mod_eq_of_lt hn,
    scratchStores_eq hn, Option.bind_some]
  change (signStores _ _).bind _ = _
  rw [signStores_eq (by omega), Option.bind_some]
  exact hfinish

theorem axFormatInt64At_eq (dstSize : Nat) (value : Int64) :
    axFormatInt64At dstSize value = some (formatted dstSize (Json.numeral value.toInt)) := by
  cases hv : value.toInt with
  | ofNat n => exact axFormatInt64At_nonneg dstSize hv
  | negSucc n => exact axFormatInt64At_neg dstSize hv

/-- What the contract of a formatting function says about a call: an error exactly when text and NUL
do not fit, and then no store; otherwise both, and the length. -/
structure Formatted.Writes (r : Formatted) (dstSize : Nat) (text : Bytes) : Prop where
  error_iff : r.ret = AxError.buffer.code ↔ dstSize ≤ text.length
  untouched : dstSize ≤ text.length → r.dst = []
  ret : text.length < dstSize → r.ret = text.length
  dst : text.length < dstSize → r.dst.Within dstSize ∧ r.dst.Holds 0 (text ++ [0])
  temp : r.temp.Within 20

theorem formatted_writes (dstSize : Nat) {text : Bytes} (h : text.length ≤ 20) :
    (formatted dstSize text).Writes dstSize text := by
  have htemp : (Stores.run 0 text.reverse).Within 20 :=
    Stores.within_run.2 (.inr (by rw [List.length_reverse]; omega))
  have hcode : (text.length : Int) ≠ AxError.buffer.code := by
    have := AxError.buffer.code_neg
    omega
  unfold formatted
  by_cases hlen : text.length ≥ dstSize
  · rw [if_pos hlen]
    exact ⟨iff_of_true rfl hlen, fun _ => rfl, fun hlt => absurd hlt (Nat.not_lt.2 hlen),
      fun hlt => absurd hlt (Nat.not_lt.2 hlen), htemp⟩
  · rw [if_neg hlen]
    have hwithin : (Stores.run 0 (text ++ [0])).Within dstSize :=
      Stores.within_run.2 (.inr (by rw [List.length_append, List.length_singleton]; omega))
    exact ⟨iff_of_false hcode hlen, fun hle => absurd hle hlen, fun _ => rfl,
      fun _ => ⟨hwithin, Stores.holds_run 0 _⟩, htemp⟩

theorem numeral_eq (v : Int) :
    Json.numeral v = if v < 0 then chr '-' :: decimal v.natAbs else decimal v.natAbs := by
  cases v with
  | ofNat n =>
    rw [Int.ofNat_eq_natCast, if_neg (by omega)]
    rfl
  | negSucc n =>
    rw [if_pos (by omega)]
    rfl

/-- **Integer formatting is exact over 64 bits.** For every value and every size the call completes
without a signed overflow or a read of an unset byte, in 20 bytes of `temp`; the text it writes is
the shortest decimal form of the value and reads back as the value. -/
theorem format_exact (dstSize : Nat) :
    (∀ value : Int64, ∃ r text, axFormatInt64At dstSize value = some r ∧ r.Writes dstSize text ∧
      Shortest value.toInt text ∧ C.strtol text = some (value.toInt, [])) ∧
    (∀ value : UInt64, ∃ r text, axFormatUint64At dstSize value = some r ∧ r.Writes dstSize text ∧
      Shortest value.toNat text ∧ decValue text = value.toNat) := by
  constructor
  · intro value
    refine ⟨_, Json.numeral value.toInt, axFormatInt64At_eq dstSize value,
      formatted_writes dstSize (numeral_length_le_20 value), ?_, ?_⟩
    · rw [numeral_eq]
      exact shortest_decimal value.toInt
    · exact C.strtol_ld value.le_toInt (Int.le_sub_one_of_lt value.toInt_lt)
  · intro value
    refine ⟨_, decimal value.toNat, axFormatUint64At_eq dstSize value,
      formatted_writes dstSize (decimal_length_le_20 value.toNat_lt), ?_, decValue_decimal _⟩
    have h := shortest_decimal (value.toNat : Int)
    rwa [if_neg (by omega), Int.natAbs_natCast] at h

theorem formatted_inBounds (dstSize : Nat) (text : Bytes) (h : text.length ≤ 20) :
    Filled.InBounds dstSize ⟨(formatted dstSize text).ret, (formatted dstSize text).dst⟩ := by
  unfold formatted
  split
  · exact Filled.inBounds_error (e := .buffer).2 (Stores.within_nil dstSize)
  · next hlen =>
    rw [← C.intOfSize_eq (n := text.length) (by omega)]
    exact (Filled.inBounds_run text).2 (Nat.lt_of_not_le hlen)

/-! ## The derivation hash -/

theorem derivation_within_iff {S : Substrate} {obs : AxObsRecord} (h : Accepted S obs)
    (derivation : CBuf) :
    (axComputeDerivationHashAt S obs derivation).1.Within derivationBufferSize ↔
      derivation.isNull = true ∨ derivation.len ≤ axMaxObsBytes + 1 := by
  have hhash := h.obsHash_length
  have hsize : derivationBufferSize = 65601 ∧ axMaxObsBytes = 65536 := ⟨rfl, rfl⟩
  have hfirst : (Stores.run 0 obs.obsHash.bytes).Within derivationBufferSize :=
    Stores.within_run.2 (.inr (by omega))
  cases derivation with
  | null n => exact iff_of_true hfirst (.inl rfl)
  | mem bs hfits =>
    unfold axComputeDerivationHashAt
    by_cases hpos : bs.length > 0
    · rw [if_pos (by simpa [CBuf.isNull, CBuf.len] using hpos)]
      have hne : bs ≠ [] := List.length_pos_iff.1 hpos
      change (Stores.run 0 _ ++ Stores.run obs.obsHash.bytes.length bs).Within _ ↔
        false = true ∨ bs.length ≤ _
      rw [Stores.within_append, and_iff_right hfirst, Stores.within_run, or_iff_right hne,
        or_iff_right (by decide)]
      omega
    · rw [if_neg (by simpa [CBuf.isNull, CBuf.len] using hpos)]
      have hlen : (CBuf.mem bs hfits).len = bs.length := rfl
      exact iff_of_true hfirst (.inr (by omega))

/-! ## All of them -/

/-- **Which stores stay inside.** The writer and the normalisation for every size but zero, whatever
they are given; the integers for every size; a hash unless twice its length wraps; the derivation
buffer for a derivation that is absent or no longer than what is left of it. -/
theorem writes_in_bounds_iff {dstSize : Nat} (hsize : dstSize < sizeMod) :
    (∀ src, (axStringEscapeAt dstSize src).InBounds dstSize ↔ 1 ≤ dstSize) ∧
    (∀ params, (axParamsCanonicaliseAt dstSize params).InBounds dstSize ↔ 1 ≤ dstSize) ∧
    (∀ obs includeHash,
      (axObsCanonicaliseAt dstSize obs includeHash).InBounds dstSize ↔ 1 ≤ dstSize) ∧
    (∀ src, (axNormaliseLineEndingsAt dstSize src).InBounds dstSize ↔ 1 ≤ dstSize) ∧
    (∀ value, ∃ r,
      axFormatInt64At dstSize value = some r ∧ Filled.InBounds dstSize ⟨r.ret, r.dst⟩) ∧
    (∀ value, ∃ r,
      axFormatUint64At dstSize value = some r ∧ Filled.InBounds dstSize ⟨r.ret, r.dst⟩) ∧
    (∀ hash : Bytes, hash.length < sizeMod → ((axFormatHashHexAt dstSize hash).InBounds dstSize ↔
      hash.length < 2 ^ 63 ∨ dstSize < (hash.length * 2 + 1) % sizeMod)) ∧
    ∀ (S : Substrate) (prevObs : AxObsRecord) (derivation : CBuf), Accepted S prevObs →
      ((axComputeDerivationHashAt S prevObs derivation).1.Within derivationBufferSize ↔
        derivation.isNull = true ∨ derivation.len ≤ axMaxObsBytes + 1) := by
  refine ⟨?_, ?_, ?_, axNormaliseLineEndingsAt_inBounds_iff dstSize, ?_, ?_,
    fun hash => axFormatHashHexAt_inBounds_iff hsize,
    fun S prevObs derivation h => derivation_within_iff h derivation⟩
  · intro src
    rw [axStringEscapeAt_eq]
    exact writeFinishAt_inBounds_iff dstSize _
  · intro params
    rw [axParamsCanonicaliseAt_eq]
    exact writeFinishAt_inBounds_iff dstSize _
  · intro obs includeHash
    rw [axObsCanonicaliseAt_eq]
    exact writeFinishAt_inBounds_iff dstSize _
  · intro value
    exact ⟨_, axFormatInt64At_eq dstSize value,
      formatted_inBounds dstSize _ (numeral_length_le_20 value)⟩
  · intro value
    exact ⟨_, axFormatUint64At_eq dstSize value,
      formatted_inBounds dstSize _ (decimal_length_le_20 value.toNat_lt)⟩

/-- A size of one holds the NUL, five bytes hold a hash of two, and a short derivation its place. -/
theorem writes_in_bounds_iff_sample : (axStringEscapeAt 1 []).InBounds 1 ∧
    (axFormatHashHexAt 5 [0x0F, 0xA0]).InBounds 5 ∧
    (axComputeDerivationHashAt sampleSubstrate
      (axObsAdmit sampleSubstrate 64 sampleInput axAdmissionCtxInit {}).out
      (.mem (ascii "then") (by decide))).1.Within derivationBufferSize := by
  have hacc : Accepted sampleSubstrate
      (axObsAdmit sampleSubstrate 64 sampleInput axAdmissionCtxInit {}).out :=
    ⟨_, _, _, _, sampleInput_accepted, rfl⟩
  obtain ⟨hescape, -, -, -, -, -, -, -⟩ := writes_in_bounds_iff (show 1 < sizeMod by decide)
  obtain ⟨-, -, -, -, -, -, hhash, hderivation⟩ := writes_in_bounds_iff (show 5 < sizeMod by decide)
  exact ⟨(hescape _).2 (by decide), (hhash _ (by decide)).2 (.inl (by decide)),
    (hderivation _ _ _ hacc).2 (.inr (by decide))⟩

/-- The empty text into a destination of no bytes: the NUL is stored at index 0. -/
theorem empty_destination_written : ¬ (axStringEscapeAt 0 []).InBounds 0 := by
  intro h
  exact absurd (h.1 (0, 0) (List.mem_singleton_self _)) (by decide)

/-! ## The stores are the bytes of the functions -/

/-- A call does what the function says: its bytes and the NUL from index 0 on and their number, or
its error. -/
def Filled.Refines (f : Filled) : Except AxError Bytes → Prop
  | .ok text => f.ret = C.intOfSize text.length ∧ f.dst = Stores.run 0 (text ++ [0])
  | .error e => f.ret = e.code

theorem writeFinishAt_refines (dstSize : Nat) (s : Bytes) :
    (writeFinishAt (writtenAt dstSize s)).Refines
      (if s.length ≤ sizePred dstSize then .ok s else .error .buffer) := by
  rw [writeFinishAt_writtenAt]
  split
  · exact ⟨rfl, rfl⟩
  · exact rfl

theorem formatted_refines (dstSize : Nat) {text : Bytes} (h : text.length ≤ 20) :
    Filled.Refines ⟨(formatted dstSize text).ret, (formatted dstSize text).dst⟩
      (if text.length ≥ dstSize then .error .buffer else .ok text) := by
  unfold formatted
  split
  · exact rfl
  · exact ⟨(C.intOfSize_eq (by omega)).symm, rfl⟩

/-- **The two models of the writing routines agree.** -/
theorem writes_refine (dstSize : Nat) :
    (∀ src, (axStringEscapeAt dstSize src).Refines (axStringEscape dstSize src)) ∧
    (∀ params,
      (axParamsCanonicaliseAt dstSize params).Refines (axParamsCanonicalise dstSize params)) ∧
    (∀ obs includeHash, (axObsCanonicaliseAt dstSize obs includeHash).Refines
      (axObsCanonicalise dstSize obs includeHash)) ∧
    (∀ src, (axNormaliseLineEndingsAt dstSize src).Refines (axNormaliseLineEndings dstSize src)) ∧
    (∀ value, ∃ r, axFormatInt64At dstSize value = some r ∧
      Filled.Refines ⟨r.ret, r.dst⟩ (axFormatInt64 dstSize value)) ∧
    ∀ value, ∃ r, axFormatUint64At dstSize value = some r ∧
      Filled.Refines ⟨r.ret, r.dst⟩ (axFormatUint64 dstSize value) := by
  refine ⟨fun src => ?_, fun params => ?_, fun obs includeHash => ?_, fun src => ?_,
    fun value => ⟨_, axFormatInt64At_eq dstSize value, ?_⟩,
    fun value => ⟨_, axFormatUint64At_eq dstSize value, ?_⟩⟩
  · rw [axStringEscapeAt_eq, axStringEscape, writeEscaped_eq, writeFinish_writeStr]
    exact writeFinishAt_refines dstSize _
  · rw [axParamsCanonicaliseAt_eq, axParamsCanonicalise_eq]
    exact writeFinishAt_refines dstSize _
  · rw [axObsCanonicaliseAt_eq, axObsCanonicalise_eq]
    exact writeFinishAt_refines dstSize _
  · rw [axNormaliseLineEndingsAt, axNormaliseLineEndings, normaliseStores_eq, Nat.sub_zero]
    cases hloop : normaliseLoop (sizePred dstSize) src with
    | mk w rest =>
      cases rest with
      | nil =>
        have hnul := Stores.run_append 0 w [0]
        rw [Nat.zero_add] at hnul
        exact ⟨congrArg C.intOfSize (Stores.length_run 0 w),
          (congrArg (fun n => Stores.run 0 w ++ [(n, 0)]) (Stores.length_run 0 w)).trans hnul.symm⟩
      | cons c rest => exact rfl
  · rw [axFormatInt64_cases]
    exact formatted_refines dstSize (numeral_length_le_20 value)
  · rw [axFormatUint64_cases]
    exact formatted_refines dstSize (decimal_length_le_20 value.toNat_lt)

end

end AxiomaOracle
