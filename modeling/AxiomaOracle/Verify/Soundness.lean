import AxiomaOracle.Verify.Admission

/-!
# Validation is sound

What `ax_obs_validate` guarantees of any record, admitted or not: the strings may be malformed, the
pointers NULL and the states outside their enums. The text it hashes is therefore not always JSON,
so that the decoder of `Lib.Json` is of no use here; the fields are told apart by their delimiters
instead (`delimited_inj`, `escaped_inj`), one field of `obsText` after the other.

The text says less than the record: a NULL string and an empty one are written alike, and so are all
values outside an enum. `Agree` is equality up to that.
-/

namespace AxiomaOracle

open Lib

variable {S : Substrate}

/-! ## Fields between their delimiters -/

/-- A field that does not hold the first byte of what follows it. -/
theorem delimited_inj {x y u s t : Bytes} {c : UInt8} (hu : u.head? = some c) (hx : c ∉ x)
    (hy : c ∉ y) (h : x ++ (u ++ s) = y ++ (u ++ t)) : x = y ∧ s = t := by
  obtain ⟨u', rfl⟩ : ∃ u', u = c :: u' := by
    cases u with
    | nil => cases hu
    | cons d u' => exact ⟨u', by rw [Option.some.inj hu]⟩
  simp only [List.cons_append] at h
  induction x generalizing y with
  | nil =>
    cases y with
    | nil => exact ⟨rfl, List.append_cancel_left (List.cons.inj h).2⟩
    | cons d y =>
      have hd : c = d := (List.cons.inj h).1
      exact absurd (hd ▸ List.mem_cons_self) hy
  | cons d x ih =>
    cases y with
    | nil =>
      have hd : d = c := (List.cons.inj h).1
      exact absurd (hd ▸ List.mem_cons_self) hx
    | cons e y =>
      obtain ⟨rfl, hrest⟩ := List.cons.inj h
      obtain ⟨rfl, hst⟩ :=
        ih (List.not_mem_of_not_mem_cons hx) (List.not_mem_of_not_mem_cons hy) hrest
      exact ⟨rfl, hst⟩

theorem escapeByte_cases (b : UInt8) :
    (b = 34 ∧ Json.escapeByte b = [92, 34]) ∨ (b = 92 ∧ Json.escapeByte b = [92, 92]) ∨
    (b.toNat < 0x20 ∧ Json.escapeByte b =
      [92, 117, 48, 48, hexDigit (b.toNat / 16), hexDigit (b.toNat % 16)]) ∨
    (b ≠ 34 ∧ b ≠ 92 ∧ Json.escapeByte b = [b]) := by
  unfold Json.escapeByte
  split
  · next h => exact .inl ⟨h, rfl⟩
  split
  · next h => exact .inr (.inl ⟨h, rfl⟩)
  split
  · next h => exact .inr (.inr (.inl ⟨h, rfl⟩))
  · next h1 h2 _ => exact .inr (.inr (.inr ⟨h1, h2, rfl⟩))

/-- The escapes of two bytes differ before either ends. -/
theorem escapeByte_inj {b c : UInt8} {s t : Bytes}
    (h : Json.escapeByte b ++ s = Json.escapeByte c ++ t) : b = c ∧ s = t := by
  rcases escapeByte_cases b with ⟨rfl, hb⟩ | ⟨rfl, hb⟩ | ⟨hblow, hb⟩ | ⟨hb1, hb2, hb⟩ <;>
    rcases escapeByte_cases c with ⟨rfl, hc⟩ | ⟨rfl, hc⟩ | ⟨hclow, hc⟩ | ⟨hc1, hc2, hc⟩ <;>
    simp only [hb, hc, List.cons_append, List.nil_append, List.cons.injEq, true_and] at h
  case inr.inr.inl.inr.inr.inl =>
    -- two control characters: their hex digits tell them apart
    have e1 := hexDigit_injective (by omega) (by omega) h.1
    have e2 := hexDigit_injective (by omega) (by omega) h.2.1
    exact ⟨byte_ext (by omega), h.2.2⟩
  all_goals first | exact ⟨rfl, h⟩ | exact h | (exfalso; simp_all)

theorem escaped_inj {x y u s t : Bytes} (hu : u.head? = some 34)
    (h : Json.escape x ++ (u ++ s) = Json.escape y ++ (u ++ t)) : x = y ∧ s = t := by
  obtain ⟨u', rfl⟩ : ∃ u', u = 34 :: u' := by
    cases u with
    | nil => cases hu
    | cons d u' => exact ⟨u', by rw [Option.some.inj hu]⟩
  have hcons : ∀ c s, Json.escape (c :: s) = Json.escapeByte c ++ Json.escape s :=
    fun c s => List.flatMap_cons
  -- no escape starts with the closing quote
  have hquote : ∀ c r r', Json.escapeByte c ++ r ≠ 34 :: r' := by
    intro c r r' he
    rcases escapeByte_cases c with ⟨-, hc⟩ | ⟨-, hc⟩ | ⟨-, hc⟩ | ⟨hne, -, hc⟩ <;> rw [hc] at he <;>
      have hhead := (List.cons.inj he).1
    · cases hhead
    · cases hhead
    · cases hhead
    · exact hne hhead
  induction x generalizing y with
  | nil =>
    cases y with
    | nil => exact ⟨rfl, List.append_cancel_left h⟩
    | cons d y =>
      rw [hcons, List.append_assoc] at h
      exact absurd h.symm (hquote d _ _)
  | cons c x ih =>
    cases y with
    | nil =>
      rw [hcons, List.append_assoc] at h
      exact absurd h (hquote c _ _)
    | cons d y =>
      rw [hcons, hcons, List.append_assoc, List.append_assoc] at h
      obtain ⟨rfl, hrest⟩ := escapeByte_inj h
      obtain ⟨rfl, hst⟩ := ih hrest
      exact ⟨rfl, hst⟩

theorem notMem_completionStateText (s : AxCompletionState) : 44 ∉ completionStateText s := by
  cases s <;> simp only [completionStateText] <;> decide

theorem notMem_failureTypeText (t : AxFailureType) : 44 ∉ failureTypeText t := by
  cases t <;> simp only [failureTypeText] <;> decide

theorem notMem_hexOf (bs : Bytes) : 34 ∉ hexOf bs := fun h =>
  absurd (hexOf_range bs 34 h).1 (by decide)

theorem notMem_decimal (n : Nat) {c : UInt8} (hc : isDigit c = false) : c ∉ decimal n := by
  intro h
  rw [decimal_isDigit n c h] at hc
  cases hc

theorem notMem_optInt (b : Bool) (v : Int) : 125 ∉ (optInt b v).render := by
  rw [render_optInt]
  split
  · decide
  · cases v with
    | ofNat n => exact notMem_decimal n rfl
    | negSucc n =>
      intro h
      rcases List.mem_cons.1 h with h | h
      · cases h
      · exact notMem_decimal (n + 1) rfl h

/-- The params object ends with its only closing brace. -/
theorem paramsJson_delimited (p : AxOracleParams) :
    ∃ y, (paramsJson p).render = y ++ ascii "\x7d" ∧ 125 ∉ y := by
  refine ⟨_, render_paramsJson p, ?_⟩
  simp only [List.mem_append, not_or]
  refine ⟨⟨⟨⟨⟨⟨⟨?_, notMem_optInt _ _⟩, ?_⟩, notMem_optInt _ _⟩, ?_⟩, notMem_optInt _ _⟩, ?_⟩,
    notMem_optInt _ _⟩ <;> decide

theorem paramsText_inj {p q : AxOracleParams} {s t : Bytes}
    (h : (paramsJson p).render ++ s = (paramsJson q).render ++ t) : p = q ∧ s = t := by
  obtain ⟨y, hy, hmem⟩ := paramsJson_delimited p
  obtain ⟨z, hz, hmem'⟩ := paramsJson_delimited q
  rw [hy, hz, List.append_assoc, List.append_assoc] at h
  obtain ⟨rfl, hst⟩ := delimited_inj (by decide) hmem hmem' h
  refine ⟨paramsJson_inj (Json.render_injective (plain_paramsJson p) (plain_paramsJson q) ?_), hst⟩
  rw [hy, hz]

/-! ## What a text determines -/

/-- Equal, or both NULL or empty. -/
def SameString (s t : Option CStr) : Prop := optBytes s = optBytes t

def SameState (s t : AxCompletionState) : Prop :=
  s = t ∨ ∃ m n, s = .outside m ∧ t = .outside n

def SameFailure (f g : AxFailureType) : Prop := f = g ∨ ∃ m n, f = .outside m ∧ g = .outside n

/-- Two records with the same fields, but for what the text does not show: NULL or an empty string,
and which value outside an enum. -/
structure Agree (obs obs' : AxObsRecord) : Prop where
  completionState : SameState obs.completionState obs'.completionState
  failureType : SameFailure obs.failureType obs'.failureType
  inputHash : obs.inputHash = obs'.inputHash
  ledgerSeq : obs.ledgerSeq = obs'.ledgerSeq
  modelId : SameString obs.modelId obs'.modelId
  obsHash : obs.obsHash = obs'.obsHash
  oracleId : SameString obs.oracleId obs'.oracleId
  output : SameString obs.output obs'.output
  outputSize : obs.outputSize = obs'.outputSize
  params : obs.params = obs'.params
  schemaVersion : obs.schemaVersion = obs'.schemaVersion

theorem sameState_of_text {s t : AxCompletionState}
    (h : completionStateText s = completionStateText t) : SameState s t := by
  cases s <;> cases t <;>
    first | exact .inl rfl | exact .inr ⟨_, _, rfl, rfl⟩ |
      (simp only [completionStateText] at h; exact absurd h (by decide))

theorem sameFailure_of_text {f g : AxFailureType} (h : failureTypeText f = failureTypeText g) :
    SameFailure f g := by
  cases f <;> cases g <;>
    first | exact .inl rfl | exact .inr ⟨_, _, rfl, rfl⟩ |
      (simp only [failureTypeText] at h; exact absurd h (by decide))

/-- **The text determines the fields**, whatever the strings hold. -/
theorem agree_of_obsText {obs obs' : AxObsRecord} (h : obsText obs false = obsText obs' false)
    (hhash : obs.obsHash = obs'.obsHash) (hschema : obs.schemaVersion = obs'.schemaVersion) :
    Agree obs obs' := by
  unfold obsText at h
  simp only [List.append_assoc, Bool.false_eq_true, if_false, List.nil_append, optEscaped_eq] at h
  obtain ⟨hstate, h⟩ := delimited_inj (by decide) (notMem_completionStateText _)
    (notMem_completionStateText _) (List.append_cancel_left h)
  obtain ⟨hfail, h⟩ := delimited_inj (by decide) (notMem_failureTypeText _)
    (notMem_failureTypeText _) h
  obtain ⟨hinput, h⟩ := delimited_inj (by decide) (notMem_hexOf _) (notMem_hexOf _) h
  obtain ⟨hseq, h⟩ := delimited_inj (by decide) (notMem_decimal _ (c := 44) rfl)
    (notMem_decimal _ rfl) h
  obtain ⟨hmodel, h⟩ := escaped_inj (by decide) h
  obtain ⟨horacle, h⟩ := escaped_inj (by decide) (List.append_cancel_left h)
  obtain ⟨houtput, h⟩ := escaped_inj (by decide) h
  obtain ⟨hsize, h⟩ := delimited_inj (by decide) (notMem_decimal _ (c := 44) rfl)
    (notMem_decimal _ rfl) h
  obtain ⟨hparams, -⟩ := paramsText_inj h
  have hnat : ∀ {a b : UInt64}, decimal a.toNat = decimal b.toNat → a = b := by
    intro a b hab
    have hval := congrArg decValue hab
    rw [decValue_decimal, decValue_decimal] at hval
    exact UInt64.toNat_inj.1 hval
  have hdigest : obs.inputHash = obs'.inputHash := by
    have hbytes := hexOf_injective hinput
    cases hd : obs.inputHash
    cases hd' : obs'.inputHash
    simp_all
  exact ⟨sameState_of_text hstate, sameFailure_of_text hfail, hdigest, hnat hseq, hmodel, hhash,
    horacle, houtput, hnat hsize, hparams, hschema⟩

/-! ## Validation -/

/-- What `ax_obs_validate` has checked when it returns `AX_OK`. -/
theorem axObsValidate_ok {obs : AxObsRecord} {f : AxL3FaultFlags}
    (h : (axObsValidate S obs f).1 = none) :
    obs.schemaVersion = some axObsSchemaVersion ∧ outputEncodingResult obs = .ok () ∧
    outputSizeConsistent obs = true ∧ (obsText obs false).length < axCanonicalBufferSize ∧
    ∃ d, S.axilogCommit axObsSchemaVersion (obsText obs false) = some d ∧
      obs.obsHash.bytes = hexOf d.bytes := by
  unfold axObsValidate at h
  split at h
  · cases h
  next hschema =>
  split at h
  · cases h
  next henc =>
  split at h
  · cases h
  next hsized =>
  dsimp only at h
  split at h
  · cases h
  next text htext =>
  obtain ⟨rfl, hlen⟩ := axObsCanonicalise_ok_iff.1 htext
  rw [obsText_obsHash, le_sizePred_iff (by decide)] at hlen
  rw [obsText_obsHash] at h
  split at h
  · cases h
  next d hd =>
  simp only [axFormatHashHex_eq, formatInto] at h
  split at h
  · cases h
  next hhash =>
  exact ⟨not_not.1 hschema, henc, by simpa using hsized, hlen, d, hd, (not_not.1 hhash).symm⟩

/-- The output is valid text: it was scanned, or its size is zero and so it is empty. -/
theorem output_valid {obs : AxObsRecord} (henc : outputEncodingResult obs = .ok ())
    (hsized : outputSizeConsistent obs = true) : Utf8.Valid (optBytes obs.output) := by
  unfold outputEncodingResult at henc
  unfold outputSizeConsistent at hsized
  cases ho : obs.output with
  | none => exact .nil
  | some o =>
    rw [ho] at henc hsized
    dsimp only at henc hsized
    have hbytes : optBytes (some o) = o.bytes := rfl
    rw [hbytes]
    split at henc
    · exact valid_of_axValidateEncoding henc
    · next hzero =>
      have hsize : obs.outputSize.toNat = 0 := by
        rw [gt_iff_lt, UInt64.lt_iff_toNat_lt] at hzero
        exact Nat.eq_zero_of_not_pos hzero
      have hnil : o.bytes = [] := by
        rw [hsize] at hsized
        split at hsized
        · exact List.length_eq_zero_iff.1 (Nat.le_zero.1 (of_decide_eq_true hsized))
        · exact List.length_eq_zero_iff.1 (eq_of_beq hsized)
      rw [hnil]
      exact .nil

/-- **What validation guarantees.** The schema version; valid output; the size of an output that is
there, exact or for a truncated record at least; the hash of the serialised record. And two
accepted records with one hash agree in every field, up to NULL or empty strings and up to the
values outside an enum, unless their texts collide under the commitment. -/
theorem validation_sound {S : Substrate} {obs : AxObsRecord} {faults : AxL3FaultFlags}
    (h : (axObsValidate S obs faults).1 = none) :
    obs.schemaVersion = some axObsSchemaVersion ∧
    Utf8.Valid (optBytes obs.output) ∧
    (∀ o, obs.output = some o → if obs.completionState = .truncated
      then o.bytes.length ≤ obs.outputSize.toNat else obs.outputSize.toNat = o.bytes.length) ∧
    (∃ text d, axObsCanonicalise axCanonicalBufferSize { obs with obsHash := ⟨[], by simp⟩ } false =
        .ok text ∧
      S.axilogCommit axObsSchemaVersion text = some d ∧ obs.obsHash.bytes = hexOf d.bytes) ∧
    ∀ obs' faults', (axObsValidate S obs' faults').1 = none → obs.obsHash = obs'.obsHash →
      (S.axilogCommit axObsSchemaVersion (obsText obs false) =
        S.axilogCommit axObsSchemaVersion (obsText obs' false) →
          obsText obs false = obsText obs' false) → Agree obs obs' := by
  obtain ⟨hschema, henc, hsized, hlen, d, hd, hhash⟩ := axObsValidate_ok h
  refine ⟨hschema, output_valid henc hsized, ?_, ?_, ?_⟩
  · intro o ho
    unfold outputSizeConsistent at hsized
    rw [ho] at hsized
    dsimp only at hsized
    split
    · next hstate =>
      rw [if_pos hstate] at hsized
      exact of_decide_eq_true hsized
    · next hstate =>
      rw [if_neg hstate] at hsized
      exact (eq_of_beq hsized).symm
  · refine ⟨obsText obs false, d, axObsCanonicalise_ok_iff.2 ⟨(obsText_obsHash obs _).symm, ?_⟩, hd,
      hhash⟩
    rw [obsText_obsHash, le_sizePred_iff (by decide)]
    exact hlen
  · intro obs' faults' h' hsame hfree
    obtain ⟨hschema', -, -, -, d', hd', hhash'⟩ := axObsValidate_ok h'
    have hdigest : d = d' := by
      have hbytes : d.bytes = d'.bytes := hexOf_injective (by rw [← hhash, ← hhash', hsame])
      cases d
      cases d'
      simp_all
    refine agree_of_obsText (hfree ?_) hsame (hschema.trans hschema'.symm)
    rw [hd, hd', hdigest]

/-- The admitted sample record. -/
theorem validation_sound_sample :
    (axObsValidate sampleSubstrate
      (axObsAdmit sampleSubstrate 64 sampleInput axAdmissionCtxInit {}).out {}).1 = none ∧
    Utf8.Valid
      (optBytes (axObsAdmit sampleSubstrate 64 sampleInput axAdmissionCtxInit {}).out.output) := by
  have hvalid := axObsValidate_admissible (axObsAdmit_ok sampleInput_accepted).1 {}
  have h := congrArg Prod.fst hvalid
  exact ⟨h, (validation_sound h).2.1⟩

/-- A record with an output pointer that is NULL, a size and, in place of a state, `value`. -/
def hollow (value : Nat) : AxObsRecord :=
  (axObsComputeHash sampleSubstrate
    { axObsInit with completionState := .outside value, outputSize := 5 }).2

/-- A record without content, with `output` for its output. -/
def blank (output : Option CStr) : AxObsRecord :=
  (axObsComputeHash sampleSubstrate { axObsInit with output := output }).2

/-- Validation accepts a size without an output, and does not tell two such states apart, nor an
output that is NULL from the empty one. -/
theorem validation_overlooks :
    ((axObsValidate sampleSubstrate (hollow 7) {}).1 = none ∧
      (axObsValidate sampleSubstrate (hollow 8) {}).1 = none ∧
      (hollow 7).completionState ≠ .truncated ∧
      (hollow 7).outputSize.toNat ≠ (optBytes (hollow 7).output).length ∧
      axObsCanonicalise axCanonicalBufferSize (hollow 7) true =
        axObsCanonicalise axCanonicalBufferSize (hollow 8) true ∧
      (hollow 7).obsHash = (hollow 8).obsHash ∧ hollow 7 ≠ hollow 8) ∧
    (axObsValidate sampleSubstrate (blank none) {}).1 = none ∧
    (axObsValidate sampleSubstrate (blank (some (.ofBytes []))) {}).1 = none ∧
    axObsCanonicalise axCanonicalBufferSize (blank none) true =
      axObsCanonicalise axCanonicalBufferSize (blank (some (.ofBytes []))) true ∧
    (blank none).obsHash = (blank (some (.ofBytes []))).obsHash ∧
    blank none ≠ blank (some (.ofBytes [])) := by
  decide +kernel

end AxiomaOracle
