import AxiomaOracle.Lib.Jcs
import AxiomaOracle.Verify.Admission

/-!
# The canonical form and RFC 8785

The canonical text of a record has the RFC's order of members, its numbers and its literal text, but
`write_escaped` has no short escapes: `canonical_is_jcs_iff` says for which records the text is the
one the RFC gives.
-/

namespace AxiomaOracle

open Lib

variable {S : Substrate}

/-! ## Order and numbers -/

/-- The field order of `ax_params_canonicalise`. -/
def paramsNames : List Bytes :=
  [ascii "max_tokens", ascii "seed", ascii "temperature", ascii "top_p"]

/-- The field order of `ax_obs_canonicalise`. -/
def obsNames : List Bytes :=
  [ascii "completion_state", ascii "failure_type", ascii "input_hash", ascii "ledger_seq",
    ascii "model_id", ascii "obs_hash", ascii "oracle_id", ascii "output", ascii "output_size",
    ascii "params", ascii "schema_version"]

theorem paramsNames_sorted : paramsNames.Pairwise fun k l => Jcs.nameLe k l = true := by decide

theorem obsNames_sorted : obsNames.Pairwise fun k l => Jcs.nameLe k l = true := by decide

theorem ready_optInt {isNull : Bool} {v : Int} (h : isNull = true ∨ v.natAbs ≤ 2 ^ 53) :
    Jcs.Ready (optInt isNull v) := by
  cases isNull with
  | true => trivial
  | false => exact ⟨rfl, h.resolve_left nofun⟩

theorem natAbs_int32 (v : Int32) : v.toInt.natAbs ≤ 2 ^ 53 := by
  have hlo := v.le_toInt
  have hhi := v.toInt_lt
  omega

theorem ready_paramsJson {p : AxOracleParams}
    (hseed : axParamsSeedIsNull p = true ∨ p.seed.toInt.natAbs ≤ 2 ^ 53) :
    Jcs.Ready (paramsJson p) := by
  rw [paramsJson, Jcs.Ready]
  refine ⟨paramsNames_sorted, ?_⟩
  simp only [Jcs.ReadyMembers, and_true]
  exact ⟨ready_optInt (.inr (natAbs_int32 _)), ready_optInt hseed,
    ready_optInt (.inr (natAbs_int32 _)), ready_optInt (.inr (natAbs_int32 _))⟩

theorem ready_obsJson {obs : AxObsRecord} (hseq : obs.ledgerSeq.toNat ≤ 2 ^ 53)
    (hsize : obs.outputSize.toNat ≤ 2 ^ 53)
    (hseed : axParamsSeedIsNull obs.params = true ∨ obs.params.seed.toInt.natAbs ≤ 2 ^ 53)
    (includeHash : Bool) : Jcs.Ready (obsJson obs includeHash) := by
  have hstate : Jcs.Ready (completionStateJson obs.completionState) := by
    cases obs.completionState <;> trivial
  have hfail : Jcs.Ready (failureTypeJson obs.failureType) := by
    cases obs.failureType <;> trivial
  rw [obsJson, Jcs.Ready]
  refine ⟨obsNames_sorted, ?_⟩
  simp only [Jcs.ReadyMembers, Jcs.Ready, Int.natAbs_natCast, true_and, and_true]
  exact ⟨hstate, hfail, hseq, hsize, ready_paramsJson hseed⟩

/-! ## Escapes -/

theorem long_optInt (isNull : Bool) (v : Int) : Jcs.LongOnly Jcs.shortEscape (optInt isNull v) := by
  cases isNull <;> trivial

theorem long_paramsJson (p : AxOracleParams) : Jcs.LongOnly Jcs.shortEscape (paramsJson p) := by
  have hnames : ∀ k ∈ paramsNames, Jcs.Long Jcs.shortEscape k := by decide
  simp only [paramsNames, List.forall_mem_cons] at hnames
  obtain ⟨h1, h2, h3, h4, -⟩ := hnames
  rw [paramsJson, Jcs.LongOnly]
  simp only [Jcs.LongMembers, long_optInt, h1, h2, h3, h4, and_true]

theorem long_id {s : Option CStr} (h : idIsWellFormed s = true) :
    Jcs.Long Jcs.shortEscape (optBytes s) := by
  cases s with
  | none => cases h
  | some c =>
    unfold idIsWellFormed at h
    dsimp only at h
    split at h
    · cases h
    split at h
    · cases h
    next hclean =>
    intro b hb
    refine Jcs.controls_shortEscape _ ?_
    by_contra hlow
    refine hclean (List.any_eq_true.2 ⟨b, hb, ?_⟩)
    rw [decide_eq_true (Nat.lt_of_not_le hlow), Bool.true_or]

theorem long_hexOf (bs : Bytes) : Jcs.Long Jcs.shortEscape (hexOf bs) := by
  intro b hb
  have hrange := hexOf_range bs b hb
  exact Jcs.controls_shortEscape _ (by omega)

/-- Only the output of an admitted record can hold a control. -/
theorem longOnly_obsJson_iff {obs : AxObsRecord} (h : Admissible S obs) (includeHash : Bool) :
    Jcs.LongOnly Jcs.shortEscape (obsJson obs includeHash) ↔
      Jcs.Long Jcs.shortEscape (optBytes obs.output) := by
  have hnames : ∀ k ∈ obsNames, Jcs.Long Jcs.shortEscape k := by decide
  simp only [obsNames, List.forall_mem_cons] at hnames
  obtain ⟨h1, h2, h3, h4, h5, h6, h7, h8, h9, h10, h11, -⟩ := hnames
  have hstate : Jcs.LongOnly Jcs.shortEscape (completionStateJson obs.completionState) := by
    cases obs.completionState <;> simp only [completionStateJson, Jcs.LongOnly] <;> decide
  have hfail : Jcs.LongOnly Jcs.shortEscape (failureTypeJson obs.failureType) := by
    cases obs.failureType <;> simp only [failureTypeJson, Jcs.LongOnly] <;> decide
  have hhash : Jcs.Long Jcs.shortEscape (if includeHash then obs.obsHash.bytes else []) := by
    obtain ⟨d, -, hd⟩ := h.hash
    rw [hd]
    split
    · exact long_hexOf d.bytes
    · exact fun b hb => absurd hb List.not_mem_nil
  have hschema : Jcs.Long Jcs.shortEscape (optBytes obs.schemaVersion) := by
    rw [h.schema]
    decide
  rw [obsJson, Jcs.LongOnly]
  simp only [Jcs.LongMembers, Jcs.LongOnly, h1, h2, h3, h4, h5, h6, h7, h8, h9, h10, h11, hstate,
    hfail, long_hexOf, long_id h.modelId, long_id h.oracleId, hhash, hschema, long_paramsJson,
    true_and, and_true]

/-! ## The canonical form -/

theorem serialise_obsText_iff {obs : AxObsRecord} (h : Admissible S obs)
    (hseq : obs.ledgerSeq.toNat ≤ 2 ^ 53) (hsize : obs.outputSize.toNat ≤ 2 ^ 53)
    (hseed : axParamsSeedIsNull obs.params = true ∨ obs.params.seed.toInt.natAbs ≤ 2 ^ 53)
    (includeHash : Bool) :
    Jcs.serialise (obsJson obs includeHash) = some (obsText obs includeHash) ↔
      Jcs.Long Jcs.shortEscape (optBytes obs.output) := by
  rw [obsText_admissible h, ← longOnly_obsJson_iff h includeHash]
  exact Jcs.serialise_eq_render_iff (ready_obsJson hseq hsize hseed includeHash)

/-- **The canonical text is the RFC's without short escapes**, and the RFC's own exactly when no
byte of the output has one; then the RFC's text without the hash has the stored hash. -/
theorem canonical_is_jcs_iff {obs : AxObsRecord} (hacc : Accepted S obs)
    (hseq : obs.ledgerSeq.toNat ≤ 2 ^ 53) (hsize : obs.outputSize.toNat ≤ 2 ^ 53)
    (hseed : axParamsSeedIsNull obs.params = true ∨ obs.params.seed.toInt.natAbs ≤ 2 ^ 53) :
    (∀ includeHash, ∃ text v,
      (∀ dstSize, axMaxObsBytes < dstSize → axObsCanonicalise dstSize obs includeHash = .ok text) ∧
      (∀ dstSize t, axObsCanonicalise dstSize obs includeHash = .ok t → t = text) ∧
      Json.decode text = some v ∧ Jcs.serialiseWith Jcs.noShort v = some text ∧
      (Jcs.serialise v = some text ↔ ∀ b ∈ optBytes obs.output, Jcs.shortEscape b = none)) ∧
    ((∀ b ∈ optBytes obs.output, Jcs.shortEscape b = none) →
      ∃ text d, Jcs.serialise (obsJson obs false) = some text ∧
        S.axilogCommit axObsSchemaVersion text = some d ∧ obs.obsHash.bytes = hexOf d.bytes) := by
  have hadm := hacc.admissible
  have hiff := serialise_obsText_iff hadm hseq hsize hseed
  refine ⟨fun includeHash => ⟨obsText obs includeHash, obsJson obs includeHash, ?_, ?_, ?_, ?_,
    hiff includeHash⟩, fun hlong => ?_⟩
  · exact fun dstSize hd => axObsCanonicalise_admissible hadm hd includeHash
  · exact fun dstSize t ht => (axObsCanonicalise_ok_iff.1 ht).1
  · rw [obsText_admissible hadm]
    exact Json.decode_render (plain_obsJson hadm includeHash)
  · rw [obsText_admissible hadm]
    exact Jcs.serialiseWith_noShort (ready_obsJson hseq hsize hseed includeHash)
  · obtain ⟨d, hcommit, hhash⟩ := hadm.hash
    exact ⟨_, d, (hiff false).2 hlong, hcommit, hhash⟩

/-- The sample input with a seed and another answer. -/
def seededInput (bs : Bytes) (h : bs.length < sizeMod) : AxObsInput :=
  { sampleInput with output := .mem bs h, params := { axOracleParamsInitNull with seed := 7 } }

/-- What the RFC's text of an admitted record depends on, from the input. -/
theorem admitted_fields {size : Nat} {inp : AxObsInput} {ctx : AxAdmissionCtx} {f : AxL3FaultFlags}
    (h : (axObsAdmit S size inp ctx f).ret = none) :
    (axObsAdmit S size inp ctx f).out.ledgerSeq = inp.ledgerSeq ∧
    (axObsAdmit S size inp ctx f).out.outputSize = (admitBody S inp).outputSize ∧
    (axObsAdmit S size inp ctx f).out.params = inp.params ∧
    optBytes (axObsAdmit S size inp ctx f).out.output =
      (CStr.ofBytes (outputOf inp.output)).bytes := by
  obtain ⟨-, -, hash, hout, -⟩ := axObsAdmit_ok h
  rw [hout]
  exact ⟨rfl, rfl, rfl, rfl⟩

def oneLine : AxObsInput := seededInput (ascii "one line") (by decide)

def twoLines : AxObsInput := seededInput (ascii "two\nlines") (by decide)

theorem oneLine_accepted :
    (axObsAdmit sampleSubstrate 64 oneLine axAdmissionCtxInit {}).ret = none := by
  rw [axObsAdmit_accepts (by decide) (by decide) (by decide) (by decide +kernel) rfl
    (by decide +kernel)]

theorem twoLines_accepted :
    (axObsAdmit sampleSubstrate 64 twoLines axAdmissionCtxInit {}).ret = none := by
  rw [axObsAdmit_accepts (by decide) (by decide) (by decide) (by decide +kernel) rfl
    (by decide +kernel)]

theorem canonical_is_jcs_iff_sample : ∃ text v, axObsCanonicalise 70000
      (axObsAdmit sampleSubstrate 64 oneLine axAdmissionCtxInit {}).out true = .ok text ∧
    Json.decode text = some v ∧ Jcs.serialise v = some text := by
  obtain ⟨hseq, hsize, hparams, hout⟩ := admitted_fields oneLine_accepted
  have hacc : Accepted sampleSubstrate
      (axObsAdmit sampleSubstrate 64 oneLine axAdmissionCtxInit {}).out :=
    ⟨_, _, _, _, oneLine_accepted, rfl⟩
  have hlen : (admitBody sampleSubstrate oneLine).outputSize = 8 := by decide +kernel
  have hbytes : (CStr.ofBytes (outputOf oneLine.output)).bytes =
    ascii "one line" := by decide +kernel
  have hseed : oneLine.params.seed.toInt.natAbs ≤ 2 ^ 53 := by decide +kernel
  have hfirst : oneLine.ledgerSeq.toNat ≤ 2 ^ 53 := by decide +kernel
  obtain ⟨htext, -⟩ := canonical_is_jcs_iff hacc (by rw [hseq]; exact hfirst)
    (by rw [hsize, hlen]; decide) (.inr (by rw [hparams]; exact hseed))
  obtain ⟨text, v, hok, -, hdecode, -, hiff⟩ := htext true
  refine ⟨text, v, hok 70000 (by decide), hdecode, hiff.2 ?_⟩
  rw [hout, hbytes]
  decide

/-- **A line feed in the output is not written as the RFC does.** -/
theorem lineFeed_not_jcs : ∃ obs text v, Accepted sampleSubstrate obs ∧ obs.ledgerSeq = 1 ∧
    obs.outputSize = 9 ∧ obs.params.seed = 7 ∧ axObsCanonicalise 70000 obs true = .ok text ∧
    Json.decode text = some v ∧ Jcs.serialise v ≠ some text := by
  obtain ⟨hseq, hsize, hparams, hout⟩ := admitted_fields twoLines_accepted
  have hacc : Accepted sampleSubstrate
      (axObsAdmit sampleSubstrate 64 twoLines axAdmissionCtxInit {}).out :=
    ⟨_, _, _, _, twoLines_accepted, rfl⟩
  have hadm := hacc.admissible
  have hlen : (admitBody sampleSubstrate twoLines).outputSize = 9 := by decide +kernel
  have hbytes : (CStr.ofBytes (outputOf twoLines.output)).bytes = ascii "two\nlines" := by
    decide +kernel
  have hseed : twoLines.params.seed.toInt.natAbs ≤ 2 ^ 53 := by decide +kernel
  have hfirst : twoLines.ledgerSeq.toNat ≤ 2 ^ 53 := by decide +kernel
  have hiff := serialise_obsText_iff hadm (by rw [hseq]; exact hfirst)
    (by rw [hsize, hlen]; decide) (.inr (by rw [hparams]; exact hseed)) true
  have hdecode := Json.decode_render (plain_obsJson hadm true)
  rw [← obsText_admissible hadm] at hdecode
  refine ⟨_, _, _, hacc, hseq, hsize.trans hlen, ?_,
    axObsCanonicalise_admissible hadm (by decide) true, hdecode, ?_⟩
  · rw [hparams]
    rfl
  · rw [ne_eq, hiff, hout, hbytes]
    decide

end AxiomaOracle
