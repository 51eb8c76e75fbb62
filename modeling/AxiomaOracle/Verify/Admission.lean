import AxiomaOracle.Oracle.Obs
import AxiomaOracle.Verify.Canonical
import AxiomaOracle.Verify.Validate

/-!
# Admitted records

`axObsAdmit_ok` says once what an accepted input has passed and what the record then holds:
`Admissible` for the record itself, and the copied fields, the context and the flags. Validation
and the canonical encoding are about `Admissible` records, so they never look into admission again.
-/

namespace AxiomaOracle

open Lib

variable {S : Substrate}

/-- `ax_obs_admit` returned `AX_OK` with this record, for some input, context, flags and buffer. -/
def Accepted (S : Substrate) (obs : AxObsRecord) : Prop :=
  ∃ size inp ctx faults, (axObsAdmit S size inp ctx faults).ret = none ∧
    (axObsAdmit S size inp ctx faults).out = obs

/-- What admission guarantees of a record. -/
structure Admissible (S : Substrate) (obs : AxObsRecord) : Prop where
  schema : obs.schemaVersion = some axObsSchemaVersion
  states : statePairIsPermitted obs.completionState obs.failureType = true
  modelId : idIsWellFormed obs.modelId = true
  oracleId : idIsWellFormed obs.oracleId = true
  output : ∃ o, obs.output = some o ∧ axValidateEncoding o.bytes = .ok ()
  sized : outputSizeConsistent obs = true
  hash : ∃ d, S.axilogCommit axObsSchemaVersion (obsText obs false) = some d ∧
    obs.obsHash.bytes = hexOf d.bytes
  fits : (obsText obs true).length ≤ axMaxObsBytes

/-! ## The observation hash -/

theorem obsText_obsHash (obs : AxObsRecord) (h : CStr) :
    obsText { obs with obsHash := h } false = obsText obs false := by
  unfold obsText
  rfl

theorem obsText_length_false_le (obs : AxObsRecord) :
    (obsText obs false).length ≤ (obsText obs true).length := by
  unfold obsText
  simp only [List.length_append, Bool.false_eq_true, if_false, if_true, List.length_nil]
  omega

theorem hexOf_nulFree (bs : Bytes) : (0 : UInt8) ∉ hexOf bs := by
  intro h
  exact absurd (hexOf_range bs 0 h).1 (by decide)

theorem ofBytes_hexOf (bs : Bytes) : (CStr.ofBytes (hexOf bs)).bytes = hexOf bs :=
  CStr.ofBytes_of_nulFree (hexOf_nulFree bs)

theorem axObsComputeHash_ok {obs obs' : AxObsRecord}
    (h : axObsComputeHash S obs = (.ok (), obs')) :
    ∃ d, S.axilogCommit axObsSchemaVersion (obsText obs false) = some d ∧
      obs' = { obs with obsHash := .ofBytes (hexOf d.bytes) } := by
  unfold axObsComputeHash at h
  simp only [axFormatHashHex_eq, formatInto] at h
  split at h
  · cases h
  · next text htext =>
    obtain ⟨rfl, -⟩ := axObsCanonicalise_ok_iff.1 htext
    rw [obsText_obsHash] at h
    split at h
    · cases h
    · next d hd =>
      cases h
      exact ⟨d, hd, rfl⟩

theorem sizePred_succ (n : Nat) : sizePred (n + 1) = n := rfl

theorem admitFinish_ok {inp : AxObsInput} {ctx : AxAdmissionCtx} {f : AxL3FaultFlags}
    {out : AxObsRecord} (h : (admitFinish S inp ctx f out).ret = none) :
    ∃ d, S.axilogCommit axObsSchemaVersion (obsText out false) = some d ∧
      admitFinish S inp ctx f out =
        ⟨none, { out with obsHash := .ofBytes (hexOf d.bytes) }, ⟨inp.ledgerSeq, true⟩, f⟩ ∧
      (obsText { out with obsHash := .ofBytes (hexOf d.bytes) } true).length ≤ axMaxObsBytes := by
  unfold admitFinish at h ⊢
  split at h
  · cases h
  · next out' hout =>
    obtain ⟨d, hd, rfl⟩ := axObsComputeHash_ok hout
    refine ⟨d, hd, ?_⟩
    dsimp only at h ⊢
    split at h
    · cases h
    · next text htext =>
      obtain ⟨rfl, hlen⟩ := axObsCanonicalise_ok_iff.1 htext
      exact ⟨rfl, hlen⟩

/-! ## Admission -/

/-- The digest admission stores for an input. -/
def inputHashOf (S : Substrate) (input : CBuf) : Digest :=
  if !input.isNull && input.len > 0 then axComputeInputHash S input.bytes else .zero

/-- The output admission stores for an output: cut to the limit, then normalised. -/
def outputOf (output : CBuf) : Bytes := normLF (output.bytes.take axMaxOutputBytes)

theorem inputIsSchemaValid_iff (inp : AxObsInput) : inputIsSchemaValid inp = true ↔
    idIsWellFormed inp.modelId = true ∧ idIsWellFormed inp.oracleId = true ∧
    statePairIsPermitted inp.completionState inp.failureType = true ∧
    ¬ (inp.completionState = .error ∧ inp.output.len > axMaxOutputBytes) ∧
    ¬ (inp.input.isNull = true ∧ inp.input.len > 0) ∧
    ¬ (inp.output.isNull = true ∧ inp.output.len > 0) := by
  unfold inputIsSchemaValid
  cases idIsWellFormed inp.modelId <;> cases idIsWellFormed inp.oracleId <;>
    cases statePairIsPermitted inp.completionState inp.failureType <;> grind

/-- The record admission has built when it reaches `admitFinish`, from the output's bytes. -/
def admitBody (S : Substrate) (inp : AxObsInput) : AxObsRecord :=
  { axObsInit with
    completionState := if inp.output.len > axMaxOutputBytes then .truncated else inp.completionState
    failureType := inp.failureType
    inputHash := inputHashOf S inp.input
    ledgerSeq := inp.ledgerSeq
    modelId := inp.modelId
    oracleId := inp.oracleId
    output := some (.ofBytes (outputOf inp.output))
    outputSize := if inp.output.len > axMaxOutputBytes then UInt64.ofNat inp.output.len
      else UInt64.ofNat (outputOf inp.output).length
    params := inp.params
    schemaVersion := some axObsSchemaVersion }

/-- What an input has passed when admission reaches `admitFinish`. -/
structure Passed (ctx : AxAdmissionCtx) (inp : AxObsInput) : Prop where
  ordered : ctx.initialized = true → ctx.lastLedgerSeq < inp.ledgerSeq
  valid : inputIsSchemaValid inp = true
  encoded : axValidateEncoding (outputOf inp.output) = .ok ()
  control : axContainsForbiddenControl (outputOf inp.output) = false

/-- The flags after the length check. -/
def sizeFaults (inp : AxObsInput) (f : AxL3FaultFlags) : AxL3FaultFlags :=
  if inp.output.len > axMaxOutputBytes then { f with size := true } else f

theorem bytes_eq_nil {output : CBuf} (h : ¬ (!output.isNull ∧ output.len > 0))
    (hnull : ¬ (output.isNull = true ∧ output.len > 0)) : output.len = 0 ∧ output.bytes = [] := by
  cases output with
  | null n => simp_all [CBuf.isNull, CBuf.len, CBuf.bytes]
  | mem bs hbs => simp_all [CBuf.isNull, CBuf.len, CBuf.bytes]

/-- An input that passes the checks reaches `admitFinish` with `admitBody`. -/
theorem axObsAdmit_eq {size : Nat} {inp : AxObsInput} {ctx : AxAdmissionCtx} {f : AxL3FaultFlags}
    (hord : ¬ (ctx.initialized ∧ inp.ledgerSeq ≤ ctx.lastLedgerSeq))
    (hid : ¬ (idTooLong inp.modelId axMaxModelIdBytes ||
      idTooLong inp.oracleId axMaxOracleIdBytes) = true)
    (hvalid : inputIsSchemaValid inp = true)
    (hnorm : axValidateAndNormalise size (inp.output.bytes.take axMaxOutputBytes)
      (sizeFaults inp f) = (.ok (outputOf inp.output), sizeFaults inp f)) :
    axObsAdmit S size inp ctx f = admitFinish S inp ctx (sizeFaults inp f) (admitBody S inp) := by
  unfold axObsAdmit
  rw [if_neg hord, if_neg hid, if_neg (by simp [hvalid])]
  dsimp only
  rw [← sizeFaults]
  split
  · rw [hnorm]
    dsimp only
    congr 1
    by_cases hover : inp.output.len > axMaxOutputBytes
    · simp [admitFields, admitBody, axObsInit, hover, inputHashOf]
    · simp [admitFields, admitBody, axObsInit, hover, inputHashOf]
  · next hout =>
    -- an empty or NULL output: the schema check leaves only the length zero
    obtain ⟨hlen, hbytes⟩ := bytes_eq_nil hout ((inputIsSchemaValid_iff inp).1 hvalid).2.2.2.2.2
    have hof : outputOf inp.output = [] := by simp [outputOf, hbytes, normLF]
    have hover : ¬ inp.output.len > axMaxOutputBytes := by rw [hlen]; decide
    congr 1
    simp [admitFields, admitBody, axObsInit, hover, hof, inputHashOf, CStr.ofBytes]

theorem axValidateAndNormalise_nil (size : Nat) (f : AxL3FaultFlags) :
    axValidateAndNormalise size [] f = (.ok [], f) := by
  simp [axValidateAndNormalise, axValidateUtf8, axNormaliseLineEndings, normaliseLoop,
    axContainsForbiddenControl, axIsNfc]

/-- An accepted input has passed every check before `admitFinish`. -/
theorem axObsAdmit_checks {size : Nat} {inp : AxObsInput} {ctx : AxAdmissionCtx}
    {f : AxL3FaultFlags} (h : (axObsAdmit S size inp ctx f).ret = none) :
    ¬ (ctx.initialized ∧ inp.ledgerSeq ≤ ctx.lastLedgerSeq) ∧
      ¬ (idTooLong inp.modelId axMaxModelIdBytes || idTooLong inp.oracleId axMaxOracleIdBytes) =
        true ∧ inputIsSchemaValid inp = true ∧
      axValidateAndNormalise size (inp.output.bytes.take axMaxOutputBytes) (sizeFaults inp f) =
        (.ok (outputOf inp.output), sizeFaults inp f) := by
  unfold axObsAdmit at h
  split at h
  · cases h
  split at h
  · cases h
  split at h
  · cases h
  · next hord hid hschema =>
    have hvalid : inputIsSchemaValid inp = true := by simpa using hschema
    refine ⟨hord, hid, hvalid, ?_⟩
    dsimp only at h
    rw [← sizeFaults] at h
    split at h
    · split at h
      · cases h
      · next norm f' hnorm =>
        obtain ⟨rfl, rfl, -⟩ := axValidateAndNormalise_ok hnorm
        exact hnorm
    · next hout =>
      obtain ⟨-, hbytes⟩ := bytes_eq_nil hout ((inputIsSchemaValid_iff inp).1 hvalid).2.2.2.2.2
      rw [outputOf, hbytes]
      exact axValidateAndNormalise_nil size _

theorem axObsAdmit_reaches {size : Nat} {inp : AxObsInput} {ctx : AxAdmissionCtx}
    {f : AxL3FaultFlags} (h : (axObsAdmit S size inp ctx f).ret = none) :
    Passed ctx inp ∧
      axObsAdmit S size inp ctx f = admitFinish S inp ctx (sizeFaults inp f) (admitBody S inp) := by
  obtain ⟨hord, hid, hvalid, hnorm⟩ := axObsAdmit_checks h
  obtain ⟨-, -, hv, hctl, hnfc⟩ := axValidateAndNormalise_ok hnorm
  have hord' : ctx.initialized = true → ctx.lastLedgerSeq < inp.ledgerSeq := fun hi =>
    UInt64.not_le.1 fun hle => hord ⟨hi, hle⟩
  exact ⟨⟨hord', hvalid, axValidateEncoding_normLF hv hnfc, hctl⟩,
    axObsAdmit_eq hord hid hvalid hnorm⟩

theorem outputOf_length_le (output : CBuf) :
    (outputOf output).length ≤ output.len ∧ (outputOf output).length ≤ axMaxOutputBytes := by
  have h1 := normLF_length_le (output.bytes.take axMaxOutputBytes)
  have h2 : output.bytes.length ≤ output.len := by cases output <;> simp [CBuf.bytes, CBuf.len]
  rw [List.length_take] at h1
  exact ⟨by unfold outputOf; omega, by unfold outputOf; omega⟩

/-- The built record satisfies everything but the two facts about its hash. -/
theorem admitBody_sized {ctx : AxAdmissionCtx} {inp : AxObsInput} (h : Passed ctx inp) :
    outputSizeConsistent (admitBody S inp) = true := by
  obtain ⟨hl1, hl2⟩ := outputOf_length_le inp.output
  have hb : (CStr.ofBytes (outputOf inp.output)).bytes = outputOf inp.output :=
    CStr.ofBytes_of_nulFree (nulFree_of_control h.control)
  have hlen := inp.output.len_lt
  unfold outputSizeConsistent admitBody
  simp only [hb]
  by_cases hover : inp.output.len > axMaxOutputBytes
  · simp only [hover, if_true]
    rw [UInt64.toNat_ofNat_of_lt' hlen]
    simpa using hl1
  · have hsize : (UInt64.ofNat (outputOf inp.output).length).toNat = (outputOf inp.output).length :=
      UInt64.toNat_ofNat_of_lt' (Nat.lt_of_le_of_lt hl1 hlen)
    simp only [hover, if_false, hsize]
    split <;> simp

theorem admitBody_states {inp : AxObsInput} (h : inputIsSchemaValid inp = true) :
    statePairIsPermitted (admitBody S inp).completionState
      (admitBody S inp).failureType = true := by
  obtain ⟨-, -, hstates, hover, -⟩ := (inputIsSchemaValid_iff inp).1 h
  unfold admitBody
  dsimp only
  split
  · next hlen =>
    -- an `ERROR` input over the limit was rejected, so the failure type is null
    cases hs : inp.completionState with
    | error => exact absurd ⟨hs, hlen⟩ hover
    | outside n => rw [hs] at hstates; cases hstates
    | complete => rw [hs] at hstates; exact hstates
    | truncated => rw [hs] at hstates; exact hstates
  · exact hstates

/-- **What acceptance means**: the record is admissible, its fields are those of the input, and the
context has moved to its sequence number. -/
theorem axObsAdmit_ok {size : Nat} {inp : AxObsInput} {ctx : AxAdmissionCtx} {f : AxL3FaultFlags}
    (h : (axObsAdmit S size inp ctx f).ret = none) :
    Admissible S (axObsAdmit S size inp ctx f).out ∧ Passed ctx inp ∧
    ∃ hash, (axObsAdmit S size inp ctx f).out = { admitBody S inp with obsHash := hash } ∧
    (axObsAdmit S size inp ctx f).ctx = ⟨inp.ledgerSeq, true⟩ := by
  obtain ⟨hpass, heq⟩ := axObsAdmit_reaches h
  rw [heq] at h ⊢
  obtain ⟨d, hd, hfin, hfit⟩ := admitFinish_ok h
  rw [hfin]
  have hvalid := (inputIsSchemaValid_iff inp).1 hpass.valid
  have hb : (CStr.ofBytes (outputOf inp.output)).bytes = outputOf inp.output :=
    CStr.ofBytes_of_nulFree (nulFree_of_control hpass.control)
  refine ⟨?_, hpass, _, rfl, rfl⟩
  exact {
    schema := rfl
    states := admitBody_states (S := S) hpass.valid
    modelId := hvalid.1
    oracleId := hvalid.2.1
    output := ⟨_, rfl, by rw [hb]; exact hpass.encoded⟩
    sized := admitBody_sized (S := S) hpass
    hash := ⟨d, by rw [obsText_obsHash]; exact hd, ofBytes_hexOf d.bytes⟩
    fits := hfit }

/-- The converse: an input that passes the checks is accepted when the record's text fits and the
commitment raises no fault. -/
theorem axObsAdmit_accepts {size : Nat} {inp : AxObsInput} {ctx : AxAdmissionCtx}
    {f : AxL3FaultFlags} {d : Digest}
    (hord : ¬ (ctx.initialized ∧ inp.ledgerSeq ≤ ctx.lastLedgerSeq))
    (hid : ¬ (idTooLong inp.modelId axMaxModelIdBytes ||
      idTooLong inp.oracleId axMaxOracleIdBytes) = true)
    (hvalid : inputIsSchemaValid inp = true)
    (hnorm : axValidateAndNormalise size (inp.output.bytes.take axMaxOutputBytes)
      (sizeFaults inp f) = (.ok (outputOf inp.output), sizeFaults inp f))
    (hd : S.axilogCommit axObsSchemaVersion (obsText (admitBody S inp) false) = some d)
    (hfit : (obsText { admitBody S inp with obsHash := .ofBytes (hexOf d.bytes) } true).length ≤
      axMaxObsBytes) :
    axObsAdmit S size inp ctx f =
      ⟨none, { admitBody S inp with obsHash := .ofBytes (hexOf d.bytes) }, ⟨inp.ledgerSeq, true⟩,
        sizeFaults inp f⟩ := by
  have hempty := obsText_obsHash (admitBody S inp) ⟨[], by simp⟩
  have hlen : (obsText (admitBody S inp) false).length ≤ sizePred axCanonicalBufferSize := by
    have h1 := obsText_length_false_le { admitBody S inp with obsHash := .ofBytes (hexOf d.bytes) }
    rw [obsText_obsHash (admitBody S inp) (.ofBytes (hexOf d.bytes))] at h1
    exact Nat.le_trans h1 (Nat.le_trans hfit (by decide))
  have hcanon : axObsCanonicalise axCanonicalBufferSize
      { admitBody S inp with obsHash := ⟨[], by simp⟩ } false =
      .ok (obsText (admitBody S inp) false) :=
    axObsCanonicalise_ok_iff.2 ⟨hempty.symm, by rw [hempty]; exact hlen⟩
  have hfull : axObsCanonicalise (axMaxObsBytes + 1)
      { admitBody S inp with obsHash := .ofBytes (hexOf d.bytes) } true =
      .ok (obsText { admitBody S inp with obsHash := .ofBytes (hexOf d.bytes) } true) :=
    axObsCanonicalise_ok_iff.2 ⟨rfl, hfit⟩
  rw [axObsAdmit_eq hord hid hvalid hnorm]
  simp only [admitFinish, axObsComputeHash, hcanon, hd, axFormatHashHex_eq, formatInto, hfull]

/-! ## Validation accepts what admission accepts -/

theorem axObsValidate_admissible {obs : AxObsRecord} (h : Admissible S obs) (f : AxL3FaultFlags) :
    axObsValidate S obs f = (none, f) := by
  obtain ⟨o, ho, henc⟩ := h.output
  obtain ⟨d, hd, hhash⟩ := h.hash
  have hlen : (obsText obs false).length ≤ sizePred axCanonicalBufferSize :=
    Nat.le_trans (obsText_length_false_le obs) (Nat.le_trans h.fits (by decide))
  have hcanon :
    axObsCanonicalise axCanonicalBufferSize { obs with obsHash := ⟨[], by simp⟩ } false =
      .ok (obsText obs false) := by
    have htext := obsText_obsHash obs ⟨[], by simp⟩
    exact axObsCanonicalise_ok_iff.2 ⟨htext.symm, by rw [htext]; exact hlen⟩
  have hout : outputEncodingResult obs = .ok () := by
    unfold outputEncodingResult
    rw [ho]
    dsimp only
    split
    · exact henc
    · rfl
  unfold axObsValidate
  rw [if_neg (by rw [h.schema]; simp), hout]
  simp only [h.sized, Bool.not_true, Bool.false_eq_true, if_false, hcanon, hd, axFormatHashHex_eq,
    formatInto, hhash, ne_eq, not_true]

theorem axObsCanonicalise_admissible {obs : AxObsRecord} (h : Admissible S obs) {dstSize : Nat}
    (hd : axMaxObsBytes < dstSize) (includeHash : Bool) :
    axObsCanonicalise dstSize obs includeHash = .ok (obsText obs includeHash) := by
  have hlen : (obsText obs includeHash).length ≤ axMaxObsBytes := by
    cases includeHash
    · exact Nat.le_trans (obsText_length_false_le obs) h.fits
    · exact h.fits
  refine axObsCanonicalise_ok_iff.2 ⟨rfl, ?_⟩
  rw [sizePred, if_neg (by omega)]
  omega

/-- **Whatever admission accepts, validation accepts.** The accepted record passes validation
without a new fault, and its stored form is written into `AX_MAX_OBS_BYTES + 1` bytes, so it is at
most `AX_MAX_OBS_BYTES` long. -/
theorem admit_ok_validate_ok (S : Substrate) (inp : AxObsInput) (ctx : AxAdmissionCtx)
    (outputBufSize : Nat) (faults : AxL3FaultFlags)
    (h : (axObsAdmit S outputBufSize inp ctx faults).ret = none) :
    (∀ f, axObsValidate S (axObsAdmit S outputBufSize inp ctx faults).out f = (none, f)) ∧
    ∃ text, axObsCanonicalise (axMaxObsBytes + 1)
        (axObsAdmit S outputBufSize inp ctx faults).out true = .ok text ∧
      text.length ≤ axMaxObsBytes := by
  obtain ⟨hadm, -⟩ := axObsAdmit_ok h
  refine ⟨axObsValidate_admissible hadm, _, ?_, hadm.fits⟩
  exact axObsCanonicalise_admissible hadm (Nat.lt_succ_self _) true

/-! ## The canonical form is a faithful encoding -/

theorem ascii_valid_of_range {bs : Bytes} (h : ∀ b ∈ bs, b.toNat ≤ 102) : Utf8.Valid bs :=
  .of_ascii fun b hb => by have := h b hb; omega

theorem hexOf_valid (bs : Bytes) : Utf8.Valid (hexOf bs) :=
  ascii_valid_of_range fun b hb => (hexOf_range bs b hb).2.1

theorem optBytes_valid {s : Option CStr} (h : idIsWellFormed s = true) :
    ∃ c, s = some c ∧ Utf8.Valid (optBytes s) := by
  cases s with
  | none => cases h
  | some c =>
    refine ⟨c, rfl, ?_⟩
    unfold idIsWellFormed at h
    dsimp only at h
    split at h
    · cases h
    split at h
    · cases h
    rw [axValidateUtf8_eq_check, Utf8.check_iff] at h
    exact h

theorem valid_of_axValidateEncoding {bs : Bytes} (h : axValidateEncoding bs = .ok ()) :
    Utf8.Valid bs := by
  unfold axValidateEncoding at h
  rw [axValidateUtf8_eq_check] at h
  split at h
  · cases h
  · next hu => exact (Utf8.check_iff bs).1 (by simpa using hu)

theorem plain_optInt (b : Bool) (v : Int) : (optInt b v).Plain := by
  cases b <;> simp [optInt, Json.Plain]

theorem plain_paramsJson (p : AxOracleParams) : (paramsJson p).Plain := by
  simp only [paramsJson, Json.Plain, Json.PlainMembers, and_true]
  refine ⟨.of_ascii ?_, plain_optInt _ _, .of_ascii ?_, plain_optInt _ _, .of_ascii ?_,
    plain_optInt _ _, .of_ascii ?_, plain_optInt _ _⟩ <;> decide

theorem plain_obsJson {obs : AxObsRecord} (h : Admissible S obs) (includeHash : Bool) :
    (obsJson obs includeHash).Plain := by
  obtain ⟨m, -, hm⟩ := optBytes_valid h.modelId
  obtain ⟨r, -, hr⟩ := optBytes_valid h.oracleId
  obtain ⟨o, ho, henc⟩ := h.output
  have hout : Utf8.Valid (optBytes obs.output) := by
    rw [ho]
    exact valid_of_axValidateEncoding henc
  have hschema : Utf8.Valid (optBytes obs.schemaVersion) := by
    rw [h.schema]
    exact .of_ascii (by decide)
  have hhash : Utf8.Valid (if includeHash then obs.obsHash.bytes else []) := by
    obtain ⟨d, -, hd⟩ := h.hash
    cases includeHash
    · exact .nil
    · rw [if_pos rfl, hd]
      exact hexOf_valid _
  have hstate : (completionStateJson obs.completionState).Plain := by
    cases obs.completionState <;> simp only [completionStateJson, Json.Plain] <;>
      exact .of_ascii (by decide)
  have hfail : (failureTypeJson obs.failureType).Plain := by
    cases obs.failureType <;> simp only [failureTypeJson, Json.Plain] <;>
      exact .of_ascii (by decide)
  have hparams := plain_paramsJson obs.params
  simp only [obsJson, Json.Plain, Json.PlainMembers, and_true, true_and]
  refine ⟨.of_ascii ?_, hstate, .of_ascii ?_, hfail, .of_ascii ?_, hexOf_valid _, .of_ascii ?_,
    .of_ascii ?_, hm, .of_ascii ?_, hhash, .of_ascii ?_, hr, .of_ascii ?_, hout, .of_ascii ?_,
    .of_ascii ?_, hparams, .of_ascii ?_, hschema⟩ <;> decide

theorem obsText_admissible {obs : AxObsRecord} (h : Admissible S obs) (includeHash : Bool) :
    obsText obs includeHash = (obsJson obs includeHash).render := by
  refine obsText_eq_render includeHash ?_ ?_
  · obtain ⟨d, -, hd⟩ := h.hash
    rw [hd]
    exact escape_hexOf d.bytes
  · rw [h.schema]
    decide

theorem completionStateJson_inj {s t : AxCompletionState} {f g : AxFailureType}
    (hs : statePairIsPermitted s f = true) (ht : statePairIsPermitted t g = true)
    (h : completionStateJson s = completionStateJson t) : s = t := by
  have h := congrArg Json.render h
  cases s <;> cases t <;> first | rfl | cases hs | cases ht | exact absurd h (by decide)

theorem failureTypeJson_inj {s t : AxCompletionState} {f g : AxFailureType}
    (hs : statePairIsPermitted s f = true) (ht : statePairIsPermitted t g = true)
    (h : failureTypeJson f = failureTypeJson g) : f = g := by
  have permitted : ∀ {s f}, statePairIsPermitted s f = true → ∀ n, f ≠ .outside n := by
    rintro s f hp n rfl
    cases s <;> simp [statePairIsPermitted] at hp
  have hf := permitted hs
  have hg := permitted ht
  have h := congrArg Json.render h
  cases f <;> cases g <;> first | rfl | exact absurd rfl (hf _) | exact absurd rfl (hg _) |
    exact absurd h (by decide)

/-- A number is null exactly at its sentinel, so the JSON value determines it. -/
theorem optInt_inj {v w c : Int} (h : optInt (v == c) v = optInt (w == c) w) : v = w := by
  unfold optInt at h
  split at h <;> split at h <;> simp_all

theorem paramsJson_inj {p q : AxOracleParams} (h : paramsJson p = paramsJson q) : p = q := by
  have beq32 : ∀ a b : Int32, (a == b) = (a.toInt == b.toInt) := fun a b => by
    rw [Bool.eq_iff_iff, beq_iff_eq, beq_iff_eq, Int32.toInt_inj]
  have beq64 : ∀ a b : Int64, (a == b) = (a.toInt == b.toInt) := fun a b => by
    rw [Bool.eq_iff_iff, beq_iff_eq, beq_iff_eq, Int64.toInt_inj]
  simp only [paramsJson, axParamsMaxTokensIsNull, axParamsSeedIsNull, axParamsTemperatureIsNull,
    axParamsTopPIsNull, beq32, beq64, Json.obj.injEq, List.cons.injEq, Prod.mk.injEq, true_and,
    and_true] at h
  obtain ⟨h1, h2, h3, h4⟩ := h
  cases p
  cases q
  have h1 := Int32.toInt_inj.1 (optInt_inj h1)
  have h2 := Int64.toInt_inj.1 (optInt_inj h2)
  have h3 := Int32.toInt_inj.1 (optInt_inj h3)
  have h4 := Int32.toInt_inj.1 (optInt_inj h4)
  simp_all

/-- Two admissible records with one JSON value agree in every field but the hash. -/
theorem obsJson_inj {obs obs' : AxObsRecord} (h : Admissible S obs) (h' : Admissible S obs')
    (he : obsJson obs false = obsJson obs' false) :
      { obs with obsHash := obs'.obsHash } = obs' := by
  have some_inj : ∀ {s t : Option CStr} {a b : CStr}, s = some a → t = some b →
      optBytes s = optBytes t → s = t := by
    rintro s t a b rfl rfl hb
    exact congrArg some (CStr.ext hb)
  obtain ⟨m, hm, -⟩ := optBytes_valid h.modelId
  obtain ⟨m', hm', -⟩ := optBytes_valid h'.modelId
  obtain ⟨r, hr, -⟩ := optBytes_valid h.oracleId
  obtain ⟨r', hr', -⟩ := optBytes_valid h'.oracleId
  obtain ⟨o, ho, -⟩ := h.output
  obtain ⟨o', ho', -⟩ := h'.output
  simp only [obsJson, Json.obj.injEq, List.cons.injEq, Prod.mk.injEq, true_and, and_true,
    Json.str.injEq, Json.num.injEq, Int.natCast_inj] at he
  obtain ⟨e1, e2, e3, e4, e5, -, e7, e8, e9, e10, e11⟩ := he
  have f1 := completionStateJson_inj h.states h'.states e1
  have f2 := failureTypeJson_inj h.states h'.states e2
  have f3 : obs.inputHash = obs'.inputHash := by
    have := hexOf_injective e3
    cases hd : obs.inputHash
    cases hd' : obs'.inputHash
    simp_all
  have f4 := UInt64.toNat_inj.1 e4
  have f5 := some_inj hm hm' e5
  have f7 := some_inj hr hr' e7
  have f8 := some_inj ho ho' e8
  have f9 := UInt64.toNat_inj.1 e9
  have f10 := paramsJson_inj e10
  have f11 := some_inj h.schema h'.schema e11
  cases obs
  cases obs'
  simp_all

/-- The stored text determines the sequence number. -/
theorem obsText_ledgerSeq {obs obs' : AxObsRecord} (h : Admissible S obs) (h' : Admissible S obs')
    (he : obsText obs true = obsText obs' true) : obs.ledgerSeq = obs'.ledgerSeq := by
  rw [obsText_admissible h, obsText_admissible h'] at he
  have hjson := Json.render_injective (plain_obsJson h true) (plain_obsJson h' true) he
  simp only [obsJson, Json.obj.injEq, List.cons.injEq, Prod.mk.injEq, true_and, and_true,
    Json.num.injEq, Int.natCast_inj] at hjson
  exact UInt64.toNat_inj.1 hjson.2.2.2.1

theorem Accepted.admissible {obs : AxObsRecord} (h : Accepted S obs) : Admissible S obs := by
  obtain ⟨size, inp, ctx, f, hret, rfl⟩ := h
  exact (axObsAdmit_ok hret).1

/-- The hash of an admitted record is 64 digits. -/
theorem Accepted.obsHash_length {obs : AxObsRecord} (h : Accepted S obs) :
    obs.obsHash.bytes.length = 64 := by
  obtain ⟨d, -, hhash⟩ := h.admissible.hash
  rw [hhash, hexOf_length, d.size]
  rfl

/-- **The canonical form is a faithful, injective encoding of accepted records.** A destination of
more than `AX_MAX_OBS_BYTES` bytes is large enough; whatever is written decodes, as RFC 8259 JSON,
to the object `obsJson` of the eleven members; and two accepted records with the same bytes
(without the hash) agree in every other field. -/
theorem canonical_faithful (S : Substrate) :
    (∀ obs, Accepted S obs → ∀ includeHash,
      (∀ dstSize, axMaxObsBytes < dstSize →
        ∃ text, axObsCanonicalise dstSize obs includeHash = .ok text) ∧
      ∀ dstSize text, axObsCanonicalise dstSize obs includeHash = .ok text →
        Json.decode text = some (obsJson obs includeHash)) ∧
    ∀ obs obs', Accepted S obs → Accepted S obs' → ∀ dstSize dstSize' text,
      axObsCanonicalise dstSize obs false = .ok text →
      axObsCanonicalise dstSize' obs' false = .ok text →
      { obs with obsHash := obs'.obsHash } = obs' := by
  constructor
  · intro obs hacc includeHash
    refine ⟨fun dstSize hd => ⟨_, axObsCanonicalise_admissible hacc.admissible hd includeHash⟩, ?_⟩
    intro dstSize text ht
    obtain ⟨rfl, -⟩ := axObsCanonicalise_ok_iff.1 ht
    rw [obsText_admissible hacc.admissible]
    exact Json.decode_render (plain_obsJson hacc.admissible includeHash)
  · intro obs obs' hacc hacc' dstSize dstSize' text ht ht'
    have h := hacc.admissible
    have h' := hacc'.admissible
    obtain ⟨rfl, -⟩ := axObsCanonicalise_ok_iff.1 ht
    obtain ⟨he, -⟩ := axObsCanonicalise_ok_iff.1 ht'
    rw [obsText_admissible h, obsText_admissible h'] at he
    exact obsJson_inj h h'
      (Json.render_injective (plain_obsJson h false) (plain_obsJson h' false) he)

/-! ## A concrete instance -/

/-- An answer with a quote and a carriage return, escaped and normalised on its way. -/
def sampleInput : AxObsInput where
  completionState := .complete
  failureType := .null
  input := .mem (ascii "ping") (by decide)
  ledgerSeq := 1
  modelId := some ⟨ascii "m-1", by decide⟩
  oracleId := some ⟨ascii "o-1", by decide⟩
  output := .mem (ascii "say \"hi\"\r\n") (by decide)
  params := axOracleParamsInitNull

theorem sampleInput_accepted :
    (axObsAdmit sampleSubstrate 64 sampleInput axAdmissionCtxInit {}).ret = none := by
  rw [axObsAdmit_accepts (by decide) (by decide) (by decide) (by decide +kernel) rfl
    (by decide +kernel)]

theorem admit_ok_validate_ok_sample :
    (∀ f, axObsValidate sampleSubstrate
      (axObsAdmit sampleSubstrate 64 sampleInput axAdmissionCtxInit {}).out f = (none, f)) ∧
    ∃ text, axObsCanonicalise (axMaxObsBytes + 1)
        (axObsAdmit sampleSubstrate 64 sampleInput axAdmissionCtxInit {}).out true = .ok text ∧
      text.length ≤ axMaxObsBytes :=
  admit_ok_validate_ok sampleSubstrate sampleInput axAdmissionCtxInit 64 {} sampleInput_accepted

/-- The accepted record's bytes, decoded. -/
theorem canonical_faithful_sample :
    ∃ text, axObsCanonicalise 70000
        (axObsAdmit sampleSubstrate 64 sampleInput axAdmissionCtxInit {}).out true = .ok text ∧
      Json.decode text =
        some (obsJson
          (axObsAdmit sampleSubstrate 64 sampleInput axAdmissionCtxInit {}).out true) := by
  have hacc : Accepted sampleSubstrate
      (axObsAdmit sampleSubstrate 64 sampleInput axAdmissionCtxInit {}).out :=
    ⟨_, _, _, _, sampleInput_accepted, rfl⟩
  obtain ⟨hroom, hdec⟩ := (canonical_faithful sampleSubstrate).1 _ hacc true
  obtain ⟨text, ht⟩ := hroom 70000 (by decide)
  exact ⟨text, ht, hdec _ _ ht⟩

end AxiomaOracle
