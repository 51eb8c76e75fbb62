import AxiomaOracle.Verify.Admission

/-!
# Admission, exactly, and over whole runs

`Admission` says what follows from acceptance. This file adds when an input is accepted: the
conditions of `Admits`, read off the input and the context alone. The second half is about
sequences of calls with one context. The step lemmas are that acceptance moves the context to the
record's sequence number, that rejection leaves it alone, and that the caller's fault flags
influence neither.
-/

namespace AxiomaOracle

open Lib

variable {S : Substrate}

/-! ## What validation does with the caller's flags and buffer -/

/-- The flags are only written, and a buffer with room for the text and its NUL is as good as any
other. -/
theorem axValidateAndNormalise_room {size size' : Nat} {src : Bytes} (f f' : AxL3FaultFlags)
    (h : src.length + 1 ≤ size) (h' : src.length + 1 ≤ size') :
    (axValidateAndNormalise size src f).1 = (axValidateAndNormalise size' src f').1 := by
  have hlen := normLF_length_le src
  have room : ∀ n, src.length + 1 ≤ n → (normLF src).length ≤ sizePred n := by
    intro n hn
    unfold sizePred
    split <;> omega
  unfold axValidateAndNormalise
  rw [axNormaliseLineEndings_eq, axNormaliseLineEndings_eq, if_pos (room _ h), if_pos (room _ h')]
  split
  · rfl
  dsimp only
  split
  · rfl
  split
  · rfl
  · rfl

theorem axValidateAndNormalise_faults (size : Nat) (src : Bytes) (f f' : AxL3FaultFlags) :
    (axValidateAndNormalise size src f).1 = (axValidateAndNormalise size src f').1 := by
  unfold axValidateAndNormalise
  split
  · rfl
  split
  · rfl
  split
  · rfl
  split
  · rfl
  · rfl

theorem axValidateAndNormalise_eq {size : Nat} {src dst : Bytes} {f : AxL3FaultFlags}
    (h : (axValidateAndNormalise size src f).1 = .ok dst) :
    axValidateAndNormalise size src f = (.ok (normLF src), f) := by
  obtain ⟨r, f', hr⟩ : ∃ r f', axValidateAndNormalise size src f = (r, f') := ⟨_, _, rfl⟩
  rw [hr] at h
  subst h
  obtain ⟨rfl, rfl, -⟩ := axValidateAndNormalise_ok hr
  exact hr

/-! ## Exact acceptance -/

/-- An identifier admission takes: 1 to `max` bytes of UTF-8 without control characters. -/
def IdAdmitted (s : Option CStr) (max : Nat) : Prop :=
  ∃ c, s = some c ∧ 1 ≤ c.bytes.length ∧ c.bytes.length ≤ max ∧ Utf8.Valid c.bytes ∧
    ∀ b ∈ c.bytes, 0x20 ≤ b.toNat ∧ b ≠ 0x7F

/-- The bytes of the output that admission looks at. -/
def keptOutput (inp : AxObsInput) : Bytes := inp.output.bytes.take axMaxOutputBytes

/-- The record of an input, field by field. The hash is the commitment to the canonical form
without it. -/
structure RecordOf (S : Substrate) (inp : AxObsInput) (obs : AxObsRecord) : Prop where
  ids : obs.modelId = inp.modelId ∧ obs.oracleId = inp.oracleId
  params : obs.params = inp.params
  ledgerSeq : obs.ledgerSeq = inp.ledgerSeq
  inputHash : obs.inputHash = if inp.input.len = 0 then .zero else S.axilogSha256 inp.input.bytes
  output : ∃ o, obs.output = some o ∧
    (axValidateAndNormalise ((keptOutput inp).length + 1) (keptOutput inp) {}).1 = .ok o.bytes ∧
    obs.outputSize.toNat =
      if axMaxOutputBytes < inp.output.len then inp.output.len else o.bytes.length
  completionState : obs.completionState =
    if axMaxOutputBytes < inp.output.len then .truncated else inp.completionState
  failureType : obs.failureType = inp.failureType
  schemaVersion : obs.schemaVersion = some axObsSchemaVersion
  obsHash : ∃ size text d, axObsCanonicalise size obs false = .ok text ∧
    S.axilogCommit axObsSchemaVersion text = some d ∧ obs.obsHash.bytes = hexOf d.bytes

/-- What an input must satisfy to be admitted in a context. -/
structure Admits (S : Substrate) (ctx : AxAdmissionCtx) (inp : AxObsInput) : Prop where
  ordered : ctx.initialized = false ∨ ctx.lastLedgerSeq < inp.ledgerSeq
  modelId : IdAdmitted inp.modelId 256
  oracleId : IdAdmitted inp.oracleId 256
  states : (inp.completionState = .complete ∧ inp.failureType = .null) ∨
    (inp.completionState = .truncated ∧ inp.failureType = .null) ∨
    (inp.completionState = .error ∧ (inp.failureType = .timeout ∨
      inp.failureType = .invalidOutput ∨ inp.failureType = .transportError))
  size : ¬ (inp.completionState = .error ∧ axMaxOutputBytes < inp.output.len)
  input : ¬ (inp.input.isNull = true ∧ 0 < inp.input.len)
  output : ¬ (inp.output.isNull = true ∧ 0 < inp.output.len)
  text : keptOutput inp = [] ∨
    ∃ norm, (axValidateAndNormalise ((keptOutput inp).length + 1) (keptOutput inp) {}).1 = .ok norm
  /-- The commitment raises no fault, and the record with its hash is within the limit. -/
  record : ∃ obs, RecordOf S inp obs ∧
    ∃ size text, axObsCanonicalise size obs true = .ok text ∧ text.length ≤ axMaxObsBytes

theorem idIsWellFormed_iff (s : Option CStr) (max : Nat) :
    idTooLong s max = false ∧ idIsWellFormed s = true ↔ IdAdmitted s max := by
  unfold idTooLong idIsWellFormed IdAdmitted
  cases s with
  | none => simp
  | some c =>
    simp only [decide_eq_false_iff_not, Nat.not_lt, Option.some.injEq, exists_eq_left',
      axValidateUtf8_eq_check]
    by_cases hnil : c.bytes = []
    · simp [hnil]
    · have hpos : 1 ≤ c.bytes.length := List.length_pos_iff.2 hnil
      simp only [hnil, if_false, hpos, true_and]
      by_cases hctl : c.bytes.any (fun c => c.toNat < 0x20 || c == 0x7F) = true
      · simp only [hctl, if_true, Bool.false_eq_true, and_false, false_iff]
        rintro ⟨-, -, hall⟩
        obtain ⟨b, hb, hbad⟩ := List.any_eq_true.1 hctl
        have := hall b hb
        simp only [Bool.or_eq_true, decide_eq_true_eq, beq_iff_eq] at hbad
        rcases hbad with hlow | hdel
        · omega
        · exact this.2 hdel
      · rw [if_neg hctl, Utf8.check_iff]
        have hall : ∀ b ∈ c.bytes, 0x20 ≤ b.toNat ∧ b ≠ 0x7F := by
          intro b hb
          have := List.any_eq_false.1 (Bool.eq_false_iff.2 hctl) b hb
          simp only [Bool.or_eq_true, decide_eq_true_eq, beq_iff_eq, not_or, Nat.not_lt] at this
          exact this
        exact ⟨fun h => ⟨h.1, h.2, hall⟩, fun h => ⟨h.1, h.2.1⟩⟩

theorem statePairIsPermitted_iff (s : AxCompletionState) (f : AxFailureType) :
    statePairIsPermitted s f = true ↔ (s = .complete ∧ f = .null) ∨ (s = .truncated ∧ f = .null) ∨
      (s = .error ∧ (f = .timeout ∨ f = .invalidOutput ∨ f = .transportError)) := by
  cases s <;> cases f <;> simp [statePairIsPermitted]

/-- The checks before the output, as the code groups them. -/
theorem inputIsSchemaValid_of_admits {ctx : AxAdmissionCtx} {inp : AxObsInput}
    (h : Admits S ctx inp) : inputIsSchemaValid inp = true := by
  obtain ⟨-, hm⟩ := (idIsWellFormed_iff inp.modelId 256).2 h.modelId
  obtain ⟨-, ho⟩ := (idIsWellFormed_iff inp.oracleId 256).2 h.oracleId
  exact (inputIsSchemaValid_iff inp).2
    ⟨hm, ho, (statePairIsPermitted_iff _ _).2 h.states, h.size, h.input, h.output⟩

theorem idTooLong_of_admits {ctx : AxAdmissionCtx} {inp : AxObsInput} (h : Admits S ctx inp) :
    ¬ (idTooLong inp.modelId axMaxModelIdBytes || idTooLong inp.oracleId axMaxOracleIdBytes) =
      true := by
  have hm : idTooLong inp.modelId axMaxModelIdBytes = false :=
    ((idIsWellFormed_iff inp.modelId 256).2 h.modelId).1
  have ho : idTooLong inp.oracleId axMaxOracleIdBytes = false :=
    ((idIsWellFormed_iff inp.oracleId 256).2 h.oracleId).1
  simp [hm, ho]

theorem inputHashOf_eq {inp : AxObsInput} (h : ¬ (inp.input.isNull = true ∧ 0 < inp.input.len)) :
    inputHashOf S inp.input =
      if inp.input.len = 0 then .zero else S.axilogSha256 inp.input.bytes := by
  unfold inputHashOf axComputeInputHash
  by_cases hlen : inp.input.len = 0
  · simp [hlen]
  · have hpos : 0 < inp.input.len := Nat.pos_of_ne_zero hlen
    have hnull : inp.input.isNull = false := by
      cases hn : inp.input.isNull
      · rfl
      · exact absurd ⟨hn, hpos⟩ h
    simp [hlen, hnull, hpos]

/-- The record admission builds is the record of its input. -/
theorem recordOf_admitBody {inp : AxObsInput} {hash : CStr} {d : Digest}
    (hinput : ¬ (inp.input.isNull = true ∧ 0 < inp.input.len))
    (hnorm : (axValidateAndNormalise ((keptOutput inp).length + 1) (keptOutput inp) {}).1 =
      .ok (outputOf inp.output))
    (hctl : axContainsForbiddenControl (outputOf inp.output) = false)
    (hd : S.axilogCommit axObsSchemaVersion (obsText (admitBody S inp) false) = some d)
    (hhash : hash.bytes = hexOf d.bytes) :
    RecordOf S inp { admitBody S inp with obsHash := hash } := by
  have hb : (CStr.ofBytes (outputOf inp.output)).bytes = outputOf inp.output :=
    CStr.ofBytes_of_nulFree (nulFree_of_control hctl)
  refine ⟨⟨rfl, rfl⟩, rfl, rfl, inputHashOf_eq hinput, ⟨_, rfl, ?_, ?_⟩, rfl, rfl, rfl, ?_⟩
  · rw [hb]
    exact hnorm
  · have hlen := inp.output.len_lt
    have hle := (outputOf_length_le inp.output).1
    rw [hb]
    simp only [admitBody]
    split
    · exact UInt64.toNat_ofNat_of_lt' hlen
    · exact UInt64.toNat_ofNat_of_lt' (Nat.lt_of_le_of_lt hle hlen)
  · have htext := obsText_obsHash (admitBody S inp) hash
    refine ⟨(obsText (admitBody S inp) false).length + 1, obsText (admitBody S inp) false, d, ?_,
      hd, hhash⟩
    refine axObsCanonicalise_ok_iff.2 ⟨htext.symm, ?_⟩
    rw [htext, sizePred_succ]

/-- The field equations determine the record. -/
theorem RecordOf.eq_admitBody {inp : AxObsInput} {obs : AxObsRecord} (h : RecordOf S inp obs)
    (hinput : ¬ (inp.input.isNull = true ∧ 0 < inp.input.len)) :
    obs = { admitBody S inp with obsHash := obs.obsHash } := by
  obtain ⟨o, ho, hnorm, hsize⟩ := h.output
  have heq := axValidateAndNormalise_eq hnorm
  have hbytes : o.bytes = outputOf inp.output := by
    rw [heq] at hnorm
    exact (Except.ok.inj hnorm).symm
  obtain ⟨-, -, -, hctl, -⟩ := axValidateAndNormalise_ok heq
  have hstr : o = .ofBytes (outputOf inp.output) :=
    CStr.ext (hbytes.trans (CStr.ofBytes_of_nulFree (nulFree_of_control hctl)).symm)
  have hsize' : obs.outputSize = if inp.output.len > axMaxOutputBytes
      then UInt64.ofNat inp.output.len else UInt64.ofNat (outputOf inp.output).length := by
    apply UInt64.toNat_inj.1
    rw [hsize, hbytes]
    have hlen := inp.output.len_lt
    have hle := (outputOf_length_le inp.output).1
    split
    · exact (UInt64.toNat_ofNat_of_lt' hlen).symm
    · exact (UInt64.toNat_ofNat_of_lt' (Nat.lt_of_le_of_lt hle hlen)).symm
  have hin := h.inputHash.trans (inputHashOf_eq hinput).symm
  have h1 := h.ids.1
  have h2 := h.ids.2
  have h3 := h.params
  have h4 := h.ledgerSeq
  have h5 := h.completionState
  have h6 := h.failureType
  have h7 := h.schemaVersion
  subst hstr
  cases obs
  simp_all [admitBody]

/-- A text within the room passes with any flags, and its result does not show them. -/
theorem keptOutput_normalises {ctx : AxAdmissionCtx} {inp : AxObsInput} {size : Nat}
    (h : Admits S ctx inp) (hsize : (keptOutput inp).length + 1 ≤ size) (f : AxL3FaultFlags) :
    axValidateAndNormalise size (keptOutput inp) f = (.ok (outputOf inp.output), f) := by
  rcases h.text with hnil | ⟨norm, hnorm⟩
  · have hout : outputOf inp.output = [] := by
      rw [outputOf, ← keptOutput, hnil]
      rfl
    rw [hnil, hout]
    exact axValidateAndNormalise_nil size f
  · rw [axValidateAndNormalise_room {} f (Nat.le_refl _) hsize] at hnorm
    exact axValidateAndNormalise_eq hnorm

theorem axObsAdmit_of_admits {size : Nat} {inp : AxObsInput} {ctx : AxAdmissionCtx}
    (h : Admits S ctx inp) (hsize : (keptOutput inp).length + 1 ≤ size) (f : AxL3FaultFlags) :
    (axObsAdmit S size inp ctx f).ret = none := by
  have hord : ¬ (ctx.initialized ∧ inp.ledgerSeq ≤ ctx.lastLedgerSeq) := by
    rintro ⟨hinit, hle⟩
    rcases h.ordered with hfresh | hlt
    · rw [hfresh] at hinit
      cases hinit
    · exact UInt64.not_le.2 hlt hle
  obtain ⟨obs, hrec, size', text, htext, hfit⟩ := h.record
  obtain ⟨n, plain, d, hplain, hd, hhash⟩ := hrec.obsHash
  have hobs := hrec.eq_admitBody h.input
  obtain ⟨rfl, -⟩ := axObsCanonicalise_ok_iff.1 htext
  obtain ⟨rfl, -⟩ := axObsCanonicalise_ok_iff.1 hplain
  have hstr : obs.obsHash = .ofBytes (hexOf d.bytes) :=
    CStr.ext (hhash.trans (ofBytes_hexOf d.bytes).symm)
  rw [hstr] at hobs
  rw [hobs, obsText_obsHash] at hd
  rw [hobs] at hfit
  rw [axObsAdmit_accepts hord (idTooLong_of_admits h) (inputIsSchemaValid_of_admits h)
    (keptOutput_normalises h hsize _) hd hfit]

theorem admits_of_axObsAdmit {size : Nat} {inp : AxObsInput} {ctx : AxAdmissionCtx}
    {f : AxL3FaultFlags} (h : (axObsAdmit S size inp ctx f).ret = none)
    (hsize : (keptOutput inp).length + 1 ≤ size) :
    Admits S ctx inp ∧ RecordOf S inp (axObsAdmit S size inp ctx f).out := by
  obtain ⟨hord, hid, hvalid, hnorm⟩ := axObsAdmit_checks h
  obtain ⟨hpass, heq⟩ := axObsAdmit_reaches h
  obtain ⟨hm, ho, hstates, hsz, hin, hout⟩ := (inputIsSchemaValid_iff inp).1 hvalid
  obtain ⟨d, hd, hfin, hfit⟩ := admitFinish_ok (heq ▸ h)
  have hnorm' : (axValidateAndNormalise ((keptOutput inp).length + 1) (keptOutput inp) {}).1 =
      .ok (outputOf inp.output) := by
    rw [axValidateAndNormalise_room {} (sizeFaults inp f) (Nat.le_refl _) hsize]
    exact congrArg Prod.fst hnorm
  have hrec := recordOf_admitBody (S := S) hin hnorm' hpass.control hd (ofBytes_hexOf d.bytes)
  have hids : idTooLong inp.modelId 256 = false ∧ idTooLong inp.oracleId 256 = false := by
    simpa [axMaxModelIdBytes, axMaxOracleIdBytes] using hid
  rw [heq, hfin]
  refine ⟨?_, hrec⟩
  refine ⟨?_, (idIsWellFormed_iff _ _).1 ⟨hids.1, hm⟩, (idIsWellFormed_iff _ _).1 ⟨hids.2, ho⟩,
    (statePairIsPermitted_iff _ _).1 hstates, hsz, hin, hout, .inr ⟨_, hnorm'⟩, ?_⟩
  · cases hinit : ctx.initialized with
    | false => exact .inl rfl
    | true => exact .inr (hpass.ordered hinit)
  · refine ⟨_, hrec, axMaxObsBytes + 1, _, axObsCanonicalise_ok_iff.2 ⟨rfl, ?_⟩, hfit⟩
    exact hfit

/-- **Admission accepts exactly the inputs of `Admits`**, and then leaves exactly their record. -/
theorem admission_exact (S : Substrate) (outputBufSize : Nat) (inp : AxObsInput)
    (ctx : AxAdmissionCtx) (faults : AxL3FaultFlags)
    (hsize : (keptOutput inp).length + 1 ≤ outputBufSize) :
    ((axObsAdmit S outputBufSize inp ctx faults).ret = none ↔ Admits S ctx inp) ∧
    ((axObsAdmit S outputBufSize inp ctx faults).ret = none →
      RecordOf S inp (axObsAdmit S outputBufSize inp ctx faults).out ∧
      (axObsAdmit S outputBufSize inp ctx faults).ctx = ⟨inp.ledgerSeq, true⟩) := by
  refine ⟨⟨fun h => (admits_of_axObsAdmit h hsize).1, fun h => axObsAdmit_of_admits h hsize _⟩, ?_⟩
  intro h
  obtain ⟨-, -, -, -, hctx⟩ := axObsAdmit_ok h
  exact ⟨(admits_of_axObsAdmit h hsize).2, hctx⟩

theorem admission_exact_sample :
    Admits sampleSubstrate axAdmissionCtxInit sampleInput ∧
    RecordOf sampleSubstrate sampleInput
      (axObsAdmit sampleSubstrate 64 sampleInput axAdmissionCtxInit {}).out := by
  obtain ⟨hiff, hrec⟩ :=
    admission_exact sampleSubstrate 64 sampleInput axAdmissionCtxInit {} (by decide)
  exact ⟨hiff.1 sampleInput_accepted, (hrec sampleInput_accepted).1⟩

/-! ## One call of a run -/

theorem admitFinish_rejects {inp : AxObsInput} {ctx : AxAdmissionCtx} {f : AxL3FaultFlags}
    {out : AxObsRecord} (h : (admitFinish S inp ctx f out).ret ≠ none) :
    (admitFinish S inp ctx f out).ctx = ctx := by
  unfold admitFinish at h ⊢
  split
  · rfl
  · next hout =>
    rw [hout] at h
    dsimp only at h ⊢
    split
    · rfl
    · next htext =>
      rw [htext] at h
      exact absurd rfl h

/-- Each of the rejection exits leaves the context as it was. -/
theorem axObsAdmit_rejects {size : Nat} {inp : AxObsInput} {ctx : AxAdmissionCtx}
    {f : AxL3FaultFlags} (h : (axObsAdmit S size inp ctx f).ret ≠ none) :
    (axObsAdmit S size inp ctx f).ctx = ctx := by
  unfold axObsAdmit at h ⊢
  split
  · rfl
  next hord =>
  rw [if_neg hord] at h
  split
  · rfl
  next hid =>
  rw [if_neg hid] at h
  split
  · rfl
  next hschema =>
  rw [if_neg hschema] at h
  dsimp only at h ⊢
  split
  · next hout =>
    rw [if_pos hout] at h
    split
    · rfl
    · next hnorm =>
      rw [hnorm] at h
      exact admitFinish_rejects h
  · next hout =>
    rw [if_neg hout] at h
    exact admitFinish_rejects h

/-- What a call leaves besides the flags. -/
def AdmitResult.visible (r : AdmitResult) : Option AxError × AxObsRecord × AxAdmissionCtx :=
  (r.ret, r.out, r.ctx)

theorem admitFinish_faults (inp : AxObsInput) (ctx : AxAdmissionCtx) (f f' : AxL3FaultFlags)
    (out : AxObsRecord) :
    (admitFinish S inp ctx f out).visible = (admitFinish S inp ctx f' out).visible := by
  unfold admitFinish
  split
  · rfl
  dsimp only
  split
  · rfl
  · rfl

/-- The flags a caller passes are written and never read. -/
theorem axObsAdmit_faults (size : Nat) (inp : AxObsInput) (ctx : AxAdmissionCtx)
    (f f' : AxL3FaultFlags) :
    (axObsAdmit S size inp ctx f).visible = (axObsAdmit S size inp ctx f').visible := by
  unfold axObsAdmit
  split
  · rfl
  split
  · rfl
  split
  · rfl
  dsimp only
  split
  · have hsame := axValidateAndNormalise_faults size (inp.output.bytes.take axMaxOutputBytes)
      (sizeFaults inp f) (sizeFaults inp f')
    obtain ⟨r, g, hg⟩ : ∃ r g, axValidateAndNormalise size
      (inp.output.bytes.take axMaxOutputBytes) (sizeFaults inp f) = (r, g) := ⟨_, _, rfl⟩
    obtain ⟨r', g', hg'⟩ : ∃ r g, axValidateAndNormalise size
      (inp.output.bytes.take axMaxOutputBytes) (sizeFaults inp f') = (r, g) := ⟨_, _, rfl⟩
    rw [hg, hg'] at hsame
    dsimp only at hsame
    subst hsame
    rw [← sizeFaults, ← sizeFaults, hg, hg']
    cases r with
    | error e => rfl
    | ok norm => exact admitFinish_faults _ _ _ _ _
  · exact admitFinish_faults _ _ _ _ _

/-! ## Runs -/

/-- One call of `ax_obs_admit`: its buffer, its input and the flags it finds. -/
structure AdmitCall where
  outputBufSize : Nat
  inp : AxObsInput
  faults : AxL3FaultFlags

/-- The calls of a run one after the other, with one context. Returns what each of them left, and
the context at the end. -/
def admitAll (S : Substrate) : AxAdmissionCtx → List AdmitCall → List AdmitResult × AxAdmissionCtx
  | ctx, [] => ([], ctx)
  | ctx, c :: calls =>
    let r := axObsAdmit S c.outputBufSize c.inp ctx c.faults
    let rest := admitAll S r.ctx calls
    (r :: rest.1, rest.2)

/-- The records of the accepted calls, in order. -/
def admitted (rs : List AdmitResult) : List AxObsRecord :=
  (rs.filter fun r => r.ret.isNone).map AdmitResult.out

/-- The context that says what was admitted last. -/
def ctxAfter (ctx : AxAdmissionCtx) (obs : List AxObsRecord) : AxAdmissionCtx :=
  match obs.getLast? with
  | none => ctx
  | some obs => ⟨obs.ledgerSeq, true⟩

/-- The elements at the positions that are kept. -/
def keptOf {α : Type} : List Bool → List α → List α
  | true :: keep, x :: xs => x :: keptOf keep xs
  | false :: keep, _ :: xs => keptOf keep xs
  | _, _ => []

theorem admitted_cons_ok {r : AdmitResult} (h : r.ret = none) (rs : List AdmitResult) :
    admitted (r :: rs) = r.out :: admitted rs := by
  simp [admitted, h]

theorem admitted_cons_rejected {r : AdmitResult} (h : r.ret ≠ none) (rs : List AdmitResult) :
    admitted (r :: rs) = admitted rs := by
  cases hr : r.ret with
  | none => exact absurd hr h
  | some e => simp [admitted, hr]

theorem ctxAfter_cons (ctx : AxAdmissionCtx) (obs : AxObsRecord) (rest : List AxObsRecord) :
    ctxAfter ctx (obs :: rest) = ctxAfter ⟨obs.ledgerSeq, true⟩ rest := by
  cases rest with
  | nil => rfl
  | cons o rest =>
    unfold ctxAfter
    rw [List.getLast?_cons_cons]
    cases h : (o :: rest).getLast? with
    | none => simp at h
    | some last => rfl

theorem axObsAdmit_ctx {size : Nat} {inp : AxObsInput} {ctx : AxAdmissionCtx} {f : AxL3FaultFlags}
    (h : (axObsAdmit S size inp ctx f).ret = none) :
    (axObsAdmit S size inp ctx f).ctx = ⟨(axObsAdmit S size inp ctx f).out.ledgerSeq, true⟩ ∧
    (ctx.initialized = true →
      ctx.lastLedgerSeq < (axObsAdmit S size inp ctx f).out.ledgerSeq) := by
  obtain ⟨-, hpass, hash, hout, hctx⟩ := axObsAdmit_ok h
  rw [hout, hctx]
  exact ⟨rfl, hpass.ordered⟩

theorem admitAll_ctx (ctx : AxAdmissionCtx) (calls : List AdmitCall) :
    (admitAll S ctx calls).2 = ctxAfter ctx (admitted (admitAll S ctx calls).1) := by
  induction calls generalizing ctx with
  | nil => rfl
  | cons c calls ih =>
    simp only [admitAll]
    rw [ih]
    by_cases hret : (axObsAdmit S c.outputBufSize c.inp ctx c.faults).ret = none
    · rw [admitted_cons_ok hret, ctxAfter_cons, (axObsAdmit_ctx hret).1]
    · rw [admitted_cons_rejected hret, axObsAdmit_rejects hret]

/-- From an initialised context every admitted number is above the context's, and above the one
admitted before it. -/
theorem admitAll_increasing (ctx : AxAdmissionCtx) (calls : List AdmitCall) :
    ((admitted (admitAll S ctx calls).1).map AxObsRecord.ledgerSeq).Pairwise (· < ·) ∧
    (ctx.initialized = true →
      ∀ obs ∈ admitted (admitAll S ctx calls).1, ctx.lastLedgerSeq < obs.ledgerSeq) := by
  induction calls generalizing ctx with
  | nil => simp [admitAll, admitted]
  | cons c calls ih =>
    simp only [admitAll]
    by_cases hret : (axObsAdmit S c.outputBufSize c.inp ctx c.faults).ret = none
    · obtain ⟨hctx, hlt⟩ := axObsAdmit_ctx hret
      obtain ⟨hpair, habove⟩ := ih (axObsAdmit S c.outputBufSize c.inp ctx c.faults).ctx
      rw [admitted_cons_ok hret]
      rw [hctx] at hpair habove ⊢
      refine ⟨?_, ?_⟩
      · rw [List.map_cons, List.pairwise_cons]
        refine ⟨?_, hpair⟩
        intro seq hseq
        obtain ⟨obs, hobs, rfl⟩ := List.mem_map.1 hseq
        exact habove rfl obs hobs
      · intro hinit obs hobs
        rcases List.mem_cons.1 hobs with rfl | hobs
        · exact hlt hinit
        · exact UInt64.lt_trans (hlt hinit) (habove rfl obs hobs)
    · rw [admitted_cons_rejected hret, axObsAdmit_rejects hret]
      exact ih ctx

/-- **The deletion step.** Dropping rejected calls, and changing the flags the others find, leaves
what every kept call returns and the context at the end. -/
theorem admitAll_kept (ctx : AxAdmissionCtx) (calls calls' : List AdmitCall) (keep : List Bool)
    (hlen : keep.length = calls.length)
    (hdel : ∀ p ∈ keep.zip (admitAll S ctx calls).1, p.1 = false → p.2.ret ≠ none)
    (hcalls : calls'.map (fun c => (c.outputBufSize, c.inp)) =
      (keptOf keep calls).map (fun c => (c.outputBufSize, c.inp))) :
    (admitAll S ctx calls').1.map AdmitResult.visible =
      (keptOf keep (admitAll S ctx calls).1).map AdmitResult.visible ∧
    (admitAll S ctx calls').2 = (admitAll S ctx calls).2 := by
  induction calls generalizing ctx calls' keep with
  | nil =>
    obtain rfl : keep = [] := List.length_eq_zero_iff.1 hlen
    obtain rfl : calls' = [] := by simpa [keptOf] using hcalls
    exact ⟨rfl, rfl⟩
  | cons c calls ih =>
    cases keep with
    | nil => cases hlen
    | cons k keep =>
      have hlen' : keep.length = calls.length := by simpa using hlen
      simp only [admitAll, List.zip_cons_cons, List.forall_mem_cons] at hdel ⊢
      cases k with
      | false =>
        -- the deleted call was rejected, so the rest starts from the same context
        have hctx := axObsAdmit_rejects (hdel.1 rfl)
        rw [hctx] at hdel ⊢
        exact ih ctx calls' keep hlen' hdel.2 hcalls
      | true =>
        cases calls' with
        | nil => simp [keptOf] at hcalls
        | cons c' calls' =>
          simp only [keptOf, List.map_cons, List.cons.injEq, Prod.mk.injEq] at hcalls
          obtain ⟨⟨hsize, hinp⟩, hrest⟩ := hcalls
          have hvis := axObsAdmit_faults (S := S) c.outputBufSize c.inp ctx c'.faults c.faults
          have hctx := congrArg (fun v => v.2.2) hvis
          simp only [AdmitResult.visible] at hctx
          obtain ⟨hvisible, hfinal⟩ := ih _ calls' keep hlen' hdel.2 hrest
          simp only [admitAll, keptOf, List.map_cons]
          rw [hsize, hinp, hctx, hvis, hvisible]
          exact ⟨rfl, hfinal⟩

/-- The admitted records can be read off the visible part of the results. -/
theorem admitted_eq_visible (rs : List AdmitResult) :
    admitted rs = ((rs.map AdmitResult.visible).filter fun v => v.1.isNone).map (·.2.1) := by
  induction rs with
  | nil => rfl
  | cons r rs ih =>
    by_cases hr : r.ret = none
    · rw [admitted_cons_ok hr, ih]
      simp [AdmitResult.visible, hr]
    · rw [admitted_cons_rejected hr, ih]
      cases he : r.ret with
      | none => exact absurd he hr
      | some e => simp [AdmitResult.visible, he]

theorem admitted_keptOf (rs : List AdmitResult) (keep : List Bool) (hlen : keep.length = rs.length)
    (hdel : ∀ p ∈ keep.zip rs, p.1 = false → p.2.ret ≠ none) :
    admitted (keptOf keep rs) = admitted rs := by
  induction rs generalizing keep with
  | nil =>
    obtain rfl : keep = [] := List.length_eq_zero_iff.1 hlen
    rfl
  | cons r rs ih =>
    cases keep with
    | nil => cases hlen
    | cons k keep =>
      have hlen' : keep.length = rs.length := by simpa using hlen
      simp only [List.zip_cons_cons, List.forall_mem_cons] at hdel
      cases k with
      | false =>
        rw [admitted_cons_rejected (hdel.1 rfl)]
        exact ih keep hlen' hdel.2
      | true =>
        by_cases hr : r.ret = none
        · rw [keptOf, admitted_cons_ok hr, admitted_cons_ok hr, ih keep hlen' hdel.2]
        · rw [keptOf, admitted_cons_rejected hr, admitted_cons_rejected hr, ih keep hlen' hdel.2]

theorem admitAll_length (ctx : AxAdmissionCtx) (calls : List AdmitCall) :
    (admitAll S ctx calls).1.length = calls.length := by
  induction calls generalizing ctx with
  | nil => rfl
  | cons c calls ih => simp [admitAll, ih]

/-- **Admission over whole runs.** The admitted sequence numbers increase strictly; after every
part of the run the context holds the last of them; and a run without any of the rejected calls
(whatever flags the remaining calls find) returns the same for each remaining call, admits the same
records and ends in the same context. -/
theorem admission_runs (S : Substrate) (calls : List AdmitCall) :
    ((admitted (admitAll S axAdmissionCtxInit calls).1).map AxObsRecord.ledgerSeq).Pairwise
      (· < ·) ∧
    (∀ n, (admitAll S axAdmissionCtxInit (calls.take n)).2 =
      ctxAfter axAdmissionCtxInit
        (admitted (admitAll S axAdmissionCtxInit (calls.take n)).1)) ∧
    ∀ (keep : List Bool) (calls' : List AdmitCall), keep.length = calls.length →
      (∀ p ∈ keep.zip (admitAll S axAdmissionCtxInit calls).1, p.1 = false → p.2.ret ≠ none) →
      calls'.map (fun c => (c.outputBufSize, c.inp)) =
        (keptOf keep calls).map (fun c => (c.outputBufSize, c.inp)) →
      admitted (admitAll S axAdmissionCtxInit calls').1 =
        admitted (admitAll S axAdmissionCtxInit calls).1 ∧
      (admitAll S axAdmissionCtxInit calls').1.map (fun r => (r.ret, r.out, r.ctx)) =
        (keptOf keep (admitAll S axAdmissionCtxInit calls).1).map
          (fun r => (r.ret, r.out, r.ctx)) ∧
      (admitAll S axAdmissionCtxInit calls').2 = (admitAll S axAdmissionCtxInit calls).2 := by
  refine ⟨(admitAll_increasing _ calls).1, fun n => admitAll_ctx _ _, ?_⟩
  intro keep calls' hlen hdel hcalls
  obtain ⟨hvis, hfinal⟩ := admitAll_kept _ calls calls' keep hlen hdel hcalls
  refine ⟨?_, hvis, hfinal⟩
  rw [admitted_eq_visible, hvis, ← admitted_eq_visible]
  exact admitted_keptOf _ keep (by rw [admitAll_length, hlen]) hdel

/-- A call, the same call again, and the run without the rejected repetition. -/
def sampleCall : AdmitCall := ⟨64, sampleInput, {}⟩

theorem admission_runs_sample :
    admitted (admitAll sampleSubstrate axAdmissionCtxInit [sampleCall]).1 =
      admitted (admitAll sampleSubstrate axAdmissionCtxInit [sampleCall, sampleCall]).1 ∧
    (admitAll sampleSubstrate axAdmissionCtxInit [sampleCall]).2 =
      (admitAll sampleSubstrate axAdmissionCtxInit [sampleCall, sampleCall]).2 := by
  have hrepeat : (axObsAdmit sampleSubstrate 64 sampleInput
      (axObsAdmit sampleSubstrate 64 sampleInput axAdmissionCtxInit {}).ctx {}).ret ≠ none := by
    intro h
    obtain ⟨-, -, -, -, hctx⟩ := axObsAdmit_ok sampleInput_accepted
    have hord := (axObsAdmit_checks h).1
    rw [hctx] at hord
    exact hord ⟨rfl, UInt64.le_refl _⟩
  obtain ⟨hadm, -, hfinal⟩ := (admission_runs sampleSubstrate [sampleCall, sampleCall]).2.2
    [true, false] [sampleCall] rfl (by
      simp only [admitAll, List.zip_cons_cons, List.forall_mem_cons]
      exact ⟨fun h => (nomatch h), fun _ => hrepeat, by simp⟩) rfl
  exact ⟨hadm, hfinal⟩

end AxiomaOracle
