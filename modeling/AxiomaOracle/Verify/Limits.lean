import AxiomaOracle.Verify.AdmissionRuns
import AxiomaOracle.Verify.Encoding

/-!
# The exits of admission, and its limits

`axObsAdmit_exits` lists every way out of `ax_obs_admit` with what it leaves, and
`admitFinish_exits` the four that lie behind the copied fields, where the record is hashed and its
size is checked. Everything else is read off these two: that admission fails closed, which error an
over-long record gets, when a cut output is admitted, and that a record without escapes always fits.
-/

namespace AxiomaOracle

open Lib

variable {S : Substrate}

/-! ## Fault flags -/

/-- No flag of `f` is cleared in `g`. -/
structure AxL3FaultFlags.Le (f g : AxL3FaultFlags) : Prop where
  base : f.base = true → g.base = true
  precision : f.precision = true → g.precision = true
  encoding : f.encoding = true → g.encoding = true
  schema : f.schema = true → g.schema = true
  ordering : f.ordering = true → g.ordering = true
  size : f.size = true → g.size = true
  protocol : f.protocol = true → g.protocol = true

/-- One of the flags of the admission checks is set. -/
def AxL3FaultFlags.Raised (f : AxL3FaultFlags) : Prop :=
  f.ordering = true ∨ f.size = true ∨ f.schema = true ∨ f.encoding = true ∨ f.protocol = true

theorem AxL3FaultFlags.Le.refl (f : AxL3FaultFlags) : f.Le f := by
  constructor <;> exact id

theorem AxL3FaultFlags.Le.trans {f g h : AxL3FaultFlags} (hfg : f.Le g) (hgh : g.Le h) :
    f.Le h where
  base := hgh.base ∘ hfg.base
  precision := hgh.precision ∘ hfg.precision
  encoding := hgh.encoding ∘ hfg.encoding
  schema := hgh.schema ∘ hfg.schema
  ordering := hgh.ordering ∘ hfg.ordering
  size := hgh.size ∘ hfg.size
  protocol := hgh.protocol ∘ hfg.protocol

theorem le_sizeFaults (inp : AxObsInput) (f : AxL3FaultFlags) : f.Le (sizeFaults inp f) := by
  unfold sizeFaults
  split
  · constructor <;> simp +contextual
  · exact .refl f

/-- A rejected text raises its flag. -/
theorem axValidateAndNormalise_raises {size : Nat} {src : Bytes} {f f' : AxL3FaultFlags}
    {e : AxError} (h : axValidateAndNormalise size src f = (.error e, f')) :
    f.Le f' ∧ f'.Raised := by
  have hencoding : f.Le { f with encoding := true } ∧
      AxL3FaultFlags.Raised { f with encoding := true } :=
    ⟨by constructor <;> simp +contextual, .inr (.inr (.inr (.inl rfl)))⟩
  unfold axValidateAndNormalise at h
  split at h
  · cases h
    exact hencoding
  split at h
  · cases h
    exact ⟨by constructor <;> simp +contextual, .inr (.inl rfl)⟩
  split at h
  · cases h
    exact hencoding
  split at h
  · cases h
    exact hencoding
  · cases h

/-! ## Every exit -/

/-- The record before the hash, with an empty one. -/
def unhashed (out : AxObsRecord) : AxObsRecord := { out with obsHash := ⟨[], List.not_mem_nil⟩ }

/-- The record with the hash of a digest. -/
def hashed (out : AxObsRecord) (d : Digest) : AxObsRecord :=
  { out with obsHash := .ofBytes (hexOf d.bytes) }

/-- The exits behind the copied fields: the form does not fit the hashing buffer, the commitment
faults, the complete form is over the limit, or the record is accepted. -/
theorem admitFinish_exits (S : Substrate) (inp : AxObsInput) (ctx : AxAdmissionCtx)
    (f : AxL3FaultFlags) (out : AxObsRecord) :
    (axCanonicalBufferSize ≤ (obsText out false).length ∧ admitFinish S inp ctx f out =
      ⟨some .buffer, unhashed out, ctx, { f with protocol := true }⟩) ∨
    ((obsText out false).length < axCanonicalBufferSize ∧
      ((S.axilogCommit axObsSchemaVersion (obsText out false) = none ∧
          admitFinish S inp ctx f out =
            ⟨some .hash, unhashed out, ctx, { f with protocol := true }⟩) ∨
        ∃ d, S.axilogCommit axObsSchemaVersion (obsText out false) = some d ∧
          ((axMaxObsBytes < (obsText (hashed out d) true).length ∧ admitFinish S inp ctx f out =
              ⟨some .size, unhashed (rejected out), ctx, { f with size := true }⟩) ∨
            ((obsText (hashed out d) true).length ≤ axMaxObsBytes ∧ admitFinish S inp ctx f out =
              ⟨none, hashed out d, ⟨inp.ledgerSeq, true⟩, f⟩)))) := by
  have hbuf : ∀ n, n ≤ sizePred axCanonicalBufferSize ↔ n < axCanonicalBufferSize :=
    fun n => le_sizePred_iff (by decide)
  have hsame := obsText_obsHash out ⟨[], by simp⟩
  unfold admitFinish axObsComputeHash
  dsimp only
  rw [axObsCanonicalise_eq, hsame]
  simp only [hbuf]
  by_cases hlong : (obsText out false).length < axCanonicalBufferSize
  · refine .inr ⟨hlong, ?_⟩
    rw [if_pos hlong]
    dsimp only
    cases hd : S.axilogCommit axObsSchemaVersion (obsText out false) with
    | none => exact .inl ⟨rfl, rfl⟩
    | some d =>
      refine .inr ⟨d, rfl, ?_⟩
      simp only [axFormatHashHex_eq, formatInto]
      rw [← hashed, axObsCanonicalise_eq, sizePred_succ]
      by_cases hfit : (obsText (hashed out d) true).length ≤ axMaxObsBytes
      · rw [if_pos hfit]
        exact .inr ⟨hfit, rfl⟩
      · rw [if_neg hfit]
        exact .inl ⟨Nat.not_le.1 hfit, rfl⟩
  · rw [if_neg hlong]
    exact .inl ⟨Nat.not_lt.1 hlong, rfl⟩

/-- The checks before the record is hashed, as `ax_obs_admit` makes them, with an output buffer of
`size` bytes. -/
structure Checked (size : Nat) (ctx : AxAdmissionCtx) (inp : AxObsInput) : Prop where
  ordered : ¬ (ctx.initialized ∧ inp.ledgerSeq ≤ ctx.lastLedgerSeq)
  ids : ¬ (idTooLong inp.modelId axMaxModelIdBytes || idTooLong inp.oracleId axMaxOracleIdBytes) =
    true
  valid : inputIsSchemaValid inp = true
  encoded : ∃ norm, (axValidateAndNormalise size (keptOutput inp) {}).1 = .ok norm

theorem Checked.normalises {size : Nat} {ctx : AxAdmissionCtx} {inp : AxObsInput}
    (h : Checked size ctx inp) (f : AxL3FaultFlags) :
    axValidateAndNormalise size (keptOutput inp) f = (.ok (outputOf inp.output), f) := by
  obtain ⟨norm, hnorm⟩ := h.encoded
  rw [axValidateAndNormalise_faults size (keptOutput inp) {} f] at hnorm
  exact axValidateAndNormalise_eq hnorm

/-- An input that passes the checks reaches the last steps with its record. -/
theorem Checked.admit_eq {size : Nat} {ctx : AxAdmissionCtx} {inp : AxObsInput}
    (h : Checked size ctx inp) (f : AxL3FaultFlags) :
    axObsAdmit S size inp ctx f = admitFinish S inp ctx (sizeFaults inp f) (admitBody S inp) :=
  axObsAdmit_eq h.ordered h.ids h.valid (h.normalises _)

/-- The exits before the last steps: a check fails, with its flag and with no hash. -/
theorem axObsAdmit_exits (S : Substrate) (size : Nat) (inp : AxObsInput) (ctx : AxAdmissionCtx)
    (f : AxL3FaultFlags) :
    Checked size ctx inp ∨
    ∃ e out f', axObsAdmit S size inp ctx f = ⟨some e, rejected out, ctx, f'⟩ ∧
      out.obsHash.bytes = [] ∧ f.Le f' ∧ f'.Raised := by
  by_cases hord : ctx.initialized ∧ inp.ledgerSeq ≤ ctx.lastLedgerSeq
  · refine .inr ⟨.ordering, axObsInit, { f with ordering := true }, ?_, rfl, ?_, .inl rfl⟩
    · rw [axObsAdmit, if_pos hord]
    · constructor <;> simp +contextual
  by_cases hid : (idTooLong inp.modelId axMaxModelIdBytes ||
      idTooLong inp.oracleId axMaxOracleIdBytes) = true
  · refine .inr ⟨.size, axObsInit, { f with size := true }, ?_, rfl, ?_, .inr (.inl rfl)⟩
    · rw [axObsAdmit, if_neg hord, if_pos hid]
    · constructor <;> simp +contextual
  by_cases hvalid : inputIsSchemaValid inp = true
  · cases hnorm : axValidateAndNormalise size (keptOutput inp) (sizeFaults inp f) with
    | mk r f' =>
      cases r with
      | ok norm =>
        refine .inl ⟨hord, hid, hvalid, norm, ?_⟩
        rw [axValidateAndNormalise_faults size (keptOutput inp) {} (sizeFaults inp f), hnorm]
      | error e =>
        -- an output that is empty or NULL is not looked at, so there was one
        have hout : !inp.output.isNull ∧ inp.output.len > 0 := by
          by_contra hno
          obtain ⟨-, hbytes⟩ := bytes_eq_nil hno ((inputIsSchemaValid_iff inp).1 hvalid).2.2.2.2.2
          rw [keptOutput, hbytes, List.take_nil, axValidateAndNormalise_nil] at hnorm
          cases hnorm
        obtain ⟨hle, hraised⟩ := axValidateAndNormalise_raises hnorm
        refine .inr ⟨e, if inp.output.len > axMaxOutputBytes then { axObsInit with
          completionState := .truncated, outputSize := UInt64.ofNat inp.output.len } else axObsInit,
          f', ?_, ?_, (le_sizeFaults inp f).trans hle, hraised⟩
        · rw [axObsAdmit, if_neg hord, if_neg hid, if_neg (by simp [hvalid])]
          dsimp only
          rw [if_pos hout, ← sizeFaults, ← keptOutput, hnorm]
        · split <;> rfl
  · refine .inr ⟨.schema, axObsInit, { f with schema := true }, ?_, rfl, ?_, .inr (.inr (.inl rfl))⟩
    · rw [axObsAdmit, if_neg hord, if_neg hid, if_pos (by simpa using hvalid)]
    · constructor <;> simp +contextual

/-- **Admission fails closed on every exit.** A rejection leaves the context as it was and no hash,
has one of its flags set and clears none. Acceptance moves the context to the sequence number, and
the only flag it sets is `size`, exactly for an output over the limit. -/
theorem admit_fails_closed (S : Substrate) (outputBufSize : Nat) (inp : AxObsInput)
    (ctx : AxAdmissionCtx) (faults : AxL3FaultFlags) :
    (∀ e, (axObsAdmit S outputBufSize inp ctx faults).ret = some e →
      (axObsAdmit S outputBufSize inp ctx faults).ctx = ctx ∧
      (axObsAdmit S outputBufSize inp ctx faults).out.obsHash.bytes = [] ∧
      (axObsAdmit S outputBufSize inp ctx faults).faults.Raised ∧
      faults.Le (axObsAdmit S outputBufSize inp ctx faults).faults) ∧
    ((axObsAdmit S outputBufSize inp ctx faults).ret = none →
      (axObsAdmit S outputBufSize inp ctx faults).ctx = ⟨inp.ledgerSeq, true⟩ ∧
      (axObsAdmit S outputBufSize inp ctx faults).faults =
        if inp.output.len > axMaxOutputBytes then { faults with size := true } else faults) := by
  rcases axObsAdmit_exits S outputBufSize inp ctx faults with hchecked |
    ⟨e, out, f', heq, hhash, hle, hraised⟩
  · have hprotocol : faults.Le { sizeFaults inp faults with protocol := true } :=
      (le_sizeFaults inp faults).trans (by constructor <;> simp +contextual)
    have hsize : faults.Le { sizeFaults inp faults with size := true } :=
      (le_sizeFaults inp faults).trans (by constructor <;> simp +contextual)
    rw [hchecked.admit_eq]
    rcases admitFinish_exits S inp ctx (sizeFaults inp faults) (admitBody S inp) with
      ⟨-, heq⟩ | ⟨-, ⟨-, heq⟩ | ⟨d, -, ⟨-, heq⟩ | ⟨-, heq⟩⟩⟩
    · rw [heq]
      exact ⟨fun e _ => ⟨rfl, rfl, .inr (.inr (.inr (.inr rfl))), hprotocol⟩, fun h => (nomatch h)⟩
    · rw [heq]
      exact ⟨fun e _ => ⟨rfl, rfl, .inr (.inr (.inr (.inr rfl))), hprotocol⟩, fun h => (nomatch h)⟩
    · rw [heq]
      exact ⟨fun e _ => ⟨rfl, rfl, .inr (.inl rfl), hsize⟩, fun h => (nomatch h)⟩
    · rw [heq]
      exact ⟨fun e h => (nomatch h), fun _ => ⟨rfl, rfl⟩⟩
  · rw [heq]
    exact ⟨fun e _ => ⟨rfl, hhash, hraised, hle⟩, fun h => (nomatch h)⟩

/-! ## Over-long records -/

/-- **When an over-long record is reported as over-long.** An input that passes the checks and whose
complete form is over `AX_MAX_OBS_BYTES` gets `AX_ERR_SIZE`, the `size` flag, `ERROR`,
`INVALID_OUTPUT` and no hash exactly when its form without the hash fits the hashing buffer. -/
theorem overlong_reported {S : Substrate} {outputBufSize : Nat} {inp : AxObsInput}
    {ctx : AxAdmissionCtx} {d : Digest} (hchecked : Checked outputBufSize ctx inp)
    (hd : S.axilogCommit axObsSchemaVersion (obsText (admitBody S inp) false) = some d)
    (hover : axMaxObsBytes < (obsText (hashed (admitBody S inp) d) true).length)
    (faults : AxL3FaultFlags) :
    ((axObsAdmit S outputBufSize inp ctx faults).ret = some .size ∧
      (axObsAdmit S outputBufSize inp ctx faults).faults.size = true ∧
      (axObsAdmit S outputBufSize inp ctx faults).out.completionState = .error ∧
      (axObsAdmit S outputBufSize inp ctx faults).out.failureType = .invalidOutput ∧
      (axObsAdmit S outputBufSize inp ctx faults).out.obsHash.bytes = []) ↔
    (obsText (admitBody S inp) false).length < axCanonicalBufferSize := by
  rw [hchecked.admit_eq]
  rcases admitFinish_exits S inp ctx (sizeFaults inp faults) (admitBody S inp) with
    ⟨hlong, heq⟩ | ⟨hshort, ⟨hnone, -⟩ | ⟨d', hd', ⟨-, heq⟩ | ⟨hfit, -⟩⟩⟩
  · rw [heq]
    refine ⟨fun h => (nomatch h.1), fun h => ?_⟩
    omega
  · rw [hd] at hnone
    cases hnone
  · rw [heq]
    exact ⟨fun _ => hshort, fun _ => ⟨rfl, rfl, rfl, rfl, rfl⟩⟩
  · obtain rfl : d = d' := Option.some.inj (hd.symm.trans hd')
    omega

/-- A form that does not fit the hashing buffer is refused there, before the limit is looked at. -/
theorem admit_unhashable {outputBufSize : Nat} {inp : AxObsInput} {ctx : AxAdmissionCtx}
    (hchecked : Checked outputBufSize ctx inp)
    (hlong : axCanonicalBufferSize ≤ (obsText (admitBody S inp) false).length)
    (faults : AxL3FaultFlags) :
    (axObsAdmit S outputBufSize inp ctx faults).ret = some .buffer ∧
      (axObsAdmit S outputBufSize inp ctx faults).out.completionState =
        (admitBody S inp).completionState := by
  rw [hchecked.admit_eq]
  rcases admitFinish_exits S inp ctx (sizeFaults inp faults) (admitBody S inp) with
    ⟨-, heq⟩ | ⟨hshort, -⟩
  · rw [heq]
    exact ⟨rfl, rfl⟩
  · omega

theorem axIsNfc_append {s : Bytes} (hlow : ∀ b ∈ s, b.toNat < 0x80) (t : Bytes) :
    axIsNfc (s ++ t) = axIsNfc t := by
  induction s with
  | nil => rfl
  | cons b s ih =>
    rw [List.forall_mem_cons] at hlow
    rw [List.cons_append, axIsNfc.eq_def]
    simp only [hlow.1, if_true, ih hlow.2]

/-- ASCII text without control characters, line feeds apart, is taken as it is. -/
theorem axValidateAndNormalise_ascii {size : Nat} {s : Bytes} (f : AxL3FaultFlags)
    (hlow : ∀ b ∈ s, b.toNat < 0x80) (hctl : ∀ b ∈ s, ¬ Control b.toNat) (hsize : s.length < size) :
    normLF s = s ∧ axValidateAndNormalise size s f = (.ok s, f) := by
  have hcr : chr '\r' ∉ s := fun hmem => hctl _ hmem (by decide)
  have hself := (normLF_eq_self_iff s).2 hcr
  have hcontrol : axContainsForbiddenControl s = false := by
    rw [axContainsForbiddenControl, List.any_eq_false]
    exact fun b hb hbad => hctl b hb ((isForbiddenControl_iff b).1 hbad)
  have hnfc : axIsNfc s = true := by
    have happend := axIsNfc_append hlow []
    rwa [List.append_nil] at happend
  refine ⟨hself, ?_⟩
  rw [axValidateAndNormalise_cases s f (by omega), if_neg (not_not.2 (.of_ascii hlow)), hself,
    if_neg (by omega), if_pos ⟨hcontrol, hnfc⟩]

/-- The sample input with another answer. -/
def sampleAnswer (bs : Bytes) (h : bs.length < sizeMod) : AxObsInput :=
  { sampleInput with output := .mem bs h }

theorem sampleAnswer_checked {bs : Bytes} (h : bs.length < sizeMod)
    (hnorm : ∃ norm, (axValidateAndNormalise (axMaxOutputBytes + 1) (bs.take axMaxOutputBytes)
      {}).1 = .ok norm) : Checked (axMaxOutputBytes + 1) axAdmissionCtxInit
        (sampleAnswer bs h) := by
  obtain ⟨hord, hid, hvalid, -⟩ := axObsAdmit_checks sampleInput_accepted
  obtain ⟨hm, ho, hstates, -, hinput, -⟩ := (inputIsSchemaValid_iff sampleInput).1 hvalid
  refine ⟨hord, hid, (inputIsSchemaValid_iff _).2 ⟨hm, ho, hstates, ?_, hinput, ?_⟩, hnorm⟩
  · rintro ⟨hstate, -⟩
    cases hstate
  · rintro ⟨hnull, -⟩
    cases hnull

theorem sampleAnswer_state {bs : Bytes} (h : bs.length < sizeMod)
    (hle : bs.length ≤ axMaxOutputBytes) :
    (admitBody S (sampleAnswer bs h)).completionState = .complete := if_neg (Nat.not_lt.2 hle)

theorem escape_lineFeeds_length (n : Nat) :
    (Json.escape (List.replicate n (0x0A : UInt8))).length = 6 * n := by
  induction n with
  | zero => rfl
  | succ n ih =>
    have hcons : Json.escape (List.replicate (n + 1) (0x0A : UInt8)) =
        Json.escapeByte 0x0A ++ Json.escape (List.replicate n 0x0A) := by
      rw [List.replicate_succ]
      exact List.flatMap_cons
    have hbyte : (Json.escapeByte 0x0A).length = 6 := by decide
    rw [hcons, List.length_append, ih, hbyte]
    omega

/-- An answer of `n` line feeds passes the checks, and its record takes six bytes for each. -/
theorem lineFeeds_checked {n : Nat} (hn : n ≤ axMaxOutputBytes)
    (h : (List.replicate n (0x0A : UInt8)).length < sizeMod) :
    Checked (axMaxOutputBytes + 1) axAdmissionCtxInit (sampleAnswer (List.replicate n 0x0A) h) ∧
      (optEscaped (admitBody S (sampleAnswer (List.replicate n 0x0A) h)).output).length =
        6 * n := by
  have hbyte : ∀ b ∈ List.replicate n (0x0A : UInt8), b = 0x0A :=
    fun b hb => (List.mem_replicate.1 hb).2
  have htake : (List.replicate n (0x0A : UInt8)).take axMaxOutputBytes = List.replicate n 0x0A :=
    List.take_of_length_le (by rw [List.length_replicate]; exact hn)
  have hroom : (List.replicate n (0x0A : UInt8)).length < axMaxOutputBytes + 1 := by
    rw [List.length_replicate]
    omega
  obtain ⟨hself, hnorm⟩ := axValidateAndNormalise_ascii {}
    (fun b hb => by rw [hbyte b hb]; decide) (fun b hb => by rw [hbyte b hb]; decide) hroom
  refine ⟨sampleAnswer_checked h ⟨_, by rw [htake, hnorm]⟩, ?_⟩
  have hof : outputOf (sampleAnswer (List.replicate n 0x0A) h).output = List.replicate n 0x0A := by
    have hbytes : (sampleAnswer (List.replicate n 0x0A) h).output.bytes =
      List.replicate n 0x0A := rfl
    rw [outputOf, hbytes, htake, hself]
  have hnul : (0 : UInt8) ∉ List.replicate n (0x0A : UInt8) := by
    intro hmem
    cases hbyte _ hmem
  have hout : optEscaped (admitBody S (sampleAnswer (List.replicate n 0x0A) h)).output =
      Json.escape (CStr.ofBytes (outputOf
        (sampleAnswer (List.replicate n 0x0A) h).output)).bytes := rfl
  rw [hout, hof, CStr.ofBytes_of_nulFree hnul, escape_lineFeeds_length]

/-- The complete form of the record of `n` line feeds, and the form without the hash. -/
theorem lineFeeds_length {n : Nat} (hn : n ≤ axMaxOutputBytes)
    (h : (List.replicate n (0x0A : UInt8)).length < sizeMod) (d : Digest) :
    6 * n ≤ (obsText (admitBody S (sampleAnswer (List.replicate n 0x0A) h)) false).length ∧
    6 * n ≤ (obsText (hashed (admitBody S (sampleAnswer (List.replicate n 0x0A) h)) d)
      true).length ∧
    (obsText (admitBody S (sampleAnswer (List.replicate n 0x0A) h)) false).length ≤
      500 + 6 * n := by
  have hescaped := (lineFeeds_checked (S := S) hn h).2
  generalize hrec : admitBody S (sampleAnswer (List.replicate n 0x0A) h) = rec at hescaped ⊢
  have hplain := optEscaped_output_length_le rec
  have hfull := optEscaped_output_length_le (hashed rec d)
  have hsame : (hashed rec d).output = rec.output := rfl
  have hle := obsText_length_false_le (hashed rec d)
  have hle' := obsText_length_false_le rec
  have htext := obsText_length_le rec
  have hmodel : (optEscaped rec.modelId).length = 3 := by
    rw [← hrec]
    exact (by decide : (optEscaped sampleInput.modelId).length = 3)
  have horacle : (optEscaped rec.oracleId).length = 3 := by
    rw [← hrec]
    exact (by decide : (optEscaped sampleInput.oracleId).length = 3)
  have hhash : rec.obsHash.bytes.length = 0 := by
    rw [← hrec]
    rfl
  have hschema : (rec.schemaVersion.elim [] CStr.bytes).length = 9 := by
    rw [← hrec]
    exact (by decide : axObsSchemaVersion.bytes.length = 9)
  rw [hsame] at hfull
  omega

/-- 12000 line feeds: over the limit, and reported as such. -/
theorem overlong_reported_sample :
    ∃ h, (axObsAdmit sampleSubstrate (axMaxOutputBytes + 1)
      (sampleAnswer (List.replicate 12000 0x0A) h) axAdmissionCtxInit {}).ret = some .size := by
  have h : (List.replicate 12000 (0x0A : UInt8)).length < sizeMod := by
    rw [List.length_replicate]
    decide
  have hlen := lineFeeds_length (S := sampleSubstrate) (n := 12000) (by decide) h
  have hmax : axMaxObsBytes = 65536 := rfl
  have hbuf : axCanonicalBufferSize = 131072 := rfl
  refine ⟨h, ((overlong_reported (lineFeeds_checked (S := sampleSubstrate) (by decide) h).1 rfl ?_
    {}).2 ?_).1⟩
  · rw [hmax]
    exact Nat.lt_of_lt_of_le (by decide) (hlen _).2.1
  · rw [hbuf]
    exact Nat.lt_of_le_of_lt (hlen .zero).2.2 (by decide)

/-- 22000 line feeds: over the limit too, and reported as a lack of room for the hash. -/
theorem overlong_misreported :
    ∃ h d, Checked (axMaxOutputBytes + 1) axAdmissionCtxInit
        (sampleAnswer (List.replicate 22000 0x0A) h) ∧
      sampleSubstrate.axilogCommit axObsSchemaVersion (obsText (admitBody sampleSubstrate
        (sampleAnswer (List.replicate 22000 0x0A) h)) false) = some d ∧
      axMaxObsBytes < (obsText (hashed (admitBody sampleSubstrate
        (sampleAnswer (List.replicate 22000 0x0A) h)) d) true).length ∧
      (axObsAdmit sampleSubstrate (axMaxOutputBytes + 1)
        (sampleAnswer (List.replicate 22000 0x0A) h) axAdmissionCtxInit {}).ret = some .buffer ∧
      (axObsAdmit sampleSubstrate (axMaxOutputBytes + 1)
        (sampleAnswer (List.replicate 22000 0x0A) h) axAdmissionCtxInit {}).out.completionState =
          .complete := by
  have h : (List.replicate 22000 (0x0A : UInt8)).length < sizeMod := by
    rw [List.length_replicate]
    decide
  have hlen := lineFeeds_length (S := sampleSubstrate) (n := 22000) (by decide) h
  have hmax : axMaxObsBytes = 65536 := rfl
  have hbuf : axCanonicalBufferSize = 131072 := rfl
  have hchecked := (lineFeeds_checked (S := sampleSubstrate) (n := 22000) (by decide) h).1
  have hcommit : ∀ text, ∃ d, sampleSubstrate.axilogCommit axObsSchemaVersion text = some d :=
    fun _ => ⟨_, rfl⟩
  obtain ⟨d, hd⟩ := hcommit (obsText (admitBody sampleSubstrate
    (sampleAnswer (List.replicate 22000 0x0A) h)) false)
  refine ⟨h, d, hchecked, hd, ?_, ?_⟩
  · rw [hmax]
    exact Nat.lt_of_lt_of_le (by decide) (hlen d).2.1
  · have hlong : axCanonicalBufferSize ≤ (obsText (admitBody sampleSubstrate
        (sampleAnswer (List.replicate 22000 0x0A) h)) false).length := by
      rw [hbuf]
      exact Nat.le_trans (by decide) (hlen d).1
    obtain ⟨hret, hstate⟩ := admit_unhashable hchecked hlong {}
    refine ⟨hret, hstate.trans (sampleAnswer_state h ?_)⟩
    rw [List.length_replicate]
    decide

/-! ## Headroom -/

/-- The bytes that stand for themselves in a JSON string, line breaks and other controls apart. -/
def Unescaped (bs : Bytes) : Prop := ∀ b ∈ bs, b ≠ chr '"' ∧ b ≠ chr '\\'

instance (bs : Bytes) : Decidable (Unescaped bs) := inferInstanceAs (Decidable (∀ b ∈ bs, _))

theorem escape_unescaped {bs : Bytes} (h : Unescaped bs) (hlow : ∀ b ∈ bs, 0x20 ≤ b.toNat) :
    Json.escape bs = bs :=
  Json.escape_of_clean fun b hb => ⟨(h b hb).1, (h b hb).2, hlow b hb⟩

theorem optEscaped_length_le_of_unescaped {s : Option CStr} {max : Nat} (h : IdAdmitted s max)
    (hclean : Unescaped (optBytes s)) : (optEscaped s).length ≤ max := by
  obtain ⟨c, rfl, -, hle, -, hlow⟩ := h
  have hbytes : Unescaped c.bytes := hclean
  have heq : optEscaped (some c) = Json.escape c.bytes := rfl
  rw [heq, escape_unescaped hbytes fun b hb => (hlow b hb).1]
  exact hle

theorem Checked.idAdmitted {size : Nat} {ctx : AxAdmissionCtx} {inp : AxObsInput}
    (h : Checked size ctx inp) : IdAdmitted inp.modelId 256 ∧ IdAdmitted inp.oracleId 256 := by
  obtain ⟨hm, ho, -⟩ := (inputIsSchemaValid_iff inp).1 h.valid
  have hids : idTooLong inp.modelId 256 = false ∧ idTooLong inp.oracleId 256 = false := by
    simpa [axMaxModelIdBytes, axMaxOracleIdBytes] using h.ids
  exact ⟨(idIsWellFormed_iff _ _).1 ⟨hids.1, hm⟩, (idIsWellFormed_iff _ _).1 ⟨hids.2, ho⟩⟩

/-- The stored output of an input without line breaks is what was kept of it, and none of its bytes
is a control. -/
theorem Checked.outputOf_eq {size : Nat} {ctx : AxAdmissionCtx} {inp : AxObsInput}
    (h : Checked size ctx inp) (hlines : ∀ b ∈ keptOutput inp, b ≠ chr '\n' ∧ b ≠ chr '\r') :
    outputOf inp.output = keptOutput inp ∧ (CStr.ofBytes (keptOutput inp)).bytes = keptOutput inp ∧
      ∀ b ∈ keptOutput inp, 0x20 ≤ b.toNat := by
  have heq : outputOf inp.output = keptOutput inp :=
    (normLF_eq_self_iff _).2 fun hmem => (hlines _ hmem).2 rfl
  obtain ⟨-, -, -, hctl, -⟩ := axValidateAndNormalise_ok (h.normalises {})
  rw [heq] at hctl
  refine ⟨heq, CStr.ofBytes_of_nulFree (nulFree_of_control hctl), fun b hb => ?_⟩
  have hno : ¬ Control b.toNat := fun hc =>
    List.any_eq_false.1 hctl b hb ((isForbiddenControl_iff b).2 hc)
  have hlf : b.toNat ≠ 0x0A := fun hn => (hlines b hb).1 (byte_ext hn)
  unfold Control at hno
  omega

/-- The worst case of every field together: 65523 bytes. -/
theorem Checked.text_fits {size : Nat} {ctx : AxAdmissionCtx} {inp : AxObsInput}
    (h : Checked size ctx inp) (hmodel : Unescaped (optBytes inp.modelId))
    (horacle : Unescaped (optBytes inp.oracleId)) (hkept : Unescaped (keptOutput inp))
    (hlines : ∀ b ∈ keptOutput inp, b ≠ chr '\n' ∧ b ≠ chr '\r') (d : Digest) :
    (obsText (hashed (admitBody S inp) d) true).length ≤ axMaxObsBytes := by
  obtain ⟨hm, ho⟩ := h.idAdmitted
  obtain ⟨heq, hstr, hlow⟩ := h.outputOf_eq hlines
  have htext := obsText_length_le (hashed (admitBody S inp) d)
  have h1 : (optEscaped (hashed (admitBody S inp) d).modelId).length ≤ 256 :=
    optEscaped_length_le_of_unescaped hm hmodel
  have h2 : (optEscaped (hashed (admitBody S inp) d).oracleId).length ≤ 256 :=
    optEscaped_length_le_of_unescaped ho horacle
  have h3 : (optEscaped (hashed (admitBody S inp) d).output).length ≤ axMaxOutputBytes := by
    have hout : optEscaped (hashed (admitBody S inp) d).output =
        Json.escape (CStr.ofBytes (outputOf inp.output)).bytes := rfl
    rw [hout, heq, hstr, escape_unescaped hkept hlow, keptOutput, List.length_take]
    exact Nat.min_le_left _ _
  have h4 : (hashed (admitBody S inp) d).obsHash.bytes.length = 64 := by
    have hhash : (hashed (admitBody S inp) d).obsHash.bytes = hexOf d.bytes := ofBytes_hexOf d.bytes
    rw [hhash, hexOf_length, d.size]
    rfl
  have h5 : ((hashed (admitBody S inp) d).schemaVersion.elim [] CStr.bytes).length = 9 :=
    (by decide : axObsSchemaVersion.bytes.length = 9)
  have hmax : axMaxOutputBytes = 64512 ∧ axMaxObsBytes = 65536 := ⟨rfl, rfl⟩
  omega

/-- When the complete record fits whatever its hash, only the commitment decides. -/
theorem Checked.admit_of_fits {size : Nat} {ctx : AxAdmissionCtx} {inp : AxObsInput}
    (h : Checked size ctx inp)
    (hfits : ∀ d, (obsText (hashed (admitBody S inp) d) true).length ≤ axMaxObsBytes)
    (f : AxL3FaultFlags) :
    (S.axilogCommit axObsSchemaVersion (obsText (admitBody S inp) false) = none ∧
      (axObsAdmit S size inp ctx f).ret = some .hash) ∨
    ∃ d, axObsAdmit S size inp ctx f =
      ⟨none, hashed (admitBody S inp) d, ⟨inp.ledgerSeq, true⟩, sizeFaults inp f⟩ := by
  rw [h.admit_eq]
  rcases admitFinish_exits S inp ctx (sizeFaults inp f) (admitBody S inp) with
    ⟨hlong, -⟩ | ⟨-, ⟨hnone, heq⟩ | ⟨d, -, ⟨hover, -⟩ | ⟨-, heq⟩⟩⟩
  · have hplain := obsText_length_false_le (hashed (admitBody S inp) .zero)
    have hsame : obsText (hashed (admitBody S inp) .zero) false = obsText (admitBody S inp) false :=
      obsText_obsHash _ _
    have hmax : axMaxObsBytes < axCanonicalBufferSize := by decide
    have hzero := hfits .zero
    rw [hsame] at hplain
    omega
  · rw [heq]
    exact .inl ⟨hnone, rfl⟩
  · exact absurd (hfits d) (Nat.not_le.2 hover)
  · exact .inr ⟨d, heq⟩

/-- **The size headroom is sufficient.** Identifiers of up to 256 bytes and a kept output of up to
`AX_MAX_OUTPUT_BYTES`, none of them with a byte that is escaped: whatever the other fields hold, the
complete record fits, so admission never fails for its size or for a buffer, and only a fault of the
commitment is left. -/
theorem headroom_sufficient {S : Substrate} {inp : AxObsInput} {ctx : AxAdmissionCtx}
    (hchecked : Checked (axMaxOutputBytes + 1) ctx inp) (hmodel : Unescaped (optBytes inp.modelId))
    (horacle : Unescaped (optBytes inp.oracleId)) (hkept : Unescaped (keptOutput inp))
    (hlines : ∀ b ∈ keptOutput inp, b ≠ chr '\n' ∧ b ≠ chr '\r') (faults : AxL3FaultFlags) :
    (∀ d, ∃ text, axObsCanonicalise (axMaxObsBytes + 1) (hashed (admitBody S inp) d) true =
      .ok text ∧ text.length ≤ axMaxObsBytes) ∧
    (axObsAdmit S (axMaxOutputBytes + 1) inp ctx faults).ret ≠ some .size ∧
    (axObsAdmit S (axMaxOutputBytes + 1) inp ctx faults).ret ≠ some .buffer ∧
    (S.axilogCommit axObsSchemaVersion (obsText (admitBody S inp) false) ≠ none →
      (axObsAdmit S (axMaxOutputBytes + 1) inp ctx faults).ret = none) := by
  have hfits : ∀ d, (obsText (hashed (admitBody S inp) d) true).length ≤ axMaxObsBytes :=
    hchecked.text_fits hmodel horacle hkept hlines
  refine ⟨fun d => ⟨_, axObsCanonicalise_ok_iff.2 ⟨rfl, hfits d⟩, hfits d⟩, ?_⟩
  rcases hchecked.admit_of_fits hfits faults with ⟨hnone, hret⟩ | ⟨d, heq⟩
  · rw [hret]
    exact ⟨fun h => (nomatch h), fun h => (nomatch h), fun h => absurd hnone h⟩
  · rw [heq]
    exact ⟨fun h => (nomatch h), fun h => (nomatch h), fun _ => rfl⟩

theorem sampleInput_unescaped :
    Unescaped (optBytes sampleInput.modelId) ∧ Unescaped (optBytes sampleInput.oracleId) := by
  decide

/-- The letter `a`, as often as the limit allows. -/
theorem headroom_sufficient_sample :
    ∃ h, (axObsAdmit sampleSubstrate (axMaxOutputBytes + 1)
      (sampleAnswer (List.replicate axMaxOutputBytes 97) h) axAdmissionCtxInit {}).ret = none := by
  have h : (List.replicate axMaxOutputBytes (97 : UInt8)).length < sizeMod := by
    rw [List.length_replicate]
    decide
  have hbyte : ∀ b ∈ List.replicate axMaxOutputBytes (97 : UInt8), b = 97 :=
    fun b hb => (List.mem_replicate.1 hb).2
  have htake : (List.replicate axMaxOutputBytes (97 : UInt8)).take axMaxOutputBytes =
      List.replicate axMaxOutputBytes 97 :=
    List.take_of_length_le (by rw [List.length_replicate])
  obtain ⟨-, hnorm⟩ := axValidateAndNormalise_ascii {} (fun b hb => by rw [hbyte b hb]; decide)
    (fun b hb => by rw [hbyte b hb]; decide)
      (by rw [List.length_replicate]; exact Nat.lt_succ_self _)
  have hchecked := sampleAnswer_checked h ⟨_, by rw [htake, hnorm]⟩
  have hkept : keptOutput (sampleAnswer (List.replicate axMaxOutputBytes 97) h) =
      List.replicate axMaxOutputBytes 97 := htake
  obtain ⟨-, -, -, hret⟩ := headroom_sufficient (S := sampleSubstrate) hchecked
    sampleInput_unescaped.1 sampleInput_unescaped.2
    (fun b hb => by rw [hkept] at hb; rw [hbyte b hb]; decide)
    (fun b hb => by rw [hkept] at hb; rw [hbyte b hb]; decide) {}
  exact ⟨h, hret (fun hnone => (nomatch hnone))⟩

/-! ## Cutting an output -/

/-- An output longer than the limit, of valid text with nothing in it that is escaped or
rejected. -/
structure PlainLong (bs : Bytes) : Prop where
  valid : Utf8.Valid bs
  printable : ∀ b ∈ bs, 0x20 ≤ b.toNat ∧ b ≠ 0x7F
  unescaped : Unescaped bs
  composed : ∀ c, Utf8.CodePoint bs c → ¬ Combining c
  long : axMaxOutputBytes < bs.length

/-- The byte behind the cut starts a character. -/
def CutsBetween (bs : Bytes) : Prop :=
  ∀ b, bs[axMaxOutputBytes]? = some b → isContinuation b = false

theorem PlainLong.take_valid_iff {bs : Bytes} (h : PlainLong bs) :
    Utf8.Valid (bs.take axMaxOutputBytes) ↔ CutsBetween bs := by
  rw [h.valid.take_iff]
  simp only [CutsBetween, isContinuation_eq]

theorem PlainLong.not_control {bs : Bytes} (h : PlainLong bs) :
    ∀ b ∈ bs.take axMaxOutputBytes, ¬ Control b.toNat := by
  intro b hb hctl
  obtain ⟨hlow, hdel⟩ := h.printable b (List.mem_of_mem_take hb)
  have hne : b.toNat ≠ 0x7F := fun he => hdel (byte_ext he)
  unfold Control at hctl
  omega

/-- A cut between characters leaves a text that normalisation takes as it is. -/
theorem PlainLong.normalises {bs : Bytes} (h : PlainLong bs) (hcut : CutsBetween bs)
    (f : AxL3FaultFlags) :
    axValidateAndNormalise (axMaxOutputBytes + 1) (bs.take axMaxOutputBytes) f =
      (.ok (bs.take axMaxOutputBytes), f) := by
  have hv := h.take_valid_iff.2 hcut
  have hcontrol : axContainsForbiddenControl (bs.take axMaxOutputBytes) = false := by
    rw [axContainsForbiddenControl, List.any_eq_false]
    exact fun b hb hbad => h.not_control b hb ((isForbiddenControl_iff b).1 hbad)
  have hcr : chr '\r' ∉ bs.take axMaxOutputBytes := fun hmem => h.not_control _ hmem (by decide)
  have hself := (normLF_eq_self_iff _).2 hcr
  have hnfc : axIsNfc (bs.take axMaxOutputBytes) = true := by
    rw [axIsNfc_iff hv]
    rintro ⟨c, hc, hcomb⟩
    have hrest : Utf8.Valid (bs.drop axMaxOutputBytes) := by
      rw [← Utf8.valid_append_iff hv, List.take_append_drop]
      exact h.valid
    have hwhole := hc.append_right hrest
    rw [List.take_append_drop] at hwhole
    exact h.composed c hwhole hcomb
  have hlen : (bs.take axMaxOutputBytes).length ≤ axMaxOutputBytes := List.length_take_le _ _
  rw [axValidateAndNormalise_cases _ f (by omega), if_neg (not_not.2 hv), hself,
    if_neg (by omega), if_pos ⟨hcontrol, hnfc⟩]

theorem CBuf.mem_of_bytes {output : CBuf} (h : output.bytes ≠ []) :
    output.isNull = false ∧ output.len = output.bytes.length := by
  cases output with
  | null n => exact absurd rfl h
  | mem bs hbs => exact ⟨rfl, rfl⟩

/-- A plain output that is cut between two characters is admitted. -/
theorem PlainLong.admitted {S : Substrate} {inp : AxObsInput} {ctx : AxAdmissionCtx}
    (hcommit : ∀ text, S.axilogCommit axObsSchemaVersion text ≠ none)
    (hordered : ¬ (ctx.initialized ∧ inp.ledgerSeq ≤ ctx.lastLedgerSeq))
    (hmodel : IdAdmitted inp.modelId 256) (horacle : IdAdmitted inp.oracleId 256)
    (hmodel' : Unescaped (optBytes inp.modelId)) (horacle' : Unescaped (optBytes inp.oracleId))
    (hstates : (inp.completionState = .complete ∨ inp.completionState = .truncated) ∧
      inp.failureType = .null)
    (hplain : PlainLong inp.output.bytes) (hcut : CutsBetween inp.output.bytes)
    (hinput : ¬ (inp.input.isNull = true ∧ 0 < inp.input.len)) (faults : AxL3FaultFlags) :
    outputOf inp.output = keptOutput inp ∧ (CStr.ofBytes (keptOutput inp)).bytes = keptOutput inp ∧
    ∃ d, axObsAdmit S (axMaxOutputBytes + 1) inp ctx faults =
      ⟨none, hashed (admitBody S inp) d, ⟨inp.ledgerSeq, true⟩, sizeFaults inp faults⟩ := by
  have hne : inp.output.bytes ≠ [] := List.ne_nil_of_length_pos (Nat.zero_lt_of_lt hplain.long)
  have hmem := (CBuf.mem_of_bytes hne).1
  obtain ⟨hmlen, hmid⟩ := (idIsWellFormed_iff inp.modelId 256).2 hmodel
  obtain ⟨holen, hoid⟩ := (idIsWellFormed_iff inp.oracleId 256).2 horacle
  have hpair : statePairIsPermitted inp.completionState inp.failureType = true := by
    rw [statePairIsPermitted_iff]
    rcases hstates with ⟨hs | hs, hf⟩
    · exact .inl ⟨hs, hf⟩
    · exact .inr (.inl ⟨hs, hf⟩)
  have hchecked : Checked (axMaxOutputBytes + 1) ctx inp := by
    refine ⟨hordered, ?_, ?_, _, congrArg Prod.fst (hplain.normalises hcut {})⟩
    · simp [axMaxModelIdBytes, axMaxOracleIdBytes, hmlen, holen]
    · refine (inputIsSchemaValid_iff inp).2 ⟨hmid, hoid, hpair, ?_, hinput, ?_⟩
      · rintro ⟨hs, -⟩
        rcases hstates.1 with h | h <;> rw [h] at hs <;> cases hs
      · rintro ⟨hnull, -⟩
        rw [hmem] at hnull
        cases hnull
  have hlines : ∀ b ∈ keptOutput inp, b ≠ chr '\n' ∧ b ≠ chr '\r' := by
    intro b hb
    have hlow := (hplain.printable b (List.mem_of_mem_take hb)).1
    constructor <;> rintro rfl <;> exact absurd hlow (by decide)
  have hfits : ∀ d, (obsText (hashed (admitBody S inp) d) true).length ≤ axMaxObsBytes :=
    hchecked.text_fits hmodel' horacle'
      (fun b hb => hplain.unescaped b (List.mem_of_mem_take hb)) hlines
  obtain ⟨heq, hstr, -⟩ := hchecked.outputOf_eq hlines
  refine ⟨heq, hstr, ?_⟩
  rcases hchecked.admit_of_fits hfits faults with ⟨hnone, -⟩ | haccept
  · exact absurd hnone (hcommit _)
  · exact haccept

/-- **When a long output is cut and kept.** Plain text over the limit is admitted as `TRUNCATED`,
with its original length and a valid beginning of it, exactly when the cut falls between two
characters (and the prompt is not a NULL pointer with a length, which no answer can mend). -/
theorem truncation_keeps_characters {S : Substrate} (inp : AxObsInput) (ctx : AxAdmissionCtx)
    (hcommit : ∀ text, S.axilogCommit axObsSchemaVersion text ≠ none)
    (hordered : ¬ (ctx.initialized ∧ inp.ledgerSeq ≤ ctx.lastLedgerSeq))
    (hmodel : IdAdmitted inp.modelId 256) (horacle : IdAdmitted inp.oracleId 256)
    (hmodel' : Unescaped (optBytes inp.modelId)) (horacle' : Unescaped (optBytes inp.oracleId))
    (hstates : (inp.completionState = .complete ∨ inp.completionState = .truncated) ∧
      inp.failureType = .null)
    (hplain : PlainLong inp.output.bytes) (faults : AxL3FaultFlags) :
    ((axObsAdmit S (axMaxOutputBytes + 1) inp ctx faults).ret = none ∧
      (axObsAdmit S (axMaxOutputBytes + 1) inp ctx faults).out.completionState = .truncated ∧
      (axObsAdmit S (axMaxOutputBytes + 1) inp ctx faults).out.outputSize.toNat =
        inp.output.bytes.length ∧
      ∃ o, (axObsAdmit S (axMaxOutputBytes + 1) inp ctx faults).out.output = some o ∧
        Utf8.Valid o.bytes ∧ o.bytes <+: inp.output.bytes) ↔
    (CutsBetween inp.output.bytes ∧ ¬ (inp.input.isNull = true ∧ 0 < inp.input.len)) := by
  have hne : inp.output.bytes ≠ [] := List.ne_nil_of_length_pos (Nat.zero_lt_of_lt hplain.long)
  have hlen := (CBuf.mem_of_bytes hne).2
  have hover : inp.output.len > axMaxOutputBytes := hlen ▸ hplain.long
  constructor
  · rintro ⟨hret, -⟩
    obtain ⟨-, -, hvalid, hnorm⟩ := axObsAdmit_checks hret
    obtain ⟨-, -, hv, -⟩ := axValidateAndNormalise_ok hnorm
    exact ⟨hplain.take_valid_iff.1 hv, ((inputIsSchemaValid_iff inp).1 hvalid).2.2.2.2.1⟩
  · rintro ⟨hcut, hinput⟩
    obtain ⟨heq, hstr, d, haccept⟩ := hplain.admitted hcommit hordered hmodel horacle hmodel'
      horacle' hstates hcut hinput faults
    rw [haccept]
    refine ⟨rfl, if_pos hover, ?_, _, rfl, ?_, ?_⟩
    · have hsize : (hashed (admitBody S inp) d).outputSize = if inp.output.len > axMaxOutputBytes
          then UInt64.ofNat inp.output.len else UInt64.ofNat (outputOf inp.output).length := rfl
      rw [hsize, if_pos hover, UInt64.toNat_ofNat_of_lt' inp.output.len_lt, hlen]
    · rw [heq, hstr]
      exact hplain.take_valid_iff.2 hcut
    · rw [heq, hstr]
      exact List.take_prefix _ _

/-- Letters, and a plain end. -/
theorem plainLong_letters {n : Nat} {t : Bytes} (hv : Utf8.Valid t)
    (hprint : ∀ b ∈ t, 0x20 ≤ b.toNat ∧ b ≠ 0x7F) (hclean : Unescaped t) (hnfc : axIsNfc t = true)
    (hlong : axMaxOutputBytes < n + t.length) : PlainLong (List.replicate n 97 ++ t) := by
  have hbyte : ∀ b ∈ List.replicate n (97 : UInt8), b = 97 :=
    fun b hb => (List.mem_replicate.1 hb).2
  have hlow : ∀ b ∈ List.replicate n (97 : UInt8), b.toNat < 0x80 := by
    intro b hb
    rw [hbyte b hb]
    decide
  have hall : Utf8.Valid (List.replicate n 97 ++ t) := (Utf8.Valid.of_ascii hlow).append hv
  refine ⟨hall, ?_, ?_, ?_, by rwa [List.length_append, List.length_replicate]⟩
  · intro b hb
    rcases List.mem_append.1 hb with hb | hb
    · rw [hbyte b hb]
      decide
    · exact hprint b hb
  · intro b hb
    rcases List.mem_append.1 hb with hb | hb
    · rw [hbyte b hb]
      decide
    · exact hclean b hb
  · intro c hc hcomb
    have hmarks := (axIsNfc_iff hall).1 (by rw [axIsNfc_append hlow]; exact hnfc)
    exact hmarks ⟨c, hc, hcomb⟩

/-- One letter too many: the answer is cut. -/
theorem truncation_keeps_characters_sample :
    ∃ h, (axObsAdmit sampleSubstrate (axMaxOutputBytes + 1)
      (sampleAnswer (List.replicate (axMaxOutputBytes + 1) 97 ++ []) h) axAdmissionCtxInit {}).ret =
        none := by
  have hplain := plainLong_letters (n := axMaxOutputBytes + 1) .nil (by simp) (by simp [Unescaped])
    rfl (Nat.lt_succ_self _)
  have h : (List.replicate (axMaxOutputBytes + 1) (97 : UInt8) ++ []).length < sizeMod := by
    rw [List.append_nil, List.length_replicate]
    decide
  have hcut : CutsBetween (List.replicate (axMaxOutputBytes + 1) (97 : UInt8) ++ []) := by
    intro b hb
    rw [List.append_nil] at hb
    rw [(List.mem_replicate.1 (List.mem_of_getElem? hb)).2]
    decide
  have hids := (admits_of_axObsAdmit sampleInput_accepted (by decide)).1
  have hcommit : ∀ text, sampleSubstrate.axilogCommit axObsSchemaVersion text ≠ none := by
    intro text hnone
    cases hnone
  have hinput : ¬ (sampleInput.input.isNull = true ∧ 0 < sampleInput.input.len) := hids.input
  exact ⟨h, ((truncation_keeps_characters
    (sampleAnswer (List.replicate (axMaxOutputBytes + 1) 97 ++ []) h) axAdmissionCtxInit hcommit
    (by rintro ⟨hinit, -⟩; cases hinit) hids.modelId hids.oracleId sampleInput_unescaped.1
    sampleInput_unescaped.2 ⟨.inl rfl, rfl⟩ hplain {}).2 ⟨hcut, hinput⟩).1⟩

/-- A letter of two bytes over the limit: the answer is valid text, and it is rejected. -/
theorem truncation_splits_character :
    ∃ h, PlainLong (sampleAnswer (List.replicate 64511 97 ++ [0xC3, 0xA9]) h).output.bytes ∧
      (axObsAdmit sampleSubstrate (axMaxOutputBytes + 1)
        (sampleAnswer (List.replicate 64511 97 ++ [0xC3, 0xA9]) h) axAdmissionCtxInit {}).ret ≠
          none := by
  have hplain : PlainLong (List.replicate 64511 97 ++ [0xC3, 0xA9]) :=
    plainLong_letters (by decide) (by decide) (by decide) (by decide) (by decide)
  have h : (List.replicate 64511 (97 : UInt8) ++ [0xC3, 0xA9]).length < sizeMod := by
    rw [List.length_append, List.length_replicate]
    decide
  refine ⟨h, hplain, fun hret => ?_⟩
  obtain ⟨-, -, -, hnorm⟩ := axObsAdmit_checks hret
  obtain ⟨-, -, hv, -⟩ := axValidateAndNormalise_ok hnorm
  have hcut := hplain.take_valid_iff.1 hv 0xA9 ?_
  · exact absurd hcut (by decide)
  · have hindex : axMaxOutputBytes = (List.replicate 64511 (97 : UInt8)).length + 1 := by
      rw [List.length_replicate]
      rfl
    rw [hindex, read_append]
    rfl

end AxiomaOracle
