import AxiomaOracle.Oracle.Validate

/-!
# Observation records (`obs.c`, `hash.c`)

Record initialisation, the admission checks in the order the code makes them, the observation hash,
admission and validation. Admission returns everything its caller can see afterwards: the code, the
record as it was left, the context and the fault flags.
-/

namespace AxiomaOracle

open Lib

variable (S : Substrate)

/-! ## Hashing (`hash.c`) -/

def axComputeInputHash (input : Bytes) : Digest := S.axilogSha256 input

def axObsComputeHash (obs : AxObsRecord) : Except AxError Unit × AxObsRecord :=
  let obs := { obs with obsHash := ⟨[], by simp⟩ }
  match axObsCanonicalise axCanonicalBufferSize obs false with
  | .error _ => (.error .buffer, obs)
  | .ok canonicalBuf =>
    match S.axilogCommit axObsSchemaVersion canonicalBuf with
    | none => (.error .hash, obs)
    | some hash =>
      let hex := formatInto obs.obsHash.bytes (axFormatHashHex axHashHexSize hash.bytes)
      (.ok (), { obs with obsHash := .ofBytes hex })

/-! ## Initialisation and input checks -/

def axObsInit : AxObsRecord where
  completionState := .complete
  failureType := .null
  inputHash := .zero
  ledgerSeq := 0
  modelId := none
  obsHash := ⟨[], by simp⟩
  oracleId := none
  output := none
  outputSize := 0
  params := axOracleParamsInitNull
  schemaVersion := some axObsSchemaVersion

def idTooLong (s : Option CStr) (max : Nat) : Bool :=
  match s with
  | none => false
  | some s => max < s.bytes.length

def idIsWellFormed (s : Option CStr) : Bool :=
  match s with
  | none => false
  | some s =>
    if s.bytes = [] then false
    else if s.bytes.any fun c => c.toNat < 0x20 || c == 0x7F then false
    else axValidateUtf8 s.bytes

def statePairIsPermitted (state : AxCompletionState) (ftype : AxFailureType) : Bool :=
  match state with
  | .complete | .truncated => ftype == .null
  | .error => ftype == .timeout || ftype == .invalidOutput || ftype == .transportError
  | .outside _ => false

def inputIsSchemaValid (inp : AxObsInput) : Bool :=
  if !idIsWellFormed inp.modelId || !idIsWellFormed inp.oracleId then false
  else if !statePairIsPermitted inp.completionState inp.failureType then false
  else if inp.completionState = .error ∧ inp.output.len > axMaxOutputBytes then false
  else if inp.input.isNull ∧ inp.input.len > 0 then false
  else if inp.output.isNull ∧ inp.output.len > 0 then false
  else true

def axObsIdentifierCheck (id : Option CStr) (maxBytes : Nat) : Except AxError Unit :=
  if idTooLong id maxBytes then .error .size
  else if !idIsWellFormed id then .error .schema
  else .ok ()

/-! ## Admission -/

/-- What `ax_obs_admit` leaves behind. `ret` is `none` for `AX_OK`. -/
structure AdmitResult where
  ret : Option AxError
  out : AxObsRecord
  ctx : AxAdmissionCtx
  faults : AxL3FaultFlags

/-- The record as every early rejection leaves it: `ERROR`, `INVALID_OUTPUT`. -/
def rejected (out : AxObsRecord) : AxObsRecord :=
  { out with completionState := .error, failureType := .invalidOutput }

/-- The steps from the copied fields on: hash, size of the complete record, context. -/
def admitFinish (inp : AxObsInput) (ctx : AxAdmissionCtx) (faults : AxL3FaultFlags)
    (out : AxObsRecord) : AdmitResult :=
  match axObsComputeHash S out with
  | (.error e, out) => ⟨some e, out, ctx, { faults with protocol := true }⟩
  | (.ok (), out) =>
    match axObsCanonicalise (axMaxObsBytes + 1) out true with
    | .error _ =>
      ⟨some .size, { rejected out with obsHash := ⟨[], by simp⟩ }, ctx,
        { faults with size := true }⟩
    | .ok _ => ⟨none, out, ⟨inp.ledgerSeq, true⟩, faults⟩

/-- The state, failure type, input hash and remaining fields, copied from the input. -/
def admitFields (inp : AxObsInput) (out : AxObsRecord) : AxObsRecord :=
  { out with
    completionState := if out.completionState = .complete then inp.completionState
      else out.completionState
    failureType := if out.failureType = .null then inp.failureType else out.failureType
    inputHash := if !inp.input.isNull && inp.input.len > 0 then
      axComputeInputHash S inp.input.bytes else .zero
    ledgerSeq := inp.ledgerSeq
    modelId := inp.modelId
    oracleId := inp.oracleId
    params := inp.params
    schemaVersion := some axObsSchemaVersion }

def axObsAdmit (outputBufSize : Nat) (inp : AxObsInput) (ctx : AxAdmissionCtx)
    (faults : AxL3FaultFlags) : AdmitResult :=
  let out := axObsInit
  if ctx.initialized ∧ inp.ledgerSeq ≤ ctx.lastLedgerSeq then
    ⟨some .ordering, rejected out, ctx, { faults with ordering := true }⟩
  else if idTooLong inp.modelId axMaxModelIdBytes || idTooLong inp.oracleId axMaxOracleIdBytes then
    ⟨some .size, rejected out, ctx, { faults with size := true }⟩
  else if !inputIsSchemaValid inp then
    ⟨some .schema, rejected out, ctx, { faults with schema := true }⟩
  else
    let oversize := inp.output.len > axMaxOutputBytes
    let faults := if oversize then { faults with size := true } else faults
    let out := if oversize then
      { out with completionState := .truncated, outputSize := UInt64.ofNat inp.output.len } else out
    if !inp.output.isNull ∧ inp.output.len > 0 then
      let kept := inp.output.bytes.take axMaxOutputBytes
      match axValidateAndNormalise outputBufSize kept faults with
      | (.error e, faults) => ⟨some e, rejected out, ctx, faults⟩
      | (.ok norm, faults) =>
        let out := { out with
          output := some (.ofBytes norm)
          outputSize := if out.completionState ≠ .truncated then UInt64.ofNat norm.length
            else out.outputSize }
        admitFinish S inp ctx faults (admitFields S inp out)
    else
      let out := { out with output := some ⟨[], by simp⟩, outputSize := 0 }
      admitFinish S inp ctx faults (admitFields S inp out)

/-! ## Validation -/

/-- `output_size` against the length of the stored output: exact, or at least that for a truncated
record. -/
def outputSizeConsistent (obs : AxObsRecord) : Bool :=
  match obs.output with
  | none => true
  | some o =>
    if obs.completionState = .truncated then o.bytes.length ≤ obs.outputSize.toNat
    else o.bytes.length == obs.outputSize.toNat

def outputEncodingResult (obs : AxObsRecord) : Except AxError Unit :=
  match obs.output with
  | some o => if obs.outputSize > 0 then axValidateEncoding o.bytes else .ok ()
  | none => .ok ()

def axObsValidate (obs : AxObsRecord) (faults : AxL3FaultFlags) :
    Option AxError × AxL3FaultFlags :=
  if obs.schemaVersion ≠ some axObsSchemaVersion then
    (some .schema, { faults with schema := true })
  else match outputEncodingResult obs with
    | .error e => (some e, { faults with encoding := true })
    | .ok () =>
      if !outputSizeConsistent obs then (some .schema, { faults with schema := true })
      else
        let temp := { obs with obsHash := ⟨[], by simp⟩ }
        match axObsCanonicalise axCanonicalBufferSize temp false with
        | .error _ => (some .buffer, { faults with protocol := true })
        | .ok canonicalBuf =>
          match S.axilogCommit axObsSchemaVersion canonicalBuf with
          | none => (some .hash, { faults with protocol := true })
          | some recomputed =>
            let recomputedHex := formatInto [] (axFormatHashHex axHashHexSize recomputed.bytes)
            if recomputedHex ≠ obs.obsHash.bytes then
              (some .hash, { faults with protocol := true })
            else (none, faults)

end AxiomaOracle
