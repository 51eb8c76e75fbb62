import AxiomaOracle.Lib.Json
import AxiomaOracle.Oracle.Canonical

/-!
# The canonical form is compact JSON

The bounded writer either holds everything it was given or reports an overflow
(`writeFinish_writeStr`), so a canonicalisation is one byte string, its *text*, compared with the
size of the destination (`axObsCanonicalise_eq`). None of the inner buffers can be too small, for
any field values. On a record whose hash and schema version need no escaping the text is the
compact JSON text of `obsJson` (`obsText_eq_render`).
-/

namespace AxiomaOracle

open Lib

/-! ## The writer -/

theorem writeChar_eq (ctx : WriteCtx) (c : UInt8) : writeChar ctx c = writeStr ctx [c] := rfl

theorem writeStr_writeStr (ctx : WriteCtx) (s t : Bytes) :
    writeStr (writeStr ctx s) t = writeStr ctx (s ++ t) := by
  simp [writeStr]

theorem writeStr_overflow {ctx : WriteCtx} (s : Bytes) (h : ctx.overflow = true) :
    (writeStr ctx s).overflow = true := by
  induction s generalizing ctx with
  | nil => exact h
  | cons c s ih =>
    have hc : (writeChar ctx c).overflow = true := by
      unfold writeChar
      split
      · exact h
      · rfl
    exact ih hc

theorem writeStr_fits {ctx : WriteCtx} {s : Bytes} (h : ctx.pos + s.length ≤ sizePred ctx.size) :
    writeStr ctx s = { ctx with rev := s.reverse ++ ctx.rev, pos := ctx.pos + s.length } := by
  induction s generalizing ctx with
  | nil => rfl
  | cons c s ih =>
    simp only [List.length_cons] at h
    have hc : writeChar ctx c = { ctx with rev := c :: ctx.rev, pos := ctx.pos + 1 } := by
      rw [writeChar, if_pos (by omega)]
    have hstep : writeStr ctx (c :: s) = writeStr (writeChar ctx c) s := rfl
    rw [hstep, hc, ih (by dsimp only; omega)]
    simp only [List.reverse_cons, List.append_assoc, List.singleton_append, List.length_cons,
      Nat.add_assoc, Nat.add_comm 1]

theorem writeStr_short {ctx : WriteCtx} {s : Bytes} (h : sizePred ctx.size < ctx.pos + s.length)
    (hc : ctx.pos ≤ sizePred ctx.size) : (writeStr ctx s).overflow = true := by
  induction s generalizing ctx with
  | nil => simp only [List.length_nil] at h; omega
  | cons c s ih =>
    simp only [List.length_cons] at h
    have hstep : writeStr ctx (c :: s) = writeStr (writeChar ctx c) s := rfl
    rw [hstep]
    by_cases hroom : ctx.pos < sizePred ctx.size
    · have hw : writeChar ctx c = { ctx with rev := c :: ctx.rev, pos := ctx.pos + 1 } := by
        rw [writeChar, if_pos hroom]
      rw [hw]
      apply ih
      · dsimp only; omega
      · dsimp only; omega
    · apply writeStr_overflow
      rw [writeChar, if_neg hroom]

/-- **The writer is complete or reports an overflow.** -/
theorem writeFinish_writeStr (size : Nat) (s : Bytes) :
    writeFinish (writeStr (writeInit size) s) =
      if s.length ≤ sizePred size then .ok s else .error .buffer := by
  split
  · next h =>
    rw [writeStr_fits (by simpa [writeInit] using h)]
    simp [writeFinish, writeInit]
  · next h =>
    rw [writeFinish, writeStr_short (by simpa [writeInit] using h) (Nat.zero_le _), if_pos rfl]

theorem writeEscaped_eq (ctx : WriteCtx) (s : Bytes) :
    writeEscaped ctx s = writeStr ctx (Json.escape s) := by
  induction s generalizing ctx with
  | nil => rfl
  | cons c s ih =>
    have hc : writeEscapedByte ctx c = writeStr ctx (Json.escapeByte c) := by
      have hq : chr '"' = 34 := rfl
      have hb : chr '\\' = 92 := rfl
      unfold writeEscapedByte Json.escapeByte
      rw [hq, hb]
      split
      · rfl
      split
      · rfl
      split <;> rfl
    have hstep : writeEscaped ctx (c :: s) = writeEscaped (writeEscapedByte ctx c) s := rfl
    rw [hstep, ih, hc, writeStr_writeStr]
    rfl

/-! ## Numbers and hashes fit their buffers -/

theorem scratchDigits_reverse (v : Nat) : (scratchDigits v).reverse = decimal v := by
  unfold scratchDigits decimal
  split <;> rfl

theorem decimal_length_le_20 {v : Nat} (h : v < sizeMod) : (decimal v).length ≤ 20 :=
  decimal_length_le (by decide) (Nat.lt_trans h (by decide))

/-- `ax_format_uint64` for any size: the shortest numeral, when it fits with its NUL. -/
theorem axFormatUint64_cases (dstSize : Nat) (value : UInt64) :
    axFormatUint64 dstSize value =
      if (decimal value.toNat).length ≥ dstSize then .error .buffer
      else .ok (decimal value.toNat) := by
  rw [axFormatUint64, ← List.length_reverse, scratchDigits_reverse]

theorem axFormatUint64_eq (value : UInt64) :
    axFormatUint64 24 value = .ok (decimal value.toNat) := by
  have hl := decimal_length_le_20 (v := value.toNat) value.toNat_lt
  rw [axFormatUint64_cases, if_neg (by omega)]

theorem axFormatInt64_cases (dstSize : Nat) (value : Int64) :
    axFormatInt64 dstSize value =
      if (Json.numeral value.toInt).length ≥ dstSize then .error .buffer
      else .ok (Json.numeral value.toInt) := by
  unfold axFormatInt64
  cases hv : value.toInt with
  | ofNat n =>
    simp only [Int.ofNat_eq_natCast, show ¬ ((n : Int) < 0) by omega, if_false, List.append_nil,
      Int.toNat_natCast]
    rw [← List.length_reverse, scratchDigits_reverse]
    rfl
  | negSucc n =>
    have hmag : (-(Int.negSucc n + 1)).toNat + 1 = n + 1 := by omega
    simp only [show Int.negSucc n < 0 by omega, if_true, hmag]
    rw [← List.length_reverse, List.reverse_append, scratchDigits_reverse]
    rfl

theorem numeral_length_le {v : Int} (hlo : -2 ^ 63 ≤ v) (hhi : v < 2 ^ 63) :
    (Json.numeral v).length ≤ 20 := by
  cases v with
  | ofNat n =>
    rw [Int.ofNat_eq_natCast] at hhi
    exact decimal_length_le_20 (v := n) (by unfold sizeMod; omega)
  | negSucc n =>
    have := decimal_length_le (v := n + 1) (k := 19) (by decide) (by omega)
    rw [Json.numeral, List.length_cons]
    omega

theorem numeral_length_le_20 (value : Int64) : (Json.numeral value.toInt).length ≤ 20 :=
  numeral_length_le value.le_toInt value.toInt_lt

theorem axFormatInt64_eq (value : Int64) :
    axFormatInt64 24 value = .ok (Json.numeral value.toInt) := by
  have hl := numeral_length_le_20 value
  rw [axFormatInt64_cases, if_neg (by omega)]

theorem axFormatQ16_eq (value : Int32) : axFormatQ16 24 value = .ok (Json.numeral value.toInt) := by
  rw [axFormatQ16, axFormatInt64_eq, Int32.toInt_toInt64]

theorem axFormatHashHex_eq (d : Digest) :
    axFormatHashHex axHashHexSize d.bytes = .ok (hexOf d.bytes) := by
  rw [axFormatHashHex, if_neg (by rw [d.size]; decide)]

/-! ## Params -/

/-- The JSON value of an optional number. -/
def optInt (isNull : Bool) (v : Int) : Json := if isNull then .null else .int v

/-- The JSON value of the sampling parameters. -/
def paramsJson (p : AxOracleParams) : Json :=
  .obj [(ascii "max_tokens", optInt (axParamsMaxTokensIsNull p) p.maxTokens.toInt),
    (ascii "seed", optInt (axParamsSeedIsNull p) p.seed.toInt),
    (ascii "temperature", optInt (axParamsTemperatureIsNull p) p.temperature.toInt),
    (ascii "top_p", optInt (axParamsTopPIsNull p) p.topP.toInt)]

theorem render_optInt (isNull : Bool) (v : Int) :
    (optInt isNull v).render = if isNull then ascii "null" else Json.numeral v := by
  cases isNull
  · simp [optInt, Json.render]
  · simp [optInt, Json.render]

theorem render_paramsJson (p : AxOracleParams) : (paramsJson p).render =
    ascii "\x7b\"max_tokens\":" ++ (optInt (axParamsMaxTokensIsNull p) p.maxTokens.toInt).render ++
    ascii ",\"seed\":" ++ (optInt (axParamsSeedIsNull p) p.seed.toInt).render ++
    ascii ",\"temperature\":" ++
    (optInt (axParamsTemperatureIsNull p) p.temperature.toInt).render ++
    ascii ",\"top_p\":" ++ (optInt (axParamsTopPIsNull p) p.topP.toInt).render ++ ascii "\x7d" := by
  have h1 : Json.quote (ascii "max_tokens") = ascii "\"max_tokens\"" := by decide
  have h2 : Json.quote (ascii "seed") = ascii "\"seed\"" := by decide
  have h3 : Json.quote (ascii "temperature") = ascii "\"temperature\"" := by decide
  have h4 : Json.quote (ascii "top_p") = ascii "\"top_p\"" := by decide
  simp only [paramsJson, Json.render, Json.renderMembers, h1, h2, h3, h4]
  simp [ascii]

theorem optInt_length_le {b : Bool} {v : Int} (hlo : -2 ^ 63 ≤ v) (hhi : v < 2 ^ 63) :
    (optInt b v).render.length ≤ 20 := by
  rw [render_optInt]
  split
  · decide
  · exact numeral_length_le hlo hhi

theorem paramsJson_length_le (p : AxOracleParams) : (paramsJson p).render.length ≤ 127 := by
  have h1 := optInt_length_le (b := axParamsMaxTokensIsNull p) (v := p.maxTokens.toInt)
    (by have := p.maxTokens.le_toInt; omega) (by have := p.maxTokens.toInt_lt; omega)
  have h2 := optInt_length_le (b := axParamsSeedIsNull p) p.seed.le_toInt p.seed.toInt_lt
  have h3 := optInt_length_le (b := axParamsTemperatureIsNull p) (v := p.temperature.toInt)
    (by have := p.temperature.le_toInt; omega) (by have := p.temperature.toInt_lt; omega)
  have h4 := optInt_length_le (b := axParamsTopPIsNull p) (v := p.topP.toInt)
    (by have := p.topP.le_toInt; omega) (by have := p.topP.toInt_lt; omega)
  have k1 : (ascii "\x7b\"max_tokens\":").length = 14 := by decide
  have k2 : (ascii ",\"seed\":").length = 8 := by decide
  have k3 : (ascii ",\"temperature\":").length = 15 := by decide
  have k4 : (ascii ",\"top_p\":").length = 9 := by decide
  have k5 : (ascii "\x7d").length = 1 := by decide
  rw [render_paramsJson]
  simp only [List.length_append, k1, k2, k3, k4, k5]
  omega

/-- One optional number, as the code writes it. -/
theorem writeStr_optInt (ctx : WriteCtx) (b : Bool) (numBuf : Bytes) (v : Int) :
    writeStr ctx (if b then ascii "null" else
      if b then numBuf else formatInto numBuf (.ok (Json.numeral v))) =
      writeStr ctx (optInt b v).render := by
  rw [render_optInt]
  cases b <;> rfl

theorem axParamsCanonicalise_eq (dstSize : Nat) (p : AxOracleParams) :
    axParamsCanonicalise dstSize p =
      if (paramsJson p).render.length ≤ sizePred dstSize then .ok (paramsJson p).render
      else .error .buffer := by
  have hopen : chr '{' :: ascii "\"max_tokens\":" = ascii "\x7b\"max_tokens\":" := by decide
  have hclose : [chr '}'] = ascii "\x7d" := by decide
  simp only [axParamsCanonicalise, axFormatInt64_eq, axFormatQ16_eq, Int32.toInt_toInt64,
    writeStr_optInt, writeChar_eq, writeStr_writeStr, List.append_assoc, List.singleton_append,
    hclose]
  rw [writeFinish_writeStr, render_paramsJson, ← hopen]
  simp only [List.append_assoc, List.cons_append]

theorem axParamsCanonicalise_fits (p : AxOracleParams) :
    axParamsCanonicalise axParamsBufferSize p = .ok (paramsJson p).render := by
  have h := paramsJson_length_le p
  rw [axParamsCanonicalise_eq, if_pos (Nat.le_trans h (by decide))]

/-! ## Records -/

/-- The escaped text of a string field, empty for a NULL pointer. -/
def optEscaped : Option CStr → Bytes
  | some s => Json.escape s.bytes
  | none => []

/-- Everything `ax_obs_canonicalise` emits, in order. -/
@[irreducible] def obsText (obs : AxObsRecord) (includeHash : Bool) : Bytes :=
  ascii "\x7b\"completion_state\":" ++ completionStateText obs.completionState ++
  ascii ",\"failure_type\":" ++ failureTypeText obs.failureType ++
  ascii ",\"input_hash\":\"" ++ hexOf obs.inputHash.bytes ++
  ascii "\",\"ledger_seq\":" ++ decimal obs.ledgerSeq.toNat ++
  ascii ",\"model_id\":\"" ++ optEscaped obs.modelId ++
  ascii "\",\"obs_hash\":\"" ++ (if includeHash then obs.obsHash.bytes else []) ++
  ascii "\",\"oracle_id\":\"" ++ optEscaped obs.oracleId ++
  ascii "\",\"output\":\"" ++ optEscaped obs.output ++
  ascii "\",\"output_size\":" ++ decimal obs.outputSize.toNat ++
  ascii ",\"params\":" ++ (paramsJson obs.params).render ++
  ascii ",\"schema_version\":\"" ++ (obs.schemaVersion.elim [] CStr.bytes) ++ ascii "\"\x7d"

theorem writeOptEscaped_eq (ctx : WriteCtx) (s : Option CStr) :
    writeOptEscaped ctx s = writeStr ctx (optEscaped s) := by
  cases s with
  | none => rfl
  | some s => exact writeEscaped_eq ctx s.bytes

theorem writeObsHash_eq (ctx : WriteCtx) (includeHash : Bool) (s : Bytes) :
    (if (includeHash && s != []) = true then writeStr ctx s else ctx) =
      writeStr ctx (if includeHash then s else []) := by
  cases includeHash
  · rfl
  · cases s <;> rfl

theorem writeOptStr_eq (ctx : WriteCtx) (s : Option CStr) :
    writeOptStr ctx s = writeStr ctx (s.elim [] CStr.bytes) := by
  cases s <;> rfl

/-- A closing quote and the literal after it. -/
theorem quote_append {a b : Bytes} (h : chr '"' :: a = b) (s t : Bytes) :
    s ++ [chr '"'] ++ a ++ t = s ++ b ++ t := by
  rw [← h]
  simp only [List.append_assoc, List.cons_append, List.nil_append]

/-- **Canonicalisation is complete or an error**: the text when it fits below the destination's
size, and `AX_ERR_BUFFER` otherwise; no inner buffer is ever too small. -/
theorem axObsCanonicalise_eq (dstSize : Nat) (obs : AxObsRecord) (includeHash : Bool) :
    axObsCanonicalise dstSize obs includeHash =
      if (obsText obs includeHash).length ≤ sizePred dstSize then .ok (obsText obs includeHash)
      else .error .buffer := by
  have hopen : [chr '{'] ++ ascii "\"completion_state\":" = ascii "\x7b\"completion_state\":" := by
    decide
  have q1 : chr '"' :: ascii ",\"ledger_seq\":" = ascii "\",\"ledger_seq\":" := by decide
  have q2 : chr '"' :: ascii ",\"obs_hash\":\"" = ascii "\",\"obs_hash\":\"" := by decide
  have q3 : chr '"' :: ascii ",\"oracle_id\":\"" = ascii "\",\"oracle_id\":\"" := by decide
  have q4 : chr '"' :: ascii ",\"output\":\"" = ascii "\",\"output\":\"" := by decide
  have q5 : chr '"' :: ascii ",\"output_size\":" = ascii "\",\"output_size\":" := by decide
  have q6 (s : Bytes) : s ++ [chr '"'] ++ [chr '}'] = s ++ ascii "\"\x7d" := by
    rw [List.append_assoc]; rfl
  simp only [axObsCanonicalise, axFormatHashHex_eq, axFormatUint64_eq, axParamsCanonicalise_fits,
    writeCompletionState, writeFailureType, writeOptEscaped_eq, writeOptStr_eq, writeChar_eq, bind,
    Except.bind]
  simp only [writeObsHash_eq]
  simp only [writeStr_writeStr]
  rw [writeFinish_writeStr, hopen, quote_append q1, quote_append q2, quote_append q3,
    quote_append q4, quote_append q5, q6]
  unfold obsText
  rfl

theorem axObsCanonicalise_ok_iff {dstSize : Nat} {obs : AxObsRecord} {includeHash : Bool}
    {text : Bytes} : axObsCanonicalise dstSize obs includeHash = .ok text ↔
      text = obsText obs includeHash ∧ (obsText obs includeHash).length ≤ sizePred dstSize := by
  rw [axObsCanonicalise_eq]
  split
  · next h => exact ⟨fun e => ⟨(Except.ok.inj e).symm, h⟩, fun e => by rw [e.1]⟩
  · next h => exact ⟨fun e => (nomatch e), fun e => absurd e.2 h⟩

theorem completionStateText_length_le (s : AxCompletionState) :
    (completionStateText s).length ≤ 11 := by
  cases s <;> simp only [completionStateText] <;> decide

theorem failureTypeText_length_le (t : AxFailureType) : (failureTypeText t).length ≤ 17 := by
  cases t <;> simp only [failureTypeText] <;> decide

/-- The keys, the punctuation and the fields of bounded width take at most 426 bytes; the strings
come on top. -/
theorem obsText_length_le (obs : AxObsRecord) :
    (obsText obs true).length ≤ 426 + (optEscaped obs.modelId).length + obs.obsHash.bytes.length +
      (optEscaped obs.oracleId).length + (optEscaped obs.output).length +
      (obs.schemaVersion.elim [] CStr.bytes).length := by
  have h1 := completionStateText_length_le obs.completionState
  have h2 := failureTypeText_length_le obs.failureType
  have h3 : (hexOf obs.inputHash.bytes).length = 64 := by
    rw [hexOf_length, obs.inputHash.size]
    rfl
  have h4 := decimal_length_le_20 obs.ledgerSeq.toNat_lt
  have h5 := decimal_length_le_20 obs.outputSize.toNat_lt
  have h6 := paramsJson_length_le obs.params
  have hkeys : (ascii "\x7b\"completion_state\":").length = 20 ∧
      (ascii ",\"failure_type\":").length = 16 ∧ (ascii ",\"input_hash\":\"").length = 15 ∧
      (ascii "\",\"ledger_seq\":").length = 15 ∧ (ascii ",\"model_id\":\"").length = 13 ∧
      (ascii "\",\"obs_hash\":\"").length = 14 ∧ (ascii "\",\"oracle_id\":\"").length = 15 ∧
      (ascii "\",\"output\":\"").length = 12 ∧ (ascii "\",\"output_size\":").length = 16 ∧
      (ascii ",\"params\":").length = 10 ∧ (ascii ",\"schema_version\":\"").length = 19 ∧
      (ascii "\"\x7d").length = 2 := by decide
  unfold obsText
  simp only [List.length_append, if_true]
  omega

theorem optEscaped_output_length_le (obs : AxObsRecord) :
    (optEscaped obs.output).length ≤ (obsText obs false).length := by
  unfold obsText
  simp only [List.length_append]
  omega

/-- With a byte for the NUL, `size - 1` does not wrap. -/
theorem le_sizePred_iff {n dstSize : Nat} (hd : 1 ≤ dstSize) :
    n ≤ sizePred dstSize ↔ n < dstSize := by
  rw [sizePred, if_neg (by omega)]
  omega

/-- `ax_string_escape` writes the whole escaped text, or reports that it does not fit. -/
theorem axStringEscape_eq {dstSize : Nat} (hd : 1 ≤ dstSize) (src : Bytes) :
    axStringEscape dstSize src =
      if (Json.escape src).length < dstSize then .ok (Json.escape src) else .error .buffer := by
  simp only [axStringEscape, writeEscaped_eq, writeFinish_writeStr, le_sizePred_iff hd]

/-- **Canonicalisation is complete or an error, never shortened.** The whole text when it and its
NUL fit, `AX_ERR_BUFFER` otherwise: for records, for params and for an escaped string. The buffers
inside (24 bytes for a number, 65 for a hash, 256 for the params) hold every value. -/
theorem canonicalise_complete_or_error (dstSize : Nat) (hd : 1 ≤ dstSize) :
    (∀ obs includeHash, axObsCanonicalise dstSize obs includeHash =
      if (obsText obs includeHash).length < dstSize then .ok (obsText obs includeHash)
      else .error .buffer) ∧
    (∀ params, axParamsCanonicalise dstSize params =
      if (paramsJson params).render.length < dstSize then .ok (paramsJson params).render
      else .error .buffer) ∧
    (∀ src, axStringEscape dstSize src =
      if (Json.escape src).length < dstSize then .ok (Json.escape src) else .error .buffer) ∧
    (∀ value, axFormatInt64 24 value = .ok (Json.numeral value.toInt)) ∧
    (∀ value, axFormatUint64 24 value = .ok (decimal value.toNat)) ∧
    (∀ value, axFormatQ16 24 value = .ok (Json.numeral value.toInt)) ∧
    (∀ hash : Digest, axFormatHashHex axHashHexSize hash.bytes = .ok (hexOf hash.bytes)) ∧
    ∀ params, axParamsCanonicalise axParamsBufferSize params = .ok (paramsJson params).render := by
  refine ⟨fun obs includeHash => ?_, fun params => ?_, axStringEscape_eq hd, axFormatInt64_eq,
    axFormatUint64_eq, axFormatQ16_eq, axFormatHashHex_eq, axParamsCanonicalise_fits⟩
  · simp only [axObsCanonicalise_eq, le_sizePred_iff hd]
  · simp only [axParamsCanonicalise_eq, le_sizePred_iff hd]

/-- A quote needs two bytes and the NUL a third. -/
theorem canonicalise_complete_or_error_sample :
    axStringEscape 2 [chr '"'] = .error .buffer ∧
      axStringEscape 3 [chr '"'] = .ok [chr '\\', chr '"'] := by
  refine ⟨?_, ?_⟩
  · rw [(canonicalise_complete_or_error 2 (by decide)).2.2.1]
    decide
  · rw [(canonicalise_complete_or_error 3 (by decide)).2.2.1]
    decide

/-! ## The JSON value of a record -/

def completionStateJson : AxCompletionState → Json
  | .complete => .str (ascii "COMPLETE")
  | .truncated => .str (ascii "TRUNCATED")
  | .error => .str (ascii "ERROR")
  | .outside _ => .str (ascii "UNKNOWN")

def failureTypeJson : AxFailureType → Json
  | .null => .null
  | .timeout => .str (ascii "TIMEOUT")
  | .invalidOutput => .str (ascii "INVALID_OUTPUT")
  | .transportError => .str (ascii "TRANSPORT_ERROR")
  | .outside _ => .str (ascii "UNKNOWN")

/-- The bytes of a string field, none for a NULL pointer. -/
def optBytes (s : Option CStr) : Bytes := s.elim [] CStr.bytes

/-- The eleven members of `AX:OBS:v1`, in their documented order. -/
def obsJson (obs : AxObsRecord) (includeHash : Bool) : Json :=
  .obj [(ascii "completion_state", completionStateJson obs.completionState),
    (ascii "failure_type", failureTypeJson obs.failureType),
    (ascii "input_hash", .str (hexOf obs.inputHash.bytes)),
    (ascii "ledger_seq", .int obs.ledgerSeq.toNat),
    (ascii "model_id", .str (optBytes obs.modelId)),
    (ascii "obs_hash", .str (if includeHash then obs.obsHash.bytes else [])),
    (ascii "oracle_id", .str (optBytes obs.oracleId)),
    (ascii "output", .str (optBytes obs.output)),
    (ascii "output_size", .int obs.outputSize.toNat),
    (ascii "params", paramsJson obs.params),
    (ascii "schema_version", .str (optBytes obs.schemaVersion))]

theorem escape_hexOf (bs : Bytes) : Json.escape (hexOf bs) = hexOf bs := by
  refine Json.escape_of_clean fun b hb => ?_
  have := hexOf_range bs b hb
  refine ⟨?_, ?_, by omega⟩
  · rintro rfl
    exact absurd this.1 (by decide)
  · rintro rfl
    exact absurd rfl this.2.2

theorem optEscaped_eq (s : Option CStr) : optEscaped s = Json.escape (optBytes s) := by
  cases s <;> rfl

theorem completionStateText_eq (s : AxCompletionState) :
    completionStateText s = (completionStateJson s).render := by
  cases s <;> rfl

theorem failureTypeText_eq (t : AxFailureType) :
    failureTypeText t = (failureTypeJson t).render := by
  cases t <;> rfl

/-- **The text of a record is the compact JSON text of its value**, when the two fields that are
written unescaped need no escape. -/
theorem obsText_eq_render {obs : AxObsRecord} (includeHash : Bool)
    (hhash : Json.escape obs.obsHash.bytes = obs.obsHash.bytes)
    (hschema : Json.escape (optBytes obs.schemaVersion) = optBytes obs.schemaVersion) :
    obsText obs includeHash = (obsJson obs includeHash).render := by
  have hh : Json.escape (if includeHash then obs.obsHash.bytes else []) =
      if includeHash then obs.obsHash.bytes else [] := by
    cases includeHash
    · rfl
    · exact hhash
  have hnum : ∀ n : Nat, Json.numeral n = decimal n := fun _ => rfl
  have k1 : ascii "\x7b\"completion_state\":" =
      [123] ++ (Json.quote (ascii "completion_state") ++ [58]) := by decide
  have k2 : ascii ",\"failure_type\":" =
      [44] ++ (Json.quote (ascii "failure_type") ++ [58]) := by decide
  have k3 : ascii ",\"input_hash\":\"" =
      [44] ++ (Json.quote (ascii "input_hash") ++ [58, 34]) := by decide
  have k4 : ascii "\",\"ledger_seq\":" =
      [34, 44] ++ (Json.quote (ascii "ledger_seq") ++ [58]) := by decide
  have k5 : ascii ",\"model_id\":\"" =
      [44] ++ (Json.quote (ascii "model_id") ++ [58, 34]) := by decide
  have k6 : ascii "\",\"obs_hash\":\"" =
      [34, 44] ++ (Json.quote (ascii "obs_hash") ++ [58, 34]) := by decide
  have k7 : ascii "\",\"oracle_id\":\"" =
      [34, 44] ++ (Json.quote (ascii "oracle_id") ++ [58, 34]) := by decide
  have k8 : ascii "\",\"output\":\"" =
      [34, 44] ++ (Json.quote (ascii "output") ++ [58, 34]) := by decide
  have k9 : ascii "\",\"output_size\":" =
      [34, 44] ++ (Json.quote (ascii "output_size") ++ [58]) := by decide
  have k10 : ascii ",\"params\":" = [44] ++ (Json.quote (ascii "params") ++ [58]) := by decide
  have k11 : ascii ",\"schema_version\":\"" =
      [44] ++ (Json.quote (ascii "schema_version") ++ [58, 34]) := by decide
  have k12 : ascii "\"\x7d" = [34, 125] := by decide
  have hq : ∀ s : Bytes, Json.quote s = 34 :: (Json.escape s ++ [34]) := fun _ => rfl
  unfold obsText obsJson
  -- the literals are split by `simp`, which tells them apart without evaluating them
  simp only [k1, k2, k3, k4, k5, k6, k7, k8, k9, k10, k11, k12, Json.render, Json.renderMembers,
    if_true, hnum, optEscaped_eq, completionStateText_eq, failureTypeText_eq, hq, escape_hexOf, hh,
    hschema]
  rw [← optBytes]
  simp only [List.append_assoc, List.cons_append, List.nil_append]

end AxiomaOracle
