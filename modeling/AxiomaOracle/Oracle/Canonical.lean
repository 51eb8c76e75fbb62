import AxiomaOracle.Oracle.Types

/-!
# Canonicalisation (`canonical.c`)

The bounded writer, number and hash formatting, string escaping, and the two canonical objects.
A function that fills a caller's buffer returns the bytes before the terminating NUL; their number
is the C return value. Sizes are `size_t`: `size - 1` wraps at zero, as `write_char` computes it.
-/

namespace AxiomaOracle

open Lib

/-! ## The writer -/

/-- `write_ctx_t`. `rev` is `buf[0..pos)`, last byte first. -/
structure WriteCtx where
  rev : Bytes
  size : Nat
  pos : Nat
  overflow : Bool

/-- `size - 1` on `size_t`. -/
def sizePred (size : Nat) : Nat := if size = 0 then sizeMod - 1 else size - 1

def writeInit (size : Nat) : WriteCtx := ⟨[], size, 0, false⟩

def writeChar (ctx : WriteCtx) (c : UInt8) : WriteCtx :=
  if ctx.pos < sizePred ctx.size then { ctx with rev := c :: ctx.rev, pos := ctx.pos + 1 }
  else { ctx with overflow := true }

def writeStr (ctx : WriteCtx) (s : Bytes) : WriteCtx := s.foldl writeChar ctx

def writeFinish (ctx : WriteCtx) : Except AxError Bytes :=
  if ctx.overflow then .error .buffer else .ok ctx.rev.reverse

/-! ## Number formatting -/

/-- The digits of `uval` into the scratch array, least significant first. -/
def scratchDigits (uval : Nat) : Bytes := if uval = 0 then [chr '0'] else decRev uval uval

def axFormatInt64 (dstSize : Nat) (value : Int64) : Except AxError Bytes :=
  let v := value.toInt
  let neg := v < 0
  -- the magnitude of a negative value, computed without negating INT64_MIN
  let uval := if neg then (-(v + 1)).toNat + 1 else v.toNat
  let temp := scratchDigits uval ++ if neg then [chr '-'] else []
  if temp.length ≥ dstSize then .error .buffer else .ok temp.reverse

def axFormatUint64 (dstSize : Nat) (value : UInt64) : Except AxError Bytes :=
  let temp := scratchDigits value.toNat
  if temp.length ≥ dstSize then .error .buffer else .ok temp.reverse

def axFormatQ16 (dstSize : Nat) (value : Int32) : Except AxError Bytes :=
  axFormatInt64 dstSize value.toInt64

def axFormatHashHex (dstSize : Nat) (hash : Bytes) : Except AxError Bytes :=
  if dstSize < hash.length * 2 + 1 then .error .buffer else .ok (hexOf hash)

/-! ## String escaping -/

def writeEscapedByte (ctx : WriteCtx) (c : UInt8) : WriteCtx :=
  if c = chr '"' then writeStr ctx (ascii "\\\"")
  else if c = chr '\\' then writeStr ctx (ascii "\\\\")
  else if c.toNat < 0x20 then
    writeStr ctx [chr '\\', chr 'u', chr '0', chr '0', hexDigit (c.toNat / 16),
      hexDigit (c.toNat % 16)]
  else writeChar ctx c

def writeEscaped (ctx : WriteCtx) (src : Bytes) : WriteCtx := src.foldl writeEscapedByte ctx

def axStringEscape (dstSize : Nat) (src : Bytes) : Except AxError Bytes :=
  writeFinish (writeEscaped (writeInit dstSize) src)

/-! ## Params -/

/-- The scratch buffer for numbers after a formatting call whose result is not checked: a call that
fails leaves what was there. -/
def formatInto (numBuf : Bytes) (r : Except AxError Bytes) : Bytes :=
  match r with
  | .ok s => s
  | .error _ => numBuf

def axParamsCanonicalise (dstSize : Nat) (params : AxOracleParams) : Except AxError Bytes :=
  let numBuf := []
  let ctx := writeInit dstSize
  let ctx := writeChar ctx (chr '{')
  let ctx := writeStr ctx (ascii "\"max_tokens\":")
  let numBuf := if axParamsMaxTokensIsNull params then numBuf
    else formatInto numBuf (axFormatInt64 24 params.maxTokens.toInt64)
  let ctx := writeStr ctx (if axParamsMaxTokensIsNull params then ascii "null" else numBuf)
  let ctx := writeStr ctx (ascii ",\"seed\":")
  let numBuf := if axParamsSeedIsNull params then numBuf
    else formatInto numBuf (axFormatInt64 24 params.seed)
  let ctx := writeStr ctx (if axParamsSeedIsNull params then ascii "null" else numBuf)
  let ctx := writeStr ctx (ascii ",\"temperature\":")
  let numBuf := if axParamsTemperatureIsNull params then numBuf
    else formatInto numBuf (axFormatQ16 24 params.temperature)
  let ctx := writeStr ctx (if axParamsTemperatureIsNull params then ascii "null" else numBuf)
  let ctx := writeStr ctx (ascii ",\"top_p\":")
  let numBuf := if axParamsTopPIsNull params then numBuf
    else formatInto numBuf (axFormatQ16 24 params.topP)
  let ctx := writeStr ctx (if axParamsTopPIsNull params then ascii "null" else numBuf)
  let ctx := writeChar ctx (chr '}')
  writeFinish ctx

/-! ## Records -/

def completionStateText : AxCompletionState → Bytes
  | .complete => ascii "\"COMPLETE\""
  | .truncated => ascii "\"TRUNCATED\""
  | .error => ascii "\"ERROR\""
  | .outside _ => ascii "\"UNKNOWN\""

def writeCompletionState (ctx : WriteCtx) (state : AxCompletionState) : WriteCtx :=
  writeStr ctx (completionStateText state)

def failureTypeText : AxFailureType → Bytes
  | .null => ascii "null"
  | .timeout => ascii "\"TIMEOUT\""
  | .invalidOutput => ascii "\"INVALID_OUTPUT\""
  | .transportError => ascii "\"TRANSPORT_ERROR\""
  | .outside _ => ascii "\"UNKNOWN\""

def writeFailureType (ctx : WriteCtx) (ftype : AxFailureType) : WriteCtx :=
  writeStr ctx (failureTypeText ftype)

/-- An escaped string field, empty for a NULL pointer. -/
def writeOptEscaped (ctx : WriteCtx) (s : Option CStr) : WriteCtx :=
  match s with
  | some s => writeEscaped ctx s.bytes
  | none => ctx

/-- A string field written as it is, empty for a NULL pointer. -/
def writeOptStr (ctx : WriteCtx) (s : Option CStr) : WriteCtx :=
  match s with
  | some s => writeStr ctx s.bytes
  | none => ctx

def axObsCanonicalise (dstSize : Nat) (obs : AxObsRecord) (includeHash : Bool) :
    Except AxError Bytes := do
  let ctx := writeInit dstSize
  let ctx := writeChar ctx (chr '{')
  let ctx := writeStr ctx (ascii "\"completion_state\":")
  let ctx := writeCompletionState ctx obs.completionState
  let ctx := writeStr ctx (ascii ",\"failure_type\":")
  let ctx := writeFailureType ctx obs.failureType
  let ctx := writeStr ctx (ascii ",\"input_hash\":\"")
  let hashHex ← axFormatHashHex axHashHexSize obs.inputHash.bytes
  let ctx := writeStr ctx hashHex
  let ctx := writeChar ctx (chr '"')
  let ctx := writeStr ctx (ascii ",\"ledger_seq\":")
  let numBuf ← axFormatUint64 24 obs.ledgerSeq
  let ctx := writeStr ctx numBuf
  let ctx := writeStr ctx (ascii ",\"model_id\":\"")
  let ctx := writeOptEscaped ctx obs.modelId
  let ctx := writeChar ctx (chr '"')
  let ctx := writeStr ctx (ascii ",\"obs_hash\":\"")
  let ctx := if includeHash && obs.obsHash.bytes != [] then writeStr ctx obs.obsHash.bytes else ctx
  let ctx := writeChar ctx (chr '"')
  let ctx := writeStr ctx (ascii ",\"oracle_id\":\"")
  let ctx := writeOptEscaped ctx obs.oracleId
  let ctx := writeChar ctx (chr '"')
  let ctx := writeStr ctx (ascii ",\"output\":\"")
  let ctx := writeOptEscaped ctx obs.output
  let ctx := writeChar ctx (chr '"')
  let ctx := writeStr ctx (ascii ",\"output_size\":")
  let numBuf ← axFormatUint64 24 obs.outputSize
  let ctx := writeStr ctx numBuf
  let ctx := writeStr ctx (ascii ",\"params\":")
  let paramsBuf ← axParamsCanonicalise axParamsBufferSize obs.params
  let ctx := writeStr ctx paramsBuf
  let ctx := writeStr ctx (ascii ",\"schema_version\":\"")
  let ctx := writeOptStr ctx obs.schemaVersion
  let ctx := writeChar ctx (chr '"')
  let ctx := writeChar ctx (chr '}')
  writeFinish ctx

end AxiomaOracle
