import AxiomaOracle.Lib.CLib
import AxiomaOracle.Lib.Stores
import AxiomaOracle.Oracle.Canonical
import AxiomaOracle.Oracle.Validate

/-!
# The writing routines, store by store

The routines of `canonical.c`, `validate.c` and `admission.c` that fill a buffer, once more, with
every store they make and with C's result. Nothing here keeps a store inside the buffer but the
tests the code makes. `Oracle.Canonical` and `Oracle.Validate` have the same routines as functions
from the arguments to the bytes.
-/

namespace AxiomaOracle

open Lib

/-- `AX_ERR_ENCODING` to `AX_ERR_PROTOCOL`. -/
def AxError.code : AxError → Int
  | .encoding => -1
  | .schema => -2
  | .ordering => -3
  | .size => -4
  | .hash => -5
  | .buffer => -6
  | .protocol => -7

/-- What a call does: its result, and its stores into the destination. -/
structure Filled where
  ret : Int
  dst : Stores

/-! ## The writer -/

/-- `write_ctx_t` with the stores made through it. -/
structure WriteCtxAt where
  size : Nat
  pos : Nat
  overflow : Bool
  dst : Stores

def writeInitAt (size : Nat) : WriteCtxAt := ⟨size, 0, false, []⟩

def writeCharAt (ctx : WriteCtxAt) (c : UInt8) : WriteCtxAt :=
  if ctx.pos < sizePred ctx.size then
    { ctx with pos := ctx.pos + 1, dst := ctx.dst ++ [(ctx.pos, c)] }
  else { ctx with overflow := true }

def writeStrAt (ctx : WriteCtxAt) (s : Bytes) : WriteCtxAt := s.foldl writeCharAt ctx

def writeFinishAt (ctx : WriteCtxAt) : Filled :=
  if ctx.overflow then ⟨AxError.buffer.code, ctx.dst⟩
  else ⟨C.intOfSize ctx.pos, ctx.dst ++ [(ctx.pos, 0)]⟩

/-! ## Number formatting -/

/-- A formatting call: its result, and its stores into `temp` and into `dst`. -/
structure Formatted where
  ret : Int
  temp : Stores
  dst : Stores

/-- The digit loop from index `i` on: its stores into `temp` and the index after them. A signed
overflow makes it `none`. -/
def digitStores (uval i : Nat) : Option (Stores × Nat) :=
  if uval = 0 then some ([], i)
  else do
    let c ← C.signed 32 (48 + (uval % 10 : Nat))
    let next ← C.signed 32 (i + 1)
    let (temp, last) ← digitStores (uval / 10) next.toNat
    some ((i, UInt8.ofNat c.toNat) :: temp, last)
termination_by uval

def scratchStores (uval : Nat) : Option (Stores × Nat) :=
  if uval = 0 then some ([(0, chr '0')], 1) else digitStores uval 0

/-- The loop that reverses `temp[0..i)` into the destination from index `d` on, and the NUL. A read
of a byte that was never stored makes it `none`. -/
def reverseStores (temp : Stores) : Nat → Nat → Option Stores
  | 0, d => some [(d, 0)]
  | i + 1, d => do
    let b ← temp.read i
    let dst ← reverseStores temp i (d + 1)
    some ((d, b) :: dst)

/-- `temp[i++] = '-'`. -/
def signStores (temp : Stores) (i : Nat) : Option (Stores × Nat) := do
  let next ← C.signed 32 (i + 1)
  some (temp ++ [(i, chr '-')], next.toNat)

/-- The end of both formatting functions: `i` bytes are in `temp`. -/
def formatFinish (dstSize : Nat) (temp : Stores) (i : Nat) : Option Formatted :=
  if i ≥ dstSize then some ⟨AxError.buffer.code, temp, []⟩
  else do
    let dst ← reverseStores temp i 0
    some ⟨i, temp, dst⟩

def axFormatInt64At (dstSize : Nat) (value : Int64) : Option Formatted :=
  if value.toInt < 0 then do
    let v ← C.signed 64 (value.toInt + 1)
    let v ← C.signed 64 (-v)
    let (temp, i) ← scratchStores ((v.toNat + 1) % sizeMod)
    let (temp, i) ← signStores temp i
    formatFinish dstSize temp i
  else do
    let (temp, i) ← scratchStores value.toInt.toNat
    formatFinish dstSize temp i

def axFormatUint64At (dstSize : Nat) (value : UInt64) : Option Formatted := do
  let (temp, i) ← scratchStores value.toNat
  formatFinish dstSize temp i

/-- The loop of `ax_format_hash_hex` from byte `i` of the hash on. Indices are `size_t`. -/
def hexStores : Nat → Bytes → Stores
  | _, [] => []
  | i, b :: hash =>
    (i * 2 % sizeMod, hexDigit (b.toNat / 16)) ::
    ((i * 2 + 1) % sizeMod, hexDigit (b.toNat % 16)) ::
      hexStores (i + 1) hash

def axFormatHashHexAt (dstSize : Nat) (hash : Bytes) : Filled :=
  if dstSize < (hash.length * 2 + 1) % sizeMod then ⟨AxError.buffer.code, []⟩
  else ⟨C.intOfSize (hash.length * 2 % sizeMod),
    hexStores 0 hash ++ [(hash.length * 2 % sizeMod, 0)]⟩

/-! ## String escaping -/

def writeEscapedByteAt (ctx : WriteCtxAt) (c : UInt8) : WriteCtxAt :=
  if c = chr '"' then writeStrAt ctx (ascii "\\\"")
  else if c = chr '\\' then writeStrAt ctx (ascii "\\\\")
  else if c.toNat < 0x20 then
    writeStrAt ctx [chr '\\', chr 'u', chr '0', chr '0', hexDigit (c.toNat / 16),
      hexDigit (c.toNat % 16)]
  else writeCharAt ctx c

def writeEscapedAt (ctx : WriteCtxAt) (src : Bytes) : WriteCtxAt := src.foldl writeEscapedByteAt ctx

def axStringEscapeAt (dstSize : Nat) (src : Bytes) : Filled :=
  writeFinishAt (writeEscapedAt (writeInitAt dstSize) src)

/-! ## Params and records -/

def axParamsCanonicaliseAt (dstSize : Nat) (params : AxOracleParams) : Filled :=
  let numBuf := []
  let ctx := writeInitAt dstSize
  let ctx := writeCharAt ctx (chr '{')
  let ctx := writeStrAt ctx (ascii "\"max_tokens\":")
  let numBuf := if axParamsMaxTokensIsNull params then numBuf
    else formatInto numBuf (axFormatInt64 24 params.maxTokens.toInt64)
  let ctx := writeStrAt ctx (if axParamsMaxTokensIsNull params then ascii "null" else numBuf)
  let ctx := writeStrAt ctx (ascii ",\"seed\":")
  let numBuf := if axParamsSeedIsNull params then numBuf
    else formatInto numBuf (axFormatInt64 24 params.seed)
  let ctx := writeStrAt ctx (if axParamsSeedIsNull params then ascii "null" else numBuf)
  let ctx := writeStrAt ctx (ascii ",\"temperature\":")
  let numBuf := if axParamsTemperatureIsNull params then numBuf
    else formatInto numBuf (axFormatQ16 24 params.temperature)
  let ctx := writeStrAt ctx (if axParamsTemperatureIsNull params then ascii "null" else numBuf)
  let ctx := writeStrAt ctx (ascii ",\"top_p\":")
  let numBuf := if axParamsTopPIsNull params then numBuf
    else formatInto numBuf (axFormatQ16 24 params.topP)
  let ctx := writeStrAt ctx (if axParamsTopPIsNull params then ascii "null" else numBuf)
  let ctx := writeCharAt ctx (chr '}')
  writeFinishAt ctx

def writeOptEscapedAt (ctx : WriteCtxAt) (s : Option CStr) : WriteCtxAt :=
  match s with
  | some s => writeEscapedAt ctx s.bytes
  | none => ctx

def writeOptStrAt (ctx : WriteCtxAt) (s : Option CStr) : WriteCtxAt :=
  match s with
  | some s => writeStrAt ctx s.bytes
  | none => ctx

def axObsCanonicaliseAt (dstSize : Nat) (obs : AxObsRecord) (includeHash : Bool) : Filled :=
  let ctx := writeInitAt dstSize
  let ctx := writeCharAt ctx (chr '{')
  let ctx := writeStrAt ctx (ascii "\"completion_state\":")
  let ctx := writeStrAt ctx (completionStateText obs.completionState)
  let ctx := writeStrAt ctx (ascii ",\"failure_type\":")
  let ctx := writeStrAt ctx (failureTypeText obs.failureType)
  let ctx := writeStrAt ctx (ascii ",\"input_hash\":\"")
  match axFormatHashHex axHashHexSize obs.inputHash.bytes with
  | .error e => ⟨e.code, ctx.dst⟩
  | .ok hashHex =>
    let ctx := writeStrAt ctx hashHex
    let ctx := writeCharAt ctx (chr '"')
    let ctx := writeStrAt ctx (ascii ",\"ledger_seq\":")
    match axFormatUint64 24 obs.ledgerSeq with
    | .error e => ⟨e.code, ctx.dst⟩
    | .ok numBuf =>
      let ctx := writeStrAt ctx numBuf
      let ctx := writeStrAt ctx (ascii ",\"model_id\":\"")
      let ctx := writeOptEscapedAt ctx obs.modelId
      let ctx := writeCharAt ctx (chr '"')
      let ctx := writeStrAt ctx (ascii ",\"obs_hash\":\"")
      let ctx := if includeHash && obs.obsHash.bytes != [] then writeStrAt ctx obs.obsHash.bytes
        else ctx
      let ctx := writeCharAt ctx (chr '"')
      let ctx := writeStrAt ctx (ascii ",\"oracle_id\":\"")
      let ctx := writeOptEscapedAt ctx obs.oracleId
      let ctx := writeCharAt ctx (chr '"')
      let ctx := writeStrAt ctx (ascii ",\"output\":\"")
      let ctx := writeOptEscapedAt ctx obs.output
      let ctx := writeCharAt ctx (chr '"')
      let ctx := writeStrAt ctx (ascii ",\"output_size\":")
      match axFormatUint64 24 obs.outputSize with
      | .error e => ⟨e.code, ctx.dst⟩
      | .ok numBuf =>
        let ctx := writeStrAt ctx numBuf
        let ctx := writeStrAt ctx (ascii ",\"params\":")
        match axParamsCanonicalise axParamsBufferSize obs.params with
        | .error e => ⟨e.code, ctx.dst⟩
        | .ok paramsBuf =>
          let ctx := writeStrAt ctx paramsBuf
          let ctx := writeStrAt ctx (ascii ",\"schema_version\":\"")
          let ctx := writeOptStrAt ctx obs.schemaVersion
          let ctx := writeCharAt ctx (chr '"')
          let ctx := writeCharAt ctx (chr '}')
          writeFinishAt ctx

/-! ## Line endings -/

/-- The loop of `ax_normalise_line_endings` from output index `di` on: its stores and what is left
of the source. -/
def normaliseStores (room : Nat) : Nat → Bytes → Stores × Bytes
  | _, [] => ([], [])
  | di, c :: src =>
    if di < room then
      if c = chr '\r' then
        match src with
        | [] => ([(di, chr '\n')], [])
        | d :: src' =>
          if d = chr '\n' then
            let (w, rest) := normaliseStores room (di + 1) src'
            ((di, chr '\n') :: w, rest)
          else
            let (w, rest) := normaliseStores room (di + 1) (d :: src')
            ((di, chr '\n') :: w, rest)
      else
        let (w, rest) := normaliseStores room (di + 1) src
        ((di, c) :: w, rest)
    else ([], c :: src)

def axNormaliseLineEndingsAt (dstSize : Nat) (src : Bytes) : Filled :=
  match normaliseStores (sizePred dstSize) 0 src with
  -- every pass stores one byte, so `di` is the number of stores
  | (w, []) => ⟨C.intOfSize w.length, w ++ [(w.length, 0)]⟩
  | (w, _ :: _) => ⟨AxError.buffer.code, w⟩

/-! ## The derivation hash -/

/-- The size of `buf` in `ax_compute_derivation_hash`. -/
def derivationBufferSize : Nat := axHashHexSize + axMaxObsBytes

/-- `ax_compute_derivation_hash`: the stores into `buf`, and the digest of the bytes put there. -/
def axComputeDerivationHashAt (S : Substrate) (prevObs : AxObsRecord) (derivation : CBuf) :
    Stores × Digest :=
  let hash := prevObs.obsHash.bytes
  let first := Stores.run 0 hash
  if !derivation.isNull && derivation.len > 0 then
    (first ++ Stores.run hash.length derivation.bytes, S.axilogSha256 (hash ++ derivation.bytes))
  else (first, S.axilogSha256 hash)

end AxiomaOracle
