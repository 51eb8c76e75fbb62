import AxiomaOracle.Lib.Bytes

/-!
# The oracle boundary: types and limits

The data of `include/axilog/{limits,l3_types,oracle,obs}.h`: size limits, return codes, fault flags,
sampling parameters, the `AX:OBS:v1` record and the admission input and context.

`Substrate` collects what the code calls in libaxilog and axioma-audit: the plain digest, the two
commitments (each of which may raise a fault) and the ledger context. They are parameters: every
result holds for any functions in their place.
-/

namespace AxiomaOracle

open Lib

/-! ## Limits (`limits.h`) -/

def axMaxObsBytes : Nat := 65536
def axMaxOutputBytes : Nat := axMaxObsBytes - 1024
def axMaxModelIdBytes : Nat := 256
def axMaxOracleIdBytes : Nat := 256
def axHashSize : Nat := 32
def axHashHexSize : Nat := 65
def axCanonicalBufferSize : Nat := axMaxObsBytes * 2
def axParamsBufferSize : Nat := 256

/-- The number of values of `size_t` and `uint64_t`. -/
def sizeMod : Nat := 2 ^ 64

/-! ## Return codes and faults (`l3_types.h`) -/

/-- The negative return codes; `AX_OK` is the absence of one. -/
inductive AxError where
  | encoding | schema | ordering | size | hash | buffer | protocol
  deriving DecidableEq, Repr

/-- `ax_l3_fault_flags_t`. `base` is the substrate's own set, `true` when any of its flags is. -/
structure AxL3FaultFlags where
  base : Bool := false
  precision : Bool := false
  encoding : Bool := false
  schema : Bool := false
  ordering : Bool := false
  size : Bool := false
  protocol : Bool := false
  deriving DecidableEq, Repr

/-! ## Digests and the substrate -/

/-- A SHA-256 value. -/
structure Digest where
  bytes : Bytes
  size : bytes.length = axHashSize
  deriving DecidableEq

/-- 32 zero bytes. -/
def Digest.zero : Digest := ⟨List.replicate axHashSize 0, by simp⟩

/-- What libaxilog and axioma-audit provide. A commitment or a ledger operation that raises a fault
returns `none`; a faulting append leaves the context as it was. -/
structure Substrate where
  axilogSha256 : Bytes → Digest
  axilogCommit : CStr → Bytes → Option Digest
  axCommitEvidence : CStr → Bytes → Option Digest
  LedgerCtx : Type
  axLedgerGenesis : Option LedgerCtx
  axLedgerAppend : LedgerCtx → Digest → Option LedgerCtx
  sequence : LedgerCtx → UInt64
  currentHash : LedgerCtx → Digest

/-- A checksum in the place of SHA-256, for evaluating the model. -/
def checksum (bs : Bytes) : Digest :=
  ⟨leEncode axHashSize (bs.foldl (fun acc b => (acc * 257 + b.toNat + 1) % 2 ^ 256) 0), by simp⟩

/-- A substrate that never faults. -/
def sampleSubstrate : Substrate where
  axilogSha256 := checksum
  axilogCommit tag data := some (checksum (tag.bytes ++ 0 :: data))
  axCommitEvidence tag data := some (checksum (tag.bytes ++ 1 :: data))
  LedgerCtx := UInt64 × Digest
  axLedgerGenesis := some (0, checksum [])
  axLedgerAppend ctx commit := some (ctx.1 + 1, checksum (ctx.2.bytes ++ commit.bytes))
  sequence := Prod.fst
  currentHash := Prod.snd

/-! ## Oracle types (`oracle.h`) -/

theorem nulFree_axObs : (0 : UInt8) ∉ ascii "AX:OBS:v1" := by decide

def axObsSchemaVersion : CStr := ⟨ascii "AX:OBS:v1", nulFree_axObs⟩

/-- `ax_completion_state_t`. The object is a C enum, so it can hold values outside the list. -/
inductive AxCompletionState where
  | complete | truncated | error
  | outside (value : Nat)
  deriving DecidableEq, Repr

/-- `ax_failure_type_t`. -/
inductive AxFailureType where
  | null | timeout | invalidOutput | transportError
  | outside (value : Nat)
  deriving DecidableEq, Repr

def axParamsNullInt32 : Int32 := -1
def axParamsNullInt64 : Int64 := -1
def axParamsNullQ16 : Int32 := Int32.minValue

structure AxOracleParams where
  maxTokens : Int32
  seed : Int64
  temperature : Int32
  topP : Int32
  deriving DecidableEq

def axOracleParamsInitNull : AxOracleParams where
  maxTokens := axParamsNullInt32
  seed := axParamsNullInt64
  temperature := axParamsNullQ16
  topP := axParamsNullQ16

def axParamsMaxTokensIsNull (p : AxOracleParams) : Bool := p.maxTokens == axParamsNullInt32
def axParamsSeedIsNull (p : AxOracleParams) : Bool := p.seed == axParamsNullInt64
def axParamsTemperatureIsNull (p : AxOracleParams) : Bool := p.temperature == axParamsNullQ16
def axParamsTopPIsNull (p : AxOracleParams) : Bool := p.topP == axParamsNullQ16

/-! ## Records (`obs.h`) -/

/-- `ax_obs_record_t`. A pointer is `none` when it is NULL. -/
structure AxObsRecord where
  completionState : AxCompletionState
  failureType : AxFailureType
  inputHash : Digest
  ledgerSeq : UInt64
  modelId : Option CStr
  obsHash : CStr
  oracleId : Option CStr
  output : Option CStr
  outputSize : UInt64
  params : AxOracleParams
  schemaVersion : Option CStr
  deriving DecidableEq

/-- A pointer with a `size_t` length: NULL with any length, or that many readable bytes. -/
inductive CBuf where
  | null (len : UInt64)
  | mem (bytes : Bytes) (fits : bytes.length < sizeMod)
  deriving DecidableEq

namespace CBuf

def len : CBuf → Nat
  | .null n => n.toNat
  | .mem bs _ => bs.length

def isNull : CBuf → Bool
  | .null _ => true
  | .mem _ _ => false

def bytes : CBuf → Bytes
  | .null _ => []
  | .mem bs _ => bs

theorem len_lt (b : CBuf) : b.len < sizeMod := by
  cases b with
  | null n => exact n.toNat_lt
  | mem bs h => exact h

end CBuf

/-- `ax_obs_input_t`. -/
structure AxObsInput where
  completionState : AxCompletionState
  failureType : AxFailureType
  input : CBuf
  ledgerSeq : UInt64
  modelId : Option CStr
  oracleId : Option CStr
  output : CBuf
  params : AxOracleParams

/-- `ax_admission_ctx_t`. -/
structure AxAdmissionCtx where
  lastLedgerSeq : UInt64
  initialized : Bool
  deriving DecidableEq, Repr

def axAdmissionCtxInit : AxAdmissionCtx := ⟨0, false⟩

end AxiomaOracle
