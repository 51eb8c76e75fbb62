import AxiomaOracle.Lib.CLib
import AxiomaOracle.Oracle.Obs

/-!
# Gateway configuration (`gw_config.c`)

The key=value loader: its line loop, its value checks and its final check. A failed load carries
what the message on stderr names: the line, the key, and the bound or the byte.
-/

namespace AxiomaOracle

open Lib

def gwPathMax : Nat := 512
def gwIdMax : Nat := 256
def gwConfigMax : Nat := 8192
def anthropicVersionMax : Nat := 64

/-- `gw_config_t`. -/
structure GwConfig where
  socketPath : CStr
  ledgerPath : CStr
  walPath : CStr
  logPath : CStr
  apiUrl : CStr
  anthropicVersion : CStr
  modelId : CStr
  oracleId : CStr
  connectTimeoutS : Int
  responseTimeoutS : Int
  maxAttempts : Int
  maxResponseBytes : Int
  callBudget : Int
  defaultMaxTokens : Int
  maxPromptBytes : Int
  fixtureCapturePath : CStr
  exportPath : CStr
  raw : Bytes
  deriving DecidableEq

/-- The messages of `gw_config_load`. -/
inductive ConfigError where
  | tooLarge
  | nulByte
  | missingEq (line : Nat)
  | idTooLong (line : Nat) (key : Bytes) (max : Nat)
  | idMalformed (line : Nat) (key : Bytes)
  | headerControl (line : Nat) (key : Bytes) (byte : UInt8)
  | badValue (line : Nat) (key : Bytes)
  | unknownKey (line : Nat) (key : Bytes)
  | required
  deriving DecidableEq

/-! ## Value checks -/

def setStr (cap : Nat) (v : Bytes) : Option CStr :=
  if v.length = 0 ∨ v.length ≥ cap then none else some (.ofBytes v)

def setId (cap axMax : Nat) (key v : Bytes) (lineno : Nat) : Except ConfigError CStr :=
  match axObsIdentifierCheck (some (.ofBytes v)) axMax with
  | .error .size => .error (.idTooLong lineno key axMax)
  | .error _ => .error (.idMalformed lineno key)
  | .ok () =>
    if v.length ≥ cap then .error (.idTooLong lineno key (cap - 1))
    else match setStr cap v with
      | some s => .ok s
      | none => .error (.badValue lineno key)

def setHeaderValue (cap : Nat) (key v : Bytes) (lineno : Nat) : Except ConfigError CStr :=
  match v.find? fun c => c.toNat < 0x20 || c == 0x7F with
  | some c => .error (.headerControl lineno key c)
  | none =>
    match setStr cap v with
    | some s => .ok s
    | none => .error (.badValue lineno key)

def setLong (v : Bytes) (lo hi : Int) : Option Int :=
  match C.strtol v with
  | none => none
  | some (x, rest) => if rest ≠ [] ∨ x < lo ∨ x > hi then none else some x

/-! ## The loader -/

def gwConfigDefaults (raw : Bytes) : GwConfig where
  socketPath := .ofBytes []
  ledgerPath := .ofBytes []
  walPath := .ofBytes []
  logPath := .ofBytes []
  apiUrl := .ofBytes (ascii "https://api.anthropic.com/v1/messages")
  anthropicVersion := .ofBytes (ascii "2023-06-01")
  modelId := .ofBytes []
  oracleId := .ofBytes (ascii "anthropic-messages-api")
  connectTimeoutS := 10
  responseTimeoutS := 300
  maxAttempts := 3
  maxResponseBytes := 4 * 1024 * 1024
  callBudget := 25
  defaultMaxTokens := 1024
  maxPromptBytes := 32768
  fixtureCapturePath := .ofBytes []
  exportPath := .ofBytes []
  raw := raw

/-- The chain of key comparisons. -/
def setKey (cfg : GwConfig) (lineno : Nat) (key val : Bytes) : Except ConfigError GwConfig :=
  let bad {α : Type} (r : Option α) : Except ConfigError α :=
    match r with
    | some x => .ok x
    | none => .error (.badValue lineno key)
  let str := bad (setStr gwPathMax val)
  let long (lo hi : Int) := bad (setLong val lo hi)
  if key = ascii "socket_path" then do return { cfg with socketPath := ← str }
  else if key = ascii "ledger_path" then do return { cfg with ledgerPath := ← str }
  else if key = ascii "wal_path" then do return { cfg with walPath := ← str }
  else if key = ascii "log_path" then do return { cfg with logPath := ← str }
  else if key = ascii "api_url" then do return { cfg with apiUrl := ← str }
  else if key = ascii "anthropic_version" then do
    return { cfg with anthropicVersion := ← setHeaderValue anthropicVersionMax key val lineno }
  else if key = ascii "model_id" then do
    return { cfg with modelId := ← setId gwIdMax axMaxModelIdBytes key val lineno }
  else if key = ascii "oracle_id" then do
    return { cfg with oracleId := ← setId gwIdMax axMaxOracleIdBytes key val lineno }
  else if key = ascii "fixture_capture_path" then do
    return { cfg with fixtureCapturePath := ← str }
  else if key = ascii "export_path" then do return { cfg with exportPath := ← str }
  else if key = ascii "connect_timeout_s" then do
    return { cfg with connectTimeoutS := ← long 1 600 }
  else if key = ascii "response_timeout_s" then do
    return { cfg with responseTimeoutS := ← long 1 3600 }
  else if key = ascii "max_attempts" then do return { cfg with maxAttempts := ← long 1 10 }
  else if key = ascii "max_response_bytes" then do
    return { cfg with maxResponseBytes := ← long 1024 (64 * 1024 * 1024) }
  else if key = ascii "call_budget" then do return { cfg with callBudget := ← long 0 1000000 }
  else if key = ascii "default_max_tokens" then do
    return { cfg with defaultMaxTokens := ← long 1 200000 }
  else if key = ascii "max_prompt_bytes" then do
    return { cfg with maxPromptBytes := ← long 1 (1024 * 1024) }
  else .error (.unknownKey lineno key)

def isBlank (b : UInt8) : Bool := b == chr ' ' || b == chr '\t'

/-- One result of `fgets`: stripped, split at the first `=`, trimmed. -/
def configLine (cfg : GwConfig) (lineno : Nat) (line : Bytes) : Except ConfigError GwConfig :=
  let key := (C.chomp line).dropWhile isBlank
  if key = [] ∨ key.head? = some (chr '#') then .ok cfg
  else if chr '=' ∉ key then .error (.missingEq lineno)
  else
    let val := ((key.dropWhile (· != chr '=')).drop 1).dropWhile isBlank
    let key := ((key.takeWhile (· != chr '=')).reverse.dropWhile isBlank).reverse
    setKey cfg lineno key val

def configLines (cfg : GwConfig) (lineno : Nat) : List Bytes → Except ConfigError GwConfig
  | [] => .ok cfg
  | line :: lines => do
    let cfg ← configLine cfg (lineno + 1) line
    configLines cfg (lineno + 1) lines

/-- `gw_config_load` on the bytes of the file. -/
def gwConfigLoad (file : Bytes) : Except ConfigError GwConfig :=
  if file.length > gwConfigMax then .error .tooLarge
  else if (0 : UInt8) ∈ file then .error .nulByte
  else do
    let cfg ← configLines (gwConfigDefaults file) 0 (C.fgetsAll 1024 file.length file)
    if cfg.socketPath.bytes = [] ∨ cfg.ledgerPath.bytes = [] ∨ cfg.walPath.bytes = [] ∨
        cfg.logPath.bytes = [] ∨ cfg.modelId.bytes = [] then .error .required
    else return cfg

end AxiomaOracle
