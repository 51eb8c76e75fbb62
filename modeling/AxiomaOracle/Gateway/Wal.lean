import AxiomaOracle.Gateway.World

/-!
# The write-ahead intent (`gw_wal.c`)

One file, whose existence is the open/closed bit: written before the oracle call, removed after the
observation is durable, parsed at start-up.
-/

namespace AxiomaOracle

open Lib

/-- `gw_intent_t`. `INT32_MIN` is null in the two q16 fields. -/
structure GwIntent where
  inputHashHex : CStr
  modelId : CStr
  maxTokens : Int32
  seed : Int64
  temperatureQ16 : Int32
  topPQ16 : Int32
  deriving DecidableEq

/-- The six lines of the file. -/
def intentText (i : GwIntent) : Bytes :=
  ascii "input_hash=" ++ i.inputHashHex.bytes ++ ascii "\nmodel_id=" ++ i.modelId.bytes ++
  ascii "\nmax_tokens=" ++ C.ld i.maxTokens.toInt ++ ascii "\nseed=" ++ C.ld i.seed.toInt ++
  ascii "\ntemperature_q16=" ++ C.ld i.temperatureQ16.toInt ++ ascii "\ntop_p_q16=" ++
  C.ld i.topPQ16.toInt ++ ascii "\n"

def fsyncParentDir (cfg : GwConfig) (r : Role) : Io Bool :=
  if (cfg.path r).length ≥ 512 then return false else sys (.fsyncDir r)

def closeWal : Io Bool := do
  sys (.close .wal)
  return false

/-- `gw_wal_write`: `true` for the return value 0. -/
def gwWalWrite (cfg : GwConfig) (i : GwIntent) : Io Bool := do
  if !(← sys (.openExcl .wal)) then return false
  match C.snprintf 768 (intentText i) with
  | none => closeWal
  | some buf => do
    if !(← sys (.write .wal buf)) then closeWal
    else do
      if !(← sys (.fsync .wal)) then closeWal
      else do
        sys (.close .wal)
        fsyncParentDir cfg .wal

def gwWalClear (cfg : GwConfig) : Io Bool := do
  if !(← sys (.unlink .wal)) then return false
  fsyncParentDir cfg .wal

/-! ## Recovery -/

/-- The value of the field, when the line is `key=value` and the value fits in `cap` bytes. -/
def parseField (line key : Bytes) (cap : Nat) : Option Bytes :=
  if (key ++ [chr '=']) <+: line then
    let v := line.drop (key.length + 1)
    if v.length = 0 ∨ v.length ≥ cap then none else some v
  else none

/-- The intent being parsed, with the two bits of `have`. -/
structure IntentParse where
  intent : GwIntent
  haveHash : Bool
  haveModel : Bool

def intentParseInit : IntentParse :=
  ⟨⟨.ofBytes [], .ofBytes [], -1, -1, Int32.minValue, Int32.minValue⟩, false, false⟩

/-- One pass of the `fgets` loop. -/
def parseIntentLine (p : IntentParse) (raw : Bytes) : IntentParse :=
  let line := C.chomp (CStr.ofBytes raw).bytes
  match parseField line (ascii "input_hash") 65 with
  | some v => { p with intent := { p.intent with inputHashHex := .ofBytes v }, haveHash := true }
  | none => match parseField line (ascii "model_id") 256 with
  | some v => { p with intent := { p.intent with modelId := .ofBytes v }, haveModel := true }
  | none => match parseField line (ascii "max_tokens") 64 with
  | some v => { p with intent := { p.intent with maxTokens := .ofInt (C.strtolValue v) } }
  | none => match parseField line (ascii "seed") 64 with
  | some v => { p with intent := { p.intent with seed := .ofInt (C.strtolValue v) } }
  | none => match parseField line (ascii "temperature_q16") 64 with
  | some v => { p with intent := { p.intent with temperatureQ16 := .ofInt (C.strtolValue v) } }
  | none => match parseField line (ascii "top_p_q16") 64 with
  | some v => { p with intent := { p.intent with topPQ16 := .ofInt (C.strtolValue v) } }
  | none => p

/-- What `gw_wal_recover` returns: 0, -1, or 1 with the intent. -/
inductive WalRecover where
  | none
  | corrupt
  | intent (i : GwIntent)
  deriving DecidableEq

/-- The parse of the file's bytes. -/
def parseIntent (file : Bytes) : WalRecover :=
  let p := (C.fgetsAll 600 file.length file).foldl parseIntentLine intentParseInit
  if !(p.haveHash && p.haveModel) || p.intent.inputHashHex.bytes.length ≠ 64 then .corrupt
  else .intent p.intent

def gwWalRecover : Io WalRecover := do
  match ← sys (.slurp .wal) with
  | none => return .none
  | some file => return parseIntent file

end AxiomaOracle
