import AxiomaOracle.Gateway.Json
import AxiomaOracle.Gateway.World

/-!
# The operator log (`gw_log.c`)

One JSON line an event, with the API key scrubbed from the message.
-/

namespace AxiomaOracle

open Lib

/-- `g_secret[0..g_secret_len)`: a key of 256 bytes or more is not kept. -/
def logSecret (apiKey : Bytes) : Bytes := if apiKey.length < 256 then apiKey else []

/-- The loop of `put_escaped`; the first argument bounds the number of passes. -/
def putEscapedLoop (secret : Bytes) : Nat → Bytes → Bytes
  | 0, _ => []
  | _, [] => []
  | fuel + 1, c :: src =>
    if secret ≠ [] ∧ secret <+: c :: src then
      ascii "[redacted]" ++ putEscapedLoop secret fuel ((c :: src).drop secret.length)
    else jsonEscape c ++ putEscapedLoop secret fuel src

def putEscaped (secret src : Bytes) : Bytes := putEscapedLoop secret src.length src

/-- The arguments of one `gw_log` call. A negative attempt or status and a zero `seq` are left
out. -/
structure LogEntry where
  level : Bytes
  event : Bytes
  message : Option Bytes
  attempt : Int := -1
  status : Int := -1
  seq : UInt64 := 0

def logLine (secret ts : Bytes) (e : LogEntry) : Bytes :=
  ascii "\x7b\"ts\":\"" ++ ts ++ ascii "\",\"level\":\"" ++ e.level ++ ascii "\",\"event\":\"" ++
  e.event ++ ascii "\"" ++
  (match e.message with
    | some m => ascii ",\"message\":\"" ++ putEscaped secret m ++ ascii "\""
    | none => []) ++
  (if e.attempt ≥ 0 then ascii ",\"attempt\":" ++ C.ld e.attempt else []) ++
  (if e.status ≥ 0 then ascii ",\"status\":" ++ C.ld e.status else []) ++
  (if e.seq > 0 then ascii ",\"seq\":" ++ decimal e.seq.toNat else []) ++ ascii "\x7d\n"

/-- `gw_log`: the line leaves the stream in one write. Results of the write and of the sync are not
looked at. -/
def gwLog (secret : Bytes) (e : LogEntry) : Io Unit := do
  let ts ← sys .time
  let _ ← sys (.write .log (logLine secret ts e))
  let _ ← sys (.fsync .log)

end AxiomaOracle
