import AxiomaOracle.Gateway.Client
import AxiomaOracle.Lib.Trace

/-!
# A call as its operations (`gw_client.c`)

`Client` takes what libcurl makes of each attempt as given and says what `gwc_call` returns. Here is
the whole function: the handle, the header list, the protocol restriction, the transfer, and the
pause before the next attempt, as a program over the operations it asks for. The header lines of a
response go to `on_header`, which libcurl calls with a line that no NUL ends.
-/

namespace AxiomaOracle

open Lib

/-! ## Response headers -/

def retryAfterName : Bytes := ascii "retry-after:"

/-- `on_header` for one line. `strtol` starts behind the name, and while it finds white space and
digits it reads on into what the memory holds behind the line. -/
def onHeader (retryAfterS : Int) (line beyond : Bytes) : Int :=
  if line.length > 12 ∧ (line.take 12).map C.tolower = retryAfterName then
    let v := C.strtolValue (line.drop 12 ++ beyond)
    if v > 0 ∧ v ≤ 3600 then v else retryAfterS
  else retryAfterS

/-- What libcurl makes of a transfer, with the header lines it hands over and what stands behind
each of them. -/
structure Exchange extends Transfer where
  headerLines : List (Bytes × Bytes)

/-- `hd.retry_after_s` behind the transfer. -/
def Exchange.retryAfterS (x : Exchange) : Int :=
  x.headerLines.foldl (fun v line => onHeader v line.1 line.2) 0

/-! ## The operations -/

/-- The options of a transfer that `gwc_call` sets. -/
structure CurlRequest where
  url : CStr
  headers : List Bytes
  body : Bytes
  connectTimeoutS : Int
  timeoutS : Int

inductive CurlOp where
  | easyInit
  | slistAppend (line : Bytes)
  | setProtocols
  | perform (request : CurlRequest)
  | rand
  | nanosleep (sec nsec : Int)

@[reducible] def CurlAns : CurlOp → Type
  | .easyInit | .slistAppend _ | .setProtocols => Bool
  | .perform _ => Exchange
  | .rand => Nat
  | .nanosleep _ _ => Unit

abbrev Curl := Prog CurlOp CurlAns

/-- One operation. -/
abbrev curl (o : CurlOp) : Curl (CurlAns o) := Prog.perform o

/-- libcurl and the clock answer as they like; nothing they leave behind matters to the caller. -/
@[reducible] def curlMachine : Machine CurlOp CurlAns where
  State := Unit
  Env := (o : CurlOp) → CurlAns o
  exec o env s := (env o, s)

/-! ## The pause -/

/-- The milliseconds of `backoff_sleep`: `retry-after` wins over the doubling base. -/
def backoffMs (attempt : Nat) (retryAfterS : Int) (rand : Nat) : Int :=
  let ms : Int :=
    if retryAfterS > 0 then retryAfterS * 1000 else (1000 <<< (attempt - 1) + rand % 500 : Nat)
  if ms > 60000 then 60000 else ms

def sleepMs (ms : Int) : Curl Unit := curl (.nanosleep (ms / 1000) (ms % 1000 * 1000000))

def backoffSleep (attempt : Nat) (retryAfterS : Int) : Curl Unit := do
  if retryAfterS > 0 then sleepMs (backoffMs attempt retryAfterS 0)
  else
    let r ← curl .rand
    sleepMs (backoffMs attempt retryAfterS r)

/-! ## The call -/

def contentTypeHeader : Bytes := ascii "content-type: application/json"

/-- `snprintf(keyhdr, sizeof keyhdr, ...)`, which cuts at 511 bytes. -/
def keyHeader (apiKey : CStr) : Bytes := (ascii "x-api-key: " ++ apiKey.bytes).take 511

section Call

variable (cfg : GwConfig) (apiKey : CStr) (request : Bytes)

/-- `snprintf(verhdr, sizeof verhdr, ...)`, which cuts at 127 bytes. -/
def versionHeader : Bytes := (ascii "anthropic-version: " ++ cfg.anthropicVersion.bytes).take 127

/-- `curl_slist_append`; an append that fails returns NULL, and the next one starts a new list. -/
def slistAppend (list : List Bytes) (line : Bytes) : Curl (List Bytes) := do
  if ← curl (.slistAppend line) then return list ++ [line] else return []

/-- The answers that are tried again while attempts are left. -/
def Transfer.Retryable (t : Transfer) : Prop :=
  t.rc = .ok ∧ (t.status = 429 ∨ (500 ≤ t.status ∧ t.status < 600))

instance (t : Transfer) : Decidable t.Retryable :=
  inferInstanceAs (Decidable (t.rc = .ok ∧ (t.status = 429 ∨ (500 ≤ t.status ∧ t.status < 600))))

/-- The result once a transfer is over. The retry and the failure fill `errbuf` alike; only the
failure keeps the body. -/
def afterTransfer (res : GwcResult) (t : Transfer) : GwcResult :=
  let body := deliver cfg.maxResponseBytes.toNat {} t.chunks
  let res := { res with httpStatus := t.status.toInt }
  if t.rc = .operationTimedout then res.failed .timeout t.reason
  else if t.rc = .writeError ∧ body.overcap = true then
    res.failed .overcap
      (ascii "response exceeded " ++ C.ld cfg.maxResponseBytes ++ ascii " bytes")
  else if t.rc ≠ .ok then res.failed .transport t.reason
  else if t.status = 200 then { res with outcome := .ok, body := body.buf }
  else { res with
    outcome := .httpFail, errbuf := httpErrbuf t.status body.bytes, body := body.buf }

/-- The loop of `gwc_call`, with the number of attempts left. -/
def gwcCallLoop : Nat → GwcResult → Curl (Option GwcResult)
  | 0, res => return some { res with outcome := .httpFail }
  | left + 1, res => do
    let attempt := cfg.maxAttempts.toNat - left
    let res := { res with attempts := attempt }
    if !(← curl .easyInit) then return none
    let headers ← slistAppend [] contentTypeHeader
    let headers ← slistAppend headers (keyHeader apiKey)
    let headers ← slistAppend headers (versionHeader cfg)
    if headers = [] then return none
    if !(← curl .setProtocols) then
      return some (res.failed .transport (ascii "libcurl cannot restrict protocols to http,https"))
    let x ← curl (.perform
      ⟨cfg.apiUrl, headers, request, cfg.connectTimeoutS, cfg.responseTimeoutS⟩)
    if x.Retryable ∧ attempt < cfg.maxAttempts.toNat then
      backoffSleep attempt x.retryAfterS
      gwcCallLoop left { res with
        httpStatus := x.status.toInt
        errbuf := httpErrbuf x.status (deliver cfg.maxResponseBytes.toNat {} x.chunks).bytes }
    else return some (afterTransfer cfg res x.toTransfer)

/-- `gwc_call`. -/
def gwcCallProg : Curl (Option GwcResult) :=
  gwcCallLoop cfg apiKey request cfg.maxAttempts.toNat ⟨.ok, 0, 0, none, .ofBytes []⟩

end Call

end AxiomaOracle
