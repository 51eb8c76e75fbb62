import AxiomaOracle.Gateway.World

/-!
# The oracle client (`gw_client.c`)

`gwc_call` makes up to `max_attempts` transfers. What libcurl does with a transfer is its own: an
`Attempt` says whether a handle came, which chunks reached `on_body` and what code and status came
back. Of the headers only `retry-after` is read, for the length of a pause.
-/

namespace AxiomaOracle

open Lib

/-! ## The body -/

/-- `body_t`: `buf` is NULL until a chunk is kept, and `len` is its length. -/
structure BodyT where
  buf : Option Bytes := none
  overcap : Bool := false

def BodyT.bytes (b : BodyT) : Bytes := b.buf.getD []

/-- `on_body` for one chunk, with the answer of `realloc`; the flag is whether the chunk was
taken. -/
def onBody (cap : Nat) (b : BodyT) (chunk : Bytes) (grown : Bool) : BodyT × Bool :=
  if b.bytes.length + chunk.length > cap then ({ b with overcap := true }, false)
  else if grown then ({ b with buf := some (b.bytes ++ chunk) }, true)
  else (b, false)

/-- libcurl hands over the chunks until one is not taken. -/
def deliver (cap : Nat) : BodyT → List (Bytes × Bool) → BodyT
  | b, [] => b
  | b, (chunk, grown) :: rest =>
    let (b, taken) := onBody cap b chunk grown
    if taken then deliver cap b rest else b

/-! ## One attempt -/

/-- The codes of `curl_easy_perform` that `gwc_call` tells apart. -/
inductive CurlCode where
  | ok | operationTimedout | writeError | other
  deriving DecidableEq

/-- What libcurl makes of a transfer. `status` is 0 when no response came. -/
structure Transfer where
  rc : CurlCode
  chunks : List (Bytes × Bool)
  status : Int64
  curlErr : Bytes
  strerror : Bytes

inductive Attempt where
  /-- No handle, or no header list. -/
  | noMemory
  /-- `CURLOPT_PROTOCOLS_STR` is refused. -/
  | noProtocols
  | transfer (t : Transfer)

/-- `snprintf(res->errbuf, sizeof res->errbuf, ...)`, which cuts at 511 bytes. -/
def errbufOf (text : Bytes) : CStr := .ofBytes (text.take 511)

def GwcResult.failed (res : GwcResult) (outcome : GwcOutcome) (text : Bytes) : GwcResult :=
  { res with outcome := outcome, errbuf := errbufOf text }

/-- `curl_err[0] ? curl_err : curl_easy_strerror(rc)`. -/
def Transfer.reason (t : Transfer) : Bytes := if t.curlErr = [] then t.strerror else t.curlErr

/-- `"HTTP %ld%s%.*s"`, with at most 400 bytes of the body. -/
def httpErrbuf (status : Int64) (body : Bytes) : CStr :=
  errbufOf (ascii "HTTP " ++ C.ld status.toInt ++ (if body.length ≠ 0 then ascii ": " else []) ++
    (CStr.ofBytes (body.take 400)).bytes)

/-! ## The call -/

variable (cfg : GwConfig) (net : Nat → Attempt)

/-- The loop of `gwc_call`, with the number of attempts left. -/
def gwcCallFrom : Nat → GwcResult → Option GwcResult
  | 0, res => some { res with outcome := .httpFail }
  | left + 1, res =>
    let attempt := cfg.maxAttempts.toNat - left
    let res := { res with attempts := attempt }
    match net attempt with
    | .noMemory => none
    | .noProtocols =>
      some (res.failed .transport (ascii "libcurl cannot restrict protocols to http,https"))
    | .transfer t =>
      let body := deliver cfg.maxResponseBytes.toNat {} t.chunks
      let res := { res with httpStatus := t.status.toInt }
      if t.rc = .operationTimedout then some (res.failed .timeout t.reason)
      else if t.rc = .writeError ∧ body.overcap = true then
        some (res.failed .overcap
          (ascii "response exceeded " ++ C.ld cfg.maxResponseBytes ++ ascii " bytes"))
      else if t.rc ≠ .ok then some (res.failed .transport t.reason)
      else if t.status = 200 then some { res with outcome := .ok, body := body.buf }
      else
        -- the retry and the failure fill `errbuf` alike; only the failure keeps the body
        let res := { res with errbuf := httpErrbuf t.status body.bytes }
        if (t.status = 429 ∨ (500 ≤ t.status ∧ t.status < 600)) ∧
            attempt < cfg.maxAttempts.toNat then
          gwcCallFrom left res
        else some { res with outcome := .httpFail, body := body.buf }

/-- `gwc_call`: the result, none for -1. -/
def gwcCall : Option GwcResult :=
  gwcCallFrom cfg net cfg.maxAttempts.toNat ⟨.ok, 0, 0, none, .ofBytes []⟩

end AxiomaOracle
