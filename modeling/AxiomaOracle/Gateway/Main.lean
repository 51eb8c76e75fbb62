import AxiomaOracle.Gateway.Ledger
import AxiomaOracle.Gateway.Log
import AxiomaOracle.Gateway.Wal

/-!
# The gateway service (`gw_main.c`)

The request path in its stages (ingest, intent, oracle call, observation, response), WAL recovery
and start-up, as programs over the system calls they make.
-/

namespace AxiomaOracle

open Lib

/-- What the service takes from its process environment and from libcurl: the API key and the URL
check. -/
structure Host where
  apiKey : Option CStr
  gwcUrlCheck : CStr → Bool

/-- `gw_state_t` with the ledger module's statics; the four buffers are local to a request. -/
structure GwState (S : Substrate) where
  adm : AxAdmissionCtx
  callsMade : Int
  exportDropLogged : Bool
  gwl : Gwl S

def gwTagObs : CStr := ⟨ascii "AX:OBS:v1", nulFree_axObs⟩
def gwTagState : CStr := ⟨ascii "AX:STATE:v1", by decide⟩

/-- `hex32`. -/
def hex32 (d : Digest) : CStr := .ofBytes (hexOf d.bytes)

section Main

variable (S : Substrate) (cfg : GwConfig) (secret : Bytes)

/-! ## Small helpers -/

def gwLogMsg (level event msg : Bytes) (attempt status : Int) (seq : UInt64) : Io Unit :=
  gwLog secret ⟨level, event, some msg, attempt, status, seq⟩

/-- `gw_log(level, event, message, -1, -1, seq)`. -/
def gwLogSeq (level event msg : Bytes) (seq : UInt64) : Io Unit :=
  gwLogMsg secret level event msg (-1) (-1) seq

def protoError (reason : Bytes) : Io Unit := do
  let _ ← sys (.send (ascii "status: error\nreason: " ++ reason ++ ascii "\n\n"))

def q16ToDec (q : Int32) : Option Bytes :=
  if q.toInt < 0 then none
  else
    let v := q.toInt.toNat
    C.snprintf 24 (decimal (v / 65536) ++ ascii "." ++ C.u06 ((v % 65536) * 1000000 / 65536))

def gwReqjsonCap : Nat := cfg.maxPromptBytes.toNat * 6 + gwIdMax * 6 + 1024

/-- `req_put`: the text at the end of the buffer, when it fits with its NUL. -/
def reqPut (cap : Nat) (buf text : Bytes) : Option Bytes :=
  if buf.length ≥ cap ∨ text.length ≥ cap - buf.length then none else some (buf ++ text)

/-! ## Ingest -/

/-- `read_line`: up to a newline, within a buffer of 256 bytes. -/
def readLineLoop : Nat → Bytes → Option (Bytes × Bytes)
  | 0, _ => none
  | _, [] => none
  | room + 1, c :: s =>
    if c = chr '\n' then some ([], s)
    else (readLineLoop room s).map fun (line, rest) => (c :: line, rest)

def readLine (s : Bytes) : Option (Bytes × Bytes) := readLineLoop 255 s

/-- The four numbers of a request. -/
structure Header where
  promptLen : Int
  maxTokens : Int
  tempQ16 : Int
  topPQ16 : Int

/-- Why a request is refused before its prompt is read. -/
inductive Reject where
  | badRequest | seedUnsupported | unknownKey | badPromptLen | badMaxTokens | temperatureRequired
  | badParamRange | shortPrompt
  deriving DecidableEq

def Reject.reason : Reject → Bytes
  | .badRequest => ascii "bad_request"
  | .seedUnsupported => ascii "seed_unsupported"
  | .unknownKey => ascii "unknown_key"
  | .badPromptLen => ascii "bad_prompt_len"
  | .badMaxTokens => ascii "bad_max_tokens"
  | .temperatureRequired => ascii "temperature_required"
  | .badParamRange => ascii "bad_param_range"
  | .shortPrompt => ascii "short_prompt"

/-- The rejections that are also logged. -/
def Reject.logged : Reject → Option Bytes
  | .seedUnsupported => some (ascii "seed parameter unsupported by oracle")
  | .temperatureRequired => some (ascii "temperature_q16 required: unpinned serving refused")
  | _ => none

/-- The header loop. The first argument bounds the number of lines. -/
def headerLoop : Nat → Header → Bytes → Except Reject (Header × Bytes)
  | 0, _, _ => .error .badRequest
  | fuel + 1, h, s =>
    match readLine s with
    | none => .error .badRequest
    | some (raw, s) =>
      let line := (CStr.ofBytes raw).bytes
      if line = [] then .ok (h, s)
      else match C.scanLong (ascii "prompt_len:") line with
      | some v => headerLoop fuel { h with promptLen := v } s
      | none => match C.scanLong (ascii "max_tokens:") line with
      | some v => headerLoop fuel { h with maxTokens := v } s
      | none => match C.scanLong (ascii "temperature_q16:") line with
      | some v => headerLoop fuel { h with tempQ16 := v } s
      | none => match C.scanLong (ascii "top_p_q16:") line with
      | some v => headerLoop fuel { h with topPQ16 := v } s
      | none => if ascii "seed:" <+: line then .error .seedUnsupported else .error .unknownKey

/-- Step 1: the header, its checks and the raw prompt, from the bytes the client sends. -/
def ingest (req : Bytes) : Except Reject (Header × Bytes) := do
  let (h, s) ← headerLoop (req.length + 1) ⟨-1, cfg.defaultMaxTokens, -1, -1⟩ req
  if h.promptLen ≤ 0 ∨ h.promptLen > cfg.maxPromptBytes then .error .badPromptLen
  if h.maxTokens ≤ 0 ∨ h.maxTokens > 200000 then .error .badMaxTokens
  if h.tempQ16 < 0 then .error .temperatureRequired
  if h.tempQ16 > 131072 ∨ h.topPQ16 > 65536 then .error .badParamRange
  if s.length < h.promptLen.toNat then .error .shortPrompt
  return (h, s.take h.promptLen.toNat)

/-- Step 3: the sampling parameters. -/
def requestParams (h : Header) : AxOracleParams :=
  let p := { axOracleParamsInitNull with maxTokens := .ofInt h.maxTokens }
  let p := if h.tempQ16 ≥ 0 then { p with temperature := .ofInt h.tempQ16 } else p
  if h.topPQ16 ≥ 0 then { p with topP := .ofInt h.topPQ16 } else p

/-! ## Observations -/

/-- What a commit reports. -/
structure CommitInfo where
  obsHashHex : Bytes
  headHex : Bytes
  seq : UInt64

def CBuf.ofBytes (bs : Bytes) : CBuf := if h : bs.length < sizeMod then .mem bs h else .null 0

variable {S}

/-- The admission input of an observation. -/
def observationInput (st : GwState S) (state : AxCompletionState) (ftype : AxFailureType)
    (input output : Bytes) (params : AxOracleParams) : AxObsInput where
  completionState := state
  failureType := ftype
  input := .ofBytes input
  ledgerSeq := gwlSeq st.gwl + 1
  modelId := some cfg.modelId
  oracleId := some cfg.oracleId
  output := .ofBytes output
  params := params

/-- Build, admit, validate, canonicalise, append. -/
def commitObservation (st : GwState S) (state : AxCompletionState) (ftype : AxFailureType)
    (input output : Bytes) (params : AxOracleParams) : Io (GwState S × Option CommitInfo) :=
  let inp := observationInput cfg st state ftype input output params
  let r := axObsAdmit S axMaxOutputBytes inp st.adm {}
  let st := { st with adm := r.ctx }
  match r.ret with
  | some _ => return (st, none)
  | none =>
    match axObsValidate S r.out {} with
    | (some _, _) => return (st, none)
    | (none, _) =>
      match axObsCanonicalise axCanonicalBufferSize r.out true with
      | .error _ => return (st, none)
      | .ok canon =>
        if canon = [] then return (st, none)
        else do
          let (g, res) ← gwlAppend st.gwl gwTagObs canon
          let st := { st with gwl := g }
          match res with
          | none => return (st, none)
          | some (head, seq) =>
            return (st, some ⟨r.out.obsHash.bytes, (hex32 head).bytes, seq⟩)

/-! ## The oracle call -/

/-- The upstream request body. -/
def buildRequest (params : AxOracleParams) (norm : Bytes) : Option Bytes := do
  let cap := gwReqjsonCap cfg
  let modelEsc ← gwjEscapeUtf8 (gwIdMax * 6 + 1) cfg.modelId.bytes
  let escaped ← gwjEscapeUtf8 (cfg.maxPromptBytes.toNat * 6 + 1) norm
  let buf ← reqPut cap [] (ascii "\x7b\"model\":\"" ++ modelEsc ++ ascii "\",\"max_tokens\":" ++
    C.ld params.maxTokens.toInt)
  let buf ← if axParamsTemperatureIsNull params then some buf
    else do reqPut cap buf (ascii ",\"temperature\":" ++ (← q16ToDec params.temperature))
  let buf ← if axParamsTopPIsNull params then some buf
    else do reqPut cap buf (ascii ",\"top_p\":" ++ (← q16ToDec params.topP))
  reqPut cap buf (ascii ",\"messages\":[\x7b\"role\":\"user\",\"content\":\"" ++ escaped ++
    ascii "\"\x7d]\x7d")

/-- What an outcome is recorded as, and whether the caller gets its text. -/
structure Outcome where
  state : AxCompletionState
  ftype : AxFailureType
  output : Bytes
  okForCaller : Bool

def Outcome.failed (ftype : AxFailureType) : Outcome := ⟨.error, ftype, [], false⟩

/-- The optional capture of the first 200 body. -/
def captureFixture (body : Bytes) : Io Unit :=
  if cfg.fixtureCapturePath.bytes = [] then return ()
  else do
    if ← sys (.openExcl .fixture) then
      if ← sys (.write .fixture body) then
        if ← sys (.fsync .fixture) then
          gwLogSeq secret (ascii "info") (ascii "fixture_captured") cfg.fixtureCapturePath.bytes 0
      sys (.close .fixture)

/-- The text and stop reason of a 200 body, when it has the expected structure. -/
def extractText (body : Bytes) : Option (Bytes × Bytes) := do
  let text ← gwjContentText body axMaxOutputBytes
  let stop ← gwjTopString body (ascii "stop_reason") 64
  return (text, cstr stop)

/-- A 200 body: the text and the stop reason, or `INVALID_OUTPUT`. -/
def outcomeOfBody (res : GwcResult) : Io Outcome :=
  match extractText (res.body.getD []) with
  | some (text, stop) => do
    gwLogMsg secret (ascii "info") (ascii "oracle_ok") stop res.attempts res.httpStatus 0
    return ⟨if stop = ascii "max_tokens" then .truncated else .complete, .null, text, true⟩
  | none => do
    gwLogMsg secret (ascii "error") (ascii "oracle_fail")
      (ascii "200 body failed structural parse") res.attempts res.httpStatus 0
    return .failed .invalidOutput

def logOracleFail (res : GwcResult) (msg : Bytes) : Io Unit :=
  gwLogMsg secret (ascii "error") (ascii "oracle_fail") msg res.attempts res.httpStatus 0

/-- Steps 6 to 8: the `switch` on the outcome. -/
def outcomeOf (res : GwcResult) : Io Outcome :=
  match res.outcome with
  | .ok => do
    captureFixture cfg secret (res.body.getD [])
    outcomeOfBody secret res
  | .timeout => do
    logOracleFail secret res res.errbuf.bytes
    return .failed .timeout
  | .overcap => do
    logOracleFail secret res res.errbuf.bytes
    return .failed .invalidOutput
  | .httpFail => do
    match res.body.bind fun body => gwjErrorMessage body 400 with
    | some em => logOracleFail secret res (cstr em)
    | none => logOracleFail secret res res.errbuf.bytes
    return .failed .transportError
  | .transport => do
    logOracleFail secret res res.errbuf.bytes
    return .failed .transportError

/-! ## The response -/

def stateName : AxCompletionState → Bytes
  | .complete => ascii "COMPLETE"
  | .truncated => ascii "TRUNCATED"
  | _ => ascii "ERROR"

def failureName : AxFailureType → Bytes
  | .null => ascii "NULL"
  | .timeout => ascii "TIMEOUT"
  | .invalidOutput => ascii "INVALID_OUTPUT"
  | _ => ascii "TRANSPORT_ERROR"

def responseHeader (o : Outcome) (info : CommitInfo) (params : AxOracleParams) : Bytes :=
  ascii "status: " ++ (if o.okForCaller then ascii "ok" else ascii "error") ++
  ascii "\ncompletion_state: " ++ stateName o.state ++
  ascii "\nfailure_type: " ++ failureName o.ftype ++
  ascii "\nobs_hash: " ++ info.obsHashHex ++
  ascii "\nchain_head: " ++ info.headHex ++
  ascii "\nseq: " ++ decimal info.seq.toNat ++
  ascii "\nsnapshot_id: " ++ cfg.modelId.bytes ++
  ascii "\ntemperature_q16: " ++ (if axParamsTemperatureIsNull params then ascii "null"
    else C.ld params.temperature.toInt) ++
  ascii "\noutput_len: " ++ decimal o.output.length ++ ascii "\n\n"

def respond (o : Outcome) (info : CommitInfo) (params : AxOracleParams) : Io Unit :=
  match C.snprintf (384 + gwIdMax) (responseHeader cfg o info params) with
  | none => do
    gwLogSeq secret (ascii "error") (ascii "fault")
      (ascii "response header exceeds buffer") info.seq
    protoError (ascii "internal")
  | some hdr => do
    if ← sys (.send hdr) then
      if o.output.length > 0 then
        let _ ← sys (.send o.output)

/-! ## One request -/

/-- The log lines of a committed observation, and the response. -/
def reportRequest (st : GwState S) (o : Outcome) (info : CommitInfo) (params : AxOracleParams) :
    Io (GwState S) := do
  gwLogSeq secret (ascii "info") (ascii "obs_committed") info.obsHashHex info.seq
  if cfg.exportPath.bytes ≠ [] ∧ !st.gwl.exportActive ∧ !st.exportDropLogged then do
    gwLogSeq secret (ascii "warn") (ascii "export_write_failed")
      (ascii "ledger export inactive; witness NOT-DISCHARGEABLE until next start") info.seq
    respond cfg secret o info params
    return { st with exportDropLogged := true }
  else do
    respond cfg secret o info params
    return st

/-- After the observation is durable: close the intent, report, respond. -/
def finishRequest (st : GwState S) (o : Outcome) (info : CommitInfo) (params : AxOracleParams) :
    Io (GwState S) := do
  if !(← gwWalClear cfg) then
    gwLogSeq secret (ascii "error") (ascii "fault") (ascii "WAL clear failed") info.seq
  reportRequest cfg secret st o info params

/-- The WAL stays open: the restart replays it. -/
def commitFault (st : GwState S) : Io (GwState S) := do
  gwLogSeq secret (ascii "error") (ascii "fault")
    (ascii "record validation reject: wrapper disagrees with itself") 0
  protoError (ascii "internal")
  return st

/-- Commits an outcome and finishes the request; `fault` is what follows a failed commit. -/
def commitOutcome (st : GwState S) (norm : Bytes) (params : AxOracleParams) (o : Outcome)
    (fault : GwState S → Io (GwState S)) : Io (GwState S) := do
  let (st, info) ← commitObservation cfg st o.state o.ftype norm o.output params
  match info with
  | some info => finishRequest cfg secret st o info params
  | none => fault st

/-- Steps 9 and 10: the observation, degraded to `INVALID_OUTPUT` when the output is rejected. -/
def recordOutcome (st : GwState S) (norm : Bytes) (params : AxOracleParams) (res : GwcResult)
    (o : Outcome) : Io (GwState S) :=
  commitOutcome cfg secret st norm params o fun st =>
    if o.state = .complete ∨ o.state = .truncated then do
      gwLogMsg secret (ascii "warn") (ascii "oracle_fail")
        (ascii "output failed admission; recording INVALID_OUTPUT") res.attempts res.httpStatus 0
      commitOutcome cfg secret st norm params (.failed .invalidOutput) (commitFault secret)
    else commitFault secret st

/-- Step 5: the oracle call. -/
def callOracle (st : GwState S) (norm : Bytes) (params : AxOracleParams) (body : Bytes) :
    Io (GwState S) := do
  let st := { st with callsMade := st.callsMade + 1 }
  match ← sys (.gwcCall body) with
  | none => do
    gwLogSeq secret (ascii "error") (ascii "fault") (ascii "client allocation failure") 0
    protoError (ascii "internal")
    return st
  | some res => do
    let o ← outcomeOf cfg secret res
    recordOutcome cfg secret st norm params res o

def requestIntent (norm : Bytes) (params : AxOracleParams) : GwIntent where
  inputHashHex := hex32 (axComputeInputHash S norm)
  modelId := .ofBytes (cfg.modelId.bytes.take 255)
  maxTokens := params.maxTokens
  seed := -1
  temperatureQ16 := params.temperature
  topPQ16 := params.topP

/-- Step 4: the durable intent, then the request body. -/
def openIntent (st : GwState S) (norm : Bytes) (params : AxOracleParams) : Io (GwState S) := do
  let intent := requestIntent (S := S) cfg norm params
  if !(← gwWalWrite cfg intent) then do
    gwLogSeq secret (ascii "error") (ascii "fault") (ascii "WAL intent write failed") 0
    protoError (ascii "internal")
    return st
  gwLogSeq secret (ascii "info") (ascii "intent") intent.inputHashHex.bytes (gwlSeq st.gwl + 1)
  match buildRequest cfg params norm with
  | none => do
    gwLogSeq secret (ascii "error") (ascii "fault")
      (ascii "request body build failed (identifier or prompt not escapable)") 0
    let _ ← gwWalClear cfg
    protoError (ascii "internal")
    return st
  | some body => callOracle cfg secret st norm params body

/-- Steps 2 and 3: the prompt's encoding, and the spend guard. -/
def serveRequest (st : GwState S) (h : Header) (prompt : Bytes) : Io (GwState S) :=
  match axValidateAndNormalise (cfg.maxPromptBytes.toNat + 1) prompt {} with
  | (.error _, _) => do
    gwLogSeq secret (ascii "warn") (ascii "encoding_reject")
      (ascii "prompt failed UTF-8/NFC/control validation") 0
    protoError (ascii "encoding_reject")
    return st
  | (.ok norm, _) =>
    if st.callsMade ≥ cfg.callBudget then do
      gwLogSeq secret (ascii "warn") (ascii "budget_refused")
        (ascii "per-run call budget exhausted") 0
      protoError (ascii "budget_exhausted")
      return st
    else openIntent cfg secret st norm (requestParams h)

def handleRequest (st : GwState S) (req : Bytes) : Io (GwState S) :=
  match ingest cfg req with
  | .error r => do
    if let some msg := r.logged then
      gwLogSeq secret (ascii "warn") (ascii "protocol_reject") msg 0
    protoError r.reason
    return st
  | .ok (h, prompt) => serveRequest cfg secret st h prompt

/-! ## Start-up -/

def recoveryParams (i : GwIntent) : AxOracleParams :=
  let p := { axOracleParamsInitNull with maxTokens := i.maxTokens }
  let p := if i.temperatureQ16 ≠ Int32.minValue
    then { p with temperature := i.temperatureQ16 } else p
  if i.topPQ16 ≠ Int32.minValue then { p with topP := i.topPQ16 } else p

/-- The input a recovery observation hashes: 256 bytes always hold it. -/
def synthInput (i : GwIntent) : Bytes :=
  ascii "unclosed-intent input_hash=" ++ i.inputHashHex.bytes

/-- An open intent becomes an observation, unless the last payload already carries its hash. -/
def recoverIntent (st : GwState S) (i : GwIntent) : Io (GwState S × Bool) :=
  if gwlLastPayloadContains st.gwl i.inputHashHex.bytes then do
    gwLogSeq secret (ascii "info") (ascii "wal_recovered")
      (ascii "intent already evidenced; clearing stale WAL") (gwlSeq st.gwl)
    return (st, ← gwWalClear cfg)
  else do
    let (st, info) ← commitObservation cfg st .error .transportError (synthInput i) []
      (recoveryParams i)
    match info with
    | none => do
      gwLogSeq secret (ascii "error") (ascii "fault") (ascii "WAL recovery observation failed") 0
      return (st, false)
    | some info => do
      gwLogSeq secret (ascii "info") (ascii "wal_recovered") i.inputHashHex.bytes info.seq
      return (st, ← gwWalClear cfg)

def recoverWal (st : GwState S) : Io (GwState S × Bool) := do
  match ← gwWalRecover with
  | .none => return (st, true)
  | .corrupt => do
    gwLogSeq secret (ascii "error") (ascii "fault")
      (ascii "corrupt WAL intent; refusing to start") 0
    return (st, false)
  | .intent i => recoverIntent cfg secret st i

def configPayload (cfgHex : Bytes) : Bytes :=
  ascii "\x7b\"component\":\"axioma-gateway\",\"config_sha256\":\"" ++ cfgHex ++
    ascii "\",\"evidence_type\":\"AX:STATE:v1\"\x7d"

def logFault (msg : Bytes) : Io Unit :=
  gwLogSeq secret (ascii "error") (ascii "fault") msg 0

/-- Socket set-up and readiness. -/
def listenStage (st : GwState S) : Io (Option (GwState S)) := do
  let _ ← sys (.unlink .socket)
  if !(← sys (.sys .socket)) then do
    logFault secret (ascii "socket")
    return none
  if cfg.socketPath.bytes.length ≥ 108 then do
    logFault secret (ascii "socket_path exceeds AF_UNIX limit")
    return none
  if !(← sys (.bind .socket)) then do
    logFault secret (ascii "bind/listen")
    return none
  if !(← sys (.sys .chmod)) then do
    logFault secret (ascii "bind/listen")
    return none
  if !(← sys (.sys .listen)) then do
    logFault secret (ascii "bind/listen")
    return none
  if !(← sys (.sys .notify)) then
    gwLogSeq secret (ascii "warn") (ascii "fault") (ascii "sd_notify READY=1 send failed") 0
  gwLogSeq secret (ascii "info") (ascii "startup") cfg.modelId.bytes (gwlSeq st.gwl)
  return some st

/-- The configuration bound as evidence, one `AX:STATE:v1` frame a start. -/
def configStage (st : GwState S) : Io (Option (GwState S)) := do
  let cfgHex := (hex32 (S.axilogSha256 cfg.raw)).bytes
  let (g, res) ← gwlAppend st.gwl gwTagState (configPayload cfgHex)
  let st := { st with gwl := g }
  match res with
  | none => do
    logFault secret (ascii "config commitment failed")
    return none
  | some (_, seq) => do
    gwLogSeq secret (ascii "info") (ascii "config_commit") cfgHex seq
    if !(← sys (.sys .curlInit)) then do
      logFault secret (ascii "curl init failed")
      return none
    listenStage cfg secret st

def recoverStage (st : GwState S) : Io (Option (GwState S)) := do
  let (st, ok) ← recoverWal cfg secret st
  if !ok then return none
  configStage cfg secret st

/-- The witness export, when configured. -/
def exportStage (st : GwState S) : Io (Option (GwState S)) :=
  if cfg.exportPath.bytes = [] then recoverStage cfg secret st
  else do
    let (g, ok) ← gwlExportEnable cfg st.gwl
    let st := { st with gwl := g }
    if !ok then do
      logFault secret (ascii "ledger export enable failed")
      return none
    gwLogSeq secret (ascii "info") (ascii "export_enabled") cfg.exportPath.bytes (gwlSeq st.gwl)
    recoverStage cfg secret st

variable (S)

/-- Replay of the ledger; a torn tail is tolerated when an intent can account for it. -/
def ledgerStage : Io (Option (GwState S)) := do
  let probe ← gwWalRecover
  let walPresent := match probe with
    | .intent _ => true
    | _ => false
  match ← gwlOpen S walPresent with
  | none => do
    logFault secret (ascii "ledger open/replay failed")
    return none
  | some (g, truncated) => do
    if truncated then
      gwLogSeq secret (ascii "warn") (ascii "fault")
        (ascii "torn ledger tail truncated under open WAL intent") (gwlSeq g)
    exportStage cfg secret ⟨axAdmissionCtxInit, 0, false, g⟩

def apiKeyCheck (key : Bytes) : Bool := !key.any fun c => c.toNat < 0x20 || c == 0x7F

/-- `main` up to the accept loop, from a loaded configuration. -/
def startUp (host : Host) : Io (Option (GwState S)) :=
  if !host.gwcUrlCheck cfg.apiUrl then return none
  else match host.apiKey with
    | none => return none
    | some key =>
      if key.bytes = [] then return none
      else if !apiKeyCheck key.bytes then return none
      else do
        if !(← sys (.openAppend .log)) then return none
        if !(← sys (.sys .malloc)) then return none
        ledgerStage S cfg (logSecret key.bytes)

variable {S}

/-- After the accept loop. -/
def shutDown (st : GwState S) : Io (Option (GwState S)) := do
  gwLog secret ⟨ascii "info", ascii "shutdown", none, -1, -1, gwlSeq st.gwl⟩
  let _ ← sys (.unlink .socket)
  return none

end Main

/-- The gateway as a service: start-up, one request at a time, shutdown. -/
def gateway (S : Substrate) (cfg : GwConfig) (host : Host) : Service (machine cfg) where
  St := GwState S
  Req := Bytes
  boot := startUp S cfg host
  serve st req := some <$> handleRequest cfg (logSecret (host.apiKey.elim [] CStr.bytes)) st req
  halt st := shutDown (logSecret (host.apiKey.elim [] CStr.bytes)) st
  release := World.release

end AxiomaOracle
