import AxiomaOracle.Gateway.Transfer
import AxiomaOracle.Verify.ConfigLines
import AxiomaOracle.Verify.FailureLines
import AxiomaOracle.Verify.Served

/-!
# How a call retries

`Called` is what a call may come to, read off its operations: rounds of a transfer that is tried
again and a pause behind it, and an end. `gwcCallProg_called` says that whatever libcurl and the
clock answer, `gwc_call` is such a call and every transfer posts the same request.
-/

namespace AxiomaOracle

open Lib

/-! ## What is seen of a call -/

/-- The transfers of a call: what was posted, and what came back. -/
def transfers (h : List (Answered CurlOp CurlAns)) : List (CurlRequest × Exchange) :=
  h.filterMap fun
    | ⟨.perform q, x⟩ => some (q, x)
    | _ => none

def exchanges (h : List (Answered CurlOp CurlAns)) : List Exchange := (transfers h).map Prod.snd

/-- A transfer, or a pause of these seconds and nanoseconds. -/
inductive Move where
  | transfer (x : Exchange)
  | pause (p : Int × Int)

/-- The transfers and the pauses of a call, in order. -/
def moves (h : List (Answered CurlOp CurlAns)) : List Move :=
  h.filterMap fun
    | ⟨.perform _, x⟩ => some (.transfer x)
    | ⟨.nanosleep sec nsec, _⟩ => some (.pause (sec, nsec))
    | _ => none

/-- Operations that are neither a transfer nor a pause. -/
def CurlOp.Inner : CurlOp → Prop
  | .perform _ | .nanosleep _ _ => False
  | _ => True

/-- A transfer and the pause behind it. -/
structure Round where
  exchange : Exchange
  pause : Int × Int

def Round.moves (r : Round) : List Move := [.transfer r.exchange, .pause r.pause]

section Views

variable {h h' : List (Answered CurlOp CurlAns)} {rounds : List Round}

theorem moves_append (h h' : List (Answered CurlOp CurlAns)) :
    moves (h ++ h') = moves h ++ moves h' := List.filterMap_append

/-- What is seen does not change with the other operations. -/
theorem moves_inner (hext : Extends CurlOp.Inner h h') : moves h' = moves h := by
  obtain ⟨cs, rfl, hcs⟩ := hext
  have hnone : moves cs = [] := by
    refine List.filterMap_eq_nil_iff.2 ?_
    rintro ⟨o, a⟩ hc
    cases o <;> first | rfl | exact (hcs _ hc).elim
  rw [moves_append, hnone, List.append_nil]

def Move.exchange : Move → Option Exchange
  | .transfer x => some x
  | .pause _ => none

/-- The exchanges are among the moves. -/
theorem exchanges_eq (h : List (Answered CurlOp CurlAns)) :
    exchanges h = (moves h).filterMap Move.exchange := by
  unfold exchanges transfers moves
  rw [List.map_filterMap, List.filterMap_filterMap]
  congr 1
  funext c
  rcases c with ⟨o, a⟩
  cases o <;> rfl

theorem exchanges_rounds (rounds : List Round) :
    (rounds.flatMap Round.moves).filterMap Move.exchange = rounds.map Round.exchange := by
  induction rounds with
  | nil => rfl
  | cons r rounds ih =>
    rw [List.flatMap_cons, List.filterMap_append, ih]
    rfl

theorem exchanges_of_rounds {last : List Exchange}
    (h' : moves h = rounds.flatMap Round.moves ++ last.map .transfer) :
    exchanges h = rounds.map Round.exchange ++ last := by
  have hlast : (last.map Move.transfer).filterMap Move.exchange = last := by
    rw [List.filterMap_map]
    exact List.filterMap_some
  rw [exchanges_eq, h', List.filterMap_append, exchanges_rounds, hlast]

end Views

/-! ## A call, abstractly -/

section Abstract

variable (cfg : GwConfig)

/-- The pause behind attempt `n`, for some answer of `rand`. -/
def PauseOf (n : Nat) (x : Exchange) (p : Int × Int) : Prop :=
  ∃ r, p = (backoffMs n x.retryAfterS r / 1000, backoffMs n x.retryAfterS r % 1000 * 1000000)

/-- Rounds that a call goes through: answers that are tried again, while attempts are left. -/
structure Tried (rounds : List Round) : Prop where
  retryable : ∀ r ∈ rounds, r.exchange.Retryable
  pause : ∀ i r, rounds[i]? = some r → PauseOf (i + 1) r.exchange r.pause
  left : rounds.length < cfg.maxAttempts.toNat

/-- The result so far, behind exchanges that are tried again. -/
def resBehind (xs : List Exchange) : GwcResult :=
  match xs.getLast? with
  | none => ⟨.ok, 0, 0, none, .ofBytes []⟩
  | some x => ⟨.ok, x.status.toInt, xs.length, none,
      httpErrbuf x.status (deliver cfg.maxResponseBytes.toNat {} x.chunks).bytes⟩

/-- The same, once the next attempt has started. -/
def resStarted (xs : List Exchange) : GwcResult :=
  { resBehind cfg xs with attempts := (xs.length + 1 : Nat) }

/-- What the refused set-up of a transfer comes to: no handle and no header list give no result, a
handle that cannot be restricted to http and https gives a transport failure. -/
inductive Stopped (xs : List Exchange) (h : List (Answered CurlOp CurlAns)) :
    Option GwcResult → Prop where
  | noHandle : h.getLast? = some ⟨.easyInit, false⟩ → Stopped xs h none
  | noHeaders (line : Bytes) : h.getLast? = some ⟨.slistAppend line, false⟩ → Stopped xs h none
  | unrestricted : h.getLast? = some ⟨.setProtocols, false⟩ → Stopped xs h
      (some ((resStarted cfg xs).failed .transport
        (ascii "libcurl cannot restrict protocols to http,https")))

/-- What a call comes to, with its operations and its result. -/
inductive Called : List (Answered CurlOp CurlAns) → Option GwcResult → Prop where
  | noAttempts (h : cfg.maxAttempts.toNat = 0) :
      Called [] (some { resBehind cfg [] with outcome := .httpFail })
  | stopped {h : List (Answered CurlOp CurlAns)} {rounds : List Round} {r : Option GwcResult}
      (hmoves : moves h = rounds.flatMap Round.moves) (htried : Tried cfg rounds)
      (hstop : Stopped cfg (rounds.map Round.exchange) h r) : Called h r
  | ended {h : List (Answered CurlOp CurlAns)} {rounds : List Round} {q : CurlRequest}
      {x : Exchange} (hmoves : moves h = rounds.flatMap Round.moves ++ [.transfer x])
      (htried : Tried cfg rounds) (hend : h.getLast? = some ⟨.perform q, x⟩)
      (hlast : x.Retryable → rounds.length + 1 = cfg.maxAttempts.toNat) :
      Called h (some (afterTransfer cfg (resStarted cfg (rounds.map Round.exchange)) x.toTransfer))

variable {cfg}

/-- A call by its exchanges alone. -/
theorem Called.seen {h : List (Answered CurlOp CurlAns)} {r : Option GwcResult}
    (hcall : Called cfg h r) :
    (cfg.maxAttempts.toNat = 0 ∧ exchanges h = [] ∧
      r = some { resBehind cfg [] with outcome := .httpFail }) ∨
    ((∀ x ∈ exchanges h, x.Retryable) ∧ (exchanges h).length < cfg.maxAttempts.toNat ∧
      Stopped cfg (exchanges h) h r) ∨
    ∃ xs q x, exchanges h = xs ++ [x] ∧ (∀ x ∈ xs, x.Retryable) ∧
      xs.length < cfg.maxAttempts.toNat ∧ h.getLast? = some ⟨.perform q, x⟩ ∧
      (x.Retryable → xs.length + 1 = cfg.maxAttempts.toNat) ∧
      r = some (afterTransfer cfg (resStarted cfg xs) x.toTransfer) := by
  have hretry : ∀ {rounds : List Round}, Tried cfg rounds →
      ∀ x ∈ rounds.map Round.exchange, x.Retryable := by
    intro rounds htried x hx
    obtain ⟨r, hr, rfl⟩ := List.mem_map.1 hx
    exact htried.retryable r hr
  have hleft : ∀ {rounds : List Round}, Tried cfg rounds →
      (rounds.map Round.exchange).length < cfg.maxAttempts.toNat := by
    intro rounds htried
    rw [List.length_map]
    exact htried.left
  cases hcall with
  | noAttempts hzero => exact .inl ⟨hzero, rfl, rfl⟩
  | @stopped h rounds r hmoves htried hstop =>
    have hseen : exchanges h = rounds.map Round.exchange ++ [] :=
      exchanges_of_rounds (by rw [hmoves, List.map_nil, List.append_nil])
    rw [List.append_nil] at hseen
    rw [hseen]
    exact .inr (.inl ⟨hretry htried, hleft htried, hstop⟩)
  | @ended h rounds q x hmoves htried hend hlast =>
    refine .inr (.inr ⟨_, q, x, exchanges_of_rounds hmoves, hretry htried, hleft htried, hend, ?_,
      rfl⟩)
    rw [List.length_map]
    exact hlast

end Abstract

/-- The header lines of a request. -/
def requestHeaders (cfg : GwConfig) (apiKey : CStr) : List Bytes :=
  [contentTypeHeader, keyHeader apiKey, versionHeader cfg]

/-- A transfer posts the request body to the configured URL, with the header lines behind the last
append that failed. -/
structure Posted (cfg : GwConfig) (apiKey : CStr) (request : Bytes)
    (before : List (Answered CurlOp CurlAns)) (q : CurlRequest) : Prop where
  url : q.url = cfg.apiUrl
  body : q.body = request
  timeouts : q.connectTimeoutS = cfg.connectTimeoutS ∧ q.timeoutS = cfg.responseTimeoutS
  some_header : q.headers ≠ []
  headers : q.headers <:+ requestHeaders cfg apiKey
  all_headers : (∀ line, ⟨.slistAppend line, false⟩ ∉ before) →
    q.headers = requestHeaders cfg apiKey

/-- The condition on the operations of a call. -/
def Posts (cfg : GwConfig) (apiKey : CStr) (request : Bytes) (m : Step curlMachine) : Prop :=
  ∀ q, m.op = .perform q → Posted cfg apiKey request m.before q

/-! ## The loop -/

section Loop

variable {cfg : GwConfig} {apiKey : CStr} {request : Bytes}
  {h : List (Answered CurlOp CurlAns)} {s : Unit}

theorem posts_of_inner {m : Step curlMachine} (hm : ∀ q, m.op ≠ .perform q) :
    Posts cfg apiKey request m := fun q hq => absurd hq (hm q)

/-- One operation that is no transfer. -/
theorem inner_observes {α : Type} {Q : α → List (Answered CurlOp CurlAns) → Unit → Prop}
    {o : CurlOp} {f : CurlAns o → Curl α} (ho : o.Inner)
    (hf : ∀ a, Observes curlMachine (fun _ => True) (Posts cfg apiKey request) Q (f a)
      (h ++ [⟨o, a⟩]) s) :
    Observes curlMachine (fun _ => True) (Posts cfg apiKey request) Q (curl o >>= f) h s := by
  refine .perform (fun e _ => posts_of_inner ?_) fun e _ => hf (e o)
  rintro q rfl
  exact ho

/-- One transfer. -/
theorem transfer_observes {α : Type} {Q : α → List (Answered CurlOp CurlAns) → Unit → Prop}
    {q : CurlRequest} {f : Exchange → Curl α} (hq : Posted cfg apiKey request h q)
    (hf : ∀ x, Observes curlMachine (fun _ => True) (Posts cfg apiKey request) Q (f x)
      (h ++ [⟨.perform q, x⟩]) s) :
    Observes curlMachine (fun _ => True) (Posts cfg apiKey request) Q
      (curl (.perform q) >>= f) h s := by
  refine .perform (fun e _ q' hq' => ?_) fun e _ => hf (e (.perform q))
  cases hq'
  exact hq

theorem inner_call {o : CurlOp} (ho : o.Inner) (a : CurlAns o) :
    Extends CurlOp.Inner h (h ++ [⟨o, a⟩]) := Extends.call ho a

/-- The list behind the appends of `lines`: those behind the last one that failed. -/
structure Gathered (lines list : List Bytes) (h : List (Answered CurlOp CurlAns)) : Prop where
  suffix : list <:+ lines
  all : (∀ line, ⟨.slistAppend line, false⟩ ∉ h) → list = lines
  nothing : list = [] → lines = [] ∨ ∃ line, h.getLast? = some ⟨.slistAppend line, false⟩

theorem slistAppend_observes {α : Type} {Q : α → List (Answered CurlOp CurlAns) → Unit → Prop}
    {lines list : List Bytes} {line : Bytes} {f : List Bytes → Curl α}
      (hlist : Gathered lines list h)
    (hf : ∀ list' h', Gathered (lines ++ [line]) list' h' → Extends CurlOp.Inner h h' →
      Observes curlMachine (fun _ => True) (Posts cfg apiKey request) Q (f list') h' s) :
    Observes curlMachine (fun _ => True) (Posts cfg apiKey request) Q
      (slistAppend list line >>= f) h s := by
  unfold slistAppend
  refine inner_observes trivial fun a => ?_
  cases a with
  | true =>
    have hext := inner_call (h := h) (o := .slistAppend line) trivial true
    refine hf (list ++ [line]) _ ⟨?_, fun hall => ?_, fun hnil => ?_⟩ hext
    · obtain ⟨pre, rfl⟩ := hlist.suffix
      exact ⟨pre, (List.append_assoc _ _ _).symm⟩
    · rw [hlist.all fun l hl => hall l (List.mem_append_left _ hl)]
    · exact absurd hnil (List.append_ne_nil_of_right_ne_nil _ (List.cons_ne_nil _ _))
  | false =>
    have hext := inner_call (h := h) (o := .slistAppend line) trivial false
    refine hf [] _
      ⟨List.nil_suffix, fun hall => ?_, fun _ => .inr ⟨line, List.getLast?_concat⟩⟩ hext
    exact absurd (List.mem_append_right _ (List.mem_singleton_self _)) (hall line)

theorem backoffSleep_observes {α : Type} {Q : α → List (Answered CurlOp CurlAns) → Unit → Prop}
    {n : Nat} {x : Exchange} {f : Unit → Curl α}
    (hf : ∀ p h', PauseOf n x p → moves h' = moves h ++ [.pause p] →
      Observes curlMachine (fun _ => True) (Posts cfg apiKey request) Q (f ()) h' s) :
    Observes curlMachine (fun _ => True) (Posts cfg apiKey request) Q
      (backoffSleep n x.retryAfterS >>= f) h s := by
  have hsleep : ∀ r h', moves h' = moves h →
      Observes curlMachine (fun _ => True) (Posts cfg apiKey request) Q
        (sleepMs (backoffMs n x.retryAfterS r) >>= f) h' s := by
    intro r h' hmoves
    refine .perform (fun e _ => posts_of_inner fun _ hq => (by cases hq)) fun e _ =>
      hf _ _ ⟨r, rfl⟩ ?_
    rw [moves_append, hmoves]
    rfl
  unfold backoffSleep
  by_cases hwins : x.retryAfterS > 0
  · rw [if_pos hwins]
    exact hsleep 0 h rfl
  · rw [if_neg hwins]
    refine inner_observes trivial fun r => ?_
    exact hsleep r _ (moves_inner (inner_call (o := .rand) trivial r))

theorem resBehind_concat (cfg : GwConfig) (xs : List Exchange) (x : Exchange) :
    resBehind cfg (xs ++ [x]) = { resStarted cfg xs with
      httpStatus := x.status.toInt
      errbuf := httpErrbuf x.status (deliver cfg.maxResponseBytes.toNat {} x.chunks).bytes } := by
  unfold resStarted resBehind
  rw [List.getLast?_concat, List.length_append]
  cases xs.getLast? <;> rfl

/-- One round more. -/
theorem Tried.concat {rounds : List Round} {r : Round} (h : Tried cfg rounds)
    (hretry : r.exchange.Retryable) (hp : PauseOf (rounds.length + 1) r.exchange r.pause)
    (hleft : rounds.length + 1 < cfg.maxAttempts.toNat) : Tried cfg (rounds ++ [r]) where
  retryable r' hr' := by
    rcases List.mem_append.1 hr' with hr' | hr'
    · exact h.retryable r' hr'
    · rw [List.mem_singleton.1 hr']
      exact hretry
  pause i r' hr' := by
    by_cases hi : i < rounds.length
    · rw [List.getElem?_append_left hi] at hr'
      exact h.pause i r' hr'
    · have hlt : i < (rounds ++ [r]).length := (List.getElem?_eq_some_iff.1 hr').1
      rw [List.length_append, List.length_singleton] at hlt
      obtain rfl : i = rounds.length := by omega
      rw [List.getElem?_concat_length] at hr'
      rwa [← Option.some.inj hr']
  left := by
    rw [List.length_append, List.length_singleton]
    exact hleft

/-- **The loop**: from rounds that are over to what a call comes to. -/
theorem gwcCallLoop_observes {left : Nat} {rounds : List Round}
    (hmoves : moves h = rounds.flatMap Round.moves) (htried : Tried cfg rounds)
    (hcount : rounds.length + left = cfg.maxAttempts.toNat) :
    Observes curlMachine (fun _ => True) (Posts cfg apiKey request) (fun r h' _ => Called cfg h' r)
      (gwcCallLoop cfg apiKey request left (resBehind cfg (rounds.map Round.exchange))) h s := by
  induction left generalizing h s rounds with
  | zero =>
    have := htried.left
    omega
  | succ left ih =>
    have hlength : (rounds.map Round.exchange).length = rounds.length := List.length_map _
    have hattempt : cfg.maxAttempts.toNat - left =
      (rounds.map Round.exchange).length + 1 := by omega
    have hstop : ∀ {h'} {r : Option GwcResult}, Extends CurlOp.Inner h h' →
        Stopped cfg (rounds.map Round.exchange) h' r → Called cfg h' r :=
      fun hext hr => .stopped ((moves_inner hext).trans hmoves) htried hr
    rw [gwcCallLoop, hattempt]
    refine inner_observes trivial fun handle => ?_
    have hext0 := inner_call (h := h) (o := .easyInit) trivial handle
    cases handle with
    | false => exact .ret (hstop hext0 (.noHandle List.getLast?_concat))
    | true =>
    have hlist0 : Gathered [] [] (h ++ [⟨.easyInit, true⟩]) :=
      ⟨List.suffix_rfl, fun _ => rfl, fun _ => .inl rfl⟩
    refine slistAppend_observes hlist0 fun list1 h1 hlist1 hext1 => ?_
    refine slistAppend_observes hlist1 fun list2 h2 hlist2 hext2 => ?_
    refine slistAppend_observes hlist2 fun list3 h3 hlist3 hext3 => ?_
    have hext := ((hext0.trans hext1).trans hext2).trans hext3
    by_cases hnil : list3 = []
    · rw [if_pos hnil]
      obtain ⟨line, hline⟩ := (hlist3.nothing hnil).resolve_left (List.cons_ne_nil _ _)
      exact .ret (hstop hext (.noHeaders line hline))
    rw [if_neg hnil]
    refine inner_observes trivial fun able => ?_
    have hext4 := hext.trans (inner_call (o := .setProtocols) trivial able)
    cases able with
    | false => exact .ret (hstop hext4 (.unrestricted List.getLast?_concat))
    | true =>
    refine transfer_observes ⟨rfl, rfl, ⟨rfl, rfl⟩, hnil, hlist3.suffix, fun hall => ?_⟩ fun x => ?_
    · exact hlist3.all fun line hl => hall line (List.mem_append_left _ hl)
    · have hseen : ∀ q, moves (h3 ++ [⟨.setProtocols, true⟩] ++ [⟨.perform q, x⟩]) =
          rounds.flatMap Round.moves ++ [.transfer x] := by
        intro q
        rw [moves_append, moves_inner hext4, hmoves]
        rfl
      by_cases hagain : x.Retryable ∧
          (rounds.map Round.exchange).length + 1 < cfg.maxAttempts.toNat
      · rw [if_pos hagain]
        rw [hlength] at hagain
        refine backoffSleep_observes fun p h' hpause hmoves' => ?_
        have hround : moves h' = (rounds ++ [Round.mk x p]).flatMap Round.moves := by
          rw [hmoves', hseen, List.flatMap_append, List.append_assoc]
          rfl
        have hcount' : (rounds ++ [Round.mk x p]).length + left = cfg.maxAttempts.toNat := by
          rw [List.length_append, List.length_singleton]
          omega
        rw [hlength] at hpause
        have htried' := htried.concat (r := ⟨x, p⟩) hagain.1 hpause hagain.2
        have hnext := ih (s := s) hround htried' hcount'
        rw [List.map_append, List.map_singleton, resBehind_concat] at hnext
        exact hnext
      · rw [if_neg hagain]
        refine .ret (.ended (hseen _) htried List.getLast?_concat fun hx => ?_)
        have hnone : ¬ (rounds.map Round.exchange).length + 1 < cfg.maxAttempts.toNat :=
          fun hlt => hagain ⟨hx, hlt⟩
        have hleft := htried.left
        omega

/-- **Whatever libcurl and the clock answer**, a call comes to rounds of transfers that are tried
again, with their pauses, and an end; and every transfer posts the same request. -/
theorem gwcCallProg_called (cfg : GwConfig) (apiKey : CStr) (request : Bytes)
    (envs : Nat → curlMachine.Env) :
    Called cfg (curlMachine.trace (gwcCallProg cfg apiKey request) envs ())
      (curlMachine.eval (gwcCallProg cfg apiKey request) envs ()).1 ∧
    ∀ m ∈ curlMachine.steps (gwcCallProg cfg apiKey request) envs [] (),
      Posts cfg apiKey request m := by
  have hobs : Observes curlMachine (fun _ => True) (Posts cfg apiKey request)
      (fun r h' _ => Called cfg h' r) (gwcCallProg cfg apiKey request) [] () := by
    unfold gwcCallProg
    by_cases hzero : cfg.maxAttempts.toNat = 0
    · rw [hzero]
      exact .ret (.noAttempts hzero)
    · have hstart : moves [] = ([] : List Round).flatMap Round.moves := rfl
      exact gwcCallLoop_observes hstart
        ⟨fun _ hr => absurd hr List.not_mem_nil, fun _ _ hr => (by cases hr),
          Nat.pos_of_ne_zero hzero⟩ (Nat.zero_add _)
  exact (hobs.eval fun _ _ => trivial).symm

end Loop

/-! ## What a loaded configuration gives the client -/

section Configured

variable {file : Bytes} {cfg : GwConfig}

/-- A field holds its default, or a value that passed the check of its key. -/
theorem field_checked (hload : gwConfigLoad file = .ok cfg) (k : ConfigKey) :
    k.get cfg = k.get (gwConfigDefaults file) ∨ ∃ v, k.parse v = some (k.get cfg) := by
  have hsize : file.length ≤ gwConfigMax := by
    refine Nat.le_of_not_lt fun hlong => ?_
    rw [gwConfigLoad, if_pos hlong] at hload
    cases hload
  have hnul : (0 : UInt8) ∉ file := by
    intro hmem
    rw [gwConfigLoad, if_neg (Nat.not_lt.2 hsize), if_pos hmem] at hload
    cases hload
  have hget := ((gwConfigLoad_iff hnul hsize).2 cfg hload).2 k
  cases hlast : lastValue k ((lines file).flatMap (chunks 1023)) with
  | none =>
    rw [hlast] at hget
    exact .inl hget
  | some v =>
    rw [hlast] at hget
    obtain ⟨l, -, hv⟩ := lastValue_mem hlast
    exact .inr ⟨lineValue l, by rw [hget]; exact hv⟩

theorem number_checked {x lo hi d : Int} (hdefault : lo ≤ d ∧ d ≤ hi)
    (h : x = d ∨ ∃ v, setLong v lo hi = some x) : lo ≤ x ∧ x ≤ hi := by
  rcases h with rfl | ⟨v, hv⟩
  · exact hdefault
  · exact setLong_ok hv

theorem maxAttempts_checked (hload : gwConfigLoad file = .ok cfg) :
    1 ≤ cfg.maxAttempts ∧ cfg.maxAttempts ≤ 10 :=
  number_checked (d := 3) (by decide) (field_checked hload .maxAttempts)

/-- A byte that may stand in a header line. -/
def HeaderByte (b : UInt8) : Prop := 0x20 ≤ b.toNat ∧ b ≠ 0x7F

theorem anthropicVersion_checked (hload : gwConfigLoad file = .ok cfg) :
    (∀ b ∈ cfg.anthropicVersion.bytes, HeaderByte b) ∧ cfg.anthropicVersion.bytes.length < 64 := by
  rcases field_checked hload .anthropicVersion with hdefault | ⟨v, hv⟩
  · have hget : cfg.anthropicVersion = .ofBytes (ascii "2023-06-01") := hdefault
    have hbytes : (CStr.ofBytes (ascii "2023-06-01")).bytes = ascii "2023-06-01" :=
      CStr.ofBytes_of_nulFree (by decide)
    rw [hget, hbytes]
    have hall : ∀ b ∈ ascii "2023-06-01", 0x20 ≤ b.toNat ∧ b ≠ 0x7F := by decide
    exact ⟨hall, by decide⟩
  · have hv : (setHeaderValue anthropicVersionMax (ConfigKey.name .anthropicVersion) v 0).toOption =
        some cfg.anthropicVersion := hv
    unfold setHeaderValue at hv
    cases hfind : v.find? fun c => c.toNat < 0x20 || c == 0x7F with
    | some c =>
      rw [hfind] at hv
      cases hv
    | none =>
      rw [hfind] at hv
      cases hset : setStr anthropicVersionMax v with
      | none =>
        rw [hset] at hv
        cases hv
      | some s =>
        rw [hset] at hv
        obtain rfl : s = cfg.anthropicVersion := Option.some.inj hv
        refine ⟨fun b hb => ?_, setStr_length hset⟩
        have hmem : b ∈ v := by
          unfold setStr at hset
          split at hset
          · cases hset
          · rw [← Option.some.inj hset] at hb
            exact (List.takeWhile_sublist _).subset hb
        have hclean := List.find?_eq_none.1 hfind b hmem
        simp only [Bool.or_eq_true, decide_eq_true_eq, beq_iff_eq, not_or] at hclean
        exact ⟨Nat.le_of_not_lt hclean.1, hclean.2⟩

end Configured

/-! ## Attempts -/

section Attempts

variable (cfg : GwConfig) (apiKey : CStr) (request : Bytes) (envs : Nat → curlMachine.Env)

/-- The operations of a call, with their answers. -/
def callTrace : List (Answered CurlOp CurlAns) :=
  curlMachine.trace (gwcCallProg cfg apiKey request) envs ()

/-- The result of a call. -/
def callResult : Option GwcResult := (curlMachine.eval (gwcCallProg cfg apiKey request) envs ()).1

variable {cfg apiKey request envs}

theorem callTrace_called (cfg : GwConfig) (apiKey : CStr) (request : Bytes)
    (envs : Nat → curlMachine.Env) :
    Called cfg (callTrace cfg apiKey request envs) (callResult cfg apiKey request envs) :=
  (gwcCallProg_called cfg apiKey request envs).1

end Attempts

/-! ## Pauses -/

section Pauses

/-- A pause in milliseconds. -/
def msOf (p : Int × Int) : Int := p.1 * 1000 + p.2 / 1000000

def totalMs (ps : List (Int × Int)) : Int := (ps.map msOf).foldr (· + ·) 0

theorem onHeader_range {v : Int} (hlo : 0 ≤ v) (hhi : v ≤ 3600) (line beyond : Bytes) :
    0 ≤ onHeader v line beyond ∧ onHeader v line beyond ≤ 3600 := by
  unfold onHeader
  dsimp only
  split
  · split
    · next hv => exact ⟨Int.le_of_lt hv.1, hv.2⟩
    · exact ⟨hlo, hhi⟩
  · exact ⟨hlo, hhi⟩

theorem retryAfterS_range (x : Exchange) : 0 ≤ x.retryAfterS ∧ x.retryAfterS ≤ 3600 := by
  have hfold : ∀ (lines : List (Bytes × Bytes)) (v : Int), 0 ≤ v → v ≤ 3600 →
      0 ≤ lines.foldl (fun v line => onHeader v line.1 line.2) v ∧
        lines.foldl (fun v line => onHeader v line.1 line.2) v ≤ 3600 := by
    intro lines
    induction lines with
    | nil => exact fun v hlo hhi => ⟨hlo, hhi⟩
    | cons line lines ih =>
      intro v hlo hhi
      obtain ⟨hlo', hhi'⟩ := onHeader_range hlo hhi line.1 line.2
      exact ih _ hlo' hhi'
  exact hfold x.headerLines 0 (Int.le_refl 0) (by decide)

/-- What a pause comes to in milliseconds: `retry-after`, or the doubled base with a jitter below
half a second, and never more than a minute. -/
structure PauseBounds (n : Nat) (retryAfterS ms : Int) : Prop where
  least : 1000 ≤ ms
  most : ms ≤ 60000
  wins : 0 < retryAfterS → ms = min (retryAfterS * 1000) 60000
  base : retryAfterS = 0 → min (1000 <<< (n - 1) : Nat) 60000 ≤ ms ∧
    ms < (1000 <<< (n - 1) + 500 : Nat)

theorem backoffMs_bounds (n : Nat) {v : Int} (hv : 0 ≤ v) (r : Nat) :
    PauseBounds n v (backoffMs n v r) := by
  have hjitter := Nat.mod_lt r (show 0 < 500 by decide)
  have hbase : 1000 ≤ 1000 <<< (n - 1) := by
    rw [Nat.shiftLeft_eq]
    exact Nat.le_mul_of_pos_right _ (Nat.two_pow_pos _)
  unfold backoffMs
  dsimp only
  by_cases hwins : v > 0
  · rw [if_pos hwins]
    constructor <;> (try intro _) <;> split <;> omega
  · rw [if_neg hwins]
    constructor <;> (try intro _) <;> split <;> omega

theorem msOf_pause {n : Nat} {x : Exchange} {p : Int × Int} (hp : PauseOf n x p) :
    (0 ≤ p.2 ∧ p.2 < 1000000000) ∧ PauseBounds n x.retryAfterS (msOf p) := by
  obtain ⟨r, rfl⟩ := hp
  have hbounds := backoffMs_bounds n (retryAfterS_range x).1 r
  generalize backoffMs n x.retryAfterS r = ms at hbounds ⊢
  have hsame : msOf (ms / 1000, ms % 1000 * 1000000) = ms := by
    unfold msOf
    dsimp only
    omega
  have hmod := Int.emod_lt_of_pos ms (show 0 < 1000 by decide)
  have hpos := Int.emod_nonneg ms (show (1000 : Int) ≠ 0 by decide)
  rw [hsame]
  refine ⟨?_, hbounds⟩
  dsimp only
  omega

theorem totalMs_le {ps : List (Int × Int)} (h : ∀ p ∈ ps, msOf p ≤ 60000) :
    totalMs ps ≤ 60000 * ps.length := by
  induction ps with
  | nil => exact Int.le_refl 0
  | cons p ps ih =>
    obtain ⟨hp, hps⟩ := List.forall_mem_cons.1 h
    have hrest := ih hps
    have hcons : totalMs (p :: ps) = msOf p + totalMs ps := rfl
    rw [hcons, List.length_cons]
    push_cast
    omega

/-- **Behind each transfer that is tried again stands one pause**, of at least a second and at most
a minute: what `retry-after` asks for, else the doubled base with its jitter. There is no other
pause, and only the last transfer has none. `nanosleep` is never given a fraction that is no
fraction of a second, and a loaded configuration pauses for nine minutes at most. -/
theorem call_pauses {file : Bytes} {cfg : GwConfig} (hload : gwConfigLoad file = .ok cfg)
    (apiKey : CStr) (request : Bytes) (envs : Nat → curlMachine.Env) :
    ∃ (rounds : List Round) (last : Option Exchange),
      moves (callTrace cfg apiKey request envs) =
        rounds.flatMap Round.moves ++ last.toList.map .transfer ∧
      rounds.length < cfg.maxAttempts.toNat ∧
      (∀ i r, rounds[i]? = some r → r.exchange.Retryable ∧
        (0 ≤ r.pause.2 ∧ r.pause.2 < 1000000000) ∧
        PauseBounds (i + 1) r.exchange.retryAfterS (msOf r.pause)) ∧
      totalMs (rounds.map Round.pause) ≤ 540000 := by
  obtain ⟨hone, hten⟩ := maxAttempts_checked hload
  obtain ⟨rounds, last, hmoves, htried⟩ : ∃ (rounds : List Round) (last : Option Exchange),
      moves (callTrace cfg apiKey request envs) =
        rounds.flatMap Round.moves ++ last.toList.map .transfer ∧ Tried cfg rounds := by
    have hcall := callTrace_called cfg apiKey request envs
    generalize callTrace cfg apiKey request envs = h at hcall ⊢
    generalize callResult cfg apiKey request envs = r at hcall
    cases hcall with
    | noAttempts hzero => omega
    | @stopped h rounds r hmoves htried _ =>
      exact ⟨rounds, none, hmoves.trans (List.append_nil _).symm, htried⟩
    | @ended h rounds q x hmoves htried _ _ => exact ⟨rounds, some x, hmoves, htried⟩
  have hpause : ∀ i r, rounds[i]? = some r → r.exchange.Retryable ∧
      (0 ≤ r.pause.2 ∧ r.pause.2 < 1000000000) ∧
      PauseBounds (i + 1) r.exchange.retryAfterS (msOf r.pause) := fun i r hr =>
    ⟨htried.retryable r (List.mem_of_getElem? hr), msOf_pause (htried.pause i r hr)⟩
  refine ⟨rounds, last, hmoves, htried.left, hpause, ?_⟩
  have htotal : totalMs (rounds.map Round.pause) ≤ 60000 * (rounds.map Round.pause).length := by
    apply totalMs_le
    intro p hp
    obtain ⟨r, hr, rfl⟩ := List.mem_map.1 hp
    obtain ⟨i, hi⟩ := List.mem_iff_getElem?.1 hr
    exact (hpause i r hi).2.2.most
  have hleft := htried.left
  rw [List.length_map] at htotal
  omega

/-- libcurl does what it is asked for, and every transfer comes to the same exchange. -/
def answeringCurl (x : Exchange) : curlMachine.Env
  | .easyInit | .slistAppend _ | .setProtocols => true
  | .perform _ => x
  | .rand => 0
  | .nanosleep _ _ => ()

/-- The upstream is overloaded. -/
def busyExchange : Exchange where
  rc := .ok
  chunks := []
  status := 529
  curlErr := []
  strerror := []
  headerLines := []

/-- Three transfers, with a second between the first two and two seconds behind the second. -/
theorem call_pauses_sample :
    moves (callTrace servedConfig (.ofBytes (ascii "k")) [] fun _ => answeringCurl busyExchange) =
      [.transfer busyExchange, .pause (1, 0), .transfer busyExchange, .pause (2, 0),
        .transfer busyExchange] ∧
    ∃ (rounds : List Round) (last : Option Exchange),
      moves (callTrace servedConfig (.ofBytes (ascii "k")) [] fun _ => answeringCurl busyExchange) =
        rounds.flatMap Round.moves ++ last.toList.map .transfer ∧
      totalMs (rounds.map Round.pause) ≤ 540000 := by
  refine ⟨by rfl, ?_⟩
  obtain ⟨rounds, last, hmoves, -, -, htotal⟩ := call_pauses servedConfig_loads
    (.ofBytes (ascii "k")) [] fun _ => answeringCurl busyExchange
  exact ⟨rounds, last, hmoves, htotal⟩

end Pauses

end AxiomaOracle
