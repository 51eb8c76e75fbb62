import AxiomaOracle.Verify.Extract
import AxiomaOracle.Verify.Fallback
import AxiomaOracle.Verify.Requests
import AxiomaOracle.Verify.Upstream

/-!
# The effects of a request

What `handle_request` does to the outside, call by call: `Lawful` is the condition on every call of
a request, and `Finished` on its end. The oracle is called behind the intent of the same prompt, the
ledger receives only frames of its observation, and the client hears a refusal, or a response whose
record the ledger holds.

Each rule below is for one stage of the request. Behind the intent the process is always current: a
blocked one has an open intent, and cannot create another.
-/

namespace AxiomaOracle

open Lib

/-- What was sent to the client, with the results of the calls. -/
def sends (h : List (Answered Op Ans)) : List (Bytes × Bool) :=
  h.filterMap fun
    | ⟨.send bs, ok⟩ => some (bs, ok)
    | _ => none

/-- The calls to the oracle, with their results. -/
def oracleCalls (h : List (Answered Op Ans)) : List (Bytes × Option GwcResult) :=
  h.filterMap fun
    | ⟨.gwcCall request, res⟩ => some (request, res)
    | _ => none

/-- The text of `proto_error`. -/
def refusal (reason : Bytes) : Bytes := ascii "status: error\nreason: " ++ reason ++ ascii "\n\n"

/-- The admission of an outcome. -/
def admission {S : Substrate} (cfg : GwConfig) (st : GwState S) (norm : Bytes)
    (params : AxOracleParams) (o : Outcome) : AdmitResult :=
  axObsAdmit S axMaxOutputBytes (observationInput cfg st o.state o.ftype norm o.output params)
    st.adm {}

/-- What a result is recorded as: its outcome, or `INVALID_OUTPUT` when admission refuses it. -/
def recordedOutcome {S : Substrate} (cfg : GwConfig) (st : GwState S) (norm : Bytes)
    (params : AxOracleParams) (res : GwcResult) : Outcome :=
  if (admission cfg st norm params (outcomeFrom res)).ret = none then outcomeFrom res
  else .failed .invalidOutput

section Effects

variable (S : Substrate) (cfg : GwConfig) (whole : Prop) (req : Bytes)

/-- The oracle is called behind the intent of the prompt that the body holds: there was none before,
`gw_wal_write` wrote it, and no call on the WAL came in between. -/
structure Intended (st0 : GwState S) (w0 : World) (request : Bytes) (m : Step (machine cfg))
    (hdr : Header) (norm : Bytes) : Prop where
  prompts : Prompts cfg req hdr norm
  budget : st0.callsMade < cfg.callBudget
  body : buildRequest cfg (requestParams hdr) norm = some request
  absent : w0.node (cfg.path .wal) = none
  written : ∃ envs logs,
    m.before = (machine cfg).trace
      (gwWalWrite cfg (requestIntent (S := S) cfg norm (requestParams hdr))) envs w0 ++ logs ∧
    ((machine cfg).eval
      (gwWalWrite cfg (requestIntent (S := S) cfg norm (requestParams hdr))) envs w0).1 = true ∧
    ∀ c ∈ logs, c.1.role ≠ some .wal
  intent : m.state.file cfg .wal =
    some (intentText (requestIntent (S := S) cfg norm (requestParams hdr)))

/-- A response: its record is in the ledger, and a text for the caller is that of the 200 body. -/
structure Response (before : List (Answered Op Ans)) (w : World) (o : Outcome) (info : CommitInfo)
    (params : AxOracleParams) : Prop where
  recorded : ∃ hdr norm rec, Prompts cfg req hdr norm ∧ params = requestParams hdr ∧
    Recorded S cfg norm o.output rec info w
  answered : o.okForCaller = true → ∃ request res stop, ⟨.gwcCall request, some res⟩ ∈ before ∧
    res.outcome = .ok ∧ extractText (res.body.getD []) = some (o.output, stop)

/-- One thing that is sent: a refusal, the header of a response, or the text behind it. -/
def Answers (bs : Bytes) (m : Step (machine cfg)) : Prop :=
  (∃ reason, bs = refusal reason) ∨
    ∃ o info params, Response S cfg req m.before m.state o info params ∧
      (bs = responseHeader cfg o info params ∧ sends m.before = [] ∨
        bs = o.output ∧ sends m.before = [(responseHeader cfg o info params, true)])

/-- The condition on every call of a request that starts in `w0`. -/
structure Lawful (st0 : GwState S) (w0 : World) (m : Step (machine cfg)) : Prop where
  before : Framed S cfg whole m.state
  after : Framed S cfg whole m.next
  call : ∀ request, m.op = .gwcCall request → ∃ hdr norm,
    Intended S cfg req st0 w0 request m hdr norm
  write : ∀ chunk, m.op = .write .ledger chunk → ∃ hdr norm output rec f,
    Prompts cfg req hdr norm ∧ Observed S norm output rec ∧
    FrameFor S gwTagObs (obsText rec true) f ∧ chunk ∈ frameChunks f.tag f.payload f.commit
  send : ∀ bs, m.op = .send bs → Answers S cfg req bs m

/-- Everything that is sent in a request. -/
inductive Said (before : List (Answered Op Ans)) (w : World) : List (Bytes × Bool) → Prop where
  | refused (reason : Bytes) (ok : Bool) : Said before w [(refusal reason, ok)]
  | cut {o : Outcome} {info : CommitInfo} {params : AxOracleParams} :
      Said before w [(responseHeader cfg o info params, false)]
  | served {o : Outcome} {info : CommitInfo} {params : AxOracleParams}
      {rest : List (Bytes × Bool)} (hresp : Response S cfg req before w o info params)
      (hrest : (rest.map Prod.fst).flatten = o.output) :
      Said before w ((responseHeader cfg o info params, true) :: rest)

/-- One more observation, that of the one result, and the chain and the guard with it. -/
structure Advanced (st0 : GwState S) (w0 : World) (st : GwState S) (h : List (Answered Op Ans))
    (w : World) : Prop where
  filed : ∃ hdr norm request res fs f, Prompts cfg req hdr norm ∧
    oracleCalls h = [(request, some res)] ∧ w0.content cfg .ledger = encodeAll fs ∧
    w.content cfg .ledger = encodeAll (fs ++ [f]) ∧
    FrameFor S gwTagObs (obsText (admission cfg st0 norm (requestParams hdr)
      (recordedOutcome cfg st0 norm (requestParams hdr) res)).out true) f
  seq : gwlSeq st.gwl = gwlSeq st0.gwl + 1
  adm : st.adm = ⟨gwlSeq st.gwl, true⟩

/-- One more observation, and no open intent. -/
structure Committed (st0 : GwState S) (w0 : World) (st : GwState S) (h : List (Answered Op Ans))
    (w : World) : Prop extends Advanced S cfg req st0 w0 st h w where
  absent : w.node (cfg.path .wal) = none

/-- The calls on the ledger and on the WAL succeed, the client returns, nothing outside faults, and
the configuration was loaded. -/
structure Smooth (D : Step (machine cfg) → Prop) : Prop where
  primary : ¬ PrimaryFails D
  wal : ¬ WalFails D
  reply : ∀ h w request e, D ⟨h, w, .gwcCall request, e⟩ →
    (exec cfg (.gwcCall request) e w).1 ≠ none
  faultless : Faultless S
  loaded : Loaded cfg

/-- The request is one to serve: it is accepted, within the budget, and no intent is open. -/
structure Due (D : Step (machine cfg) → Prop) (st0 : GwState S) (w0 : World) : Prop
    extends Smooth S cfg D where
  prompts : ∃ hdr norm, Prompts cfg req hdr norm
  budget : st0.callsMade < cfg.callBudget
  absent : w0.node (cfg.path .wal) = none

/-- The end of a request from an idle state. -/
structure Finished (D : Step (machine cfg) → Prop) (st0 : GwState S) (w0 : World) (st : GwState S)
    (h : List (Answered Op Ans)) (w : World) : Prop where
  standing : Standing S cfg whole st w
  said : Said S cfg req h w (sends h)
  committed : Due S cfg req D st0 w0 → Committed S cfg req st0 w0 st h w

variable {S cfg whole req} {D : Step (machine cfg) → Prop} {h h' : List (Answered Op Ans)}
  {w0 w w' : World} {secret norm : Bytes} {st0 st : GwState S} {hdr : Header}

/-! ## Sends -/

theorem sends_append (h h' : List (Answered Op Ans)) : sends (h ++ h') = sends h ++ sends h' :=
  List.filterMap_append

theorem oracleCalls_append (h h' : List (Answered Op Ans)) :
    oracleCalls (h ++ h') = oracleCalls h ++ oracleCalls h' := List.filterMap_append

/-- Calls of another kind send nothing. -/
theorem sends_of_extends {O : Op → Prop} (hO : ∀ o, O o → ∀ bs, o ≠ .send bs)
    (hext : Extends O h h') : sends h' = sends h := by
  obtain ⟨cs, rfl, hcs⟩ := hext
  have hnil : sends cs = [] := by
    refine List.filterMap_eq_nil_iff.2 ?_
    rintro ⟨o, a⟩ hc
    cases o with
    | send bs => exact absurd rfl (hO _ (hcs _ hc) bs)
    | _ => rfl
  rw [sends_append, hnil, List.append_nil]

theorem oracleCalls_of_extends {O : Op → Prop} (hO : ∀ o, O o → ∀ request, o ≠ .gwcCall request)
    (hext : Extends O h h') : oracleCalls h' = oracleCalls h := by
  obtain ⟨cs, rfl, hcs⟩ := hext
  have hnil : oracleCalls cs = [] := by
    refine List.filterMap_eq_nil_iff.2 ?_
    rintro ⟨o, a⟩ hc
    cases o with
    | gwcCall request => exact absurd rfl (hO _ (hcs _ hc) request)
    | _ => rfl
  rw [oracleCalls_append, hnil, List.append_nil]

theorem mem_of_oracleCalls {request : Bytes} {res : Option GwcResult}
    (hmem : (request, res) ∈ oracleCalls h) : ⟨.gwcCall request, res⟩ ∈ h := by
  obtain ⟨⟨o, a⟩, hc, heq⟩ := List.mem_filterMap.1 hmem
  cases o with
  | gwcCall request' =>
    cases heq
    exact hc
  | _ => cases heq

theorem mem_of_sends {bs : Bytes} {ok : Bool} (hmem : (bs, ok) ∈ sends h) : ⟨.send bs, ok⟩ ∈ h := by
  obtain ⟨⟨o, a⟩, hc, heq⟩ := List.mem_filterMap.1 hmem
  cases o with
  | send bs' =>
    cases heq
    exact hc
  | _ => cases heq

theorem Op.Quiet.not_gwcCall {o : Op} (ho : o.Quiet) (request : Bytes) : o ≠ .gwcCall request := by
  rintro rfl
  simp [Op.Quiet, Op.Capture] at ho

theorem Op.Quiet.not_write {o : Op} (ho : o.Quiet) (chunk : Bytes) : o ≠ .write .ledger chunk := by
  rintro rfl
  simp [Op.Quiet, Op.Capture, Op.role] at ho

theorem Op.Quiet.not_wal {o : Op} (ho : o.Quiet) : o.role ≠ some .wal := by
  rcases ho with rfl | rfl | hcap | ⟨-, hwal, -⟩
  · simp [Op.role]
  · simp [Op.role]
  · rcases hcap with rfl | ⟨bs, rfl⟩ | rfl | rfl <;> simp [Op.role]
  · exact hwal

/-- Nothing was sent, and the oracle was not called. -/
structure SameTalk (h h' : List (Answered Op Ans)) : Prop where
  sends : sends h' = sends h
  calls : oracleCalls h' = oracleCalls h

theorem talk_mute (hext : Extends Op.Mute h h') : SameTalk h h' :=
  ⟨sends_of_extends (fun _ ho => ho.2) hext,
    oracleCalls_of_extends (fun _ ho => ho.1.not_gwcCall) hext⟩

theorem talk_onWal (hext : Extends Op.OnWal h h') : SameTalk h h' := by
  constructor
  · refine sends_of_extends ?_ hext
    rintro o ho bs rfl
    cases ho
  · refine oracleCalls_of_extends ?_ hext
    rintro o ho request rfl
    cases ho

theorem talk_append (hext : Extends Op.Append h h') : SameTalk h h' := by
  constructor
  · refine sends_of_extends ?_ hext
    rintro o (ho | ho) bs rfl <;> cases ho
  · refine oracleCalls_of_extends ?_ hext
    rintro o (ho | ho) request rfl <;> cases ho

theorem Response.later {o : Outcome} {info : CommitInfo} {params : AxOracleParams}
    (hr : Response S cfg req h w o info params) {O : Op → Prop} (hext : Extends O h h')
    (hcontent : w'.content cfg .ledger = w.content cfg .ledger) :
    Response S cfg req h' w' o info params := by
  constructor
  · obtain ⟨hdr, norm, rec, hp, hparams, hrec⟩ := hr.recorded
    exact ⟨hdr, norm, rec, hp, hparams, hrec.congr hcontent⟩
  · intro hok
    obtain ⟨request, res, stop, hmem, hrest⟩ := hr.answered hok
    exact ⟨request, res, stop, hext.subset hmem, hrest⟩

/-! ## Quiet stages -/

/-- A call that is neither a call to the oracle, nor a write to the ledger, nor a send. -/
theorem lawful_of_other {m : Step (machine cfg)} (hpre : Framed S cfg whole m.state)
    (hpost : Framed S cfg whole m.next) (hcall : ∀ request, m.op ≠ .gwcCall request)
    (hwrite : ∀ chunk, m.op ≠ .write .ledger chunk) (hsend : ∀ bs, m.op ≠ .send bs) :
    Lawful S cfg whole req st0 w0 m :=
  ⟨hpre, hpost, fun request heq => absurd heq (hcall request),
    fun chunk heq => absurd heq (hwrite chunk), fun bs heq => absurd heq (hsend bs)⟩

/-- A call on the WAL, with the ledger as it was. -/
theorem lawful_of_onWal {m : Step (machine cfg)} (hrole : m.op.role = some .wal)
    (hpre : Framed S cfg whole m.state) (hpost : Framed S cfg whole m.next) :
    Lawful S cfg whole req st0 w0 m := by
  refine lawful_of_other hpre hpost ?_ ?_ ?_
  all_goals
    intro x heq
    rw [heq] at hrole
    cases hrole

theorem mute_observes (hpaths : PathsApart cfg) {α : Type}
    {Q : α → List (Answered Op Ans) → World → Prop} {p : Io α} (hp : p.Only Op.Mute)
    (hframed : Framed S cfg whole w)
    (hQ : ∀ a h' w', Same cfg w w' → Extends Op.Mute h h' → Q a h' w') :
    Observes (machine cfg) D (Lawful S cfg whole req st0 w0) Q p h w := by
  refine .of_only (J := Same cfg w) ?_ ?_ hp (Same.refl w) fun a h' w' hext hs => hQ a h' w' hs hext
  · intro o e s ho hs
    exact hs.trans (exec_quiet hpaths ho.1)
  · intro m _ hm hs _
    have hs' : Same cfg w m.next := hs.trans (exec_quiet hpaths hm.1)
    exact lawful_of_other (hframed.congr hs.content) (hframed.congr hs'.content)
      hm.1.not_gwcCall hm.1.not_write hm.2

/-- A mute program, and what follows it. -/
theorem mute_bind (hpaths : PathsApart cfg) {α β : Type}
    {Q : β → List (Answered Op Ans) → World → Prop} {p : Io α} {f : α → Io β}
    (hp : p.Only Op.Mute) (hframed : Framed S cfg whole w)
    (hf : ∀ a h' w', Same cfg w w' → Extends Op.Mute h h' →
      Observes (machine cfg) D (Lawful S cfg whole req st0 w0) Q (f a) h' w') :
    Observes (machine cfg) D (Lawful S cfg whole req st0 w0) Q (p >>= f) h w :=
  (mute_observes hpaths hp hframed fun _ _ _ hs hext => And.intro hs hext).bind
    fun a h' w' hq => hf a h' w' hq.1 hq.2

/-- One send. -/
theorem send_observes (hpaths : PathsApart cfg) {α : Type}
    {Q : α → List (Answered Op Ans) → World → Prop} {bs : Bytes} {k : Bool → Io α}
    (hframed : Framed S cfg whole w)
    (hans : ∀ e, Answers S cfg req bs ⟨h, w, .send bs, e⟩)
    (hk : ∀ ok w', Same cfg w w' → Observes (machine cfg) D (Lawful S cfg whole req st0 w0) Q (k ok)
      (h ++ [⟨.send bs, ok⟩]) w') :
    Observes (machine cfg) D (Lawful S cfg whole req st0 w0) Q (sys (.send bs) >>= k) h w := by
  have hsame : ∀ e, Same cfg w (exec cfg (.send bs) e w).2 := fun e => exec_quiet hpaths (.send bs)
  refine Observes.perform (fun e _ => ?_) fun e _ => hk _ _ (hsame e)
  refine ⟨hframed, hframed.congr (hsame e).content, ?_, ?_, ?_⟩
  · intro request heq
    cases heq
  · intro chunk heq
    cases heq
  · intro bs' heq
    cases heq
    exact hans e

theorem sends_send {bs : Bytes} {ok : Bool} (hnone : sends h = []) :
    sends (h ++ [⟨.send bs, ok⟩]) = [(bs, ok)] := by
  rw [sends_append, hnone]
  rfl

theorem oracleCalls_send {bs : Bytes} {ok : Bool} (h : List (Answered Op Ans)) :
    oracleCalls (h ++ [⟨.send bs, ok⟩]) = oracleCalls h := by
  rw [oracleCalls_append]
  exact List.append_nil _

variable (S cfg whole req) in
/-- The request fails: nothing has been said, and it was not one to serve without a failure. -/
structure Failing (D : Step (machine cfg) → Prop) (st0 : GwState S) (w0 : World) (st : GwState S)
    (h : List (Answered Op Ans)) (w : World) : Prop where
  standing : Standing S cfg whole st w
  silent : sends h = []
  rough : ¬ Due S cfg req D st0 w0

theorem Failing.same (hf : Failing S cfg whole req D st0 w0 st h w) (hs : Same cfg w w')
    (hext : Extends Op.Mute h h') : Failing S cfg whole req D st0 w0 st h' w' :=
  ⟨hf.standing.same hs, (talk_mute hext).sends.trans hf.silent, hf.rough⟩

/-- A refusal ends the request. -/
theorem Failing.refuse (hpaths : PathsApart cfg) {reason : Bytes}
    (hf : Failing S cfg whole req D st0 w0 st h w) :
    Observes (machine cfg) D (Lawful S cfg whole req st0 w0)
      (fun _ h' w' => Finished S cfg whole req D st0 w0 st h' w') (protoError reason) h w := by
  refine send_observes (k := fun _ => pure ()) hpaths hf.standing.framed
    (fun e => .inl ⟨reason, rfl⟩) fun ok w' hs => ?_
  refine .ret ⟨hf.standing.same hs, ?_, fun hdue => absurd hdue hf.rough⟩
  rw [sends_send hf.silent]
  exact .refused reason ok

/-! ## The response -/

theorem respond_observes (hpaths : PathsApart cfg) {o : Outcome} {info : CommitInfo}
    {params : AxOracleParams} {Q : Unit → List (Answered Op Ans) → World → Prop}
    (hframed : Framed S cfg whole w) (hresp : Response S cfg req h w o info params)
    (hnone : sends h = [])
    (hQ : ∀ h' w', Same cfg w w' → Said S cfg req h' w' (sends h') →
      oracleCalls h' = oracleCalls h → Q () h' w') :
    Observes (machine cfg) D (Lawful S cfg whole req st0 w0) Q
      (respond cfg secret o info params) h w := by
  unfold respond
  cases hbuf : C.snprintf (384 + gwIdMax) (responseHeader cfg o info params) with
  | none =>
    refine mute_bind hpaths (gwLogSeq_mute secret _ _ _ _) hframed fun _ h1 w1 hs1 hext1 => ?_
    refine send_observes (k := fun _ => pure ()) hpaths (hframed.congr hs1.content)
      (fun e => .inl ⟨ascii "internal", rfl⟩) fun ok w2 hs2 =>
        .ret (hQ _ w2 (hs1.trans hs2) ?_ ((oracleCalls_send _).trans (talk_mute hext1).calls))
    rw [sends_send ((talk_mute hext1).sends.trans hnone)]
    exact .refused _ ok
  | some buf =>
    obtain rfl := C.snprintf_eq_some hbuf
    refine send_observes hpaths hframed
      (fun e => .inr ⟨o, info, params, hresp, .inl ⟨rfl, hnone⟩⟩) fun ok w1 hs1 => ?_
    have hsent : sends (h ++ [⟨.send (responseHeader cfg o info params), ok⟩]) = _ :=
      sends_send hnone
    cases ok with
    | false =>
      refine .ret (hQ _ w1 hs1 ?_ (oracleCalls_send _))
      rw [hsent]
      exact .cut
    | true =>
      have hresp1 : Response S cfg req
          (h ++ [⟨.send (responseHeader cfg o info params), true⟩]) w1 o info params :=
        hresp.later (.call (P := fun _ => True) trivial _) hs1.content
      by_cases hlen : o.output.length > 0
      · simp only [hlen, if_true]
        refine send_observes (k := fun _ => pure ()) hpaths (hframed.congr hs1.content)
          (fun e => .inr ⟨o, info, params, hresp1, .inr ⟨rfl, hsent⟩⟩) fun ok w2 hs2 =>
            .ret (hQ _ w2 (hs1.trans hs2) ?_ ((oracleCalls_send _).trans (oracleCalls_send _)))
        rw [sends_append, hsent]
        refine .served (hresp1.later (.call (P := fun _ => True) trivial _) hs2.content) ?_
        exact List.append_nil _
      · simp only [hlen, if_false]
        refine .ret (hQ _ w1 hs1 ?_ (oracleCalls_send _))
        rw [hsent]
        refine .served hresp1 ?_
        have hnil : o.output = [] := List.length_eq_zero_iff.1 (by omega)
        rw [hnil]
        rfl

theorem Advanced.later (hadv : Advanced S cfg req st0 w0 st h w)
    (hcalls : oracleCalls h' = oracleCalls h)
    (hcontent : w'.content cfg .ledger = w.content cfg .ledger) (drop : Bool) :
    Advanced S cfg req st0 w0 { st with exportDropLogged := drop } h' w' := by
  refine ⟨?_, hadv.seq, hadv.adm⟩
  rw [hcalls, hcontent]
  exact hadv.filed

theorem Committed.later (hc : Committed S cfg req st0 w0 st h w)
    (hcalls : oracleCalls h' = oracleCalls h) (hs : Same cfg w w') (drop : Bool) :
    Committed S cfg req st0 w0 { st with exportDropLogged := drop } h' w' :=
  ⟨hc.toAdvanced.later hcalls hs.content drop, hs.wal.trans hc.absent⟩

theorem Standing.drop (hst : Standing S cfg whole st w) (drop : Bool) :
    Standing S cfg whole { st with exportDropLogged := drop } w := by
  refine ⟨hst.framed, ?_⟩
  rcases hst.mode with ⟨genesis, fs, hcur⟩ | hblocked
  · exact .inl ⟨genesis, fs, hcur.inStep, hcur.isOpen, hcur.ordered⟩
  · exact .inr hblocked

variable (S cfg whole req) in
/-- The observation is in the ledger, and the intent still open. -/
structure Filed (st0 : GwState S) (w0 : World) (genesis : S.LedgerCtx) (fs : List Frame)
    (o : Outcome) (info : CommitInfo) (params : AxOracleParams) (st : GwState S)
    (h : List (Answered Op Ans)) (w : World) : Prop where
  current : Current S cfg genesis fs st w
  framed : Framed S cfg whole w
  response : Response S cfg req h w o info params
  silent : sends h = []
  advanced : Advanced S cfg req st0 w0 st h w

variable (S cfg whole req) in
/-- What is left is to respond. -/
structure Reporting (D : Step (machine cfg) → Prop) (st0 : GwState S) (w0 : World) (o : Outcome)
    (info : CommitInfo) (params : AxOracleParams) (st : GwState S) (h : List (Answered Op Ans))
    (w : World) : Prop where
  standing : Standing S cfg whole st w
  response : Response S cfg req h w o info params
  silent : sends h = []
  committed : Due S cfg req D st0 w0 → Committed S cfg req st0 w0 st h w

theorem Filed.same {genesis : S.LedgerCtx} {fs : List Frame} {o : Outcome} {info : CommitInfo}
    {params : AxOracleParams} (hf : Filed S cfg whole req st0 w0 genesis fs o info params st h w)
    (hs : Same cfg w w') (hext : Extends Op.Mute h h') :
    Filed S cfg whole req st0 w0 genesis fs o info params st h' w' where
  current := hf.current.congr hs.ledger hs.ledgerFd
  framed := hf.framed.congr hs.content
  response := hf.response.later hext hs.content
  silent := (talk_mute hext).sends.trans hf.silent
  advanced := hf.advanced.later (talk_mute hext).calls hs.content st.exportDropLogged

theorem Reporting.same {o : Outcome} {info : CommitInfo} {params : AxOracleParams}
    (hr : Reporting S cfg whole req D st0 w0 o info params st h w) (hs : Same cfg w w')
    (hext : Extends Op.Mute h h') : Reporting S cfg whole req D st0 w0 o info params st h' w' where
  standing := hr.standing.same hs
  response := hr.response.later hext hs.content
  silent := (talk_mute hext).sends.trans hr.silent
  committed hdue := (hr.committed hdue).later (talk_mute hext).calls hs st.exportDropLogged

/-- The response ends the request. -/
theorem Reporting.respond (hpaths : PathsApart cfg) {o : Outcome} {info : CommitInfo}
    {params : AxOracleParams} (hr : Reporting S cfg whole req D st0 w0 o info params st h w)
    (drop : Bool) :
    Observes (machine cfg) D (Lawful S cfg whole req st0 w0)
      (fun _ h' w' => Finished S cfg whole req D st0 w0 { st with exportDropLogged := drop } h' w')
      (respond cfg secret o info params) h w := by
  refine respond_observes hpaths hr.standing.framed hr.response hr.silent
    fun h' w' hs hsaid hcalls => ⟨(hr.standing.same hs).drop drop, hsaid, fun hdue => ?_⟩
  exact (hr.committed hdue).later hcalls hs drop

/-- The intent is closed, unless a call on it fails. -/
theorem Filed.clear (hpaths : PathsApart cfg) {genesis : S.LedgerCtx} {fs : List Frame}
    {o : Outcome} {info : CommitInfo} {params : AxOracleParams}
    (hf : Filed S cfg whole req st0 w0 genesis fs o info params st h w) :
    Observes (machine cfg) D (Lawful S cfg whole req st0 w0)
      (fun _ h' w' => Reporting S cfg whole req D st0 w0 o info params st h' w') (gwWalClear cfg)
      h w := by
  have hclosing : ∀ {w'}, Closing cfg w w' → w'.content cfg .ledger = w.content cfg .ledger :=
    fun hc => content_congr hc.ledger
  refine gwWalClear_observes hpaths (fun m hrole hpre hpost _ => lawful_of_onWal hrole
    (hf.framed.congr (hclosing hpre)) (hf.framed.congr (hclosing hpost))) ?_
  intro ok h' w' hc hgone hbad hext
  refine ⟨⟨hf.framed.congr (hclosing hc), .inl ⟨genesis, fs,
    hf.current.congr hc.ledger hc.ledgerFd⟩⟩, hf.response.later hext (hclosing hc),
    (talk_onWal hext).sends.trans hf.silent, fun hdue => ?_⟩
  refine ⟨hf.advanced.later (talk_onWal hext).calls (hclosing hc) st.exportDropLogged, ?_⟩
  cases ok with
  | true => exact hgone rfl
  | false =>
    rcases hbad rfl with hfail | hlong
    · exact absurd hfail hdue.wal
    · exact absurd hdue.loaded.walPath (Nat.not_lt.2 hlong)

end Effects

end AxiomaOracle
