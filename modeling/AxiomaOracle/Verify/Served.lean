import AxiomaOracle.Verify.Budget
import AxiomaOracle.Verify.Limits
import AxiomaOracle.Verify.Reached
import AxiomaOracle.Verify.Soundness

/-!
# What a request leaves

The results about whole requests, from every state the gateway reaches: evidence comes before
effect, every answer of the oracle is recorded once, and what the record holds compared with what
the client is sent and with what the library alone would have stored.
-/

namespace AxiomaOracle

open Lib

section Served

variable {S : Substrate} {cfg : GwConfig} {host : Host} {node : Bytes → Option Node}
  {w : World} {st : GwState S} {req secret : Bytes} {envs : Nat → Env}

/-- The rule for a request, for one execution and a condition on its answers. -/
theorem handleRequest_runs (hpaths : PathsApart cfg) (hcount : Counts S)
    (hsize : ((World.initial node).content cfg .ledger).length ≤ offMax)
    (hreach : (gateway S cfg host).Reaches (fun _ => True) (fun _ => True) (.initial node, .down)
      (w, .idle st)) (req secret : Bytes) (envs : Nat → Env) {C : (o : Op) → Ans o → Prop}
    (hC : ∀ c ∈ (machine cfg).trace (handleRequest cfg secret st req) envs w, C c.1 c.2) :
    Standing S cfg False st w ∧
    (∀ m ∈ (machine cfg).steps (handleRequest cfg secret st req) envs [] w,
      Lawful S cfg False req st w m) ∧
    Finished S cfg False req (fun m => C m.op m.answer) st w
      ((machine cfg).eval (handleRequest cfg secret st req) envs w).1
      ((machine cfg).trace (handleRequest cfg secret st req) envs w)
      ((machine cfg).eval (handleRequest cfg secret st req) envs w).2 := by
  have hframed : Framed S cfg False (.initial node) := ⟨hsize, fun hwhole => hwhole.elim⟩
  have hst := standing_of_reaches hpaths hcount hframed hreach
  have hobs : Observes (machine cfg) (fun m => C m.op m.answer) (Lawful S cfg False req st w)
      (Finished S cfg False req (fun m => C m.op m.answer) st w)
      (handleRequest cfg secret st req) [] w := handleRequest_observes hpaths hcount hst
  refine ⟨hst, hobs.eval fun m hm => hC ⟨m.op, m.answer⟩ ?_⟩
  rw [Machine.trace_eq_steps _ _ []]
  exact List.mem_map_of_mem hm

/-! ## A served request -/

/-- A configuration file, and what it loads as. -/
def servedFile : Bytes :=
  ascii "socket_path=sock\nledger_path=ledger\nwal_path=wal\nlog_path=log\nmodel_id=m-1\n"

def servedConfig : GwConfig := { sampleConfig with raw := servedFile }

theorem servedConfig_loads : gwConfigLoad servedFile = .ok servedConfig := by
  decide +kernel

theorem pathsApart_servedConfig : PathsApart servedConfig where
  ledger r hr := pathsApart_sampleConfig.ledger r hr
  wal r hr := pathsApart_sampleConfig.wal r hr

theorem faultless_sampleSubstrate : Faultless sampleSubstrate :=
  ⟨fun _ _ => rfl, fun _ _ => rfl, rfl, fun _ _ => rfl⟩

/-- The gateway once it listens, after a first start. -/
def servedWorld : World := (firstStart servedConfig 40).1

def servedState : GwState sampleSubstrate :=
  (firstStart servedConfig 40).2.state.get (by decide +kernel)

theorem servedState_reached :
    (gateway sampleSubstrate servedConfig sampleHost).Reaches (fun _ => True) (fun _ => True)
      (.initial fun _ => none, .down) (servedWorld, .idle servedState) :=
  ((firstStart_reaches servedConfig 40).weaken (fun _ _ => trivial) fun _ h => h).idle
    (Option.some_get _).symm

theorem sampleRequest_prompts : Prompts servedConfig sampleRequest ⟨2, 1024, 0, -1⟩ (ascii "hi") :=
  ⟨ascii "hi", by rfl, by rfl⟩

/-! ## Evidence before effect -/

/-- **Evidence before effect**, in every history, whatever fails. In a request, the oracle is called
behind the intent of the prompt that the body holds and the record hashes, with no other intent
open; what is sent is a refusal, or a response whose record the ledger holds at its number and head.
A start and a halt do neither. And no process makes more calls than its budget. -/
theorem evidence_before_effect (S : Substrate) (host : Host) (hpaths : PathsApart cfg)
    (hcount : Counts S) (hsize : ((World.initial node).content cfg .ledger).length ≤ offMax) :
    (∀ w st req secret envs, (gateway S cfg host).Reaches (fun _ => True) (fun _ => True)
        (.initial node, .down) (w, .idle st) →
      ∀ m ∈ (machine cfg).steps (handleRequest cfg secret st req) envs [] w,
        (∀ request, m.op = .gwcCall request →
          ∃ hdr norm, Intended S cfg req st w request m hdr norm) ∧
        (∀ chunk, m.op = .write .ledger chunk → ∃ hdr norm output rec f,
          Prompts cfg req hdr norm ∧ Observed S norm output rec ∧
          FrameFor S gwTagObs (obsText rec true) f ∧ chunk ∈ frameChunks f.tag f.payload f.commit) ∧
        ∀ bs, m.op = .send bs → Answers S cfg req bs m) ∧
    ((startUp S cfg host).Only Op.Aside ∧
      ∀ (secret : Bytes) (st : GwState S), (shutDown secret st).Only Op.Aside) ∧
    ∀ w c, (gateway S cfg host).Reaches (fun _ => True) (fun _ => True) (.initial node, .down)
        (w, .down) →
      (gateway S cfg host).Reaches (fun _ => True) (fun _ => False)
        ((gateway S cfg host).step (w, .down) .boot) c →
      c.1.calls.length ≤ w.calls.length + cfg.callBudget.toNat := by
  refine ⟨?_, ⟨startUp_aside cfg S host, shutDown_aside⟩, fun w c _ hrun => ?_⟩
  · intro w st req secret envs hreach m hm
    have hrun := handleRequest_runs (C := fun _ _ => True) hpaths hcount hsize hreach req
      secret envs (fun _ _ => trivial)
    obtain ⟨-, -, hcall, hwrite, hsend⟩ := hrun.2.1 m hm
    exact ⟨hcall, hwrite, hsend⟩
  · exact calls_within_budget host hrun

/-- What the sample request does. -/
def servedSteps : List (Step (machine servedConfig)) :=
  (machine servedConfig).steps (handleRequest servedConfig [] servedState sampleRequest)
    (fun _ => sampleReply) [] servedWorld

/-- The sample request calls the oracle and sends an answer, each behind its evidence, and the
budget bounds the calls of the process. -/
theorem evidence_before_effect_sample :
    (∃ m ∈ servedSteps, ∃ request, m.op = .gwcCall request ∧ ∃ hdr norm,
      Intended sampleSubstrate servedConfig sampleRequest servedState servedWorld request m hdr
        norm) ∧
    (∃ m ∈ servedSteps, ∃ bs, m.op = .send bs ∧
      Answers sampleSubstrate servedConfig sampleRequest bs m) ∧
    ∀ c, (gateway sampleSubstrate servedConfig sampleHost).Reaches (fun _ => True) (fun _ => False)
        ((gateway sampleSubstrate servedConfig sampleHost).step (.initial fun _ => none, .down)
          .boot) c →
      c.1.calls.length ≤ servedConfig.callBudget.toNat := by
  have hsize : ((World.initial fun _ => none).content servedConfig .ledger).length ≤ offMax :=
    Nat.zero_le _
  obtain ⟨hreq, -, hbudget⟩ := evidence_before_effect sampleSubstrate sampleHost
    pathsApart_servedConfig counts_sampleSubstrate hsize
  obtain ⟨hcalls, hsends⟩ :
      (oracleCalls ((machine servedConfig).trace
        (handleRequest servedConfig [] servedState sampleRequest) (fun _ => sampleReply)
        servedWorld)).isEmpty = false ∧
      (sends ((machine servedConfig).trace
        (handleRequest servedConfig [] servedState sampleRequest) (fun _ => sampleReply)
        servedWorld)).isEmpty = false := by
    decide +kernel
  refine ⟨?_, ?_, fun c hrun => ?_⟩
  · obtain ⟨⟨request, res⟩, hmem⟩ := List.isEmpty_eq_false_iff_exists_mem.1 hcalls
    obtain ⟨m, hm, hop⟩ := Machine.exists_step [] (mem_of_oracleCalls hmem)
    exact ⟨m, hm, request, hop, (hreq _ _ _ _ _ servedState_reached m hm).1 request hop⟩
  · obtain ⟨⟨bs, ok⟩, hmem⟩ := List.isEmpty_eq_false_iff_exists_mem.1 hsends
    obtain ⟨m, hm, hop⟩ := Machine.exists_step [] (mem_of_sends hmem)
    exact ⟨m, hm, bs, hop, (hreq _ _ _ _ _ servedState_reached m hm).2.2 bs hop⟩
  · have hle := hbudget _ c .refl hrun
    rwa [show (World.initial fun _ => none).calls.length = 0 from rfl, Nat.zero_add] at hle

/-! ## One observation for each answer -/

/-- The calls on the ledger and on the WAL succeed, and the client returns. -/
def callOk : (o : Op) → Ans o → Bool
  | .gwcCall _, res => res.isSome
  | o, a => primaryOk o a && walOk o a

theorem callOk_split {o : Op} {a : Ans o} (h : callOk o a = true) :
    primaryOk o a = true ∧ walOk o a = true := by
  cases o with
  | gwcCall request => exact ⟨rfl, rfl⟩
  | _ => exact Bool.and_eq_true_iff.1 h

theorem smooth_of_callOk (hload : Loaded cfg) (hfault : Faultless S) :
    Smooth S cfg fun m : Step (machine cfg) => callOk m.op m.answer = true where
  primary := by
    rintro ⟨m, hok, hfail⟩
    rw [(callOk_split hok).1] at hfail
    cases hfail
  wal := by
    rintro ⟨m, hok, hfail⟩
    rw [(callOk_split hok).2] at hfail
    cases hfail
  reply := by
    intro h w request e hok hnone
    have hsome : ((exec cfg (.gwcCall request) e w).1).isSome = true := hok
    rw [hnone] at hsome
    cases hsome
  faultless := hfault
  loaded := hload

/-- **Every answer is recorded once.** An accepted request within its budget, from any reached state
without an open intent, whatever the oracle answers: one observation is appended, the intent is
closed, and chain and guard move by one. And when admission refuses the record of the answer, it
takes the `INVALID_OUTPUT` record that replaces it. -/
theorem outcome_recorded_once {file : Bytes} (hload : gwConfigLoad file = .ok cfg)
    (hpaths : PathsApart cfg) (hcount : Counts S) (hfault : Faultless S)
    (hsize : ((World.initial node).content cfg .ledger).length ≤ offMax)
    (hreach : (gateway S cfg host).Reaches (fun _ => True) (fun _ => True) (.initial node, .down)
      (w, .idle st)) (habsent : w.node (cfg.path .wal) = none) {hdr : Header} {norm : Bytes}
    (hp : Prompts cfg req hdr norm) (hleft : st.callsMade < cfg.callBudget)
    (hok : ∀ c ∈ (machine cfg).trace (handleRequest cfg secret st req) envs w,
      callOk c.1 c.2 = true) :
    (∃ fs f, w.content cfg .ledger = encodeAll fs ∧
      ((machine cfg).eval (handleRequest cfg secret st req) envs w).2.content cfg .ledger =
        encodeAll (fs ++ [f]) ∧ isObs f = true) ∧
    ((machine cfg).eval (handleRequest cfg secret st req) envs w).2.node (cfg.path .wal) = none ∧
    (gwlSeq ((machine cfg).eval (handleRequest cfg secret st req) envs w).1.gwl).toNat =
      (gwlSeq st.gwl).toNat + 1 ∧
    ((machine cfg).eval (handleRequest cfg secret st req) envs w).1.adm =
      ⟨gwlSeq ((machine cfg).eval (handleRequest cfg secret st req) envs w).1.gwl, true⟩ ∧
    ∀ o, (admission cfg st norm (requestParams hdr) o).ret ≠ none →
      (admission cfg { st with adm := (admission cfg st norm (requestParams hdr) o).ctx } norm
        (requestParams hdr) (.failed .invalidOutput)).ret = none := by
  have hcfg := gwConfigLoad_ok hload
  obtain ⟨hst, -, -, -, hcommitted⟩ := handleRequest_runs (C := fun o a => callOk o a = true)
    hpaths hcount hsize hreach req secret envs hok
  obtain ⟨⟨hfiled, hseq, hadm⟩, hgone⟩ :=
    hcommitted ⟨smooth_of_callOk hcfg hfault, ⟨hdr, norm, hp⟩, hleft, habsent⟩
  obtain ⟨hdr', norm', request, res, fs, f, -, -, hbefore, hafter, hf⟩ := hfiled
  obtain ⟨genesis, gs, hcur⟩ := hst.current habsent
  refine ⟨⟨fs, f, hbefore, hafter, ?_⟩, hgone, ?_, hadm, ?_⟩
  · rw [isObs_of_frameFor hf]
    exact beq_self_eq_true _
  · have hsize : (encodeAll gs).length ≤ offMax := hcur.inStep.at_.content ▸ hst.framed.size
    have hnum := hcur.inStep.sequence hcount hsize
    rw [hseq, hnum]
    exact succ_toNat hsize hnum
  · intro o hrefused
    have hctx : (admission cfg st norm (requestParams hdr) o).ctx = st.adm :=
      axObsAdmit_rejects hrefused
    rw [hctx]
    exact failure_admitted hcfg hfault (hcur.ordered_succ hcount hst.framed) (.inr (.inl rfl)) norm
      (requestParams hdr)

theorem outcome_recorded_once_sample :
    (gwlSeq servedState.gwl).toNat = 1 ∧
    (gwlSeq ((machine servedConfig).eval (handleRequest servedConfig [] servedState sampleRequest)
      (fun _ => sampleReply) servedWorld).1.gwl).toNat = (gwlSeq servedState.gwl).toNat + 1 := by
  obtain ⟨hfirst, habsent, hleft, hok⟩ : (gwlSeq servedState.gwl).toNat = 1 ∧
      servedWorld.node (servedConfig.path .wal) = none ∧
      servedState.callsMade < servedConfig.callBudget ∧
      ((machine servedConfig).trace (handleRequest servedConfig [] servedState sampleRequest)
        (fun _ => sampleReply) servedWorld).all (fun c => callOk c.1 c.2) = true := by
    decide +kernel
  refine ⟨hfirst, ?_⟩
  exact (outcome_recorded_once servedConfig_loads pathsApart_servedConfig counts_sampleSubstrate
    faultless_sampleSubstrate (Nat.zero_le _) servedState_reached habsent
    sampleRequest_prompts hleft (List.all_eq_true.1 hok)).2.2.1

/-! ## What is served and what is committed -/

theorem responseHeader_status (cfg : GwConfig) (o : Outcome) (info : CommitInfo)
    (params : AxOracleParams) : ∃ rest, responseHeader cfg o info params = ascii "status: " ++
      ((if o.okForCaller then ascii "ok" else ascii "error") ++ rest) := by
  unfold responseHeader
  simp only [List.append_assoc]
  exact ⟨_, rfl⟩

/-- What is sent with status `ok` is a response, with a text for the caller. -/
theorem Said.served_ok {h : List (Answered Op Ans)} {hdr : Bytes} {rest : List (Bytes × Bool)}
    (hsaid : Said S cfg req h w ((hdr, true) :: rest)) (hok : ascii "status: ok\n" <+: hdr) :
    ∃ o info params, hdr = responseHeader cfg o info params ∧ o.okForCaller = true ∧
      Response S cfg req h w o info params ∧ (rest.map Prod.fst).flatten = o.output := by
  obtain ⟨t, rfl⟩ := hok
  generalize hsent : (ascii "status: ok\n" ++ t, true) :: rest = sent at hsaid
  cases hsaid with
  | refused reason ok =>
    have hhdr := congrArg Prod.fst (List.cons.inj hsent).1
    have hat : some (chr 'o') = some (chr 'e') := congrArg (fun s => (s.drop 8).head?) hhdr
    exact absurd hat (by decide)
  | cut => cases congrArg Prod.snd (List.cons.inj hsent).1
  | @served o info params rest' hresp hrest =>
    have hhdr := congrArg Prod.fst (List.cons.inj hsent).1
    rw [(List.cons.inj hsent).2]
    refine ⟨o, info, params, hhdr, ?_, hresp, hrest⟩
    cases hcase : o.okForCaller with
    | true => rfl
    | false =>
      obtain ⟨rest, hrest⟩ := responseHeader_status cfg o info params
      rw [hrest, hcase] at hhdr
      have hat : some (chr 'o') = some (chr 'e') := congrArg (fun s => (s.drop 8).head?) hhdr
      exact absurd hat (by decide)

/-- A response with status `ok`: its header carries the hash and the number of the record that ends
the ledger, the text behind it is that of the 200 body, and the record holds the text normalised. -/
theorem served_recorded (hpaths : PathsApart cfg) (hcount : Counts S)
    (hsize : ((World.initial node).content cfg .ledger).length ≤ offMax)
    (hreach : (gateway S cfg host).Reaches (fun _ => True) (fun _ => True) (.initial node, .down)
      (w, .idle st)) {hdr : Bytes} {rest : List (Bytes × Bool)}
    (hsent : sends ((machine cfg).trace (handleRequest cfg secret st req) envs w) =
      (hdr, true) :: rest) (hok : ascii "status: ok\n" <+: hdr) :
    ∃ o info params norm rec out request res stop,
      hdr = responseHeader cfg o info params ∧
      Recorded S cfg norm o.output rec info
        ((machine cfg).eval (handleRequest cfg secret st req) envs w).2 ∧
      rec.output = some out ∧ out.bytes = normLF o.output ∧
      (rest.map Prod.fst).flatten = o.output ∧
      ⟨.gwcCall request, some res⟩ ∈
        (machine cfg).trace (handleRequest cfg secret st req) envs w ∧ res.outcome = .ok ∧
      extractText (res.body.getD []) = some (o.output, stop) := by
  have hsaid := (handleRequest_runs (C := fun _ _ => True) hpaths hcount hsize hreach req secret
    envs fun _ _ => trivial).2.2.said
  rw [hsent] at hsaid
  obtain ⟨o, info, params, hhdr, hcaller, hresp, hrest⟩ := hsaid.served_ok hok
  obtain ⟨_, norm, rec, -, -, hrec⟩ := hresp.recorded
  obtain ⟨request, res, stop, hmem, hres, htext⟩ := hresp.answered hcaller
  obtain ⟨out, hout, hbytes⟩ := hrec.observed.output
  exact ⟨o, info, params, norm, rec, out, request, res, stop, hhdr, hrec, hout, hbytes, hrest, hmem,
    hres, htext⟩

/-- **What is served is what is committed exactly when the text of the body has no carriage
return.** The record keeps the text with its line endings normalised, and the client receives it as
the oracle wrote it. -/
theorem served_is_committed (hpaths : PathsApart cfg) (hcount : Counts S)
    (hsize : ((World.initial node).content cfg .ledger).length ≤ offMax)
    (hreach : (gateway S cfg host).Reaches (fun _ => True) (fun _ => True) (.initial node, .down)
      (w, .idle st)) {hdr : Bytes} {rest : List (Bytes × Bool)}
    (hsent : sends ((machine cfg).trace (handleRequest cfg secret st req) envs w) =
      (hdr, true) :: rest) (hok : ascii "status: ok\n" <+: hdr) :
    ∃ o info params norm rec out request res,
      hdr = responseHeader cfg o info params ∧
      Recorded S cfg norm o.output rec info
        ((machine cfg).eval (handleRequest cfg secret st req) envs w).2 ∧
      rec.output = some out ∧
      ⟨.gwcCall request, some res⟩ ∈
        (machine cfg).trace (handleRequest cfg secret st req) envs w ∧ res.outcome = .ok ∧
      ((rest.map Prod.fst).flatten = out.bytes ∧ o.output.length = out.bytes.length ↔
        ∃ text, gwjContentText (res.body.getD []) axMaxOutputBytes = some text ∧
          chr '\r' ∉ text) := by
  obtain ⟨o, info, params, norm, rec, out, request, res, stop, hhdr, hrec, hout, hbytes,
    hrest, hmem, hres, htext⟩ := served_recorded hpaths hcount hsize hreach hsent hok
  have hcontent : gwjContentText (res.body.getD []) axMaxOutputBytes = some o.output := by
    obtain ⟨text, htext', hstop⟩ := Option.bind_eq_some_iff.1 htext
    obtain ⟨stop', -, heq⟩ := Option.bind_eq_some_iff.1 hstop
    cases heq
    exact htext'
  refine ⟨o, info, params, norm, rec, out, request, res, hhdr, hrec, hout, hmem, hres, ?_⟩
  rw [hrest, hbytes, hcontent]
  constructor
  · rintro ⟨hsame, -⟩
    exact ⟨o.output, rfl, (normLF_eq_self_iff _).1 hsame.symm⟩
  · rintro ⟨text, heq, hcr⟩
    cases heq
    have hself := (normLF_eq_self_iff _).2 hcr
    exact ⟨hself.symm, by rw [hself]⟩

def okResult (body : Bytes) : GwcResult where
  outcome := .ok
  httpStatus := 200
  attempts := 1
  body := some body
  errbuf := .ofBytes []

/-- No call fails, and the oracle answers with this body. -/
def answering (body : Bytes) : Env where
  reply := some (okResult body)

/-- A request that is answered with this text in the body. -/
def servedRun (text : Bytes) : GwState sampleSubstrate × World :=
  (machine servedConfig).eval (handleRequest servedConfig [] servedState sampleRequest)
    (fun _ => answering (bodyWith text)) servedWorld

def servedSends (text : Bytes) : List (Bytes × Bool) :=
  sends ((machine servedConfig).trace (handleRequest servedConfig [] servedState sampleRequest)
    (fun _ => answering (bodyWith text)) servedWorld)

/-- The first thing that is sent has status `ok`. -/
def saysOk : List (Bytes × Bool) → Bool
  | (hdr, true) :: _ => (ascii "status: ok\n").isPrefixOf hdr
  | _ => false

theorem saysOk_inv {sent : List (Bytes × Bool)} (h : saysOk sent = true) :
    ∃ hdr rest, sent = (hdr, true) :: rest ∧ ascii "status: ok\n" <+: hdr := by
  match sent, h with
  | (hdr, true) :: rest, h => exact ⟨hdr, rest, rfl, List.isPrefixOf_iff_prefix.1 h⟩

theorem served_is_committed_sample :
    ∃ hdr rest norm output rec info, servedSends (ascii "hello") = (hdr, true) :: rest ∧
      Recorded sampleSubstrate servedConfig norm output rec info (servedRun (ascii "hello")).2 := by
  obtain ⟨hdr, rest, hsent, hok⟩ := saysOk_inv (show saysOk (servedSends (ascii "hello")) = true by
    decide +kernel)
  obtain ⟨o, info, params, norm, rec, out, request, res, -, hrec, -⟩ := served_is_committed
    pathsApart_servedConfig counts_sampleSubstrate (Nat.zero_le _) servedState_reached hsent hok
  exact ⟨hdr, rest, norm, o.output, rec, info, hsent, hrec⟩

/-- A carriage return is sent to the client, and the record holds a newline in its place. -/
theorem carriage_return_diverges :
    (gateway sampleSubstrate servedConfig sampleHost).Reaches (fun _ => True) (fun _ => True)
      (.initial fun _ => none, .down) (servedWorld, .idle servedState) ∧
    ∃ hdr rest o info params norm rec out,
      servedSends (ascii "a\\rb") = (hdr, true) :: rest ∧ ascii "status: ok\n" <+: hdr ∧
      hdr = responseHeader servedConfig o info params ∧
      Recorded sampleSubstrate servedConfig norm o.output rec info (servedRun (ascii "a\\rb")).2 ∧
      rec.output = some out ∧ (rest.map Prod.fst).flatten ≠ out.bytes := by
  refine ⟨servedState_reached, ?_⟩
  obtain ⟨hstatus, hcr⟩ : saysOk (servedSends (ascii "a\\rb")) = true ∧
      chr '\r' ∈ ((servedSends (ascii "a\\rb")).tail.map Prod.fst).flatten := by decide +kernel
  obtain ⟨hdr, rest, hsent, hok⟩ := saysOk_inv hstatus
  obtain ⟨o, info, params, norm, rec, out, request, res, stop, hhdr, hrec, hout, hbytes,
    hrest, -⟩ :=
    served_recorded pathsApart_servedConfig counts_sampleSubstrate (Nat.zero_le _)
      servedState_reached hsent hok
  rw [hsent, List.tail_cons, hrest] at hcr
  refine ⟨hdr, rest, o, info, params, norm, rec, out, hsent, hok, hhdr, hrec, hout, ?_⟩
  rw [hrest, hbytes]
  intro hsame
  exact (normLF_eq_self_iff _).1 hsame.symm hcr

end Served

end AxiomaOracle
