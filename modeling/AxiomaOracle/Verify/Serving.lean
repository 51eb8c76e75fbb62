import AxiomaOracle.Verify.Effects

/-!
# A request from its first call to its last

What is known at each stage of a request (`KnownAt`), and the rules that lead from one to the next.
`handleRequest_observes` is what they come to: every call is lawful, and the request ends in a
standing process that has said one thing to its client.

The commit is where the cases are. The record of the oracle's answer is refused and `INVALID_OUTPUT`
is recorded in its place; or the append stops, and the process is blocked behind its open intent.
-/

namespace AxiomaOracle

open Lib

section Serving

variable {S : Substrate} {cfg : GwConfig} {whole : Prop} {req : Bytes}
  {D : Step (machine cfg) → Prop} {h h' : List (Answered Op Ans)} {w0 w w' : World}
  {secret norm : Bytes} {st0 st : GwState S} {hdr : Header} {genesis : S.LedgerCtx}
  {fs : List Frame}

/-! ## The prompt -/

/-- An accepted prompt has a request body. -/
theorem Prompts.body (hcfg : Loaded cfg) (hp : Prompts cfg req hdr norm) :
    (buildRequest cfg (requestParams hdr) norm).isSome := by
  obtain ⟨prompt, hingest, rfl, hvalid⟩ := hp.norm_eq
  obtain ⟨haccepted, hlen⟩ := ingest_accepted hingest
  refine buildRequest_isSome hcfg hvalid ?_ haccepted
  have := normLF_length_le prompt
  omega

/-! ## The commit -/

variable (S cfg whole req) in
/-- The oracle has answered, and nothing has been recorded or said since. -/
structure Pending (st0 : GwState S) (w0 : World) (hdr : Header) (norm request : Bytes)
    (res : GwcResult) (genesis : S.LedgerCtx) (fs : List Frame) (st : GwState S)
    (h : List (Answered Op Ans)) (w : World) : Prop where
  prompts : Prompts cfg req hdr norm
  calls : oracleCalls h = [(request, some res)]
  silent : sends h = []
  framed : Framed S cfg whole w
  current : Current S cfg genesis fs st w
  content : w.content cfg .ledger = w0.content cfg .ledger
  gwl : st.gwl = st0.gwl
  adm : st.adm = st0.adm
  wal : w.node (cfg.path .wal) ≠ none

variable {request : Bytes} {res : GwcResult}

theorem Pending.same (hp : Pending S cfg whole req st0 w0 hdr norm request res genesis fs st h w)
    (hs : Same cfg w w') (hext : Extends Op.Mute h h') :
    Pending S cfg whole req st0 w0 hdr norm request res genesis fs st h' w' where
  prompts := hp.prompts
  calls := (talk_mute hext).calls.trans hp.calls
  silent := (talk_mute hext).sends.trans hp.silent
  framed := hp.framed.congr hs.content
  current := hp.current.congr hs.ledger hs.ledgerFd
  content := hs.content.trans hp.content
  gwl := hp.gwl
  adm := hp.adm
  wal := by
    rw [hs.wal]
    exact hp.wal

theorem Pending.standing
    (hp : Pending S cfg whole req st0 w0 hdr norm request res genesis fs st h w) :
    Standing S cfg whole st w := ⟨hp.framed, .inl ⟨genesis, fs, hp.current⟩⟩

theorem Pending.admission_eq
    (hp : Pending S cfg whole req st0 w0 hdr norm request res genesis fs st h w)
    (params : AxOracleParams) (o : Outcome) :
    admission cfg st norm params o = admission cfg st0 norm params o := by
  unfold admission observationInput
  rw [hp.gwl, hp.adm]

/-- A call of a commit is lawful. -/
theorem Committing.lawful {output : Bytes} {m : Step (machine cfg)}
    (hc : Committing S cfg whole norm output m) (hp : Prompts cfg req hdr norm) :
    Lawful S cfg whole req st0 w0 m := by
  refine ⟨hc.before, hc.after, ?_, ?_, ?_⟩
  · intro body heq
    rcases hc.op with hop | hop | ⟨rec, f, chunk, -, -, -, hop⟩ <;> rw [heq] at hop <;> cases hop
  · intro chunk heq
    rcases hc.op with hop | hop | ⟨rec, f, chunk', hobs, hf, hmem, hop⟩
    · rw [heq] at hop
      cases hop
    · rw [heq] at hop
      cases hop
    · rw [heq] at hop
      cases hop
      exact ⟨hdr, norm, output, rec, f, hp, hobs, hf, hmem⟩
  · intro bs heq
    rcases hc.op with hop | hop | ⟨rec, f, chunk, -, -, -, hop⟩ <;> rw [heq] at hop <;> cases hop

/-- **Commit.** An admitted outcome is recorded, and its record answers the request. It is refused
with nothing changed, or the append stops, by which the process is blocked. -/
theorem Pending.commit (hpaths : PathsApart cfg) (hcount : Counts S)
    (hp : Pending S cfg whole req st0 w0 hdr norm request res genesis fs st h w) {o : Outcome}
    (hlen : o.output.length ≤ axMaxOutputBytes)
    (hrec : (admission cfg st0 norm (requestParams hdr) o).ret = none →
      o = recordedOutcome cfg st0 norm (requestParams hdr) res)
    (hanswered : o.okForCaller = true → ∃ stop, res.outcome = .ok ∧
      extractText (res.body.getD []) = some (o.output, stop))
    {Q : GwState S × Option CommitInfo → List (Answered Op Ans) → World → Prop}
    (hrefused : (admission cfg st0 norm (requestParams hdr) o).ret ≠ none → Q (st, none) h w)
    (hstopped : ∀ st' h' w', Blocked st' → Failing S cfg whole req D st0 w0 st' h' w' →
      Q (st', none) h' w')
    (hdone : ∀ st' info gs h' w',
      Filed S cfg whole req st0 w0 genesis gs o info (requestParams hdr) st' h' w' →
      Q (st', some info) h' w') :
    Observes (machine cfg) D (Lawful S cfg whole req st0 w0) Q
      (commitObservation cfg st o.state o.ftype norm o.output (requestParams hdr)) h w := by
  have hadm := hp.admission_eq (requestParams hdr) o
  refine commitObservation_observes hcount hp.current hp.framed hp.prompts.ne_nil
    hp.prompts.length_lt hlen ?_ ?_ ?_ ?_
  · intro m hm _ _
    exact hm.lawful hp.prompts
  · intro hne
    apply hrefused
    rw [← hadm]
    exact hne
  · intro st' h' w' hblocked hframed' hap hwhy hext
    have hwal : w'.node (cfg.path .wal) ≠ none := by
      rw [hap.node .wal (hpaths.ledger .wal (by simp)) (hpaths.wal .exportCopy (by simp)).symm]
      exact hp.wal
    refine hstopped st' h' w' hblocked ⟨⟨hframed', .inr ⟨hblocked, hwal⟩⟩,
      (talk_append hext).sends.trans hp.silent, fun hdue => ?_⟩
    rcases hwhy with hfail | hfault
    · exact hdue.primary hfail
    · exact hfault hdue.faultless
  · intro f rec info st' h' w' hret hout hf hrecorded hcur' hframed' hap hctx hseq hext
    have hcalls := (talk_append hext).calls.trans hp.calls
    have hadmitted : (admission cfg st0 norm (requestParams hdr) o).ret = none := by
      rw [← hadm]
      exact hret
    refine hdone st' info _ h' w' ⟨hcur', hframed', ⟨⟨hdr, norm, rec, hp.prompts, rfl, hrecorded⟩,
      ?_⟩, (talk_append hext).sends.trans hp.silent, ⟨?_, ?_, hctx⟩⟩
    · intro hok
      obtain ⟨stop, hres, htext⟩ := hanswered hok
      refine ⟨request, res, stop, mem_of_oracleCalls ?_, hres, htext⟩
      rw [hcalls]
      exact List.mem_singleton_self _
    · refine ⟨hdr, norm, request, res, fs, f, hp.prompts, hcalls, ?_, hcur'.inStep.at_.content, ?_⟩
      · rw [← hp.content]
        exact hp.current.inStep.at_.content
      · rw [← hrec hadmitted, ← hadm]
        rw [hout] at hf
        exact hf
    · rw [hseq, hp.gwl]

/-- A blocked process commits nothing. -/
theorem commitObservation_blocked (hblocked : Blocked st) (params : AxOracleParams) (o : Outcome) :
    commitObservation cfg st o.state o.ftype norm o.output params = pure (st, none) := by
  have hseq : (observationInput cfg st o.state o.ftype norm o.output params).ledgerSeq =
      gwlSeq st.gwl + 1 := rfl
  obtain ⟨hret, hctx⟩ := admit_blocked hblocked hseq axMaxOutputBytes
  unfold commitObservation
  dsimp only
  rw [hret, hctx]

/-- The failure of an outcome is admitted, when nothing outside faults. -/
theorem Pending.failure_admitted (hcount : Counts S)
    (hp : Pending S cfg whole req st0 w0 hdr norm request res genesis fs st h w)
    (hsmooth : Smooth S cfg D) {ftype : AxFailureType} (htype : IsFailure ftype) :
    (admission cfg st0 norm (requestParams hdr) (.failed ftype)).ret = none := by
  rw [← hp.admission_eq]
  exact AxiomaOracle.failure_admitted hsmooth.loaded hsmooth.faultless
    (hp.current.ordered_succ hcount hp.framed) htype norm (requestParams hdr)

/-! ## The intent and the call -/

variable (S cfg whole req) in
/-- The intent of the prompt is durable, and the oracle has not been called. -/
structure Poised (st0 : GwState S) (w0 : World) (hdr : Header) (norm : Bytes)
    (genesis : S.LedgerCtx) (fs : List Frame) (h : List (Answered Op Ans)) (w : World) : Prop where
  prompts : Prompts cfg req hdr norm
  budget : st0.callsMade < cfg.callBudget
  absent : w0.node (cfg.path .wal) = none
  written : ∃ envs logs, h = (machine cfg).trace
      (gwWalWrite cfg (requestIntent (S := S) cfg norm (requestParams hdr))) envs w0 ++ logs ∧
    ((machine cfg).eval
      (gwWalWrite cfg (requestIntent (S := S) cfg norm (requestParams hdr))) envs w0).1 = true ∧
    ∀ c ∈ logs, c.1.role ≠ some .wal
  wal : w.node (cfg.path .wal) =
    some (.file (intentText (requestIntent (S := S) cfg norm (requestParams hdr))))
  calls : oracleCalls h = []
  silent : sends h = []
  framed : Framed S cfg whole w
  current : Current S cfg genesis fs st0 w
  content : w.content cfg .ledger = w0.content cfg .ledger

theorem Poised.same (hp : Poised S cfg whole req st0 w0 hdr norm genesis fs h w)
    (hs : Same cfg w w') (hext : Extends Op.Mute h h') :
    Poised S cfg whole req st0 w0 hdr norm genesis fs h' w' where
  prompts := hp.prompts
  budget := hp.budget
  absent := hp.absent
  written := by
    obtain ⟨envs, logs, rfl, heval, hlogs⟩ := hp.written
    obtain ⟨more, rfl, hmore⟩ := hext
    refine ⟨envs, logs ++ more, List.append_assoc _ _ _, heval, fun c hc => ?_⟩
    rcases List.mem_append.1 hc with hc | hc
    · exact hlogs c hc
    · exact (hmore c hc).1.not_wal
  wal := hs.wal.trans hp.wal
  calls := (talk_mute hext).calls.trans hp.calls
  silent := (talk_mute hext).sends.trans hp.silent
  framed := hp.framed.congr hs.content
  current := hp.current.congr hs.ledger hs.ledgerFd
  content := hs.content.trans hp.content

/-- The call of a poised process is behind its intent. -/
theorem Poised.intended (hp : Poised S cfg whole req st0 w0 hdr norm genesis fs h w)
    (hbody : buildRequest cfg (requestParams hdr) norm = some request) (e : Env) :
    Intended S cfg req st0 w0 request ⟨h, w, .gwcCall request, e⟩ hdr norm := by
  refine ⟨hp.prompts, hp.budget, hbody, hp.absent, hp.written, ?_⟩
  rw [World.file, World.fileAt]
  rw [show w.node (cfg.path .wal) = _ from hp.wal]

/-- Behind the call the outcome is pending. -/
theorem Poised.pending (hp : Poised S cfg whole req st0 w0 hdr norm genesis fs h w) (e : Env)
    (hres : e.reply = some res) (n : Int) :
    Pending S cfg whole req st0 w0 hdr norm request res genesis fs { st0 with callsMade := n }
      (h ++ [⟨.gwcCall request, e.reply⟩]) (exec cfg (.gwcCall request) e w).2 where
  prompts := hp.prompts
  calls := by
    rw [oracleCalls_append, hp.calls, hres]
    rfl
  silent := by
    rw [sends_append, hp.silent]
    rfl
  framed := hp.framed.congr rfl
  current := ⟨hp.current.inStep.congr rfl rfl, hp.current.isOpen, hp.current.ordered⟩
  content := hp.content
  gwl := rfl
  adm := rfl
  wal := by
    intro hnone
    have hwal := hp.wal
    rw [show w.node (cfg.path .wal) = none from hnone] at hwal
    cases hwal

/-- Behind a call that gives no result the request fails. -/
theorem Poised.failing (hp : Poised S cfg whole req st0 w0 hdr norm genesis fs h w) {e : Env}
    (hres : e.reply = none) (hD : D ⟨h, w, .gwcCall request, e⟩) (n : Int) :
    Failing S cfg whole req D st0 w0 { st0 with callsMade := n }
      (h ++ [⟨.gwcCall request, e.reply⟩]) (exec cfg (.gwcCall request) e w).2 where
  standing := ⟨hp.framed.congr rfl, .inl ⟨genesis, fs, hp.current.inStep.congr rfl rfl,
    hp.current.isOpen, hp.current.ordered⟩⟩
  silent := by
    rw [sends_append, hp.silent, hres]
    rfl
  rough hdue := hdue.reply h w request e hD hres

theorem Created.framed (hc : Created cfg w w') (hframed : Framed S cfg whole w) :
    Framed S cfg whole w' := hframed.congr (content_congr hc.ledger)

/-- An intent is created by a current process only: a blocked one has an open intent. -/
theorem Standing.current (hst : Standing S cfg whole st w)
    (habsent : w.node (cfg.path .wal) = none) : ∃ genesis fs, Current S cfg genesis fs st w := by
  rcases hst.mode with hcur | ⟨-, hwal⟩
  · exact hcur
  · exact absurd habsent hwal

theorem requestIntent_length (norm : Bytes) (params : AxOracleParams) :
    (intentText (requestIntent (S := S) cfg norm params)).length < 768 := by
  refine intentText_length_lt (hex32_length _) ?_
  exact Nat.le_trans (CStr.ofBytes_length_le _) (List.length_take_le 255 cfg.modelId.bytes)

/-! ## The stages -/

variable (S cfg whole req) in
/-- What is known at each stage of a request from `st0` and `w0`. -/
def KnownAt (D : Step (machine cfg) → Prop) (st0 : GwState S) (w0 : World) : Stage → Condition S
  | .failed, st, h, w => Failing S cfg whole req D st0 w0 st h w
  | .opened hdr norm, st, h, w => st = st0 ∧ ∃ genesis fs,
    Poised S cfg whole req st0 w0 hdr norm genesis fs h w
  | .answered hdr norm res, st, h, w => ∃ request genesis fs,
    Pending S cfg whole req st0 w0 hdr norm request res genesis fs st h w
  | .unrecorded hdr norm res, st, h, w =>
    ((admission cfg st0 norm (requestParams hdr) (outcomeFrom res)).ret ≠ none ∧
      ∃ request genesis fs,
        Pending S cfg whole req st0 w0 hdr norm request res genesis fs st h w) ∨
    (Blocked st ∧ Failing S cfg whole req D st0 w0 st h w)
  | .committed o info params, st, h, w => ∃ genesis fs,
    Filed S cfg whole req st0 w0 genesis fs o info params st h w
  | .closed o info params, st, h, w => Reporting S cfg whole req D st0 w0 o info params st h w

theorem KnownAt.framed {s : Stage} (hk : KnownAt S cfg whole req D st0 w0 s st h w) :
    Framed S cfg whole w := by
  cases s with
  | failed => exact (Failing.standing hk).framed
  | opened hdr norm =>
    obtain ⟨-, genesis, fs, hp⟩ := hk
    exact hp.framed
  | answered hdr norm res =>
    obtain ⟨request, genesis, fs, hp⟩ := hk
    exact hp.framed
  | unrecorded hdr norm res =>
    rcases hk with ⟨-, request, genesis, fs, hp⟩ | ⟨-, hf⟩
    · exact hp.framed
    · exact hf.standing.framed
  | committed o info params =>
    obtain ⟨genesis, fs, hf⟩ := hk
    exact hf.framed
  | closed o info params => exact (Reporting.standing hk).framed

theorem KnownAt.same {s : Stage} (hk : KnownAt S cfg whole req D st0 w0 s st h w)
    (hs : Same cfg w w') (hext : Extends Op.Mute h h') :
    KnownAt S cfg whole req D st0 w0 s st h' w' := by
  cases s with
  | failed => exact Failing.same hk hs hext
  | opened hdr norm =>
    obtain ⟨heq, genesis, fs, hp⟩ := hk
    exact ⟨heq, genesis, fs, hp.same hs hext⟩
  | answered hdr norm res =>
    obtain ⟨request, genesis, fs, hp⟩ := hk
    exact ⟨request, genesis, fs, hp.same hs hext⟩
  | unrecorded hdr norm res =>
    rcases hk with ⟨hret, request, genesis, fs, hp⟩ | ⟨hblocked, hf⟩
    · exact .inl ⟨hret, request, genesis, fs, hp.same hs hext⟩
    · exact .inr ⟨hblocked, hf.same hs hext⟩
  | committed o info params =>
    obtain ⟨genesis, fs, hf⟩ := hk
    exact ⟨genesis, fs, hf.same hs hext⟩
  | closed o info params => exact Reporting.same hk hs hext

/-- The intent is written, and the process poised for the call. -/
theorem intent_observes (hpaths : PathsApart cfg) (hst : Standing S cfg whole st0 w0)
    (hp : Prompts cfg req hdr norm) (hbudget : st0.callsMade < cfg.callBudget) :
    Observes (machine cfg) D (Lawful S cfg whole req st0 w0)
      (fun ok h' w' => KnownAt S cfg whole req D st0 w0
        (if ok then .opened hdr norm else .failed) st0 h' w')
      (gwWalWrite cfg (requestIntent (S := S) cfg norm (requestParams hdr))) [] w0 := by
  refine (Observes.traced (gwWalWrite_observes
    (Q := fun ok h1 w1 => Standing S cfg whole st0 w1 ∧ Extends Op.OnWal [] h1 ∧
      (ok = false → ¬ Due S cfg req D st0 w0) ∧ (ok = true → Created cfg w0 w1 ∧
        w1.node (cfg.path .wal) =
          some (.file (intentText (requestIntent (S := S) cfg norm (requestParams hdr))))))
    hpaths ?_ ?_ ?_)).mono ?_
  · intro m hrole hpre hpost _
    have hframed : ∀ {w' : World}, w' = w0 ∨ Created cfg w0 w' → Framed S cfg whole w' := by
      rintro w' (rfl | hc)
      · exact hst.framed
      · exact hc.framed hst.framed
    exact lawful_of_onWal hrole (hframed hpre) (hframed hpost)
  · intro h1 hfail hext
    exact ⟨hst, hext, fun _ hdue => hdue.wal hfail, fun hf => by cases hf⟩
  · intro ok h1 w1 hc hfile hbad hext
    obtain ⟨genesis, fs, hcur⟩ := hst.current hc.absent
    refine ⟨⟨hc.framed hst.framed, .inl ⟨genesis, fs, hcur.congr hc.ledger hc.ledgerFd⟩⟩, hext, ?_,
      fun hok => ⟨hc, hfile hok⟩⟩
    intro hf hdue
    rcases hbad hf with hfail | hlong | hlong
    · exact hdue.wal hfail
    · exact absurd (requestIntent_length norm (requestParams hdr)) (Nat.not_lt.2 hlong)
    · exact absurd hdue.loaded.walPath (Nat.not_lt.2 hlong)
  · rintro ok h1 w1 ⟨⟨hst1, hext1, hbad, hgood⟩, envs, hh1, heval⟩
    have hsilent1 : sends h1 = [] := (talk_onWal hext1).sends
    cases ok with
    | false => exact ⟨hst1, hsilent1, hbad rfl⟩
    | true =>
      obtain ⟨hc, hfile⟩ := hgood rfl
      obtain ⟨genesis, fs, hcur⟩ := hst.current hc.absent
      refine ⟨rfl, genesis, fs, hp, hbudget, hc.absent, ⟨envs, [], ?_, ?_, ?_⟩, hfile,
        (talk_onWal hext1).calls, hsilent1, hst1.framed, hcur.congr hc.ledger hc.ledgerFd,
        content_congr hc.ledger⟩
      · rw [hh1, List.append_nil, List.nil_append]
      · rw [heval]
      · exact fun c hc => absurd hc List.not_mem_nil

/-- Without a request body the intent is given up. -/
theorem Poised.abandon (hpaths : PathsApart cfg)
    (hp : Poised S cfg whole req st0 w0 hdr norm genesis fs h w)
    (hbody : buildRequest cfg (requestParams hdr) norm = none) :
    Observes (machine cfg) D (Lawful S cfg whole req st0 w0)
      (fun _ h' w' => Failing S cfg whole req D st0 w0 st0 h' w') (gwWalClear cfg) h w := by
  have hclosing : ∀ {w' : World}, Closing cfg w w' → Framed S cfg whole w' :=
    fun hc => hp.framed.congr (content_congr hc.ledger)
  refine gwWalClear_observes hpaths
    (fun m hrole hpre hpost _ => lawful_of_onWal hrole (hclosing hpre) (hclosing hpost)) ?_
  intro ok h' w' hc _ _ hext
  refine ⟨⟨hclosing hc, .inl ⟨genesis, fs, hp.current.congr hc.ledger hc.ledgerFd⟩⟩,
    (talk_onWal hext).sends.trans hp.silent, fun hdue => ?_⟩
  have hsome := hp.prompts.body hdue.loaded
  rw [hbody] at hsome
  cases hsome

/-- The call of the oracle. -/
theorem Poised.call (hp : Poised S cfg whole req st0 w0 hdr norm genesis fs h w)
    (hbody : buildRequest cfg (requestParams hdr) norm = some request) :
    Observes (machine cfg) D (Lawful S cfg whole req st0 w0)
      (fun res h' w' => KnownAt S cfg whole req D st0 w0 (res.elim .failed (.answered hdr norm))
        { st0 with callsMade := st0.callsMade + 1 } h' w') (sys (.gwcCall request)) h w := by
  refine .call (fun e _ => ⟨hp.framed, hp.framed.congr rfl, ?_, ?_, ?_⟩) fun e hD => .ret ?_
  · intro request' heq
    cases heq
    exact ⟨hdr, norm, hp.intended hbody e⟩
  · intro chunk heq
    cases heq
  · intro bs heq
    cases heq
  · have hanswer : (exec cfg (.gwcCall request) e w).1 = e.reply := rfl
    rw [machine_exec, hanswer]
    cases hres : e.reply with
    | none =>
      have hfailing := hp.failing hres hD (st0.callsMade + 1)
      rw [hres] at hfailing
      exact hfailing
    | some res =>
      have hpend : Pending S cfg whole req st0 w0 hdr norm request res genesis fs _ _ _ :=
        hp.pending e hres (st0.callsMade + 1)
      rw [hres] at hpend
      exact ⟨request, genesis, fs, hpend⟩

/-- The answer is committed, unless its record is refused or the append stops. -/
theorem Pending.commit_answer (hpaths : PathsApart cfg) (hcount : Counts S)
    (hp : Pending S cfg whole req st0 w0 hdr norm request res genesis fs st h w) :
    Observes (machine cfg) D (Lawful S cfg whole req st0 w0)
      (fun x h' w' => KnownAt S cfg whole req D st0 w0 (x.2.elim (.unrecorded hdr norm res)
        (.committed (outcomeFrom res) · (requestParams hdr))) x.1 h' w')
      (commitObservation cfg st (outcomeFrom res).state (outcomeFrom res).ftype norm
        (outcomeFrom res).output (requestParams hdr)) h w := by
  refine hp.commit hpaths hcount (outcomeFrom_length_le res) ?_ ?_ ?_ ?_ ?_
  · intro hret
    rw [recordedOutcome, if_pos hret]
  · intro hok
    rcases outcomeFrom_cases res with ⟨text, stop, state, hres, htext, -, heq⟩ | ⟨ftype, -, heq⟩
    · rw [heq]
      exact ⟨stop, hres, htext⟩
    · rw [heq] at hok
      cases hok
  · exact fun hret => .inl ⟨hret, request, genesis, fs, hp⟩
  · exact fun st' h' w' hblocked hf => .inr ⟨hblocked, hf⟩
  · exact fun st' info gs h' w' hf => ⟨genesis, gs, hf⟩

/-- `INVALID_OUTPUT` is committed in place of a refused record. -/
theorem Pending.commit_invalid (hpaths : PathsApart cfg) (hcount : Counts S)
    (hp : Pending S cfg whole req st0 w0 hdr norm request res genesis fs st h w)
    (hret : (admission cfg st0 norm (requestParams hdr) (outcomeFrom res)).ret ≠ none) :
    Observes (machine cfg) D (Lawful S cfg whole req st0 w0)
      (fun x h' w' => KnownAt S cfg whole req D st0 w0 (x.2.elim .failed
        (.committed (.failed .invalidOutput) · (requestParams hdr))) x.1 h' w')
      (commitObservation cfg st (Outcome.failed .invalidOutput).state
        (Outcome.failed .invalidOutput).ftype norm (Outcome.failed .invalidOutput).output
        (requestParams hdr)) h w := by
  refine hp.commit hpaths hcount (Nat.zero_le _) ?_ ?_ ?_ ?_ ?_
  · intro _
    rw [recordedOutcome, if_neg hret]
  · intro hok
    cases hok
  · exact fun hne => ⟨hp.standing, hp.silent, fun hdue =>
      hne (hp.failure_admitted hcount hdue.toSmooth (.inr (.inl rfl)))⟩
  · exact fun st' h' w' _ hf => hf
  · exact fun st' info gs h' w' hf => ⟨genesis, gs, hf⟩

/-! ## The request -/

/-- What is known leads on from stage to stage. -/
theorem requestRules_known (hpaths : PathsApart cfg) (hcount : Counts S)
    (hst : Standing S cfg whole st0 w0) :
    RequestRules cfg secret req st0 w0 D (Lawful S cfg whole req st0 w0)
      (KnownAt S cfg whole req D st0 w0) (Finished S cfg whole req D st0 w0) where
  mute hp hs := mute_observes hpaths hp hs.framed fun _ _ _ hsame hext => hs.same hsame hext
  unserved hwhy := ⟨hst, rfl, fun hdue => hwhy.elim (fun hno => hno hdue.prompts)
    fun hspent => absurd hdue.budget (Int.not_lt.2 hspent)⟩
  intent hp hbudget := intent_observes hpaths hst hp hbudget
  abandon hbody hs := by
    obtain ⟨rfl, genesis, fs, hp⟩ := hs
    exact hp.abandon hpaths hbody
  call hbody hs := by
    obtain ⟨rfl, genesis, fs, hp⟩ := hs
    exact hp.call hbody
  commit hs := by
    obtain ⟨request, genesis, fs, hp⟩ := hs
    exact hp.commit_answer hpaths hcount
  degrade _ hs := by
    rcases hs with ⟨hret, request, genesis, fs, hp⟩ | ⟨hblocked, hf⟩
    · exact hp.commit_invalid hpaths hcount hret
    · rw [commitObservation_blocked hblocked]
      exact .ret hf
  fault {_ _ res _ _ _} htext hs := by
    rcases hs with ⟨hret, request, genesis, fs, hp⟩ | ⟨-, hf⟩
    · refine ⟨hp.standing, hp.silent, fun hdue => hret ?_⟩
      rcases outcomeFrom_cases res with ⟨text, stop, state, -, -, hcase, heq⟩ | ⟨ftype, htype, heq⟩
      · rw [heq] at htext
        exact absurd hcase htext
      · rw [heq]
        exact hp.failure_admitted hcount hdue.toSmooth htype
    · exact hf
  clear hs := by
    obtain ⟨genesis, fs, hf⟩ := hs
    exact hf.clear hpaths
  respond b hs := Reporting.respond hpaths hs b
  refuse hs := Failing.refuse hpaths hs

/-- **A request**: every call is lawful, and it ends in a standing process. -/
theorem handleRequest_observes (hpaths : PathsApart cfg) (hcount : Counts S)
    (hst : Standing S cfg whole st0 w0) :
    Observes (machine cfg) D (Lawful S cfg whole req st0 w0) (Finished S cfg whole req D st0 w0)
      (handleRequest cfg secret st0 req) [] w0 :=
  (requestRules_known hpaths hcount hst).handleRequest

end Serving

end AxiomaOracle
