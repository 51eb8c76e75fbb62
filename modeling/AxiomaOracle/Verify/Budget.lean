import AxiomaOracle.Verify.Histories

/-!
# The spend guard

`calls_made` counts the calls a process has made to the oracle: only the stage that makes the call
changes it, and the stage before checks it against the budget. So one process never makes more calls
than its budget allows, whatever fails and wherever it dies.
-/

namespace AxiomaOracle

open Lib

section Budget

variable {S : Substrate} {cfg : GwConfig} {secret : Bytes} {st : GwState S} {A : Env → Prop}

/-! ## Who changes the counter -/

theorem commitObservation_callsMade (state : AxCompletionState) (ftype : AxFailureType)
    (input output : Bytes) (params : AxOracleParams) :
    (commitObservation cfg st state ftype input output params).Yields fun x =>
      x.1.callsMade = st.callsMade := by
  unfold commitObservation
  dsimp only
  split
  · exact .ret rfl
  split
  · exact .ret rfl
  split
  · exact .ret rfl
  split
  · exact .ret rfl
  refine .seq _ fun x => ?_
  rcases x with ⟨g, _ | ⟨head, seq⟩⟩
  · exact .ret rfl
  · exact .ret rfl

theorem finishRequest_callsMade (o : Outcome) (info : CommitInfo) (params : AxOracleParams) :
    (finishRequest cfg secret st o info params).Yields fun st' =>
      st'.callsMade = st.callsMade := by
  have hreport : (reportRequest cfg secret st o info params).Yields fun st' =>
      st'.callsMade = st.callsMade := by
    refine .seq _ fun _ => .ite ?_ ?_
    · exact .seq _ fun _ => .seq _ fun _ => .ret rfl
    · exact .seq _ fun _ => .ret rfl
  refine .seq _ fun cleared => .ite ?_ hreport
  exact .seq _ fun _ => hreport

theorem commitOutcome_callsMade (norm : Bytes) (params : AxOracleParams) (o : Outcome)
    {fault : GwState S → Io (GwState S)}
    (hfault : ∀ st, (fault st).Yields fun st' => st'.callsMade = st.callsMade) :
    (commitOutcome cfg secret st norm params o fault).Yields fun st' =>
      st'.callsMade = st.callsMade := by
  refine (commitObservation_callsMade _ _ _ _ _).bind ?_
  rintro ⟨st1, _ | info⟩ hst1
  · rw [← hst1]
    exact hfault st1
  · rw [← hst1]
    exact finishRequest_callsMade o info params

theorem recordOutcome_callsMade (norm : Bytes) (params : AxOracleParams) (res : GwcResult)
    (o : Outcome) : (recordOutcome cfg secret st norm params res o).Yields fun st' =>
      st'.callsMade = st.callsMade := by
  have hfault : ∀ st : GwState S, (commitFault secret st).Yields fun st' =>
      st'.callsMade = st.callsMade := fun st => .seq _ fun _ => .seq _ fun _ => .ret rfl
  refine commitOutcome_callsMade norm params o fun st1 => .ite ?_ (hfault st1)
  exact .seq _ fun _ => commitOutcome_callsMade norm params _ hfault

theorem recoverWal_callsMade :
    (recoverWal cfg secret st).Yields fun x => x.1.callsMade = st.callsMade := by
  refine .seq _ fun r => ?_
  cases r with
  | none => exact .ret rfl
  | corrupt => exact .seq _ fun _ => .ret rfl
  | intent i =>
    refine .ite ?_ ?_
    · exact .seq _ fun _ => .seq _ fun _ => .ret rfl
    · refine (commitObservation_callsMade _ _ _ _ _).bind ?_
      rintro ⟨st1, _ | info⟩ hst1
      · exact .seq _ fun _ => .ret hst1
      · exact .seq _ fun _ => .seq _ fun _ => .ret hst1

/-- A stage of the start: a process it leaves has made as many calls as before. -/
def Unspent (n : Int) (r : Option (GwState S)) : Prop := ∀ st, r = some st → st.callsMade = n

theorem unspent_none (n : Int) : Unspent (S := S) n none := fun _ h => by cases h

theorem recoverStage_callsMade : (recoverStage cfg secret st).Yields (Unspent st.callsMade) := by
  refine recoverWal_callsMade.bind ?_
  rintro ⟨st1, ok⟩ hst1
  cases ok with
  | false => exact .ret (unspent_none _)
  | true =>
    refine .seq _ fun x => ?_
    rcases x with ⟨g, _ | ⟨head, seq⟩⟩
    · exact .seq _ fun _ => .ret (unspent_none _)
    · refine .seq (gwLogSeq secret _ _ _ _) fun _ => .call fun ready => ?_
      cases ready with
      | false => exact .seq (logFault secret _) fun _ => .ret (unspent_none _)
      | true =>
        refine listenStage_yields.mono ?_
        rintro r (rfl | rfl)
        · exact unspent_none _
        · intro st2 hst2
          cases hst2
          exact hst1

theorem startUp_callsMade (S : Substrate) (cfg : GwConfig) (host : Host) :
    (startUp S cfg host).Yields (Unspent 0) := by
  have hexport : ∀ (secret : Bytes) (st : GwState S), st.callsMade = 0 →
      (exportStage cfg secret st).Yields (Unspent 0) := by
    intro secret st hst
    have hrecover : ∀ g : Gwl S,
        (recoverStage cfg secret { st with gwl := g }).Yields (Unspent 0) := by
      intro g
      have hcalls : ({ st with gwl := g } : GwState S).callsMade = 0 := hst
      rw [← hcalls]
      exact recoverStage_callsMade
    refine .ite (hrecover st.gwl) (.seq (gwlExportEnable cfg st.gwl) fun x => ?_)
    rcases x with ⟨g, _ | _⟩
    · exact .seq (logFault secret _) fun _ => .ret (unspent_none _)
    · exact .seq (gwLogSeq secret _ _ _ _) fun _ => hrecover g
  unfold startUp
  split
  · exact .ret (unspent_none _)
  split
  · exact .ret (unspent_none _)
  split
  · exact .ret (unspent_none _)
  split
  · exact .ret (unspent_none _)
  refine .call fun opened => ?_
  cases opened with
  | false => exact .ret (unspent_none _)
  | true =>
  refine .call fun ready => ?_
  cases ready with
  | false => exact .ret (unspent_none _)
  | true =>
  refine .seq gwWalRecover fun probe => .seq (gwlOpen S _) fun x => ?_
  rcases x with _ | ⟨g, cut⟩
  · exact .seq (logFault _ _) fun _ => .ret (unspent_none _)
  · cases cut with
    | false => exact hexport _ _ rfl
    | true => exact .seq (gwLogSeq _ _ _ _ _) fun _ => hexport _ _ rfl

/-! ## The calls of one process -/

/-- A call that is not one to the oracle. -/
def Op.Unbilled (o : Op) : Prop := ∀ body, o ≠ .gwcCall body

theorem unbilled_of_recording {α : Type} {p : Io α} (h : p.Only Op.Recording) :
    p.Only Op.Unbilled :=
  h.mono fun _ ho => ho.not_gwcCall

theorem unbilled_of_aside {α : Type} {p : Io α} (h : p.Only Op.Aside) : p.Only Op.Unbilled :=
  h.mono fun _ ho => ho.1

variable (cfg) in
/-- A process that started behind `n` calls has made no more than its budget. -/
def Within (n : Nat) (w : World) : Prop := w.calls.length ≤ n + cfg.callBudget.toNat

variable (cfg) in
/-- The counter of an idle process is the number of its calls. -/
structure Spent (n : Nat) (st : GwState S) (w : World) : Prop where
  calls : w.calls.length = n + st.callsMade.toNat
  nonneg : 0 ≤ st.callsMade
  within : st.callsMade.toNat ≤ cfg.callBudget.toNat

variable {n : Nat} {w w' : World}

theorem Spent.le (h : Spent cfg n st w) : Within cfg n w := by
  have := h.calls
  have := h.within
  unfold Within
  omega

theorem Within.same (h : Within cfg n w) (hcalls : w'.calls = w.calls) : Within cfg n w' := by
  unfold Within
  rw [hcalls]
  exact h

theorem Spent.same {st' : GwState S} (h : Spent cfg n st w) (hst : st'.callsMade = st.callsMade)
    (hcalls : w'.calls = w.calls) : Spent cfg n st' w' := by
  constructor
  · rw [hcalls, hst]
    exact h.calls
  · rw [hst]
    exact h.nonneg
  · rw [hst]
    exact h.within

theorem unbilled_safe {α : Type} {p : Io α} {Q : α → World → Prop} (hp : p.Only Op.Unbilled)
    (hw : Within cfg n w) (hQ : ∀ a w', w'.calls = w.calls → Q a w') :
    Safe (machine cfg) A (fun _ _ => True) (Within cfg n) Q p w := by
  refine .of_only (J := fun w' : World => w'.calls = w.calls) ?_ ?_ hp rfl hQ
  · intro o e w' ho hw'
    exact ⟨trivial, (exec_calls ho).trans hw'⟩
  · intro w' hw'
    exact hw.same hw'

/-- A program that makes no call and leaves the counter. -/
theorem unbilled_spent {p : Io (GwState S)} (hp : p.Only Op.Recording)
    (hst : p.Yields fun st' => st'.callsMade = st.callsMade) (h : Spent cfg n st w) :
    Safe (machine cfg) A (fun _ _ => True) (Within cfg n) (Spent cfg n) p w := by
  refine (Safe.yields (unbilled_safe (Q := fun _ w' => w'.calls = w.calls)
    (unbilled_of_recording hp) h.le fun _ _ hc => hc) hst).mono ?_
  rintro st' w' ⟨hst', hcalls⟩
  exact h.same hst' hcalls

theorem refuse_spent (level event msg reason : Bytes) (seq : UInt64) (h : Spent cfg n st w) :
    Safe (machine cfg) A (fun _ _ => True) (Within cfg n) (Spent cfg n)
      (do gwLogSeq secret level event msg seq; protoError reason; return st) w := by
  refine unbilled_spent ?_ ?_ h
  · exact (gwLogSeq_recording secret _ _ _ _).bind fun _ =>
      (protoError_recording _).bind fun _ => .ret
  · exact .seq _ fun _ => .seq (protoError reason) fun _ => .ret rfl

/-- The call is made below the budget, and counted. -/
theorem callOracle_spent {norm body : Bytes} {params : AxOracleParams} (h : Spent cfg n st w)
    (hleft : st.callsMade < cfg.callBudget) :
    Safe (machine cfg) A (fun _ _ => True) (Within cfg n) (Spent cfg n)
      (callOracle cfg secret st norm params body) w := by
  have hcalls := h.calls
  have hnonneg := h.nonneg
  have hnext : ∀ e, Spent cfg n { st with callsMade := st.callsMade + 1 }
      (exec cfg (.gwcCall body) e w).2 := by
    intro e
    have hlen : (exec cfg (.gwcCall body) e w).2.calls.length = w.calls.length + 1 := rfl
    refine ⟨?_, ?_, ?_⟩
    · rw [hlen]
      dsimp only
      omega
    · dsimp only
      omega
    · dsimp only
      omega
  unfold callOracle
  refine Safe.perform h.le (fun e => ⟨trivial, (hnext e).le⟩) fun e _ => ?_
  rw [machine_exec]
  cases (exec cfg (.gwcCall body) e w).1 with
  | none => exact refuse_spent _ _ _ _ _ (hnext e)
  | some res =>
    refine Safe.bind (unbilled_safe (Q := fun _ w' => w'.calls = _)
      (unbilled_of_recording (recording_of_quiet (outcomeOf_quiet cfg secret res))) (hnext e).le
      fun _ _ hc => hc) fun o w1 hc1 => ?_
    exact unbilled_spent (recordOutcome_recording cfg secret _ norm params res o)
      (recordOutcome_callsMade norm params res o) ((hnext e).same rfl hc1)

theorem openIntent_spent {norm : Bytes} {params : AxOracleParams} (h : Spent cfg n st w)
    (hleft : st.callsMade < cfg.callBudget) :
    Safe (machine cfg) A (fun _ _ => True) (Within cfg n) (Spent cfg n)
      (openIntent cfg secret st norm params) w := by
  unfold openIntent
  refine Safe.bind (unbilled_safe (Q := fun _ w' => w'.calls = w.calls)
    (unbilled_of_aside (aside_of_filing (gwWalWrite_filing cfg _))) h.le fun _ _ hc => hc)
    fun ok w1 hc1 => ?_
  have h1 : Spent cfg n st w1 := h.same rfl hc1
  cases ok with
  | false => exact refuse_spent _ _ _ _ _ h1
  | true =>
    refine Safe.bind (unbilled_safe (Q := fun _ w' => w'.calls = w1.calls)
      (unbilled_of_recording (gwLogSeq_recording secret _ _ _ _)) h1.le fun _ _ hc => hc)
      fun _ w2 hc2 => ?_
    have h2 : Spent cfg n st w2 := h1.same rfl hc2
    cases buildRequest cfg params norm with
    | some body => exact callOracle_spent h2 hleft
    | none =>
      refine unbilled_spent ?_ ?_ h2
      · exact (gwLogSeq_recording secret _ _ _ _).bind fun _ =>
          (recording_of_filing (gwWalClear_filing cfg)).bind fun _ =>
            (protoError_recording _).bind fun _ => .ret
      · exact .seq (gwLogSeq secret _ _ _ _) fun _ => .seq (gwWalClear cfg) fun _ =>
          .seq (protoError _) fun _ => .ret rfl

theorem handleRequest_spent {req : Bytes} (h : Spent cfg n st w) :
    Safe (machine cfg) A (fun _ _ => True) (Within cfg n) (Spent cfg n)
      (handleRequest cfg secret st req) w := by
  unfold handleRequest
  split
  · next r _ =>
    cases r.logged with
    | none =>
      exact unbilled_spent ((protoError_recording _).bind fun _ => .ret)
        (.seq (protoError _) fun _ => .ret rfl) h
    | some msg => exact refuse_spent _ _ _ _ _ h
  · unfold serveRequest
    split
    · exact refuse_spent _ _ _ _ _ h
    · split
      · exact refuse_spent _ _ _ _ _ h
      · next hleft => exact openIntent_spent h (Int.not_le.1 hleft)

/-! ## Over a history -/

variable (S cfg) in
theorem gateway_within (host : Host) (n : Nat) :
    (gateway S cfg host).Sound (fun _ => True) (fun _ _ => True) (Within cfg n) (Spent cfg n)
      (fun _ => False) where
  boot _ _ hnever := hnever.elim
  serve st req w h := (handleRequest_spent h).bind fun _ _ h' => .ret h'
  halt st w h := by
    refine (Safe.yields (unbilled_safe (Q := fun _ w' => w'.calls = w.calls) (unbilled_of_aside
      (shutDown_aside (logSecret (host.apiKey.elim [] CStr.bytes)) st)) h.le
      fun _ _ hc => hc) (shutDown_yields _ st)).mono ?_
    rintro r w' ⟨rfl, hcalls⟩
    exact h.le.same hcalls
  idle st w h := h.le
  release w h := h

/-- **One process stays within its budget**: from its start to its end, and behind it until the next
start. -/
theorem calls_within_budget (host : Host) {w : World}
    {c : World × (gateway S cfg host).Control}
    (hrun : (gateway S cfg host).Reaches (fun _ => True) (fun _ => False)
      ((gateway S cfg host).step (w, .down) .boot) c) :
    c.1.calls.length ≤ w.calls.length + cfg.callBudget.toNat := by
  have hsound := gateway_within S cfg host w.calls.length
  have hstart : Within cfg w.calls.length w := Nat.le_add_right _ _
  have hboot : Safe (machine cfg) (fun _ => True) (fun _ _ => True) (Within cfg w.calls.length)
      ((gateway S cfg host).Ends (Within cfg w.calls.length) (Spent cfg w.calls.length))
      (startUp S cfg host) w := by
    refine (Safe.yields (unbilled_safe (Q := fun _ w' => w'.calls = w.calls)
      (unbilled_of_aside (startUp_aside cfg S host)) hstart fun _ _ hc => hc)
      (startUp_callsMade S cfg host)).mono ?_
    rintro r w' ⟨hunspent, hcalls⟩
    cases r with
    | none => exact hstart.same hcalls
    | some st =>
      have hzero := hunspent st rfl
      refine ⟨?_, ?_, ?_⟩
      · rw [hcalls, hzero]
        rfl
      · exact Int.le_of_eq hzero.symm
      · rw [hzero]
        exact Nat.zero_le _
  exact hrun.crash hsound (Service.inv_settle hsound hboot)

end Budget

end AxiomaOracle
