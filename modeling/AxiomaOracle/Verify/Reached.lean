import AxiomaOracle.Verify.Histories
import AxiomaOracle.Verify.Serving

/-!
# The states the gateway reaches

A start leaves a current process or none: the replay sets the chain to that of the file, and neither
the recovery nor the configuration frame parts them. With the rule for a request this holds over
whole histories: every process that waits for a request is standing, whatever failed before
(`standing_of_reaches`).
-/

namespace AxiomaOracle

open Lib

section Reached

variable {S : Substrate} {cfg : GwConfig} {whole : Prop} {w w' : World} {A : Env → Prop}
  {secret : Bytes} {st : GwState S} {genesis : S.LedgerCtx} {fs : List Frame}

/-! ## Stages that leave the ledger alone -/

theorem still_safe (hpaths : PathsApart cfg) {α : Type} {Q : α → World → Prop} {p : Io α}
    (hp : p.Only Op.Quiet) (hframed : Framed S cfg whole w) (hQ : ∀ a w', Same cfg w w' → Q a w') :
    Safe (machine cfg) A (fun _ _ => True) (Framed S cfg whole) Q p w :=
  .of_only (fun _ _ _ ho hs => ⟨trivial, Same.trans hs (exec_quiet hpaths ho)⟩)
    (fun _ hs => hframed.congr (Same.content hs)) hp (Same.refl w) hQ

theorem still_bind (hpaths : PathsApart cfg) {α β : Type} {Q : β → World → Prop} {p : Io α}
    {f : α → Io β} (hp : p.Only Op.Quiet) (hframed : Framed S cfg whole w)
    (hf : ∀ a w', Same cfg w w' →
      Safe (machine cfg) A (fun _ _ => True) (Framed S cfg whole) Q (f a) w') :
    Safe (machine cfg) A (fun _ _ => True) (Framed S cfg whole) Q (p >>= f) w :=
  (still_safe (Q := fun _ w' => Same cfg w w') hpaths hp hframed fun _ _ hs => hs).bind hf

variable (S cfg whole) in
/-- How a start ends: with a current process, or with none. -/
def Launched (r : Option (GwState S)) (w : World) : Prop :=
  Framed S cfg whole w ∧ ∀ st, r = some st → ∃ genesis fs, Current S cfg genesis fs st w

theorem stop_safe (hpaths : PathsApart cfg) (msg : Bytes) (hframed : Framed S cfg whole w) :
    Safe (machine cfg) A (fun _ _ => True) (Framed S cfg whole) (Launched S cfg whole)
      (do logFault secret msg; return none) w :=
  still_bind hpaths (logFault_quiet secret msg) hframed fun _ _ hs =>
    .ret ⟨hframed.congr hs.content, fun _ hnone => by cases hnone⟩

theorem listenStage_launches (hpaths : PathsApart cfg) (hframed : Framed S cfg whole w)
    (hcur : Current S cfg genesis fs st w) :
    Safe (machine cfg) A (fun _ _ => True) (Framed S cfg whole) (Launched S cfg whole)
      (listenStage cfg secret st) w := by
  refine ((still_safe (Q := fun _ w' => Same cfg w w') hpaths (listenStage_quiet cfg secret st)
    hframed fun _ _ hs => hs).yields listenStage_yields).mono ?_
  rintro r w' ⟨hr, hs⟩
  refine ⟨hframed.congr hs.content, fun st' hst' => ?_⟩
  rcases hr with rfl | rfl
  · cases hst'
  · cases hst'
    exact ⟨genesis, fs, hcur.congr hs.ledger hs.ledgerFd⟩

/-! ## Appending the configuration -/

theorem configStage_launches (hpaths : PathsApart cfg) (hcount : Counts S)
    (hframed : Framed S cfg whole w) (hcur : Current S cfg genesis fs st w) :
    Safe (machine cfg) A (fun _ _ => True) (Framed S cfg whole) (Launched S cfg whole)
      (configStage cfg secret st) w := by
  have hin := hcur.inStep
  unfold configStage
  refine Safe.bind (Q := fun x w' => Framed S cfg whole w' ∧ (x.2 ≠ none →
    ∃ f, Current S cfg genesis (fs ++ [f]) { st with gwl := x.1 } w')) ?_ ?_
  · refine gwlAppend_safe hin.at_ hin.export_ ⟨hframed, fun hne => absurd rfl hne⟩ ?_ ?_ ?_
    · intro f p w' hf hp hgrown
      exact hframed.grown hin hf hp hgrown
    · intro f p w' act hf _ hp hgrown
      exact ⟨hframed.grown hin hf hp hgrown, fun hne => absurd rfl hne⟩
    · intro f w' act ctx hf hact hgrown hctx
      refine ⟨hframed.grown hin hf List.prefix_rfl hgrown, fun _ =>
        ⟨f, hin.grown hf hgrown hctx hact, hcur.isOpen, fun hinit => ?_⟩⟩
      have hnext : S.sequence ctx = gwlSeq st.gwl + 1 := hcount.append _ _ _ hctx
      have hlt := hcur.ordered_succ hcount hframed hinit
      rw [gwlSeq, hnext]
      exact UInt64.le_of_lt hlt
  · rintro ⟨g, res⟩ w1 ⟨hframed1, hdone⟩
    rcases res with _ | ⟨head, seq⟩
    · exact stop_safe hpaths _ hframed1
    · obtain ⟨f, hcur1⟩ := hdone (by simp)
      refine still_bind hpaths (gwLogSeq_quiet secret _ _ _ _) hframed1 fun _ w2 hs2 => ?_
      have hframed2 := hframed1.congr hs2.content
      refine Safe.perform hframed2 (fun _ => ⟨trivial, hframed2⟩) fun e _ => ?_
      cases ((machine cfg).exec (.sys .curlInit) e w2).1 with
      | false => exact stop_safe hpaths _ hframed2
      | true =>
        exact listenStage_launches hpaths hframed2 (hcur1.congr hs2.ledger hs2.ledgerFd)

/-! ## Recovery -/

theorem clear_launches (hpaths : PathsApart cfg) (hframed : Framed S cfg whole w)
    (hcur : Current S cfg genesis fs st w) :
    Safe (machine cfg) A (fun _ _ => True) (Framed S cfg whole)
      (fun x w' => Framed S cfg whole w' ∧ Current S cfg genesis fs x.1 w')
      (do return (st, ← gwWalClear cfg)) w := by
  have hclosing : ∀ {w'}, Closing cfg w w' → Framed S cfg whole w' :=
    fun hc => hframed.congr (content_congr hc.ledger)
  have hobs : Observes (machine cfg) (fun _ => True)
      (fun m => Framed S cfg whole m.state ∧ Framed S cfg whole m.next)
      (fun _ _ w' => Closing cfg w w') (gwWalClear cfg) [] w :=
    gwWalClear_observes hpaths (fun m _ hpre hpost _ => ⟨hclosing hpre, hclosing hpost⟩)
      fun _ _ _ hc _ _ _ => hc
  refine Safe.bind hobs.keeps ?_
  intro ok w' hc
  exact .ret ⟨hclosing hc, hcur.congr hc.ledger hc.ledgerFd⟩

/-- Reading the WAL changes nothing, and an intent that is read has a whole hash. -/
theorem gwWalRecover_still {K : World → Prop} {Q : WalRecover → World → Prop} (hk : K w)
    (hQ : ∀ r, (∀ i, r = .intent i → i.inputHashHex.bytes.length = 64) → Q r w) :
    Safe (machine cfg) A (fun _ _ => True) K Q gwWalRecover w := by
  unfold gwWalRecover
  refine Safe.perform hk (fun _ => ⟨trivial, hk⟩) fun e _ => ?_
  rw [machine_exec]
  cases (exec cfg (.slurp .wal) e w).1 with
  | none => exact .ret (hQ _ fun i hi => by cases hi)
  | some bs => exact .ret (hQ _ fun i hi => parseIntent_length hi)

theorem synthInput_bounds {i : GwIntent} (hlen : i.inputHashHex.bytes.length = 64) :
    synthInput i ≠ [] ∧ (synthInput i).length < sizeMod := by
  have hsize : (synthInput i).length = 91 := by
    rw [synthInput, List.length_append, hlen]
    rfl
  constructor
  · intro hnil
    rw [hnil] at hsize
    cases hsize
  · rw [hsize]
    decide

theorem recoverIntent_launches (hpaths : PathsApart cfg) (hcount : Counts S) {i : GwIntent}
    (hlen : i.inputHashHex.bytes.length = 64) (hframed : Framed S cfg whole w)
    (hcur : Current S cfg genesis fs st w) :
    Safe (machine cfg) A (fun _ _ => True) (Framed S cfg whole)
      (fun x w' => Framed S cfg whole w' ∧
        (x.2 = true → ∃ gs, Current S cfg genesis gs x.1 w'))
      (recoverIntent cfg secret st i) w := by
  have hdone : ∀ {x : GwState S × Bool} {w' : World} {gs : List Frame},
      Framed S cfg whole w' ∧ Current S cfg genesis gs x.1 w' → Framed S cfg whole w' ∧
        (x.2 = true → ∃ gs, Current S cfg genesis gs x.1 w') :=
    fun h => ⟨h.1, fun _ => ⟨_, h.2⟩⟩
  unfold recoverIntent
  split
  · refine still_bind hpaths (gwLogSeq_quiet secret _ _ _ _) hframed fun _ w1 hs1 => ?_
    exact (clear_launches hpaths (hframed.congr hs1.content)
      (hcur.congr hs1.ledger hs1.ledgerFd)).mono fun _ _ h => hdone h
  · obtain ⟨hne, hsize⟩ := synthInput_bounds hlen
    have hobs : Observes (machine cfg) (fun _ => True)
        (fun m => Framed S cfg whole m.state ∧ Framed S cfg whole m.next)
        (fun x _ w' => Framed S cfg whole w' ∧
          (x.2 ≠ none → ∃ gs, Current S cfg genesis gs x.1 w'))
        (commitObservation cfg st .error .transportError (synthInput i) [] (recoveryParams i)) []
        w := by
      refine commitObservation_observes hcount hcur hframed hne hsize (Nat.zero_le _) ?_ ?_ ?_ ?_
      · exact fun m hm _ _ => ⟨hm.before, hm.after⟩
      · exact fun _ => ⟨hframed, fun h => absurd rfl h⟩
      · exact fun st' h' w' _ hframed' _ _ _ => ⟨hframed', fun h => absurd rfl h⟩
      · exact fun f rec info st' h' w' _ _ _ _ hcur' hframed' _ _ _ _ =>
          ⟨hframed', fun _ => ⟨_, hcur'⟩⟩
    refine Safe.bind hobs.keeps ?_
    rintro ⟨st1, info⟩ w1 ⟨hframed1, hcur1⟩
    cases info with
    | none =>
      exact still_bind hpaths (gwLogSeq_quiet secret _ _ _ _) hframed1 fun _ w2 hs2 =>
        .ret ⟨hframed1.congr hs2.content, fun hf => by cases hf⟩
    | some info =>
      obtain ⟨gs, hcur1⟩ := hcur1 (by simp)
      refine still_bind hpaths (gwLogSeq_quiet secret _ _ _ _) hframed1 fun _ w2 hs2 => ?_
      exact (clear_launches hpaths (hframed1.congr hs2.content)
        (hcur1.congr hs2.ledger hs2.ledgerFd)).mono fun _ _ h => hdone h

theorem recoverStage_launches (hpaths : PathsApart cfg) (hcount : Counts S)
    (hframed : Framed S cfg whole w) (hcur : Current S cfg genesis fs st w) :
    Safe (machine cfg) A (fun _ _ => True) (Framed S cfg whole) (Launched S cfg whole)
      (recoverStage cfg secret st) w := by
  unfold recoverStage recoverWal
  refine Safe.bind (Q := fun x w' => Framed S cfg whole w' ∧
    (x.2 = true → ∃ gs, Current S cfg genesis gs x.1 w')) (Safe.bind (gwWalRecover_still
      (Q := fun r w' => w' = w ∧ ∀ i, r = .intent i → i.inputHashHex.bytes.length = 64) hframed
      fun r hlen => ⟨rfl, hlen⟩) ?_) ?_
  · rintro r w1 ⟨rfl, hlen⟩
    cases r with
    | none => exact .ret ⟨hframed, fun _ => ⟨fs, hcur⟩⟩
    | corrupt =>
      exact still_bind hpaths (gwLogSeq_quiet secret _ _ _ _) hframed fun _ w2 hs2 =>
        .ret ⟨hframed.congr hs2.content, fun hf => by cases hf⟩
    | intent i => exact recoverIntent_launches hpaths hcount (hlen i rfl) hframed hcur
  · rintro ⟨st1, ok⟩ w1 ⟨hframed1, hcur1⟩
    cases ok with
    | false => exact .ret ⟨hframed1, fun _ hnone => by cases hnone⟩
    | true =>
      obtain ⟨gs, hcur1⟩ := hcur1 rfl
      exact configStage_launches hpaths hcount hframed1 hcur1

/-! ## The start -/

theorem Current.export (hpaths : PathsApart cfg) (hcur : Current S cfg genesis fs st w) {g : Gwl S}
    (hg : st.gwl.Exports g) : Current S cfg genesis fs { st with gwl := g } w := by
  have hapart : cfg.path .exportCopy ≠ cfg.path .ledger := hpaths.ledger .exportCopy (by simp)
  obtain ⟨⟨hgen, hat, hchain, -⟩, hopen, hord⟩ := hcur
  rw [hg]
  exact ⟨⟨hgen, hat, hchain, fun _ => hapart⟩, hopen, hord⟩

theorem exportStage_launches (hpaths : PathsApart cfg) (hcount : Counts S)
    (hframed : Framed S cfg whole w) (hcur : Current S cfg genesis fs st w) :
    Safe (machine cfg) A (fun _ _ => True) (Framed S cfg whole) (Launched S cfg whole)
      (exportStage cfg secret st) w := by
  unfold exportStage
  split
  · exact recoverStage_launches hpaths hcount hframed hcur
  · refine Safe.bind (Safe.yields (still_safe (Q := fun _ w' => Same cfg w w') hpaths
      (gwlExportEnable_quiet cfg st.gwl) hframed fun _ _ hs => hs)
      (gwlExportEnable_yields st.gwl)) ?_
    rintro ⟨g, ok⟩ w1 ⟨hg, hs1⟩
    have hframed1 := hframed.congr hs1.content
    have hcur1 := (hcur.congr hs1.ledger hs1.ledgerFd).export hpaths hg
    cases ok with
    | false => exact stop_safe hpaths _ hframed1
    | true =>
      exact still_bind hpaths (gwLogSeq_quiet secret _ _ _ _) hframed1 fun _ w2 hs2 =>
        recoverStage_launches hpaths hcount (hframed1.congr hs2.content)
          (hcur1.congr hs2.ledger hs2.ledgerFd)

/-- What an open cuts off, it cuts at a frame boundary. -/
theorem Framed.cut (h : Framed S cfg whole w)
    (hcut : CutTo S False (w.content cfg .ledger) (w'.content cfg .ledger)) :
    Framed S cfg whole w' := by
  obtain ⟨fs, tail, hfile, hfile', hmatch, -⟩ := hcut
  refine ⟨?_, fun _ => ⟨fs, [], ?_, hmatch, .inl rfl⟩⟩
  · have := h.size
    rw [hfile, List.length_append] at this
    rw [hfile']
    omega
  · rw [hfile', List.append_nil]

/-- An open leaves a framed file, and the chain over it in memory. -/
theorem gwlOpen_launches (hframed : Framed S cfg whole w) (tornTailOk : Bool) :
    Safe (machine cfg) A (fun _ _ => True) (Framed S cfg whole)
      (fun x w' => Framed S cfg whole w' ∧ Apart cfg w w' ∧ ∀ g cut, x = some (g, cut) →
        ∃ genesis fs, Current S cfg genesis fs ⟨axAdmissionCtxInit, 0, false, g⟩ w')
      (gwlOpen S tornTailOk) w := by
  refine gwlOpen_safe False (fun hf => hf.elim) (fun _ _ _ => trivial) ?_ ?_ ?_
  · rintro w' (hsame | hcut) -
    · exact hframed.congr hsame
    · exact hframed.cut hcut
  · exact fun w' hsame hap => ⟨hframed.congr hsame, hap, fun _ _ h => by cases h⟩
  · intro w' genesis fs r cut hgen hacc hat hap hcut
    refine ⟨?_, hap, ?_⟩
    · rcases hcut with ⟨-, hsame⟩ | ⟨-, hcut⟩
      · exact hframed.congr (hat.content.trans hsame.symm)
      · rw [← hat.content] at hcut
        exact hframed.cut hcut
    · rintro g cut' heq
      cases heq
      exact ⟨genesis, fs, ⟨hgen, hat, ⟨r, hacc, rfl, rfl⟩, fun hact => by cases hact⟩, rfl,
        fun hinit => by cases hinit⟩

theorem ledgerStage_launches (hpaths : PathsApart cfg) (hcount : Counts S)
    (hframed : Framed S cfg whole w) :
    Safe (machine cfg) A (fun _ _ => True) (Framed S cfg whole) (Launched S cfg whole)
      (ledgerStage S cfg secret) w := by
  unfold ledgerStage
  refine Safe.bind (gwWalRecover_still (Q := fun _ w' => w' = w) hframed fun _ _ => rfl) ?_
  rintro probe w1 rfl
  refine Safe.bind (gwlOpen_launches hframed _) ?_
  rintro x w2 ⟨hframed2, -, hopened⟩
  rcases x with _ | ⟨g, cut⟩
  · exact stop_safe hpaths _ hframed2
  · obtain ⟨genesis, fs, hcur⟩ := hopened g cut rfl
    cases cut with
    | false => exact exportStage_launches hpaths hcount hframed2 hcur
    | true =>
      exact still_bind hpaths (gwLogSeq_quiet secret _ _ _ _) hframed2 fun _ w3 hs3 =>
        exportStage_launches hpaths hcount (hframed2.congr hs3.content)
          (hcur.congr hs3.ledger hs3.ledgerFd)

/-- **A start leaves a current process**, or none. -/
theorem startUp_launches (hpaths : PathsApart cfg) (hcount : Counts S)
    (hframed : Framed S cfg whole w) (host : Host) :
    Safe (machine cfg) A (fun _ _ => True) (Framed S cfg whole) (Launched S cfg whole)
      (startUp S cfg host) w := by
  have hnone : ∀ {w' : World}, Framed S cfg whole w' → Launched S cfg whole none w' :=
    fun h => ⟨h, fun _ hst => by cases hst⟩
  unfold startUp
  split
  · exact .ret (hnone hframed)
  split
  · exact .ret (hnone hframed)
  split
  · exact .ret (hnone hframed)
  split
  · exact .ret (hnone hframed)
  have hlog : ∀ e, Framed S cfg whole (exec cfg (.openAppend .log) e w).2 := fun e =>
    hframed.congr (Same.content (exec_quiet hpaths (.log rfl)))
  refine Safe.perform hframed (fun e => ⟨trivial, hlog e⟩) fun e _ => ?_
  have hframed1 := hlog e
  rw [machine_exec]
  cases (exec cfg (.openAppend .log) e w).1 with
  | false => exact .ret (hnone hframed1)
  | true =>
    refine Safe.perform hframed1 (fun _ => ⟨trivial, hframed1⟩) fun e2 _ => ?_
    cases ((machine cfg).exec (.sys .malloc) e2 _).1 with
    | false => exact .ret (hnone hframed1)
    | true => exact ledgerStage_launches hpaths hcount hframed1

/-! ## Histories -/

theorem handleRequest_keeps (hpaths : PathsApart cfg) (hcount : Counts S) {req : Bytes}
    (hst : Standing S cfg whole st w) :
    Safe (machine cfg) A (fun _ _ => True) (Framed S cfg whole) (Standing S cfg whole)
      (handleRequest cfg secret st req) w :=
  (handleRequest_observes (D := fun _ => True) hpaths hcount hst).safe (fun _ => trivial)
    (fun _ hm => ⟨hm.before, trivial, hm.after⟩) fun _ _ _ hend => hend.standing

variable (S cfg whole) in
/-- The gateway keeps its ledger framed and its idle process standing. -/
theorem gateway_standing (host : Host) (hpaths : PathsApart cfg) (hcount : Counts S) :
    (gateway S cfg host).Sound (fun _ => True) (fun _ _ => True) (Framed S cfg whole)
      (Standing S cfg whole) (fun _ => True) where
  boot w hframed _ := by
    refine (startUp_launches hpaths hcount hframed host).mono fun r w' h => ?_
    cases r with
    | none => exact h.1
    | some st => exact ⟨h.1, .inl (h.2 st rfl)⟩
  serve st req w h := (handleRequest_keeps hpaths hcount h).bind fun _ _ h' => .ret h'
  halt st w h := by
    refine ((still_safe (Q := fun _ w' => Framed S cfg whole w') hpaths (shutDown_quiet
      (logSecret (host.apiKey.elim [] CStr.bytes)) st) h.framed
      fun _ _ hs => h.framed.congr hs.content).yields (shutDown_yields _ st)).mono ?_
    rintro r w' ⟨rfl, hframed⟩
    exact hframed
  idle st w h := h.framed
  release w h := h.congr rfl

/-- **Every process that waits for a request is standing**, in every history, whatever fails. -/
theorem standing_of_reaches {host : Host} (hpaths : PathsApart cfg) (hcount : Counts S)
    {node : Bytes → Option Node} (hframed : Framed S cfg whole (.initial node))
    (hreach : (gateway S cfg host).Reaches (fun _ => True) (fun _ => True) (.initial node, .down)
      (w, .idle st)) : Standing S cfg whole st w :=
  hreach.inv (gateway_standing S cfg whole host hpaths hcount) hframed

end Reached

end AxiomaOracle
