import AxiomaOracle.Verify.Stages

/-!
# Requests

A request from an idle process: it writes an intent, calls the oracle, commits one observation (or
its degraded form) and closes the intent, and the process is idle again. `KeptAt` is what the
evidence needs at each stage, and `requestRules_kept` that every call leads on to it.
-/

namespace AxiomaOracle

open Lib

section Requests

variable {S : Substrate} {W : Watch} {cfg : GwConfig} {w w' : World} {A : Env → Prop}
  {secret norm : Bytes} {st : GwState S}

variable (S W cfg) in
/-- The process waits for a request. -/
structure Idle (st : GwState S) (w : World) : Prop where
  kept : Kept S W cfg w
  atEnd : AtEnd cfg w
  mode : Blocked st ∨ Exact W cfg st w

theorem Idle.same (h : Idle S W cfg st w) (hs : Same cfg w w') : Idle S W cfg st w' where
  kept := hs.kept h.kept
  atEnd := h.atEnd.congr hs.ledger hs.ledgerFd
  mode := h.mode.imp id fun hx => hx.congr hs.ledger hs.ledgerFd

theorem Idle.created (h : Idle S W cfg st w) (hc : Created cfg w w') : Idle S W cfg st w' where
  kept := hc.kept h.kept
  atEnd := h.atEnd.congr hc.ledger hc.ledgerFd
  mode := h.mode.imp id fun hx => hx.congr hc.ledger hc.ledgerFd

theorem Idle.closing (h : Idle S W cfg st w) (hc : Closing cfg w w')
    (hpaid : W.owed → (w.evidence cfg).calls ≤ (w.evidence cfg).obs) : Idle S W cfg st w' where
  kept := hc.kept h.kept hpaid
  atEnd := h.atEnd.congr hc.ledger hc.ledgerFd
  mode := h.mode.imp id fun hx => hx.congr hc.ledger hc.ledgerFd

/-- A quiet program, and what follows it. -/
theorem quiet_bind (hpaths : PathsApart cfg) {α β : Type} {Q : β → World → Prop} {p : Io α}
    {f : α → Io β} (hp : p.Only Op.Quiet) (hk : Kept S W cfg w)
    (hf : ∀ a w', Same cfg w w' →
      Safe (machine cfg) A (fun _ _ => True) (Kept S W cfg) Q (f a) w') :
    Safe (machine cfg) A (fun _ _ => True) (Kept S W cfg) Q (p >>= f) w :=
  (quiet_safe hpaths hp hk fun _ _ hs => hs).bind hf

theorem Idle.drop (h : Idle S W cfg st w) (b : Bool) :
    Idle S W cfg { st with exportDropLogged := b } w := ⟨h.kept, h.atEnd, h.mode⟩

/-! ## The stages -/

variable (S W cfg) in
/-- The oracle has answered, and the observation of this input is to be committed. -/
structure Ready (norm : Bytes) (st : GwState S) (w : World) : Prop where
  kept : Kept S W cfg w
  atEnd : AtEnd cfg w
  armed : Armed W cfg st w
  tells : W.spaced → Tells S cfg norm w

theorem Ready.idle (h : Ready S W cfg norm st w) : Idle S W cfg st w :=
  ⟨h.kept, h.atEnd, h.armed.imp id And.left⟩

theorem Ready.same (h : Ready S W cfg norm st w) (hs : Same cfg w w') :
    Ready S W cfg norm st w' where
  kept := hs.kept h.kept
  atEnd := h.atEnd.congr hs.ledger hs.ledgerFd
  armed := hs.armed h.armed
  tells hW := hs.tells (h.tells hW)

/-- A commit keeps the evidence stable: it is refused, or the observation pays for the call. -/
theorem commitObservation_kept (hpaths : PathsApart cfg) (hcount : W.numbered → Counts S)
    {o : Outcome} {params : AxOracleParams} (h : Ready S W cfg norm st w)
    {T : GwState S × Option CommitInfo → World → Prop}
    (hfail : ∀ st' w', Ready S W cfg norm st' w' → T (st', none) w')
    (hdone : ∀ st' info w', Idle S W cfg st' w' →
      (W.owed → (w'.evidence cfg).calls ≤ (w'.evidence cfg).obs) → T (st', some info) w') :
    Safe (machine cfg) A (fun _ _ => True) (Kept S W cfg) T
      (commitObservation cfg st o.state o.ftype norm o.output params) w := by
  refine commitObservation_safe hpaths hcount h.kept h.atEnd h.armed h.tells ?_ ?_
  · intro st' w' hk' hend' harmed' hap
    exact hfail st' w' ⟨hk', hend', harmed', fun hW => hap.tells hpaths (h.tells hW)⟩
  · intro st' w' info hk' hx' hap hobs
    refine hdone st' info w' ⟨hk', hx'.atEnd, .inr hx'⟩ fun hW => ?_
    have hcalls : (w'.evidence cfg).calls = (w.evidence cfg).calls := by
      rw [hap.evidence hpaths]
    rw [hobs, hcalls]
    exact h.kept.stable.calls_le hW

variable (S W cfg) in
/-- The intent is written, and nothing happened since. -/
structure Opened (norm : Bytes) (st : GwState S) (w : World) : Prop where
  idle : Idle S W cfg st w
  wal : (w.evidence cfg).wal ≠ none
  mark : ∃ ms, (w.evidence cfg).marks = ⟨(w.evidence cfg).frames, (w.evidence cfg).calls⟩ :: ms
  paid : W.owed → (w.evidence cfg).calls ≤ (w.evidence cfg).obs
  tells : W.spaced → Tells S cfg norm w

theorem Opened.same (h : Opened S W cfg norm st w) (hs : Same cfg w w') :
    Opened S W cfg norm st w' where
  idle := h.idle.same hs
  wal := hs.evidence ▸ h.wal
  mark := hs.evidence ▸ h.mark
  paid := hs.evidence ▸ h.paid
  tells hW := hs.tells (h.tells hW)

/-- Creating the WAL opens the intent. -/
theorem Opened.of_created (h : Idle S W cfg st w) (hc : Created cfg w w') (hne : norm ≠ [])
    (hlen : norm.length < sizeMod) {params : AxOracleParams}
    (hfile : w'.node (cfg.path .wal) =
      some (.file (intentText (requestIntent (S := S) cfg norm params)))) :
    Opened S W cfg norm st w' := by
  obtain ⟨bs, hev⟩ := hc.evidence
  refine ⟨h.created hc, ?_, ?_, ?_, fun _ => ⟨hne, hlen, fun hmodel i hi => .inl ?_⟩⟩
  · simp [hev]
  · exact ⟨(w.evidence cfg).marks, by rw [hev]⟩
  · rw [hev]
    exact h.kept.stable.calls_le_of_absent hc.absent
  · have hwal : (w'.evidence cfg).wal =
        some (.file (intentText (requestIntent (S := S) cfg norm params))) := hfile
    rw [Evidence.intent, hwal] at hi
    dsimp only at hi
    split at hi
    · next j hj =>
      cases hi
      exact parseIntent_requestIntent hmodel hj
    · cases hi

theorem exec_gwcCall (h : Opened S W cfg norm st w) (body : Bytes) (e : Env) (n : Int) :
    Ready S W cfg norm { st with callsMade := n } (exec cfg (.gwcCall body) e w).2 := by
  obtain ⟨ms, hmark⟩ := h.mark
  have hev : (exec cfg (.gwcCall body) e w).2.evidence cfg =
      { w.evidence cfg with calls := (w.evidence cfg).calls + 1 } := rfl
  refine ⟨⟨h.idle.kept.size, ?_⟩, h.idle.atEnd.congr rfl rfl, ?_, fun hW => ?_⟩
  · rw [hev]
    exact h.idle.kept.stable.call h.wal hmark h.paid
  · rcases h.idle.mode with hb | hx
    · exact .inl hb
    · exact .inr ⟨hx.congr rfl rfl, fun _ => ⟨_, ms, hmark, rfl⟩⟩
  · obtain ⟨hne, hlen, htell⟩ := h.tells hW
    exact ⟨hne, hlen, htell⟩

variable (S W cfg) in
/-- What the evidence needs at each stage. -/
def KeptAt : Stage → GwState S → World → Prop
  | .opened _ norm, st, w => Opened S W cfg norm st w
  | .answered _ norm _, st, w | .unrecorded _ norm _, st, w => Ready S W cfg norm st w
  | .committed _ _ _, st, w =>
    Idle S W cfg st w ∧ (W.owed → (w.evidence cfg).calls ≤ (w.evidence cfg).obs)
  | .failed, st, w | .closed _ _ _, st, w => Idle S W cfg st w

theorem KeptAt.kept {s : Stage} (h : KeptAt S W cfg s st w) : Kept S W cfg w := by
  cases s with
  | failed => exact Idle.kept h
  | opened hdr norm => exact (Opened.idle h).kept
  | answered hdr norm res => exact Ready.kept h
  | unrecorded hdr norm res => exact Ready.kept h
  | committed o info params => exact Idle.kept h.1
  | closed o info params => exact Idle.kept h

theorem KeptAt.same {s : Stage} (h : KeptAt S W cfg s st w) (hs : Same cfg w w') :
    KeptAt S W cfg s st w' := by
  cases s with
  | failed => exact Idle.same h hs
  | opened hdr norm => exact Opened.same h hs
  | answered hdr norm res => exact Ready.same h hs
  | unrecorded hdr norm res => exact Ready.same h hs
  | committed o info params =>
    refine ⟨Idle.same h.1 hs, ?_⟩
    rw [hs.evidence]
    exact h.2
  | closed o info params => exact Idle.same h hs

/-! ## The request -/

variable (S W cfg) in
/-- The evidence is stable on both sides of a call. -/
def KeptAround (m : Step (machine cfg)) : Prop := Kept S W cfg m.state ∧ Kept S W cfg m.next

/-- What is safe keeps the evidence at every call. -/
theorem KeptAround.observes {α : Type} {p : Io α} {Q : α → World → Prop}
    {h : List (Answered Op Ans)}
    (hp : Safe (machine cfg) (fun _ => True) (fun _ _ => True) (Kept S W cfg) Q p w) :
    Observes (machine cfg) (fun _ => True) (KeptAround S W cfg) (fun a _ w' => Q a w') p h w :=
  hp.observes (fun _ => trivial) fun _ hpre hpost => ⟨hpre, hpost⟩

/-- The evidence is kept on the way of a request from an idle process to an idle process. -/
theorem requestRules_kept (hpaths : PathsApart cfg) (hcount : W.numbered → Counts S) {req : Bytes}
    (h : Idle S W cfg st w) : RequestRules cfg secret req st w (fun _ => True) (KeptAround S W cfg)
      (fun s st' _ w' => KeptAt S W cfg s st' w') (fun st' _ w' => Idle S W cfg st' w') where
  mute hp hs :=
    KeptAround.observes (quiet_safe hpaths (quiet_of_mute hp) hs.kept fun _ _ => hs.same)
  unserved _ := h
  intent hp _ := by
    have hkept : ∀ w', w' = w ∨ Created cfg w w' → Kept S W cfg w' := by
      rintro w' (rfl | hc)
      · exact h.kept
      · exact hc.kept h.kept
    refine gwWalWrite_observes hpaths (fun m _ hpre hpost _ => ⟨hkept _ hpre, hkept _ hpost⟩)
      (fun _ _ _ => h) fun ok _ w' hc hfile _ _ => ?_
    cases ok with
    | false => exact h.created hc
    | true => exact .of_created h hc hp.ne_nil hp.length_lt (hfile rfl)
  abandon _ hs :=
    KeptAround.observes (gwWalClear_safe hpaths hs.kept (Opened.paid hs) fun _ _ hc _ =>
      (Opened.idle hs).closing hc (Opened.paid hs))
  call {_ _ body st _ w} _ hs := by
    have hready := fun e => exec_gwcCall hs body e (st.callsMade + 1)
    refine .call (fun e _ => ⟨hs.kept, (hready e).kept⟩) fun e _ => .ret ?_
    rw [machine_exec]
    cases (exec cfg (.gwcCall body) e w).1 with
    | none => exact (hready e).idle
    | some res => exact hready e
  commit hs := KeptAround.observes (commitObservation_kept hpaths hcount hs (fun _ _ hr => hr)
    fun _ _ _ hidle hpaid => ⟨hidle, hpaid⟩)
  degrade _ hs :=
    KeptAround.observes (commitObservation_kept hpaths hcount hs (fun _ _ hr => hr.idle)
      fun _ _ _ hidle hpaid => ⟨hidle, hpaid⟩)
  fault _ hs := Ready.idle hs
  clear hs := KeptAround.observes (gwWalClear_safe hpaths hs.kept hs.2 fun _ _ hc _ =>
    Idle.closing hs.1 hc hs.2)
  respond b hs := KeptAround.observes (quiet_safe hpaths (respond_quiet cfg secret _ _ _) hs.kept
    fun _ _ hsame => (Idle.same hs hsame).drop b)
  refuse hs := KeptAround.observes (quiet_safe hpaths (protoError_quiet _) hs.kept fun _ _ hsame =>
    Idle.same hs hsame)

/-- **A request keeps the evidence stable**, and an idle process idle. -/
theorem handleRequest_safe (hpaths : PathsApart cfg) (hcount : W.numbered → Counts S) {req : Bytes}
    (h : Idle S W cfg st w) : Safe (machine cfg) A (fun _ _ => True) (Kept S W cfg)
      (Idle S W cfg) (handleRequest cfg secret st req) w :=
  (requestRules_kept hpaths hcount h).handleRequest.keeps

end Requests

end AxiomaOracle
