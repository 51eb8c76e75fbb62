import AxiomaOracle.Verify.Requests

/-!
# Start-up

A start replays the ledger, closes the intent that was left open and appends its configuration. It
keeps the evidence stable from every state that is `Recoverable`: one in which the stale test of
recovery, a search for a hash in the last payload, is not deceived.
-/

namespace AxiomaOracle

open Lib

section StartUp

variable {S : Substrate} {W : Watch} {cfg : GwConfig} {w w' : World} {A : Env → Prop}
  {secret : Bytes} {st : GwState S}

variable (S W) in
/-- What a start needs of the evidence it finds. The hash of an intent whose call is pending is not
in the last payload, and neither is the hash of the recovery of the open intent. -/
structure Recoverable (E : Evidence) : Prop where
  owed : W.owed → ∀ i, E.intent = some i → E.Pending → ¬ E.Carries i.inputHashHex.bytes
  spaced : W.spaced → ∀ i, E.intent = some i → ¬ E.Carries (recoveryHash S i)

/-! ## Reading the WAL -/

/-- What the outcome of `gw_wal_recover` says of the evidence. -/
def WalRecover.Reads (E : Evidence) : WalRecover → Prop
  | .none => E.wal = Option.none
  | .corrupt => True
  | .intent i => E.intent = some i

theorem exec_slurp {e : Env} (he : none ∉ e.script) :
    (exec cfg (.slurp .wal) e w).1 = w.file cfg .wal := by
  have hhead : e.script.head? ≠ some none := fun h => he (List.mem_of_head? h)
  have hcontains : e.script.contains none = false := by simpa using he
  simp only [exec, hhead, hcontains, if_false, Bool.false_eq_true]
  exact Option.map_id'

theorem gwWalRecover_safe (hA : W.strict → ∀ e, A e → none ∉ e.script) (hk : Kept S W cfg w)
    {Q : WalRecover → World → Prop} (hQ : ∀ r, (W.strict → r.Reads (w.evidence cfg)) → Q r w) :
    Safe (machine cfg) A (fun _ _ => True) (Kept S W cfg) Q gwWalRecover w := by
  unfold gwWalRecover
  refine Safe.perform hk (fun _ => ⟨trivial, hk⟩) fun e he => ?_
  have hfile : W.strict → (exec cfg (.slurp .wal) e w).1 = w.file cfg .wal :=
    fun hW => exec_slurp (hA hW e he)
  have hsock := hk.stable.walFile
  rw [machine_exec]
  cases hans : (exec cfg (.slurp .wal) e w).1 with
  | none =>
    refine .ret (hQ .none fun hW => ?_)
    have hnone := (hfile hW).symm.trans hans
    cases hnode : w.node (cfg.path .wal) with
    | none => exact hnode
    | some n =>
      cases n with
      | sock => exact absurd hnode hsock
      | file bs =>
        rw [World.file, World.fileAt, hnode] at hnone
        cases hnone
  | some file =>
    refine .ret (hQ _ fun hW => ?_)
    have hsome := (hfile hW).symm.trans hans
    have hwal : (w.evidence cfg).wal = some (.file file) := by
      cases hnode : w.node (cfg.path .wal) with
      | none =>
        rw [World.file, World.fileAt, hnode] at hsome
        cases hsome
      | some n =>
        rw [World.file, World.fileAt, hnode] at hsome
        cases n with
        | sock => cases hsome
        | file bs =>
          cases hsome
          exact hnode
    cases hparse : parseIntent file with
    | none =>
      unfold parseIntent at hparse
      dsimp only at hparse
      split at hparse <;> cases hparse
    | corrupt => trivial
    | intent i =>
      simp only [WalRecover.Reads, Evidence.intent, hwal, hparse]

/-! ## Replay -/

/-- An open that cuts at most what starts with no frame changes nothing when no read fails. -/
theorem kept_of_cut (hpaths : PathsApart cfg) (hk : Kept S W cfg w) (hap : Apart cfg w w')
    (h : w'.content cfg .ledger = w.content cfg .ledger ∨
      CutTo S W.strict (w.content cfg .ledger) (w'.content cfg .ledger)) :
    Kept S W cfg w' ∧ (W.strict → w'.evidence cfg = w.evidence cfg) := by
  have hev := hap.evidence hpaths
  rcases h with hsame | ⟨fs, tail, hfile, hfile', -, htail⟩
  · have hev' : w'.evidence cfg = w.evidence cfg := by
      rw [hev, hsame]
      rfl
    exact ⟨⟨hsame ▸ hk.size, hev' ▸ hk.stable⟩, fun _ => hev'⟩
  · have hframes : (w.evidence cfg).frames = fs ++ frames tail := by
      rw [World.evidence, hfile, frames_append]
    have hsize : (w'.content cfg .ledger).length ≤ offMax := by
      have := hk.size
      rw [hfile, List.length_append] at this
      rw [hfile']
      omega
    rw [hfile', frames_encodeAll'] at hev
    have hev' : W.strict → w'.evidence cfg = w.evidence cfg := by
      intro hW
      rw [frames_of_nextFrame_none (htail hW), List.append_nil] at hframes
      rw [hev, ← hframes]
    refine ⟨⟨hsize, ?_⟩, hev'⟩
    by_cases hW : W.strict
    · rw [hev' hW]
      exact hk.stable
    · rw [hev]
      refine hk.stable.cut hW ?_
      rw [hframes]
      exact List.prefix_append _ _

variable (S W cfg) in
/-- The ledger is open; recovery is still to come. -/
structure Booting (st : GwState S) (w : World) : Prop where
  kept : Kept S W cfg w
  exact_ : Exact W cfg st w
  last : st.gwl.lastPayload = lastPayload (w.evidence cfg).frames
  recoverable : W.strict → Recoverable S W (w.evidence cfg)

theorem Booting.same (h : Booting S W cfg st w) (hs : Same cfg w w') : Booting S W cfg st w' where
  kept := hs.kept h.kept
  exact_ := h.exact_.congr hs.ledger hs.ledgerFd
  last := hs.evidence ▸ h.last
  recoverable := hs.evidence ▸ h.recoverable

/-! ## Recovery -/

variable (S W cfg) in
/-- The open intent is closed, and the process has made no call of its own. -/
structure Closed (st : GwState S) (w : World) : Prop where
  kept : Kept S W cfg w
  exact_ : Exact W cfg st w
  absent : W.strict → (w.evidence cfg).wal = none

theorem Closed.same (h : Closed S W cfg st w) (hs : Same cfg w w') : Closed S W cfg st w' where
  kept := hs.kept h.kept
  exact_ := h.exact_.congr hs.ledger hs.ledgerFd
  absent := hs.evidence ▸ h.absent

theorem Closed.idle (h : Closed S W cfg st w) : Idle S W cfg st w :=
  ⟨h.kept, h.exact_.atEnd, .inr h.exact_⟩

theorem Closed.paid (h : Closed S W cfg st w) (hW : W.owed) :
    (w.evidence cfg).calls ≤ (w.evidence cfg).obs :=
  h.kept.stable.calls_le_of_absent (h.absent (.inl hW)) hW

variable (S W cfg) in
/-- How a stage of the start ends: with the intent closed, or with the end of the process. -/
def Recovered (x : GwState S × Bool) (w : World) : Prop :=
  Kept S W cfg w ∧ (x.2 = true → Closed S W cfg x.1 w)

/-- Clearing the WAL behind a recovery. -/
theorem clear_safe (hpaths : PathsApart cfg) (hk : Kept S W cfg w) (hx : Exact W cfg st w)
    (hpaid : W.owed → (w.evidence cfg).calls ≤ (w.evidence cfg).obs) :
    Safe (machine cfg) A (fun _ _ => True) (Kept S W cfg) (Recovered S W cfg)
      (do return (st, ← gwWalClear cfg)) w := by
  refine Safe.bind (Q := fun ok w' => Recovered S W cfg (st, ok) w') ?_ fun ok w' h => .ret h
  refine gwWalClear_safe hpaths hk hpaid fun ok w' hc hgone => ?_
  have hk' := hc.kept hk hpaid
  exact ⟨hk', fun hok => ⟨hk', hx.congr hc.ledger hc.ledgerFd, fun _ => hgone hok⟩⟩

/-- The synthetic text of an intent tells of it. -/
theorem tells_synthInput {i : GwIntent} (hi : (w.evidence cfg).intent = some i) :
    Tells S cfg (synthInput i) w := by
  have hlen : i.inputHashHex.bytes.length = 64 := by
    rw [Evidence.intent] at hi
    split at hi
    · split at hi
      · next hparse =>
        cases hi
        exact parseIntent_length hparse
      · cases hi
    · cases hi
  have hsize : (synthInput i).length = 91 := by
    rw [synthInput, List.length_append, hlen]
    rfl
  refine ⟨?_, hsize ▸ by decide, fun _ j hj => .inr ?_⟩
  · intro hnil
    rw [hnil] at hsize
    cases hsize
  · rw [hi] at hj
    cases hj
    rfl

/-- **Recovery of an open intent**: it is stale and its call is evidenced, or one observation is
appended for it. -/
theorem recoverIntent_safe (hpaths : PathsApart cfg) (hcount : W.numbered → Counts S) {i : GwIntent}
    (h : Booting S W cfg st w) (hi : W.strict → (w.evidence cfg).intent = some i) :
    Safe (machine cfg) A (fun _ _ => True) (Kept S W cfg) (Recovered S W cfg)
      (recoverIntent cfg secret st i) w := by
  have hstale : gwlLastPayloadContains st.gwl i.inputHashHex.bytes = true ↔
      (w.evidence cfg).Carries i.inputHashHex.bytes := by
    rw [gwlLastPayloadContains, h.last]
    rfl
  unfold recoverIntent
  split
  · next hcarries =>
    refine quiet_bind hpaths (gwLogSeq_quiet secret _ _ _ _) h.kept fun _ w1 hs => ?_
    have h1 := h.same hs
    refine clear_safe hpaths h1.kept h1.exact_ fun hW => ?_
    rw [hs.evidence]
    refine h.kept.stable.calls_le_of_answered hW fun hpend => ?_
    exact (h.recoverable (.inl hW)).owed hW i (hi (.inl hW)) hpend (hstale.1 hcarries)
  · next hcarries =>
    have harmed : Armed W cfg st w := by
      refine .inr ⟨h.exact_, fun hW => ?_⟩
      have hint := hi (.inr hW)
      exact h.kept.stable.untouched_of_untraced hW hint (fun hc => hcarries (hstale.2 hc))
        ((h.recoverable (.inr hW)).spaced hW i hint)
    refine Safe.bind (Q := fun x w' => Kept S W cfg w' ∧ (x.2 ≠ none → Exact W cfg x.1 w' ∧
      (W.owed → (w'.evidence cfg).calls ≤ (w'.evidence cfg).obs))) ?_ ?_
    · refine commitObservation_safe hpaths hcount h.kept h.exact_.atEnd harmed
        (fun hW => tells_synthInput (hi (.inr hW))) ?_ ?_
      · intro st' w' hk' _ _ _
        exact ⟨hk', fun hne => absurd rfl hne⟩
      · intro st' w' info hk' hx' hap hobs
        refine ⟨hk', fun _ => ⟨hx', fun hW => ?_⟩⟩
        have hcalls : (w'.evidence cfg).calls = (w.evidence cfg).calls := by
          rw [hap.evidence hpaths]
        rw [hobs, hcalls]
        exact h.kept.stable.calls_le hW
    · rintro ⟨st', info⟩ w' ⟨hk', hdone⟩
      cases info with
      | none =>
        exact quiet_bind hpaths (gwLogSeq_quiet secret _ _ _ _) hk' fun _ w2 hs =>
          .ret ⟨hs.kept hk', fun hf => by cases hf⟩
      | some info =>
        obtain ⟨hx', hpaid⟩ := hdone (by simp)
        refine quiet_bind hpaths (gwLogSeq_quiet secret _ _ _ _) hk' fun _ w2 hs => ?_
        exact clear_safe hpaths (hs.kept hk') (hx'.congr hs.ledger hs.ledgerFd)
          (hs.evidence ▸ hpaid)

theorem recoverWal_safe (hpaths : PathsApart cfg) (hcount : W.numbered → Counts S)
    (hA : W.strict → ∀ e, A e → none ∉ e.script) (h : Booting S W cfg st w) :
    Safe (machine cfg) A (fun _ _ => True) (Kept S W cfg) (Recovered S W cfg)
      (recoverWal cfg secret st) w := by
  unfold recoverWal
  refine Safe.bind (Q := fun r w' => Booting S W cfg st w' ∧
    (W.strict → r.Reads (w'.evidence cfg))) ?_ ?_
  · exact gwWalRecover_safe hA h.kept fun r hr => ⟨h, hr⟩
  · rintro r w1 ⟨h1, hreads⟩
    cases r with
    | none => exact .ret ⟨h1.kept, fun _ => ⟨h1.kept, h1.exact_, hreads⟩⟩
    | corrupt =>
      exact quiet_bind hpaths (gwLogSeq_quiet secret _ _ _ _) h1.kept fun _ w2 hs =>
        .ret ⟨hs.kept h1.kept, fun hf => by cases hf⟩
    | intent i => exact recoverIntent_safe hpaths hcount h1 hreads

/-! ## The stages behind it -/

variable (S W cfg) in
/-- How a start ends: the process is idle and every call is evidenced, or the process is gone. -/
def Started (r : Option (GwState S)) (w : World) : Prop :=
  match r with
  | none => Kept S W cfg w
  | some st => Idle S W cfg st w ∧ (W.owed → (w.evidence cfg).calls ≤ (w.evidence cfg).obs)

theorem fault_safe (hpaths : PathsApart cfg) (msg : Bytes) (hk : Kept S W cfg w) :
    Safe (machine cfg) A (fun _ _ => True) (Kept S W cfg) (Started S W cfg)
      (do logFault secret msg; return none) w :=
  quiet_bind hpaths (logFault_quiet secret msg) hk fun _ _ hs => .ret (hs.kept hk)

theorem listenStage_yields :
    (listenStage cfg secret st).Yields fun r => r = none ∨ r = some st := by
  have hfault : ∀ msg : Bytes, (do
      logFault secret msg
      return none : Io (Option (GwState S))).Yields fun r => r = none ∨ r = some st := fun msg =>
    .seq _ fun _ => .ret (.inl rfl)
  unfold listenStage
  refine .call fun _ => .call fun sock => ?_
  cases sock with
  | false => exact hfault _
  | true =>
  by_cases hlen : cfg.socketPath.bytes.length ≥ 108
  · simp only [hlen, if_true]
    exact hfault _
  simp only [hlen, if_false]
  refine .call fun bound => ?_
  cases bound with
  | false => exact hfault _
  | true =>
  refine .call fun moded => ?_
  cases moded with
  | false => exact hfault _
  | true =>
  refine .call fun listening => ?_
  cases listening with
  | false => exact hfault _
  | true =>
  have hready : (do
      gwLogSeq secret (ascii "info") (ascii "startup") cfg.modelId.bytes (gwlSeq st.gwl)
      return some st : Io (Option (GwState S))).Yields fun r => r = none ∨ r = some st :=
    .seq _ fun _ => .ret (.inr rfl)
  refine .call fun notified => ?_
  cases notified with
  | false => exact .seq (gwLogSeq secret _ _ _ _) fun _ => hready
  | true => exact hready

theorem listenStage_safe (hpaths : PathsApart cfg) (h : Closed S W cfg st w) :
    Safe (machine cfg) A (fun _ _ => True) (Kept S W cfg) (Started S W cfg)
      (listenStage cfg secret st) w := by
  have hquiet := quiet_safe (A := A) (Q := fun _ w' => Same cfg w w') hpaths
    (listenStage_quiet cfg secret st) h.kept fun _ _ hs => hs
  refine (hquiet.yields listenStage_yields).mono ?_
  rintro r w' ⟨rfl | rfl, hs⟩
  · exact hs.kept h.kept
  · exact ⟨(h.same hs).idle, (h.same hs).paid⟩

/-- The configuration frame is no observation. -/
theorem configStage_safe (hpaths : PathsApart cfg) (hcount : W.numbered → Counts S)
    (h : Closed S W cfg st w) : Safe (machine cfg) A (fun _ _ => True) (Kept S W cfg)
      (Started S W cfg) (configStage cfg secret st) w := by
  obtain ⟨fs, hat, hexact⟩ := h.exact_
  have hsize : (encodeAll fs).length ≤ offMax := hat.content ▸ h.kept.size
  unfold configStage
  refine Safe.bind (Q := fun x w' => Kept S W cfg w' ∧
    (x.2 ≠ none → Closed S W cfg { st with gwl := x.1 } w')) ?_ ?_
  · refine append_safe hpaths h.kept hat (fun f hf => ?_) ?_ ?_
    · have hobs : isObs f = false := (isObs_of_frameFor hf).trans (by decide)
      rw [← hat.frames]
      exact h.kept.stable.appendState hobs h.absent
    · intro w' g' hk' _ _ _
      exact ⟨hk', fun hne => absurd rfl hne⟩
    · intro f w' g' head seq hf hk' hat' hap hctx
      refine ⟨hk', fun _ => ⟨hk', ⟨_, hat', fun hW => ?_⟩, ?_⟩⟩
      · rw [gwlSeq, (hcount hW).append _ _ _ hctx, List.length_append, List.length_singleton]
        exact succ_toNat hsize (hexact hW)
      · rw [hap.evidence hpaths]
        exact h.absent
  · rintro ⟨g', res⟩ w1 ⟨hk1, hdone⟩
    rcases res with _ | ⟨head, seq⟩
    · exact fault_safe hpaths _ hk1
    · have h1 := hdone (by simp)
      refine quiet_bind hpaths (gwLogSeq_quiet secret _ _ _ _) hk1 fun _ w2 hs2 => ?_
      have h2 := h1.same hs2
      refine Safe.perform h2.kept (fun _ => ⟨trivial, h2.kept⟩) fun e _ => ?_
      cases ((machine cfg).exec (.sys .curlInit) e w2).1 with
      | false => exact fault_safe hpaths _ h2.kept
      | true => exact listenStage_safe hpaths h2

theorem recoverStage_safe (hpaths : PathsApart cfg) (hcount : W.numbered → Counts S)
    (hA : W.strict → ∀ e, A e → none ∉ e.script) (h : Booting S W cfg st w) :
    Safe (machine cfg) A (fun _ _ => True) (Kept S W cfg) (Started S W cfg)
      (recoverStage cfg secret st) w := by
  unfold recoverStage
  refine Safe.bind (recoverWal_safe hpaths hcount hA h) ?_
  rintro ⟨st', ok⟩ w1 ⟨hk1, hclosed⟩
  cases ok with
  | false => exact .ret hk1
  | true => exact configStage_safe hpaths hcount (hclosed rfl)

/-- The export changes nothing else of the open ledger. -/
def Gwl.Exports (g g' : Gwl S) : Prop := g' = { g with exportActive := g'.exportActive }

theorem exportCopy_yields (g : Gwl S) : (exportCopy g).Yields fun x => g.Exports x.1 := by
  unfold exportCopy
  refine .call fun opened => ?_
  cases opened with
  | false => exact .ret rfl
  | true =>
    refine .call fun size => .call fun read => ?_
    refine .seq (exportLoop (size + 1) size read.1 read.2) fun copied => ?_
    cases copied with
    | false => exact .call fun _ => .ret rfl
    | true =>
      refine .call fun synced => ?_
      cases synced with
      | false => exact .call fun _ => .ret rfl
      | true => exact .ret rfl

theorem gwlExportEnable_yields (g : Gwl S) :
    (gwlExportEnable cfg g).Yields fun x => g.Exports x.1 := by
  unfold gwlExportEnable
  split
  · exact .ret rfl
  · cases g.exportActive with
    | false => exact exportCopy_yields { g with exportActive := false }
    | true => exact .call fun _ => exportCopy_yields { g with exportActive := false }

theorem Booting.export (h : Booting S W cfg st w) {g : Gwl S} (hg : st.gwl.Exports g) :
    Booting S W cfg { st with gwl := g } w where
  kept := h.kept
  exact_ := by
    obtain ⟨fs, hat, hseq⟩ := h.exact_
    refine ⟨fs, hat, ?_⟩
    rw [hg]
    exact hseq
  last := by
    rw [hg]
    exact h.last
  recoverable := h.recoverable

theorem exportStage_safe (hpaths : PathsApart cfg) (hcount : W.numbered → Counts S)
    (hA : W.strict → ∀ e, A e → none ∉ e.script) (h : Booting S W cfg st w) :
    Safe (machine cfg) A (fun _ _ => True) (Kept S W cfg) (Started S W cfg)
      (exportStage cfg secret st) w := by
  unfold exportStage
  split
  · exact recoverStage_safe hpaths hcount hA h
  · have hquiet := quiet_safe (A := A) (Q := fun _ w' => Same cfg w w') hpaths
      (gwlExportEnable_quiet cfg st.gwl) h.kept fun _ _ hs => hs
    refine Safe.bind (hquiet.yields (gwlExportEnable_yields st.gwl)) ?_
    rintro ⟨g, ok⟩ w1 ⟨hg, hs1⟩
    have h1 := (h.same hs1).export hg
    cases ok with
    | false => exact fault_safe hpaths _ h1.kept
    | true =>
      exact quiet_bind hpaths (gwLogSeq_quiet secret _ _ _ _) h1.kept fun _ w2 hs2 =>
        recoverStage_safe hpaths hcount hA (h1.same hs2)

theorem ledgerStage_safe (hpaths : PathsApart cfg) (hcount : W.numbered → Counts S)
    (hA : W.strict → ∀ e, A e → none ∉ e.script) (hk : Kept S W cfg w)
    (hrec : W.strict → Recoverable S W (w.evidence cfg)) :
    Safe (machine cfg) A (fun _ _ => True) (Kept S W cfg) (Started S W cfg)
      (ledgerStage S cfg secret) w := by
  unfold ledgerStage
  refine Safe.bind (gwWalRecover_safe (Q := fun _ w' => w' = w) hA hk fun _ _ => rfl) ?_
  rintro probe w1 rfl
  refine Safe.bind (Q := fun x w' => Kept S W cfg w' ∧ ∀ g cut, x = some (g, cut) →
    Booting S W cfg ⟨axAdmissionCtxInit, 0, false, g⟩ w') ?_ ?_
  · refine gwlOpen_safe W.strict hA (fun _ _ _ => trivial) ?_ ?_ ?_
    · exact fun w' h hap => (kept_of_cut hpaths hk hap h).1
    · exact fun w' h hap => ⟨(kept_of_cut hpaths hk hap (.inl h)).1, fun _ _ h => by cases h⟩
    · intro w' genesis fs r cut hgen hacc hat hap hcut
      have hcontent : w'.content cfg .ledger = w1.content cfg .ledger ∨
          CutTo S W.strict (w1.content cfg .ledger) (w'.content cfg .ledger) := by
        rw [hat.content]
        rcases hcut with ⟨-, h⟩ | ⟨-, h⟩
        · exact .inl h.symm
        · exact .inr h
      obtain ⟨hk', hev⟩ := kept_of_cut hpaths hk hap hcontent
      refine ⟨hk', ?_⟩
      rintro g cut' heq
      cases heq
      refine ⟨hk', ⟨fs, hat, fun hW => ?_⟩, ?_, fun hW => hev hW ▸ hrec hW⟩
      · exact sequence_toNat (hcount hW) hgen hacc (hat.content ▸ hk'.size)
      · rw [hat.frames]
        exact acceptAll_lastPayload hacc
  · rintro x w2 ⟨hk2, hboot⟩
    rcases x with _ | ⟨g, cut⟩
    · exact fault_safe hpaths _ hk2
    · have h2 := hboot g cut rfl
      cases cut with
      | false => exact exportStage_safe hpaths hcount hA h2
      | true =>
        exact quiet_bind hpaths (gwLogSeq_quiet secret _ _ _ _) hk2 fun _ w3 hs =>
          exportStage_safe hpaths hcount hA (h2.same hs)

/-- **A start keeps the evidence stable**, from every recoverable state, and when it completes every
call is evidenced. -/
theorem startUp_safe (hpaths : PathsApart cfg) (hcount : W.numbered → Counts S)
    (hA : W.strict → ∀ e, A e → none ∉ e.script) (hk : Kept S W cfg w)
    (hrec : W.strict → Recoverable S W (w.evidence cfg)) (host : Host) :
    Safe (machine cfg) A (fun _ _ => True) (Kept S W cfg) (Started S W cfg)
      (startUp S cfg host) w := by
  unfold startUp
  split
  · exact .ret hk
  split
  · exact .ret hk
  split
  · exact .ret hk
  split
  · exact .ret hk
  have hlog : ∀ e, Same cfg w (exec cfg (.openAppend .log) e w).2 :=
    fun e => exec_quiet hpaths (.log rfl)
  refine Safe.perform hk (fun e => ⟨trivial, (hlog e).kept hk⟩) fun e _ => ?_
  have hs := hlog e
  have hk1 := hs.kept hk
  rw [machine_exec]
  cases (exec cfg (.openAppend .log) e w).1 with
  | false => exact .ret hk1
  | true =>
    refine Safe.perform hk1 (fun _ => ⟨trivial, hk1⟩) fun e2 _ => ?_
    cases ((machine cfg).exec (.sys .malloc) e2 _).1 with
    | false => exact .ret hk1
    | true => exact ledgerStage_safe hpaths hcount hA hk1 (hs.evidence ▸ hrec)

end StartUp

end AxiomaOracle
