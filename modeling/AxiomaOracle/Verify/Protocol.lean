import AxiomaOracle.Verify.Evidence
import AxiomaOracle.Verify.Footprint
import AxiomaOracle.Verify.Intent

/-!
# The gateway's programs as steps of the evidence

The rules of `Safe` for the programs of `gw_main.c` and `gw_wal.c`, over the invariant `Kept`: the
file system behind every call, finished or cut short, is a stable state of the evidence. An idle
process is exact (its chain is the file) or blocked: after a failed append the ordering guard
refuses every later observation.
-/

namespace AxiomaOracle

open Lib

/-- The ledger and the WAL share their paths with no other file. -/
structure PathsApart (cfg : GwConfig) : Prop where
  ledger : ∀ r, r ≠ .ledger → cfg.path r ≠ cfg.path .ledger
  wal : ∀ r, r ≠ .wal → cfg.path r ≠ cfg.path .wal

/-- The state of the evidence in a file system. -/
def World.evidence (cfg : GwConfig) (w : World) : Evidence where
  frames := AxiomaOracle.frames (w.content cfg .ledger)
  wal := w.node (cfg.path .wal)
  calls := w.calls.length
  marks := w.walMarks.map fun m => ⟨AxiomaOracle.frames m.1, m.2⟩

section Protocol

variable (S : Substrate) (W : Watch) (cfg : GwConfig)

/-- What holds at every moment. -/
structure Kept (w : World) : Prop where
  size : (w.content cfg .ledger).length ≤ offMax
  stable : Stable S W (w.evidence cfg)

/-- Nothing the evidence is about has changed. -/
structure Same (w w' : World) : Prop where
  ledger : w'.node (cfg.path .ledger) = w.node (cfg.path .ledger)
  ledgerFd : w'.fd .ledger = w.fd .ledger
  wal : w'.node (cfg.path .wal) = w.node (cfg.path .wal)
  calls : w'.calls = w.calls
  marks : w'.walMarks = w.walMarks

/-- The process writes at the end of the ledger. -/
def AtEnd (w : World) : Prop := LedgerAt cfg w (w.content cfg .ledger)

variable {S W cfg} {w w' : World} {e : Env} {A : Env → Prop}

theorem AtEnd.congr (h : AtEnd cfg w)
    (hnode : w'.node (cfg.path .ledger) = w.node (cfg.path .ledger))
    (hfd : w'.fd .ledger = w.fd .ledger) : AtEnd cfg w' := by
  unfold AtEnd at h ⊢
  rw [content_congr hnode]
  exact ⟨hnode.trans h.file, hfd.trans h.fd⟩

theorem Same.refl (w : World) : Same cfg w w := ⟨rfl, rfl, rfl, rfl, rfl⟩

theorem Same.trans {w'' : World} (h : Same cfg w w') (h' : Same cfg w' w'') : Same cfg w w'' :=
  ⟨h'.ledger.trans h.ledger, h'.ledgerFd.trans h.ledgerFd, h'.wal.trans h.wal,
    h'.calls.trans h.calls, h'.marks.trans h.marks⟩

theorem Same.content (h : Same cfg w w') : w'.content cfg .ledger = w.content cfg .ledger :=
  content_congr h.ledger

theorem Same.evidence (h : Same cfg w w') : w'.evidence cfg = w.evidence cfg := by
  simp only [World.evidence, h.content, h.wal, h.calls, h.marks]

theorem Same.kept (h : Same cfg w w') (hk : Kept S W cfg w) : Kept S W cfg w' :=
  ⟨h.content ▸ hk.size, h.evidence ▸ hk.stable⟩

/-! ## Quiet programs -/

theorem exec_same (hpaths : PathsApart cfg) {o : Op} (hl : o.role ≠ some .ledger)
    (hw : o.role ≠ some .wal) (hcall : ∀ body, o ≠ .gwcCall body) :
    Same cfg w (exec cfg o e w).2 := by
  have hne : ∀ q, o.role ≠ some q → ∀ r, o.role = some r → r ≠ q := by
    rintro q hq r hr rfl
    exact hq hr
  have h1 := exec_elsewhere (e := e) (w := w) fun r hr => hpaths.ledger r (hne _ hl r hr)
  have h2 := exec_elsewhere (e := e) (w := w) fun r hr => hpaths.wal r (hne _ hw r hr)
  have h3 : (exec cfg o e w).2.calls = w.calls ∧ (exec cfg o e w).2.walMarks = w.walMarks := by
    refine exec_history hcall ?_
    rintro rfl
    exact hw rfl
  exact ⟨h1.1, h1.2, h2.1, h3.1, h3.2⟩

theorem exec_quiet (hpaths : PathsApart cfg) {o : Op} (ho : o.Quiet) :
    Same cfg w (exec cfg o e w).2 := by
  rcases ho with rfl | rfl | hcap | ⟨hl, hw, -, hcall⟩
  · exact .refl w
  · exact .refl w
  · rcases hcap with rfl | ⟨bs, rfl⟩ | rfl | rfl
    all_goals exact exec_same hpaths (by simp [Op.role]) (by simp [Op.role]) (by simp)
  · exact exec_same hpaths hl hw hcall

/-- A quiet program changes nothing the evidence is about. -/
theorem quiet_safe (hpaths : PathsApart cfg) {α : Type} {Q : α → World → Prop} {p : Io α}
    (hp : p.Only Op.Quiet) (hk : Kept S W cfg w) (hQ : ∀ a w', Same cfg w w' → Q a w') :
    Safe (machine cfg) A (fun _ _ => True) (Kept S W cfg) Q p w :=
  .of_only (fun _ _ _ ho hs => ⟨trivial, Same.trans hs (exec_quiet hpaths ho)⟩)
    (fun _ hs => Same.kept hs hk) hp (Same.refl w) hQ

/-! ## Appending a frame -/

theorem frames_append_prefix (fs : List Frame) {f : Frame} {p : Bytes} (hp : p <+: f.encode) :
    frames (encodeAll fs ++ p) = fs ∨ (p = f.encode ∧ frames (encodeAll fs ++ p) = fs ++ [f]) := by
  by_cases hlen : p.length < f.encode.length
  · left
    rw [List.prefix_iff_eq_take.1 hp]
    exact frames_encodeAll fs (nextFrame_take hlen)
  · right
    have hp' : p = f.encode := hp.eq_of_length (Nat.le_antisymm hp.length_le (Nat.not_lt.1 hlen))
    subst hp'
    refine ⟨rfl, ?_⟩
    rw [frames_append]
    have := frames_encodeAll' [f]
    rw [encodeAll_cons, encodeAll_nil, List.append_nil] at this
    rw [this]

theorem Apart.evidence (hpaths : PathsApart cfg) (h : Apart cfg w w') :
    w'.evidence cfg = { w.evidence cfg with frames := frames (w'.content cfg .ledger) } := by
  have hwal := h.node .wal (hpaths.ledger .wal (by simp)) (hpaths.wal .exportCopy (by simp)).symm
  simp only [World.evidence, hwal, h.calls, h.marks]

theorem WritesAt.atEnd {bs : Bytes} (h : LedgerAt cfg w bs) : AtEnd cfg w := by
  unfold AtEnd
  rw [h.content]
  exact h

theorem WritesAt.frames {fs : List Frame} (h : LedgerAt cfg w (encodeAll fs)) :
    (w.evidence cfg).frames = fs := by
  rw [World.evidence, h.content, frames_encodeAll']

/-- Behind any prefix of a frame that may be appended, the evidence is stable. -/
theorem kept_of_grown (hpaths : PathsApart cfg) (hk : Kept S W cfg w) {fs : List Frame}
    (hat : LedgerAt cfg w (encodeAll fs)) {f : Frame} {p : Bytes} (hp : p <+: f.encode)
    (hgrown : Grown cfg w w' (encodeAll fs) (encodeAll fs ++ p))
    (hstable : Stable S W { w.evidence cfg with frames := fs ++ [f] }) : Kept S W cfg w' := by
  have hev := hgrown.apart.evidence hpaths
  rw [hgrown.at_.content] at hev
  refine ⟨?_, ?_⟩
  · have hsize := hk.size
    rw [hat.content] at hsize
    rw [hgrown.at_.content]
    exact hgrown.size hsize
  · rcases frames_append_prefix fs hp with h | ⟨-, h⟩
    · rw [hev, h, ← hat.frames]
      exact hk.stable
    · rw [hev, h]
      exact hstable

/-- The rule for an append of a frame the evidence has room for. -/
theorem append_safe (hpaths : PathsApart cfg) {Q : Gwl S × Option (Digest × UInt64) → World → Prop}
    {g : Gwl S} {tag : CStr} {payload : Bytes} (hk : Kept S W cfg w) {fs : List Frame}
    (hat : LedgerAt cfg w (encodeAll fs))
    (hstable : ∀ f, FrameFor S tag payload f →
      Stable S W { w.evidence cfg with frames := fs ++ [f] })
    (hfail : ∀ w' g', Kept S W cfg w' → AtEnd cfg w' → Apart cfg w w' → g'.ctx = g.ctx →
      Q (g', none) w')
    (hdone : ∀ f w' g' head seq, FrameFor S tag payload f → Kept S W cfg w' →
      LedgerAt cfg w' (encodeAll (fs ++ [f])) → Apart cfg w w' →
      S.axLedgerAppend g.ctx ⟨f.commit, f.commitLen⟩ = some g'.ctx → Q (g', some (head, seq)) w') :
    Safe (machine cfg) A (fun _ _ => True) (Kept S W cfg) Q (gwlAppend g tag payload) w := by
  have hkept : ∀ f p w', FrameFor S tag payload f → p <+: f.encode →
      Grown cfg w w' (encodeAll fs) (encodeAll fs ++ p) → Kept S W cfg w' :=
    fun f p w' hf hp hgrown => kept_of_grown hpaths hk hat hp hgrown (hstable f hf)
  refine gwlAppend_safe hat (fun _ => hpaths.ledger _ (by simp)) ?_ hkept ?_ ?_
  · exact hfail w g hk hat.atEnd (.refl w) rfl
  · intro f p w' act hf _ hp hgrown
    exact hfail w' _ (hkept f p w' hf hp hgrown) hgrown.at_.atEnd hgrown.apart rfl
  · intro f w' act ctx hf _ hgrown hctx
    refine hdone f w' _ _ _ hf (hkept f _ w' hf List.prefix_rfl hgrown) ?_ hgrown.apart hctx
    have := hgrown.at_
    rwa [encodeAll_append, encodeAll_cons, encodeAll_nil, List.append_nil]

/-! ## Committing an observation -/

variable (W cfg) in
/-- The file is whole frames, as many as the chain has counted. -/
def Exact (st : GwState S) (w : World) : Prop :=
  ∃ fs, LedgerAt cfg w (encodeAll fs) ∧ (W.numbered → (gwlSeq st.gwl).toNat = fs.length)

/-- The ordering guard refuses the next observation. -/
def Blocked (st : GwState S) : Prop :=
  st.adm.initialized = true ∧ gwlSeq st.gwl + 1 ≤ st.adm.lastLedgerSeq

variable (W cfg) in
/-- An observation can be committed, or none ever will be. -/
def Armed (st : GwState S) (w : World) : Prop :=
  Blocked st ∨ (Exact W cfg st w ∧ (W.spaced → (w.evidence cfg).Untouched))

theorem Exact.atEnd {st : GwState S} (h : Exact W cfg st w) : AtEnd cfg w := by
  obtain ⟨fs, hat, -⟩ := h
  exact hat.atEnd

theorem Exact.congr {st : GwState S} (h : Exact W cfg st w)
    (hnode : w'.node (cfg.path .ledger) = w.node (cfg.path .ledger))
    (hfd : w'.fd .ledger = w.fd .ledger) : Exact W cfg st w' := by
  obtain ⟨fs, hat, hseq⟩ := h
  exact ⟨fs, ⟨hnode.trans hat.file, hfd.trans hat.fd⟩, hseq⟩

theorem Same.armed {st : GwState S} (h : Same cfg w w') (ha : Armed W cfg st w) :
    Armed W cfg st w' := by
  rcases ha with hb | ⟨hx, hu⟩
  · exact .inl hb
  · exact .inr ⟨hx.congr h.ledger h.ledgerFd, h.evidence ▸ hu⟩

variable (S) in
/-- The observation of this input tells of the intent: it is the request's, or its recovery's. -/
def TellsOf (input : Bytes) (i : GwIntent) : Prop :=
  i.inputHashHex.bytes = (hex32 (axComputeInputHash S input)).bytes ∨ input = synthInput i

variable (S cfg) in
/-- The input of an observation that is to be committed: it tells of the open intent. -/
structure Tells (input : Bytes) (w : World) : Prop where
  ne_nil : input ≠ []
  length_lt : input.length < sizeMod
  tells : idIsWellFormed (some cfg.modelId) = true → ∀ i, (w.evidence cfg).intent = some i →
    TellsOf S input i

theorem Same.tells {input : Bytes} (h : Same cfg w w') (ht : Tells S cfg input w) :
    Tells S cfg input w' := ⟨ht.ne_nil, ht.length_lt, h.evidence ▸ ht.tells⟩

/-- The ordering guard, as the gateway meets it. -/
theorem admit_blocked {st : GwState S} (h : Blocked st) {inp : AxObsInput}
    (hseq : inp.ledgerSeq = gwlSeq st.gwl + 1) (size : Nat) :
    (axObsAdmit S size inp st.adm {}).ret = some .ordering ∧
      (axObsAdmit S size inp st.adm {}).ctx = st.adm := by
  have hord : st.adm.initialized ∧ inp.ledgerSeq ≤ st.adm.lastLedgerSeq := by
    rw [hseq]
    exact h
  unfold axObsAdmit
  rw [if_pos hord]
  exact ⟨rfl, rfl⟩

/-- A file of whole frames is too short to reach the end of the counter. -/
theorem succ_toNat {fs : List Frame} (hsize : (encodeAll fs).length ≤ offMax) {n : UInt64}
    (hn : n.toNat = fs.length) : (n + 1).toNat = fs.length + 1 := by
  have hge := encodeAll_length_ge fs
  have hmax : offMax < 2 ^ 63 := by decide
  rw [UInt64.toNat_add, hn, UInt64.toNat_one]
  exact Nat.mod_eq_of_lt (by omega)

theorem isObs_of_frameFor {tag : CStr} {payload : Bytes} {f : Frame}
    (h : FrameFor S tag payload f) : isObs f = (tag.bytes == gwTagObs.bytes) := by
  rw [isObs, h.tag_eq]

theorem Apart.tells {input : Bytes} (hpaths : PathsApart cfg) (h : Apart cfg w w')
    (ht : Tells S cfg input w) : Tells S cfg input w' where
  ne_nil := ht.ne_nil
  length_lt := ht.length_lt
  tells := by
    rw [h.evidence hpaths]
    exact ht.tells

/-- The frame of an admitted observation may be appended. -/
theorem stable_of_admitted {adm : AxAdmissionCtx} {inp : AxObsInput} {input : Bytes}
    {fs : List Frame} {f : Frame} (hk : Kept S W cfg w) (hat : LedgerAt cfg w (encodeAll fs))
    (hret : (axObsAdmit S axMaxOutputBytes inp adm {}).ret = none)
    (hf : FrameFor S gwTagObs (obsText (axObsAdmit S axMaxOutputBytes inp adm {}).out true) f)
    (hmodel : inp.modelId = some cfg.modelId) (hinput : inp.input = .ofBytes input)
    (hroom : W.spaced → (w.evidence cfg).Untouched) (htells : W.spaced → Tells S cfg input w)
    (hseq : W.numbered → inp.ledgerSeq.toNat = fs.length + 1) :
    Stable S W { w.evidence cfg with frames := fs ++ [f] } := by
  obtain ⟨hadm, hpass, hash, hout, -⟩ := axObsAdmit_ok hret
  have hobs : isObs f = true := (isObs_of_frameFor hf).trans (beq_self_eq_true _)
  rw [← hat.frames] at hseq ⊢
  refine hk.stable.appendObs hobs hroom (fun hW i hi => ?_) fun hW => ?_
  · -- the payload holds the hash of the input
    obtain ⟨hne, hlen, htell⟩ := htells hW
    have hwf : idIsWellFormed (some cfg.modelId) = true :=
      hmodel ▸ ((inputIsSchemaValid_iff inp).1 hpass.valid).1
    have hhash : (axObsAdmit S axMaxOutputBytes inp adm {}).out.inputHash =
        axComputeInputHash S input := by
      rw [hout, ← inputHashOf_ofBytes hne hlen, ← hinput]
      rfl
    have hlast : lastPayload ((w.evidence cfg).frames ++ [f]) = f.payload := by
      rw [lastPayload, List.getLast?_concat]
      rfl
    have hcarries : lastPayloadContains (lastPayload ((w.evidence cfg).frames ++ [f]))
        (hex32 (axComputeInputHash S input)).bytes = true := by
      rw [hlast, hf.payload_eq, ← hhash]
      exact lastPayloadContains_obsText _
    rcases htell hwf i hi with h | rfl
    · left
      rw [h]
      exact hcarries
    · exact .inr hcarries
  · refine ⟨_, ⟨_, _, _, _, hret, rfl⟩, axObsValidate_admissible hadm, ?_, ?_⟩
    · rw [hf.payload_eq]
      exact axObsCanonicalise_admissible hadm (by decide) true
    · rw [hout]
      exact hseq hW

/-- **Commit**: on success one more observation, exact again; on failure nothing was written, or the
process is blocked. -/
theorem commitObservation_safe (hpaths : PathsApart cfg) (hcount : W.numbered → Counts S)
    {Q : GwState S × Option CommitInfo → World → Prop} {st : GwState S} {state : AxCompletionState}
    {ftype : AxFailureType} {input output : Bytes} {params : AxOracleParams}
    (hk : Kept S W cfg w) (hend : AtEnd cfg w) (harmed : Armed W cfg st w)
    (htells : W.spaced → Tells S cfg input w)
    (hfail : ∀ st' w', Kept S W cfg w' → AtEnd cfg w' → Armed W cfg st' w' → Apart cfg w w' →
      Q (st', none) w')
    (hdone : ∀ st' w' info, Kept S W cfg w' → Exact W cfg st' w' → Apart cfg w w' →
      (w'.evidence cfg).obs = (w.evidence cfg).obs + 1 → Q (st', some info) w') :
    Safe (machine cfg) A (fun _ _ => True) (Kept S W cfg) Q
      (commitObservation cfg st state ftype input output params) w := by
  unfold commitObservation
  dsimp only
  have hseq : (observationInput cfg st state ftype input output params).ledgerSeq =
      gwlSeq st.gwl + 1 := rfl
  have hmodel : (observationInput cfg st state ftype input output params).modelId =
      some cfg.modelId := rfl
  have hinput : (observationInput cfg st state ftype input output params).input =
      .ofBytes input := rfl
  generalize observationInput cfg st state ftype input output params = inp at hseq hmodel hinput
  cases hret : (axObsAdmit S axMaxOutputBytes inp st.adm {}).ret with
  | some err =>
    -- refused: nothing is written, and a blocked process stays so
    refine .ret (hfail _ w hk hend ?_ (.refl w))
    rcases harmed with hb | hx
    · left
      have hctx := (admit_blocked hb hseq axMaxOutputBytes).2
      rw [Blocked, hctx]
      exact hb
    · exact .inr hx
  | none =>
    obtain ⟨hadm, -, -, -, hctx⟩ := axObsAdmit_ok hret
    have hblocked : ∀ g : Gwl S, gwlSeq g = gwlSeq st.gwl → ∀ calls drop,
        Blocked ⟨(axObsAdmit S axMaxOutputBytes inp st.adm {}).ctx, calls, drop, g⟩ := by
      intro g hg calls drop
      rw [Blocked, hctx, hg, hseq]
      exact ⟨rfl, UInt64.le_refl _⟩
    rcases harmed with hb | ⟨⟨fs, hat, hexact⟩, hroom⟩
    · rw [(admit_blocked hb hseq axMaxOutputBytes).1] at hret
      cases hret
    rw [axObsValidate_admissible hadm, axObsCanonicalise_admissible hadm (by decide)]
    dsimp only
    split
    · exact .ret (hfail _ w hk hend (.inl (hblocked _ rfl _ _)) (.refl w))
    have hsize : (encodeAll fs).length ≤ offMax := hat.content ▸ hk.size
    refine Safe.bind (Q := fun x w' => Kept S W cfg w' ∧ Apart cfg w w' ∧
      ((x.2 = none ∧ AtEnd cfg w' ∧ x.1.ctx = st.gwl.ctx) ∨ (x.2 ≠ none ∧ ∃ f, isObs f = true ∧
        LedgerAt cfg w' (encodeAll (fs ++ [f])) ∧
        (W.numbered → (gwlSeq x.1).toNat = (fs ++ [f]).length)))) ?_ ?_
    · refine append_safe hpaths hk hat (fun f hf => ?_) ?_ ?_
      · refine stable_of_admitted hk hat hret hf hmodel hinput hroom htells fun hW => ?_
        rw [hseq]
        exact succ_toNat hsize (hexact hW)
      · intro w' g' hk' hend' hap hg'
        exact ⟨hk', hap, .inl ⟨rfl, hend', hg'⟩⟩
      · intro f w' g' head seq hf hk' hat' hap hg'
        refine ⟨hk', hap, .inr ⟨by simp, f, ?_, hat', fun hW => ?_⟩⟩
        · rw [isObs_of_frameFor hf]
          exact beq_self_eq_true _
        · rw [gwlSeq, (hcount hW).append _ _ _ hg', List.length_append, List.length_singleton]
          exact succ_toNat hsize (hexact hW)
    · rintro ⟨g', res⟩ w' ⟨hk', hap, hcase⟩
      rcases hcase with ⟨hnone, hend', hg'⟩ | ⟨hsome, f, hf, hat', hseq'⟩
      · cases hnone
        refine .ret (hfail _ w' hk' hend' (.inl (hblocked g' ?_ _ _)) hap)
        rw [gwlSeq, gwlSeq, hg']
      · rcases res with _ | ⟨head, seq⟩
        · exact absurd rfl hsome
        · refine .ret (hdone _ w' _ hk' ⟨fs ++ [f], hat', hseq'⟩ hap ?_)
          rw [Evidence.obs, Evidence.obs, hat.frames, hat'.frames, obsCount_append, if_pos hf]

/-! ## The WAL -/

variable (cfg) in
/-- The WAL was created; everything else is as it was. -/
structure Created (w w' : World) : Prop where
  absent : w.node (cfg.path .wal) = none
  ledger : w'.node (cfg.path .ledger) = w.node (cfg.path .ledger)
  ledgerFd : w'.fd .ledger = w.fd .ledger
  wal : ∃ bs, w'.node (cfg.path .wal) = some (.file bs)
  calls : w'.calls = w.calls
  marks : w'.walMarks = (w.content cfg .ledger, w.calls.length) :: w.walMarks

theorem Created.evidence (h : Created cfg w w') : ∃ bs, w'.evidence cfg =
    { w.evidence cfg with
      wal := some (.file bs)
      marks := ⟨(w.evidence cfg).frames, (w.evidence cfg).calls⟩ :: (w.evidence cfg).marks } := by
  obtain ⟨bs, hwal⟩ := h.wal
  refine ⟨bs, ?_⟩
  simp only [World.evidence, content_congr h.ledger, hwal, h.calls, h.marks, List.map_cons]

theorem Created.kept (h : Created cfg w w') (hk : Kept S W cfg w) : Kept S W cfg w' := by
  obtain ⟨bs, hev⟩ := h.evidence
  refine ⟨content_congr h.ledger ▸ hk.size, ?_⟩
  rw [hev]
  exact hk.stable.openWal h.absent bs

theorem Created.same {w'' : World} (h : Created cfg w w') (hs : Same cfg w' w'') :
    Created cfg w w'' where
  absent := h.absent
  ledger := hs.ledger.trans h.ledger
  ledgerFd := hs.ledgerFd.trans h.ledgerFd
  wal := by
    obtain ⟨bs, hbs⟩ := h.wal
    exact ⟨bs, hs.wal.trans hbs⟩
  calls := hs.calls.trans h.calls
  marks := hs.marks.trans h.marks

/-- A call on the WAL leaves the ledger and the oracle calls. -/
theorem exec_wal (hpaths : PathsApart cfg) {o : Op} (ho : o.role = some .wal) :
    (exec cfg o e w).2.node (cfg.path .ledger) = w.node (cfg.path .ledger) ∧
      (exec cfg o e w).2.fd .ledger = w.fd .ledger := by
  refine exec_elsewhere fun r hr => ?_
  rw [ho, Option.some.injEq] at hr
  exact hr ▸ hpaths.ledger .wal (by simp)

/-- The exclusive open of the WAL: it fails, or there was none and there is an empty one now. -/
theorem exec_createWal (hpaths : PathsApart cfg) (e : Env) :
    exec cfg (.openExcl .wal) e w = (false, w) ∨
      ((exec cfg (.openExcl .wal) e w).1 = true ∧
        Created cfg w (exec cfg (.openExcl .wal) e w).2 ∧
        (exec cfg (.openExcl .wal) e w).2.node (cfg.path .wal) = some (.file []) ∧
        (exec cfg (.openExcl .wal) e w).2.fd .wal = some ⟨0, true, false⟩) := by
  have hledger := exec_wal (e := e) (w := w) (o := .openExcl .wal) hpaths rfl
  cases hfail : (e.fails || (w.node (cfg.path .wal)).isSome) with
  | true =>
    left
    simp [exec, execOpenExcl, hfail]
  | false =>
    right
    have hnone : w.node (cfg.path .wal) = none := by
      simp only [Bool.or_eq_false_iff, Option.isSome_eq_false_iff, Option.isNone_iff_eq_none]
        at hfail
      exact hfail.2
    have hnode : (exec cfg (.openExcl .wal) e w).2.node (cfg.path .wal) = some (.file []) := by
      simp [exec, execOpenExcl, hfail]
    refine ⟨by simp [exec, execOpenExcl, hfail], ⟨hnone, hledger.1, hledger.2, ⟨[], hnode⟩, ?_, ?_⟩,
      hnode, by simp [exec, execOpenExcl, hfail]⟩
    · simp only [exec, execOpenExcl, hfail, Bool.false_eq_true, if_false, if_true]
      rfl
    · simp only [exec, execOpenExcl, hfail, Bool.false_eq_true, if_false, if_true]

/-- A later call on the created WAL that leaves a file there. -/
theorem Created.step (h : Created cfg w w') (hpaths : PathsApart cfg) {o : Op}
    (hrole : o.role = some .wal) (hopen : o ≠ .openExcl .wal)
    (hfile : ∃ bs, (exec cfg o e w').2.node (cfg.path .wal) = some (.file bs)) :
    Created cfg w (exec cfg o e w').2 := by
  have hledger := exec_wal (e := e) (w := w') hpaths hrole
  have hhist : (exec cfg o e w').2.calls = w'.calls ∧
      (exec cfg o e w').2.walMarks = w'.walMarks := by
    refine exec_history ?_ hopen
    rintro body rfl
    cases hrole
  exact ⟨h.absent, hledger.1.trans h.ledger, hledger.2.trans h.ledgerFd, hfile,
    hhist.1.trans h.calls, hhist.2.trans h.marks⟩

/-- Writing the created WAL: when the write succeeds, it is the file. -/
theorem Created.write (h : Created cfg w w') (hpaths : PathsApart cfg) (buf : Bytes)
    (hnode : w'.node (cfg.path .wal) = some (.file []))
    (hfd : w'.fd .wal = some ⟨0, true, false⟩) (e : Env) :
    Created cfg w (exec cfg (.write .wal buf) e w').2 ∧
      ((exec cfg (.write .wal buf) e w').1 = true →
        (exec cfg (.write .wal buf) e w').2.node (cfg.path .wal) = some (.file buf)) := by
  have hcontent : w'.content cfg .wal = [] := by
    simp [World.content, World.file, World.fileAt, hnode]
  have hfile : (exec cfg (.write .wal buf) e w').2.node (cfg.path .wal) =
      some (.file (buf.take (written e 0 buf.length))) := by
    simp [exec, execWrite, hfd, hcontent, writeAt]
  refine ⟨h.step hpaths rfl (by simp) ⟨_, hfile⟩, fun hall => ?_⟩
  have hlen : written e 0 buf.length = buf.length := by
    simpa [exec, execWrite, hfd] using hall
  rw [hfile, hlen, List.take_length]

/-- Syncing and closing the created WAL. -/
theorem Created.sync (h : Created cfg w w') (hpaths : PathsApart cfg) {o : Op}
    (ho : o = .fsync .wal ∨ o = .close .wal ∨ o = .fsyncDir .wal) (e : Env) :
    Created cfg w (exec cfg o e w').2 ∧
      (exec cfg o e w').2.node (cfg.path .wal) = w'.node (cfg.path .wal) := by
  have hnode : (exec cfg o e w').2.node (cfg.path .wal) = w'.node (cfg.path .wal) := by
    rcases ho with rfl | rfl | rfl <;> rfl
  have hrole : o.role = some .wal := by
    rcases ho with rfl | rfl | rfl <;> rfl
  refine ⟨h.step hpaths hrole ?_ (hnode ▸ h.wal), hnode⟩
  rcases ho with rfl | rfl | rfl <;> simp

/-- The calls on the WAL succeed. -/
def walOk : (o : Op) → Ans o → Bool
  | .openExcl .wal, ok => ok
  | .write .wal _, ok => ok
  | .fsync .wal, ok => ok
  | .fsyncDir .wal, ok => ok
  | .unlink .wal, ok => ok
  | _, _ => true

section Observes

variable {D P : Step (machine cfg) → Prop} {h : List (Answered Op Ans)}

variable (D) in
/-- Some call on the WAL failed. -/
def WalFails : Prop := ∃ m, D m ∧ walOk m.op m.answer = false

/-- The calls on the WAL. -/
def Op.OnWal (o : Op) : Prop := o.role = some .wal

theorem onWal_call {o : Op} (ho : o.role = some .wal) (a : Ans o) :
    Extends Op.OnWal h (h ++ [⟨o, a⟩]) := by
  have hwal : o.OnWal := ho
  exact .call hwal a

/-- The directory of the WAL is synced, unless the path is too long or the call fails. -/
theorem fsyncParentDir_observes {Q : Bool → List (Answered Op Ans) → World → Prop}
    (hP : ∀ m : Step (machine cfg), m.op = .fsyncDir .wal → m.before = h → m.state = w → D m → P m)
    (hQ : ∀ ok h', (ok = false → WalFails D ∨ 512 ≤ (cfg.path .wal).length) →
      Extends Op.OnWal h h' → Q ok h' w) :
    Observes (machine cfg) D P Q (fsyncParentDir cfg .wal) h w := by
  unfold fsyncParentDir
  split
  · next hlen => exact .ret (hQ false h (fun _ => .inr hlen) (.refl h))
  · refine Observes.call (fun e hD => hP _ rfl rfl rfl hD) fun e hD => .ret ?_
    exact hQ _ _ (fun hfail => .inl ⟨_, hD, hfail⟩) (onWal_call rfl _)

/-- **Intent**: the WAL was not created and nothing changed, or it was; on success it is written. It
fails when a call does, or when the text or the path is too long. -/
theorem gwWalWrite_observes (hpaths : PathsApart cfg)
    {Q : Bool → List (Answered Op Ans) → World → Prop} {i : GwIntent}
    (hP : ∀ m : Step (machine cfg), m.op.role = some .wal → m.state = w ∨ Created cfg w m.state →
      m.next = w ∨ Created cfg w m.next → D m → P m)
    (hsame : ∀ h', WalFails D → Extends Op.OnWal h h' → Q false h' w)
    (hcreated : ∀ ok h' w', Created cfg w w' →
      (ok = true → w'.node (cfg.path .wal) = some (.file (intentText i))) →
      (ok = false → WalFails D ∨ 768 ≤ (intentText i).length ∨ 512 ≤ (cfg.path .wal).length) →
      Extends Op.OnWal h h' → Q ok h' w') :
    Observes (machine cfg) D P Q (gwWalWrite cfg i) h w := by
  have hsync : ∀ {α : Type} {T : α → List (Answered Op Ans) → World → Prop} {o : Op}
      {k : Ans o → Io α} {h1 : List (Answered Op Ans)} {w1 : World},
      (o = .fsync .wal ∨ o = .close .wal ∨ o = .fsyncDir .wal) → Created cfg w w1 →
      (∀ e w', D ⟨h1, w1, o, e⟩ → Created cfg w w' →
        w'.node (cfg.path .wal) = w1.node (cfg.path .wal) →
        Observes (machine cfg) D P T (k (exec cfg o e w1).1)
          (h1 ++ [⟨o, (exec cfg o e w1).1⟩]) w') →
      Observes (machine cfg) D P T (sys o >>= k) h1 w1 := by
    intro α T o k h1 w1 ho hc hnext
    have hrole : o.role = some .wal := by rcases ho with rfl | rfl | rfl <;> rfl
    refine Observes.perform (fun e hD => ?_) fun e hD => ?_
    · exact hP _ hrole (.inr hc) (.inr (hc.sync hpaths ho e).1) hD
    · exact hnext e _ hD (hc.sync hpaths ho e).1 (hc.sync hpaths ho e).2
  have hclose : ∀ {h1 : List (Answered Op Ans)} {w1 : World}, Created cfg w w1 →
      WalFails D ∨ 768 ≤ (intentText i).length ∨ 512 ≤ (cfg.path .wal).length →
      Extends Op.OnWal h h1 → Observes (machine cfg) D P Q closeWal h1 w1 := by
    intro h1 w1 hc hbad hext
    refine hsync (.inr (.inl rfl)) hc fun e w' _ hc' _ => .ret ?_
    exact hcreated false _ w' hc' (fun hf => by cases hf) (fun _ => hbad)
      (hext.trans (onWal_call rfl _))
  unfold gwWalWrite
  refine Observes.perform (fun e hD => ?_) fun e hD => ?_
  · refine hP _ rfl (.inl rfl) ?_ hD
    rcases exec_createWal hpaths (w := w) e with hex | ⟨-, hc, -⟩
    · left
      rw [Step.next, machine_exec, hex]
    · exact .inr hc
  rcases exec_createWal hpaths (w := w) e with hex | ⟨hans, hc, hnode, hfd⟩
  · have hfail : WalFails D := by
      refine ⟨_, hD, ?_⟩
      rw [Step.answer, machine_exec, hex]
      rfl
    rw [machine_exec, hex]
    exact .ret (hsame _ hfail (onWal_call rfl _))
  rw [machine_exec, hans]
  simp only [Bool.not_true, Bool.false_eq_true, if_false]
  have hext1 : Extends Op.OnWal h (h ++ [⟨.openExcl .wal, true⟩]) := onWal_call rfl _
  cases hbuf : C.snprintf 768 (intentText i) with
  | none =>
    exact hclose hc (.inr (.inl (C.snprintf_eq_none hbuf))) hext1
  | some buf =>
    have htext : buf = intentText i := C.snprintf_eq_some hbuf
    refine Observes.perform (fun e hD => ?_) fun e hD => ?_
    · exact hP _ rfl (.inr hc) (.inr (hc.write hpaths buf hnode hfd e).1) hD
    obtain ⟨hc, hwritten⟩ := hc.write hpaths buf hnode hfd e
    rw [machine_exec]
    cases hwrote : (exec cfg (.write .wal buf) e _).1 with
    | false => exact hclose hc (.inl ⟨_, hD, hwrote⟩) (hext1.trans (onWal_call rfl _))
    | true =>
      have hnode1 := hwritten hwrote
      rw [htext] at hnode1
      refine hsync (.inl rfl) hc fun e3 w3 hD3 hc hnode2 => ?_
      cases hsynced : (exec cfg (.fsync .wal) e3 _).1 with
      | false =>
        exact hclose hc (.inl ⟨_, hD3, hsynced⟩)
          ((hext1.trans (onWal_call rfl _)).trans (onWal_call rfl _))
      | true =>
        refine hsync (.inr (.inl rfl)) hc fun _ w4 _ hc hnode3 => ?_
        refine fsyncParentDir_observes ?_ ?_
        · rintro m hop - rfl hD5
          have hnext : m.next = m.state := by
            unfold Step.next
            rw [hop]
            rfl
          exact hP m (by rw [hop]; rfl) (.inr hc) (.inr (hnext ▸ hc)) hD5
        · intro ok h' hbad hext
          refine hcreated ok h' w4 hc (fun _ => ?_) (fun hok => (hbad hok).imp id .inr) ?_
          · rw [hnode3, hnode2, htext, hnode1]
          · exact (((hext1.trans (onWal_call rfl _)).trans (onWal_call rfl _)).trans
              (onWal_call rfl _)).trans hext

end Observes

variable (cfg) in
/-- The ledger and the history are as they were; the WAL may be gone. -/
structure Closing (w w' : World) : Prop where
  ledger : w'.node (cfg.path .ledger) = w.node (cfg.path .ledger)
  ledgerFd : w'.fd .ledger = w.fd .ledger
  wal : w'.node (cfg.path .wal) = w.node (cfg.path .wal) ∨ w'.node (cfg.path .wal) = none
  calls : w'.calls = w.calls
  marks : w'.walMarks = w.walMarks

theorem Same.closing (h : Same cfg w w') : Closing cfg w w' :=
  ⟨h.ledger, h.ledgerFd, .inl h.wal, h.calls, h.marks⟩

theorem Closing.same {w'' : World} (h : Closing cfg w w') (hs : Same cfg w' w'') :
    Closing cfg w w'' where
  ledger := hs.ledger.trans h.ledger
  ledgerFd := hs.ledgerFd.trans h.ledgerFd
  wal := by
    rw [hs.wal]
    exact h.wal
  calls := hs.calls.trans h.calls
  marks := hs.marks.trans h.marks

theorem Closing.evidence (h : Closing cfg w w') : w'.evidence cfg = w.evidence cfg ∨
    w'.evidence cfg = { w.evidence cfg with wal := none } := by
  rcases h.wal with hwal | hwal
  · left
    simp only [World.evidence, content_congr h.ledger, hwal, h.calls, h.marks]
  · right
    simp only [World.evidence, content_congr h.ledger, hwal, h.calls, h.marks]

theorem Closing.kept (h : Closing cfg w w') (hk : Kept S W cfg w)
    (hpaid : W.owed → (w.evidence cfg).calls ≤ (w.evidence cfg).obs) : Kept S W cfg w' := by
  refine ⟨content_congr h.ledger ▸ hk.size, ?_⟩
  rcases h.evidence with hev | hev
  · exact hev ▸ hk.stable
  · rw [hev]
    exact hk.stable.clearWal hpaid

theorem exec_unlinkWal (hpaths : PathsApart cfg) (e : Env) :
    Closing cfg w (exec cfg (.unlink .wal) e w).2 ∧ ((exec cfg (.unlink .wal) e w).1 = true →
      (exec cfg (.unlink .wal) e w).2.node (cfg.path .wal) = none) := by
  have hledger := exec_wal (e := e) (w := w) (o := .unlink .wal) hpaths rfl
  have hhist : (exec cfg (.unlink .wal) e w).2.calls = w.calls ∧
      (exec cfg (.unlink .wal) e w).2.walMarks = w.walMarks := exec_history (by simp) (by simp)
  have hwal : exec cfg (.unlink .wal) e w = (false, w) ∨
      (exec cfg (.unlink .wal) e w).2.node (cfg.path .wal) = none := by
    simp only [exec, execUnlink]
    split
    · exact .inl rfl
    · right
      simp
  refine ⟨⟨hledger.1, hledger.2, ?_, hhist.1, hhist.2⟩, fun hok => ?_⟩
  · rcases hwal with h | h
    · rw [h]
      exact .inl rfl
    · exact .inr h
  · rcases hwal with h | h
    · rw [h] at hok
      cases hok
    · exact h

/-- **Clear**: on success the WAL is gone. It fails when a call does, or when the path is too
long. -/
theorem gwWalClear_observes (hpaths : PathsApart cfg) {D P : Step (machine cfg) → Prop}
    {h : List (Answered Op Ans)} {Q : Bool → List (Answered Op Ans) → World → Prop}
    (hP : ∀ m : Step (machine cfg), m.op.role = some .wal → Closing cfg w m.state →
      Closing cfg w m.next → D m → P m)
    (hQ : ∀ ok h' w', Closing cfg w w' → (ok = true → w'.node (cfg.path .wal) = none) →
      (ok = false → WalFails D ∨ 512 ≤ (cfg.path .wal).length) → Extends Op.OnWal h h' →
      Q ok h' w') : Observes (machine cfg) D P Q (gwWalClear cfg) h w := by
  have hclosing := fun e => (exec_unlinkWal hpaths (w := w) e).1
  have hnow : Closing cfg w w := (Same.refl w).closing
  unfold gwWalClear
  refine Observes.perform (fun e hD => hP _ rfl hnow (hclosing e) hD) fun e hD => ?_
  have hgone := (exec_unlinkWal hpaths (w := w) e).2
  rw [machine_exec]
  cases hok : (exec cfg (.unlink .wal) e w).1 with
  | false =>
    exact .ret (hQ false _ _ (hclosing e) (fun hf => by cases hf) (fun _ => .inl ⟨_, hD, hok⟩)
      (onWal_call rfl _))
  | true =>
    simp only [Bool.not_true, Bool.false_eq_true, if_false]
    refine fsyncParentDir_observes ?_ ?_
    · rintro m hop - hstate hD'
      have hnext : m.next = m.state := by
        unfold Step.next
        rw [hop]
        rfl
      rw [hstate] at hnext
      exact hP m (by rw [hop]; rfl) (hstate ▸ hclosing e) (hnext ▸ hclosing e) hD'
    · intro ok h' hbad hext
      exact hQ ok h' _ (hclosing e) (fun _ => hgone hok) hbad
        (Extends.trans (onWal_call rfl _) hext)

/-- The rule of `Safe` for the clear: allowed once every call has its observation. -/
theorem gwWalClear_safe (hpaths : PathsApart cfg) {Q : Bool → World → Prop} (hk : Kept S W cfg w)
    (hpaid : W.owed → (w.evidence cfg).calls ≤ (w.evidence cfg).obs)
    (hQ : ∀ ok w', Closing cfg w w' → (ok = true → w'.node (cfg.path .wal) = none) → Q ok w') :
    Safe (machine cfg) A (fun _ _ => True) (Kept S W cfg) Q (gwWalClear cfg) w := by
  have hobs : Observes (machine cfg) (fun _ => True) (fun m => Kept S W cfg m.state ∧
      Kept S W cfg m.next) (fun ok _ w' => Q ok w') (gwWalClear cfg) [] w :=
    gwWalClear_observes hpaths
      (fun m _ hpre hpost _ => ⟨hpre.kept hk hpaid, hpost.kept hk hpaid⟩)
      fun ok _ w' hc hgone _ _ => hQ ok w' hc hgone
  exact hobs.safe (fun _ => trivial) (fun m hm => ⟨hm.1, trivial, hm.2⟩) fun _ _ _ hq => hq

end Protocol

end AxiomaOracle
