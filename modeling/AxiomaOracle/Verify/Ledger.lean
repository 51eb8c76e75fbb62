import AxiomaOracle.Verify.Calls

/-!
# The durable ledger

`eval_gwlOpen` computes what `gwl_open` returns and leaves from the file and the results of its
reads. On it: a file that was opened and appended to is read back (`append_then_replay`), an
accepted file is what append writes unless a tag field holds a NUL (`open_accepts_appended`), and
the tail is cut only behind the valid frames unless a read fails inside a frame
(`open_keeps_evidence`).
-/

namespace AxiomaOracle

open Lib

section Ledger

variable {S : Substrate} {cfg : GwConfig} {w : World} {e : Env} {envs : Nat → Env}

/-! ## What an open returns and leaves -/

/-- The result of `gwl_open` and the file it leaves, from the file and the results of its reads. -/
def openOutcome (S : Substrate) (genesis : S.LedgerCtx) (file : Bytes) (script : ReadScript)
    (tornTailOk truncateOk : Bool) : Option (Gwl S × Bool) × Bytes :=
  match replay S genesis file script with
  | (.fail, _) => (none, file)
  | (.clean, r) => (some (⟨r.ctx, true, false, r.lastPayload⟩, false), file)
  | (.torn, r) =>
    if tornTailOk && truncateOk then
      (some (⟨r.ctx, true, false, r.lastPayload⟩, true), file.take r.goodEnd)
    else (none, file)

/-- One call of an execution. -/
theorem eval_call {α : Type} {o : Op} {k : Ans o → Io α} {a : Ans o} {w1 : World} {res : α × World}
    (h : exec cfg o (envs 0) w = (a, w1))
    (hk : (machine cfg).eval (k a) (fun n => envs (n + 1)) w1 = res) :
    (machine cfg).eval (sys o >>= k) envs w = res := by
  have hstep : (machine cfg).eval (sys o >>= k) envs w =
      (machine cfg).eval (k (exec cfg o (envs 0) w).1) (fun n => envs (n + 1))
        (exec cfg o (envs 0) w).2 := rfl
  rw [hstep, h, hk]

theorem eval_call_inv {α : Type} {o : Op} {k : Ans o → Io α} {a : Ans o} {w1 : World} {x : α}
    (h : exec cfg o (envs 0) w = (a, w1)) (hx : ((machine cfg).eval (sys o >>= k) envs w).1 = x) :
    ((machine cfg).eval (k a) (fun n => envs (n + 1)) w1).1 = x := by
  rw [← hx, eval_call h rfl]

theorem exec_openCreat_ok (cfg : GwConfig) (hfails : e.fails = false)
    (hsock : w.node (cfg.path .ledger) ≠ some .sock) :
    ∃ w', exec cfg (.openCreat .ledger) e w = (true, w') ∧
      w'.node (cfg.path .ledger) = some (.file (w.content cfg .ledger)) ∧
      w'.fd .ledger = some ⟨0, true, false⟩ := by
  rcases exec_openCreat_ledger (w := w) e with h | h
  · have hans : (exec cfg (.openCreat .ledger) e w).1 = true := by
      simp only [exec, execOpen, hfails, Bool.false_eq_true, if_false]
      split
      next hn => exact absurd hn hsock
      · rfl
      · rfl
    rw [h] at hans
    cases hans
  · exact h

/-- **`gwl_open` on a file**, when the file can be opened. -/
theorem eval_gwlOpen (envs : Nat → Env) (tornTailOk : Bool) {genesis : S.LedgerCtx}
    (hgen : S.axLedgerGenesis = some genesis) (hfails : (envs 0).fails = false)
    (hsock : w.node (cfg.path .ledger) ≠ some .sock) {out : Option (Gwl S × Bool) × Bytes}
    (hout : openOutcome S genesis (w.content cfg .ledger) (envs 1).script tornTailOk
      (!(envs 2).fails) = out) :
    ∃ w', (machine cfg).eval (gwlOpen S tornTailOk) envs w = (out.1, w') ∧
      w'.content cfg .ledger = out.2 ∧ (out.1.isSome → LedgerAt cfg w' out.2) := by
  obtain ⟨w1, h1, hn, hfd⟩ := exec_openCreat_ok cfg hfails hsock
  have hread : exec cfg (.read .ledger) (envs 1) w1 =
      ((w.content cfg .ledger, (envs 1).script), w1) := by
    simp [exec, hfd, content_of_node hn]
  have hclosed : (w1.setFd .ledger none).content cfg .ledger = w.content cfg .ledger :=
    content_of_node hn
  unfold openOutcome at hout
  rcases hreplay : replay S genesis (w.content cfg .ledger) (envs 1).script with ⟨res, r⟩
  rw [hreplay] at hout
  unfold gwlOpen
  simp only [hgen]
  -- the reads are the same in every case; what follows them is by the end of the replay
  suffices hrest : ∃ w', (machine cfg).eval (match (res, r) with
      | (.fail, _) => closeFail
      | (.clean, r) => do
        sys (.seekEnd .ledger)
        return some (⟨r.ctx, true, false, r.lastPayload⟩, false)
      | (.torn, r) =>
        if !tornTailOk then closeFail
        else do
          if !(← sys (.ftruncate .ledger r.goodEnd)) then closeFail
          else do
            sys (.seekEnd .ledger)
            return some (⟨r.ctx, true, false, r.lastPayload⟩, true)) (fun n => envs (n + 2)) w1 =
        (out.1, w') ∧ w'.content cfg .ledger = out.2 ∧ (out.1.isSome → LedgerAt cfg w' out.2) by
    obtain ⟨w', heval, hw'⟩ := hrest
    refine ⟨w', eval_call h1 (eval_call hread ?_), hw'⟩
    simp only [hreplay]
    exact heval
  cases res with
  | fail =>
    subst hout
    exact ⟨_, rfl, hclosed, fun h => by cases h⟩
  | clean =>
    subst hout
    have hat := exec_seekEnd_ledger hn hfd (envs 2)
    exact ⟨_, rfl, hat.content, fun _ => hat⟩
  | torn =>
    cases tornTailOk with
    | false =>
      subst hout
      exact ⟨_, rfl, hclosed, fun h => by cases h⟩
    | true =>
      have hle : r.goodEnd ≤ (w.content cfg .ledger).length := by
        obtain ⟨fs, tail, hfile, hacc, -⟩ := replay_torn hreplay
        rw [acceptAll_goodEnd hacc, hfile, List.length_append, replayStart, Nat.zero_add]
        exact Nat.le_add_right _ _
      rcases exec_ftruncate_ledger hn hfd hle (envs 2) with
        ⟨htrunc, h2⟩ | ⟨htrunc, w2, h2, hn2, hfd2⟩
      · rw [htrunc] at hout
        subst hout
        exact ⟨_, eval_call h2 rfl, hclosed, fun h => by cases h⟩
      · rw [htrunc] at hout
        subst hout
        have hat := exec_seekEnd_ledger hn2 hfd2 (envs 3)
        exact ⟨_, eval_call h2 (eval_call rfl rfl), hat.content, fun _ => hat⟩

theorem gwlOpen_some {tornTailOk : Bool} {x : Gwl S × Bool}
    (h : ((machine cfg).eval (gwlOpen S tornTailOk) envs w).1 = some x) :
    ∃ genesis, S.axLedgerGenesis = some genesis ∧ (envs 0).fails = false ∧
      w.node (cfg.path .ledger) ≠ some .sock := by
  unfold gwlOpen at h
  cases hgen : S.axLedgerGenesis with
  | none =>
    rw [hgen] at h
    cases h
  | some genesis =>
    rw [hgen] at h
    by_contra hne
    have hexec : exec cfg (.openCreat .ledger) (envs 0) w = (false, w) := by
      simp only [exec, execOpen]
      split
      · rfl
      next hfails =>
      split
      · rfl
      next hn => simp_all
      next hn => simp_all
    cases eval_call_inv hexec h

/-- An open that succeeds without a cut replayed the whole file. -/
theorem gwlOpen_clean {tornTailOk : Bool} {g : Gwl S}
    (h : ((machine cfg).eval (gwlOpen S tornTailOk) envs w).1 = some (g, false)) :
    ∃ genesis r, S.axLedgerGenesis = some genesis ∧
      replay S genesis (w.content cfg .ledger) (envs 1).script = (.clean, r) ∧
      g = ⟨r.ctx, true, false, r.lastPayload⟩ ∧
      LedgerAt cfg ((machine cfg).eval (gwlOpen S tornTailOk) envs w).2
        (w.content cfg .ledger) := by
  obtain ⟨genesis, hgen, hfails, hsock⟩ := gwlOpen_some h
  rcases hreplay : replay S genesis (w.content cfg .ledger) (envs 1).script with ⟨res, r⟩
  obtain ⟨w', heval, -, hat⟩ := eval_gwlOpen envs tornTailOk hgen hfails hsock rfl
  rw [heval] at h
  simp only [openOutcome, hreplay] at h heval hat
  cases res with
  | fail => cases h
  | clean =>
    refine ⟨genesis, r, hgen, hreplay, by cases h; rfl, ?_⟩
    rw [heval]
    exact hat rfl
  | torn =>
    by_cases hcut : (tornTailOk && !(envs 2).fails) = true
    · simp [hcut] at h
    · simp [hcut] at h

/-! ## Append, then replay -/

variable (cfg) in
/-- Successful appends one after another, each under any choices of the environment. -/
inductive Appends : Gwl S → World → List (CStr × Bytes) → Gwl S → World → Prop where
  | nil (g : Gwl S) (w : World) : Appends g w [] g w
  | cons {g g' : Gwl S} {w w' : World} {tag : CStr} {payload : Bytes} {tps : List (CStr × Bytes)}
      (envs : Nat → Env) : ((machine cfg).eval (gwlAppend g tag payload) envs w).1.2.isSome →
      Appends ((machine cfg).eval (gwlAppend g tag payload) envs w).1.1
        ((machine cfg).eval (gwlAppend g tag payload) envs w).2 tps g' w' →
      Appends g w ((tag, payload) :: tps) g' w'

variable (S cfg) in
/-- The process and its file agree: the file is whole frames, the chain in memory is the one over
them, and the export, when there is one, is another file. -/
structure InStep (genesis : S.LedgerCtx) (g : Gwl S) (w : World) (fs : List Frame) : Prop where
  gen : S.axLedgerGenesis = some genesis
  at_ : LedgerAt cfg w (encodeAll fs)
  chain : ∃ r, acceptAll S (replayStart S genesis) fs = some r ∧ r.ctx = g.ctx ∧
    r.lastPayload = g.lastPayload
  export_ : g.exportActive = true → cfg.path .exportCopy ≠ cfg.path .ledger

theorem FrameFor.accept {tag : CStr} {payload : Bytes} {f : Frame} (h : FrameFor S tag payload f)
    {r : Replayed S} {ctx : S.LedgerCtx}
    (hctx : S.axLedgerAppend r.ctx ⟨f.commit, f.commitLen⟩ = some ctx) :
    AxiomaOracle.accept S r f =
      some ⟨ctx, f.payload, r.goodEnd + f.encode.length, r.frames ++ [(f.tag, f.payload)]⟩ := by
  have htag : CStr.ofBytes f.tag = tag := by
    apply CStr.ext
    rw [h.tag_eq]
    exact CStr.ofBytes_of_nulFree tag.nulFree
  have hcommit := h.commit_eq
  rw [← htag, ← h.payload_eq] at hcommit
  exact accept_of hcommit rfl hctx

/-- A whole frame behind the file and its commitment behind the chain. -/
theorem InStep.grown {genesis : S.LedgerCtx} {g : Gwl S} {fs : List Frame}
    (h : InStep S cfg genesis g w fs) {tag : CStr} {payload : Bytes} {f : Frame} {w' : World}
    {act : Bool} {ctx : S.LedgerCtx} (hf : FrameFor S tag payload f)
    (hgrown : Grown cfg w w' (encodeAll fs) (encodeAll fs ++ f.encode))
    (hctx : S.axLedgerAppend g.ctx ⟨f.commit, f.commitLen⟩ = some ctx)
    (hact : act = true → g.exportActive = true) :
    InStep S cfg genesis { g with exportActive := act, ctx := ctx, lastPayload := payload } w'
      (fs ++ [f]) := by
  obtain ⟨r, hacc, hr, -⟩ := h.chain
  rw [← hr] at hctx
  refine ⟨h.gen, by simpa using hgrown.at_, ⟨⟨ctx, f.payload, r.goodEnd + f.encode.length,
    r.frames ++ [(f.tag, f.payload)]⟩, ?_, rfl, hf.payload_eq⟩, ?_⟩
  · rw [acceptAll_append, hacc, Option.bind_some, acceptAll_cons, hf.accept hctx]
    rfl
  · intro hact'
    exact h.export_ (hact hact')

/-- One append adds one frame to the file and to the chain. -/
theorem InStep.append {genesis : S.LedgerCtx} {g : Gwl S} {fs : List Frame}
    (h : InStep S cfg genesis g w fs) {tag : CStr} {payload : Bytes}
    (hsome : ((machine cfg).eval (gwlAppend g tag payload) envs w).1.2.isSome) :
    ∃ f : Frame, FrameFor S tag payload f ∧
      InStep S cfg genesis ((machine cfg).eval (gwlAppend g tag payload) envs w).1.1
        ((machine cfg).eval (gwlAppend g tag payload) envs w).2 (fs ++ [f]) := by
  have hsafe : Safe (machine cfg) (fun _ => True) (fun _ _ => True) (fun _ => True)
      (fun x w' => x.2.isSome → ∃ f : Frame, FrameFor S tag payload f ∧
        InStep S cfg genesis x.1 w' (fs ++ [f])) (gwlAppend g tag payload) w := by
    apply gwlAppend_safe h.at_ h.export_
    · intro hnone
      cases hnone
    · intro f p w' _ _ _
      trivial
    · intro f p w' act _ _ _ _ hnone
      cases hnone
    · intro f w' act ctx hf hact hgrown hctx _
      exact ⟨f, hf, h.grown hf hgrown hctx hact⟩
  exact hsafe.eval (fun _ => trivial) hsome

/-- Appends add their frames, in order. -/
theorem Appends.inStep {g g' : Gwl S} {w' : World} {tps : List (CStr × Bytes)}
    (happ : Appends cfg g w tps g' w') {genesis : S.LedgerCtx} {fs : List Frame}
    (h : InStep S cfg genesis g w fs) :
    ∃ gs, gs.map (fun f => (f.tag, f.payload)) = tps.map (fun tp => (tp.1.bytes, tp.2)) ∧
      InStep S cfg genesis g' w' (fs ++ gs) := by
  induction happ generalizing fs with
  | nil g w => exact ⟨[], rfl, by rwa [List.append_nil]⟩
  | cons envs hsome _ ih =>
    obtain ⟨f, hf, hnext⟩ := h.append hsome
    obtain ⟨gs, hgs, hend⟩ := ih hnext
    refine ⟨f :: gs, ?_, ?_⟩
    · rw [List.map_cons, List.map_cons, hgs, hf.tag_eq, hf.payload_eq]
    · rwa [List.append_assoc] at hend

/-- **Append then replay is the identity.** A ledger that opened without a cut and then took any
successful appends opens again in a fresh process, with the sequence number, the head and the last
payload of the process that appended, and the frames read back are the old ones and the appended
ones in order. -/
theorem append_then_replay {tornTailOk : Bool} (envs' : Nat → Env) {w' : World} {g g' : Gwl S}
    {tps : List (CStr × Bytes)}
    (hopen : ((machine cfg).eval (gwlOpen S tornTailOk) envs w).1 = some (g, false))
    (happ : Appends cfg g ((machine cfg).eval (gwlOpen S tornTailOk) envs w).2 tps g' w')
    (hfails : (envs' 0).fails = false) (hread : none ∉ (envs' 1).script) :
    ∃ g2, ((machine cfg).eval (gwlOpen S false) envs' w'.release).1 = some (g2, false) ∧
      gwlSeq g2 = gwlSeq g' ∧ S.currentHash g2.ctx = S.currentHash g'.ctx ∧
      g2.lastPayload = g'.lastPayload ∧
      ∃ genesis, S.axLedgerGenesis = some genesis ∧
        (replay S genesis (w'.release.content cfg .ledger) (envs' 1).script).2.frames =
          (replay S genesis (w.content cfg .ledger) (envs 1).script).2.frames ++
            tps.map fun tp => (tp.1.bytes, tp.2) := by
  obtain ⟨genesis, r, hgen, hreplay, rfl, hat⟩ := gwlOpen_clean hopen
  obtain ⟨fs, hfile, hacc⟩ := replay_clean hreplay
  rw [hfile] at hat
  obtain ⟨gs, hgs, hend⟩ := happ.inStep ⟨hgen, hat, ⟨r, hacc, rfl, rfl⟩, fun hact => by cases hact⟩
  obtain ⟨r', hacc', hctx, hlast⟩ := hend.chain
  -- the file of the fresh process
  have hfile' : w'.release.content cfg .ledger = encodeAll (fs ++ gs) := hend.at_.content
  have hsock : w'.release.node (cfg.path .ledger) ≠ some .sock := by
    intro hn
    have hfile := hend.at_.file
    rw [show w'.node (cfg.path .ledger) = some .sock from hn] at hfile
    cases hfile
  have hreplay' : replay S genesis (w'.release.content cfg .ledger) (envs' 1).script =
      (.clean, r') := by
    rw [hfile']
    exact replay_encodeAll hread hacc'
  obtain ⟨w2, heval, -⟩ := eval_gwlOpen envs' false hgen hfails hsock rfl
  refine ⟨⟨r'.ctx, true, false, r'.lastPayload⟩, ?_, ?_, ?_, hlast, genesis, hgen, ?_⟩
  · rw [heval]
    simp only [openOutcome, hreplay']
  · rw [gwlSeq, gwlSeq, ← hctx]
  · rw [← hctx]
  · rw [hreplay', hreplay, acceptAll_frames hacc', acceptAll_frames hacc, List.map_append, hgs,
      List.append_assoc]

/-- A configuration with five different files, for evaluating the model. -/
def sampleConfig : GwConfig :=
  { gwConfigDefaults [] with
    socketPath := .ofBytes (ascii "sock")
    ledgerPath := .ofBytes (ascii "ledger")
    walPath := .ofBytes (ascii "wal")
    logPath := .ofBytes (ascii "log")
    modelId := .ofBytes (ascii "m-1") }

theorem counts_sampleSubstrate : Counts sampleSubstrate where
  genesis := by
    rintro g hg
    cases hg
    rfl
  append := by
    rintro ctx d ctx' h
    cases h
    rfl

/-- The world after an open of an absent ledger. -/
def sampleOpened : World :=
  ((machine sampleConfig).eval (gwlOpen sampleSubstrate false) (fun _ => {})
    (.initial fun _ => none)).2

def sampleGwl : Gwl sampleSubstrate := ⟨(0, checksum []), true, false, []⟩

/-- One append to it. -/
def sampleAppended : (Gwl sampleSubstrate × Option (Digest × UInt64)) × World :=
  (machine sampleConfig).eval (gwlAppend sampleGwl (.ofBytes (ascii "T")) [1, 2, 3]) (fun _ => {})
    sampleOpened

theorem append_then_replay_sample :
    ∃ g2, ((machine sampleConfig).eval (gwlOpen sampleSubstrate false) (fun _ => {})
        sampleAppended.2.release).1 = some (g2, false) ∧
      gwlSeq g2 = gwlSeq sampleAppended.1.1 := by
  have hopen : ((machine sampleConfig).eval (gwlOpen sampleSubstrate false) (fun _ => {})
      (.initial fun _ => none)).1 = some (sampleGwl, false) := rfl
  have happ : Appends sampleConfig sampleGwl sampleOpened [(.ofBytes (ascii "T"), [1, 2, 3])]
      sampleAppended.1.1 sampleAppended.2 :=
    .cons (fun _ => {}) (by decide +kernel) (.nil _ _)
  obtain ⟨g2, h2, hseq, -⟩ := append_then_replay (fun _ => {}) hopen happ rfl (by simp)
  exact ⟨g2, h2, hseq⟩

/-! ## What replay accepts -/

/-- A file that opens without leave to cut is the encoding of valid frames, and these are what is
read. -/
theorem gwlOpen_accepts (h : ((machine cfg).eval (gwlOpen S false) envs w).1.isSome) :
    ∃ genesis r fs, S.axLedgerGenesis = some genesis ∧
      replay S genesis (w.content cfg .ledger) (envs 1).script = (.clean, r) ∧
      w.content cfg .ledger = encodeAll fs ∧ (∀ f ∈ fs, commitMatches S f = true) ∧
      r.frames = fs.map fun f => (f.tag, f.payload) := by
  obtain ⟨⟨g, cut⟩, hx⟩ := Option.isSome_iff_exists.1 h
  obtain ⟨genesis, hgen, hfails, hsock⟩ := gwlOpen_some hx
  rcases hreplay : replay S genesis (w.content cfg .ledger) (envs 1).script with ⟨res, r⟩
  obtain ⟨w', heval, -⟩ := eval_gwlOpen envs false hgen hfails hsock rfl
  rw [heval] at hx
  simp only [openOutcome, hreplay] at hx
  cases res with
  | fail => cases hx
  | torn => cases hx
  | clean =>
    obtain ⟨fs, hfile, hacc⟩ := replay_clean hreplay
    exact ⟨genesis, r, fs, hgen, hreplay, hfile, acceptAll_matches hacc, acceptAll_frames hacc⟩

/-- The frames a replay read, with the tag as the string that crosses into `ax_commit_evidence`. -/
def readBack (S : Substrate) (genesis : S.LedgerCtx) (file : Bytes) (script : ReadScript) :
    List (CStr × Bytes) :=
  (replay S genesis file script).2.frames.map fun tp => (.ofBytes tp.1, tp.2)

/-- **Replay accepts only what append writes, unless a tag field holds a NUL.** For every file that
opens: it is byte for byte what `gwl_append` writes for the frames read exactly when no stored tag
has a NUL in it; and when neither it nor a file that differs from it in one byte has one, both open
only if the commitments of a frame of the one and a frame of the other collide. -/
theorem open_accepts_appended {genesis : S.LedgerCtx} (hgen : S.axLedgerGenesis = some genesis)
    (hopen : ((machine cfg).eval (gwlOpen S false) envs w).1.isSome) :
    (appendedBytes S (readBack S genesis (w.content cfg .ledger) (envs 1).script) =
        some (w.content cfg .ledger) ↔ ∀ f ∈ frames (w.content cfg .ledger), 0 ∉ f.tag) ∧
    ∀ (w' : World) (envs' : Nat → Env) (pre post : Bytes) (b b' : UInt8),
      w.content cfg .ledger = pre ++ b :: post → w'.content cfg .ledger = pre ++ b' :: post →
      b ≠ b' → ((machine cfg).eval (gwlOpen S false) envs' w').1.isSome →
      (∀ f ∈ frames (w.content cfg .ledger), 0 ∉ f.tag) →
      (∀ f ∈ frames (w'.content cfg .ledger), 0 ∉ f.tag) →
      ∃ f ∈ frames (w.content cfg .ledger), ∃ f' ∈ frames (w'.content cfg .ledger),
        CollidesOn S f.input f'.input := by
  obtain ⟨genesis', r, fs, hgen', hreplay, hfile, hm, hframes⟩ := gwlOpen_accepts hopen
  cases hgen.symm.trans hgen'
  constructor
  · have hread : readBack S genesis (w.content cfg .ledger) (envs 1).script =
        fs.map fun f => (.ofBytes f.tag, f.payload) := by
      rw [readBack, hreplay, hframes, List.map_map]
      rfl
    rw [hread, hfile, frames_encodeAll']
    exact appendedBytes_eq_encodeAll hm
  · intro w' envs' pre post b b' hw hw' hne hopen' hnul hnul'
    obtain ⟨-, -, fs', -, -, hfile', hm', -⟩ := gwlOpen_accepts hopen'
    rw [hfile, frames_encodeAll'] at hnul ⊢
    rw [hfile', frames_encodeAll'] at hnul' ⊢
    exact collides_of_tamper (fun f hf => ⟨hm f hf, hnul f hf⟩)
      (fun f hf => ⟨hm' f hf, hnul' f hf⟩) (hfile.symm.trans hw) (hfile'.symm.trans hw') hne

theorem open_accepts_appended_sample :
    appendedBytes sampleSubstrate (readBack sampleSubstrate (0, checksum [])
        (sampleAppended.2.content sampleConfig .ledger) []) =
      some (sampleAppended.2.content sampleConfig .ledger) := by
  have hopen : ((machine sampleConfig).eval (gwlOpen sampleSubstrate false) (fun _ => {})
      sampleAppended.2).1.isSome := by decide +kernel
  exact (open_accepts_appended rfl hopen).1.2 (by decide +kernel)

/-- A substrate that commits to one pair and faults on every other: its commitments do not
collide. -/
def oneCommit : Substrate :=
  { sampleSubstrate with
    axCommitEvidence := fun tag data =>
      if tag = .ofBytes (ascii "AX:OBS:v1") ∧ data = [1] then some .zero else none }

theorem not_collides_oneCommit : ¬ Collides oneCommit := by
  rintro ⟨⟨tag, payload⟩, ⟨tag', payload'⟩, hne, d, h, h'⟩
  simp only [oneCommit] at h h'
  split at h
  next hp =>
    split at h'
    next hp' => exact hne (by rw [hp.1, hp.2, hp'.1, hp'.2])
    · cases h'
  · cases h

/-- A ledger of one frame, whose tag field of eleven bytes is `AX:OBS:v1`, a NUL and `c`. -/
def nulTagWorld (c : UInt8) : World :=
  .initial fun p => if p = ascii "ledger" then
    some (.file (frameChunks (ascii "AX:OBS:v1" ++ [0, c]) [1] Digest.zero.bytes).flatten) else none

/-- The byte behind the NUL is bound by nothing: the file opens with any value of it, and it is not
what append writes. -/
theorem open_accepts_nul_tag :
    ¬ Collides oneCommit ∧
    ((machine sampleConfig).eval (gwlOpen oneCommit false) (fun _ => {})
      (nulTagWorld 88)).1.isSome ∧
    appendedBytes oneCommit (readBack oneCommit (0, checksum [])
        ((nulTagWorld 88).content sampleConfig .ledger) []) ≠
      some ((nulTagWorld 88).content sampleConfig .ledger) ∧
    ((machine sampleConfig).eval (gwlOpen oneCommit false) (fun _ => {})
      (nulTagWorld 89)).1.isSome ∧
    (nulTagWorld 89).content sampleConfig .ledger =
      ((nulTagWorld 88).content sampleConfig .ledger).set 14 89 := by
  exact ⟨not_collides_oneCommit, by decide +kernel, by decide +kernel, by decide +kernel,
    by decide +kernel⟩

/-! ## What an open can destroy -/

/-- A read of `gwl_open` fails after the accepted frames: at a header, or inside a frame. -/
def ReadError (S : Substrate) (file : Bytes) (script : ReadScript)
    (fails : Bytes → ReadScript → Bool) : Prop :=
  ∃ genesis fs tail script' r, S.axLedgerGenesis = some genesis ∧
    Replays S file script (replayStart S genesis) fs tail script' r ∧ fails tail script' = true

/-- What an open has to keep: the valid frames; every byte but those of a trailing incomplete frame;
and the file as it was, with a refusal, when a read fails. -/
structure KeepsEvidence (S : Substrate) (file : Bytes) (script : ReadScript)
    (res : Option (Gwl S × Bool)) (file' : Bytes) : Prop where
  valid : (encodeAll (validFrames S file)).length ≤ file'.length
  onlyTail : file' = file ∨ ∃ tail, file = file' ++ tail ∧ (readFrame tail []).1 = .torn
  refused : ReadError S file script headerReadFails ∨ ReadError S file script bodyReadFails →
    res = none ∧ file' = file

theorem keepsEvidence_same {file : Bytes} {script : ReadScript} :
    KeepsEvidence S file script none file :=
  ⟨(encodeAll_validFrames_le file).length_le, .inl rfl, fun _ => ⟨rfl, rfl⟩⟩

/-- The one read error of an open is at its halt. -/
theorem readError_iff {file tail : Bytes} {script script' : ReadScript} {genesis : S.LedgerCtx}
    {fs : List Frame} {r : Replayed S} {e : ReplayEnd} {fails : Bytes → ReadScript → Bool}
    (hfails : ∀ tail script, fails tail script = true →
      headerReadFails tail script = true ∨ bodyReadFails tail script = true)
    (hgen : S.axLedgerGenesis = some genesis)
    (hreplays : Replays S file script (replayStart S genesis) fs tail script' r)
    (hhalts : Halts S r tail script' e) :
    ReadError S file script fails ↔ fails tail script' = true := by
  constructor
  · rintro ⟨genesis2, fs2, tail2, script2, r2, hgen2, hreplays2, h⟩
    cases hgen.symm.trans hgen2
    obtain ⟨e2, hhalts2⟩ := halts_of_readFails r2 (hfails _ _ h)
    obtain ⟨rfl, rfl⟩ := hreplays.unique hhalts hreplays2 hhalts2
    exact h
  · intro h
    exact ⟨genesis, fs, tail, script', r, hgen, hreplays, h⟩

/-- The outcome keeps the evidence unless the loop took a read error for the end of the file. -/
theorem openOutcome_keepsEvidence {file tail : Bytes} {script script' : ReadScript}
    {genesis : S.LedgerCtx} {fs : List Frame} {r : Replayed S} {e : ReplayEnd}
    (hgen : S.axLedgerGenesis = some genesis)
    (hreplays : Replays S file script (replayStart S genesis) fs tail script' r)
    (hhalts : Halts S r tail script' e) (tornTailOk : Bool) :
    KeepsEvidence S file script (openOutcome S genesis file script tornTailOk true).1
        (openOutcome S genesis file script tornTailOk true).2 ↔
      ¬ (tornTailOk = true ∧ bodyReadFails tail script' = true) := by
  have hheader := readError_iff (fun _ _ h => .inl h) hgen hreplays hhalts
  have hbody := readError_iff (fun _ _ h => .inr h) hgen hreplays hhalts
  have hnoError : headerReadFails tail script' = false → bodyReadFails tail script' = false →
      ¬ (ReadError S file script headerReadFails ∨ ReadError S file script bodyReadFails) := by
    intro hh hb
    rw [hheader, hbody, hh, hb]
    simp
  obtain ⟨hfile, hacc, -⟩ := hreplays.facts
  unfold openOutcome
  rw [replay_eq hreplays hhalts]
  cases hhalts with
  | clean ht hh hb =>
    refine ⟨fun _ h => by simp [hb] at h, fun _ => ?_⟩
    exact ⟨(encodeAll_validFrames_le file).length_le, .inl rfl, fun h => (hnoError hh hb h).elim⟩
  | malformed _ _ hb => exact ⟨fun _ h => by simp [hb] at h, fun _ => keepsEvidence_same⟩
  | refused _ _ _ hb => exact ⟨fun _ h => by simp [hb] at h, fun _ => keepsEvidence_same⟩
  | headerError _ hb => exact ⟨fun _ h => by simp [hb] at h, fun _ => keepsEvidence_same⟩
  | cut ht hh hb =>
    cases tornTailOk with
    | false => exact ⟨fun _ h => by simp at h, fun _ => keepsEvidence_same⟩
    | true =>
      -- the file is cut at the end of its valid frames
      have htake : file.take r.goodEnd = encodeAll fs := by
        rw [acceptAll_goodEnd hacc, hfile, replayStart, Nat.zero_add, List.take_left]
      have hsplit : file = file.take r.goodEnd ++ tail := by
        rw [htake]
        exact hfile
      have hvalid : validFrames S file = fs := by
        rw [hfile, validFrames_encodeAll_append (acceptAll_matches hacc), validFrames,
          frames_of_nextFrame_none (nextFrame_of_torn ht)]
        exact List.append_nil fs
      refine ⟨fun _ h => by simp [hb] at h, fun _ => ⟨?_, ?_, fun h => (hnoError hh hb h).elim⟩⟩
      · rw [hvalid]
        exact (congrArg List.length htake).ge
      · exact .inr ⟨tail, hsplit, ht⟩
  | bodyError hh hb =>
    cases tornTailOk with
    | false => exact ⟨fun _ h => by simp at h, fun _ => keepsEvidence_same⟩
    | true =>
      constructor
      · intro hkeeps
        cases (hkeeps.refused (.inr (hbody.2 hb))).1
      · intro h
        exact absurd ⟨rfl, hb⟩ h

/-- **Replay keeps the evidence, unless a read fails inside a frame and a cut is allowed.** -/
theorem open_keeps_evidence (S : Substrate) (cfg : GwConfig) (w : World) (file : Bytes)
    (script : ReadScript) (tornTailOk : Bool) :
    KeepsEvidence S file script
        ((machine cfg).eval (gwlOpen S tornTailOk) (fun _ => { script := script })
          (w.setFile cfg .ledger file)).1
        (((machine cfg).eval (gwlOpen S tornTailOk) (fun _ => { script := script })
          (w.setFile cfg .ledger file)).2.content cfg .ledger) ↔
      ¬ (tornTailOk = true ∧ ReadError S file script bodyReadFails) := by
  have hcontent : (w.setFile cfg .ledger file).content cfg .ledger = file :=
    content_of_node (by simp)
  cases hgen : S.axLedgerGenesis with
  | none =>
    have heval : (machine cfg).eval (gwlOpen S tornTailOk) (fun _ => { script := script })
        (w.setFile cfg .ledger file) = (none, w.setFile cfg .ledger file) := by
      unfold gwlOpen
      rw [hgen]
      rfl
    rw [heval, hcontent]
    refine ⟨?_, fun _ => keepsEvidence_same⟩
    rintro - ⟨-, genesis, fs, tail, script', r, hgen', -⟩
    rw [hgen] at hgen'
    cases hgen'
  | some genesis =>
    have hsock : (w.setFile cfg .ledger file).node (cfg.path .ledger) ≠ some .sock := by simp
    obtain ⟨w', heval, hfile', -⟩ := eval_gwlOpen (fun _ => { script := script }) tornTailOk hgen
      rfl hsock rfl
    obtain ⟨fs, tail, script', r, e, hreplays, hhalts⟩ :=
      replayLoop_total file script (replayStart S genesis)
    rw [heval, hfile', hcontent, readError_iff (fun _ _ h => .inr h) hgen hreplays hhalts]
    exact openOutcome_keepsEvidence hgen hreplays hhalts tornTailOk

/-- Two valid frames. -/
def twoFrames : Bytes :=
  (appendedBytes sampleSubstrate [(.ofBytes (ascii "T"), [1]), (.ofBytes (ascii "T"), [2])]).getD []

/-- The seventh read, of the second tag, fails: the second frame is cut off and the open
succeeds. -/
theorem open_cuts_valid_frame :
    ¬ KeepsEvidence sampleSubstrate twoFrames (List.replicate 6 (some 1000) ++ [none])
        ((machine sampleConfig).eval (gwlOpen sampleSubstrate true)
          (fun _ => { script := List.replicate 6 (some 1000) ++ [none] })
          ((World.initial fun _ => none).setFile sampleConfig .ledger twoFrames)).1
        (((machine sampleConfig).eval (gwlOpen sampleSubstrate true)
          (fun _ => { script := List.replicate 6 (some 1000) ++ [none] })
          ((World.initial fun _ => none).setFile sampleConfig .ledger twoFrames)).2.content
            sampleConfig .ledger) := by
  intro hkeeps
  exact absurd hkeeps.valid (by decide +kernel)

end Ledger

end AxiomaOracle
