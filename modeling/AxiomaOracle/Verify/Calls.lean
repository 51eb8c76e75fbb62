import AxiomaOracle.Lib.Trace
import AxiomaOracle.Verify.Replay

/-!
# What the calls of the ledger module leave

`exec_elsewhere` is the frame lemma: a call touches only the file and the descriptor of the path it
is about. The rest are the rules of `Observes` and of `Safe` for the programs of `gw_ledger.c`: a
write at the end of an open ledger leaves some prefix of it (`writeAll_observes`), an append some
prefix of its frame (`gwlAppend_observes`, `gwlAppend_safe`), an open the file as it was or cut at
the end of the frames it accepted (`gwlOpen_safe`).
-/

namespace AxiomaOracle

open Lib

/-! ## Frames of a call -/

/-- The role a call is about. -/
def Op.role : Op → Option Role
  | .openCreat r | .openExcl r | .openTrunc r | .openAppend r | .slurp r | .read r | .pread r
  | .seekEnd r | .tell r | .write r _ | .fsync r | .fsyncDir r | .ftruncate r _ | .close r
  | .unlink r | .bind r => some r
  | .sys _ | .time | .gwcCall _ | .send _ => none

section Calls

variable {cfg : GwConfig} {w : World} {e : Env}

@[simp] theorem setNode_node (p q : Bytes) (n : Option Node) :
    (w.setNode p n).node q = if q = p then n else w.node q := rfl

@[simp] theorem setFile_node (r : Role) (bs q : Bytes) :
    (w.setFile cfg r bs).node q = if q = cfg.path r then some (.file bs) else w.node q := rfl

@[simp] theorem setFd_node (r : Role) (f : Option Fd) : (w.setFd r f).node = w.node := rfl

@[simp] theorem detach_node (p : Bytes) : (w.detach cfg p).node = w.node := rfl

@[simp] theorem setFile_fd (r : Role) (bs : Bytes) : (w.setFile cfg r bs).fd = w.fd := rfl

@[simp] theorem setNode_fd (p : Bytes) (n : Option Node) : (w.setNode p n).fd = w.fd := rfl

@[simp] theorem setFd_fd (r q : Role) (f : Option Fd) :
    (w.setFd r f).fd q = if q = r then f else w.fd q := rfl

theorem machine_exec (o : Op) : (machine cfg).exec o e w = exec cfg o e w := rfl

/-- **Frame**: a call leaves the file and the descriptor of every other path. -/
theorem exec_elsewhere {o : Op} {q : Role} (h : ∀ r, o.role = some r → cfg.path r ≠ cfg.path q) :
    (exec cfg o e w).2.node (cfg.path q) = w.node (cfg.path q) ∧
      (exec cfg o e w).2.fd q = w.fd q := by
  have hne : ∀ r, o.role = some r → ¬ cfg.path q = cfg.path r ∧ q ≠ r := by
    intro r hr
    refine ⟨fun he => h r hr he.symm, ?_⟩
    rintro rfl
    exact h _ hr rfl
  cases o with
  | openCreat r | openTrunc r | openAppend r =>
    obtain ⟨hp, hr⟩ := hne r rfl
    simp only [exec, execOpen]
    split
    · exact ⟨rfl, rfl⟩
    · split <;> simp [hp, hr]
  | openExcl r =>
    obtain ⟨hp, hr⟩ := hne r rfl
    simp only [exec, execOpenExcl]
    split
    · exact ⟨rfl, rfl⟩
    · split <;> simp [hp, hr]
  | seekEnd r =>
    obtain ⟨hp, hr⟩ := hne r rfl
    simp only [exec]
    split <;> simp [hr]
  | write r bs =>
    obtain ⟨hp, hr⟩ := hne r rfl
    simp only [exec, execWrite]
    split
    · exact ⟨rfl, rfl⟩
    next f _ => cases f.live <;> simp [hp, hr]
  | ftruncate r size =>
    obtain ⟨hp, hr⟩ := hne r rfl
    simp only [exec, execFtruncate]
    split
    · exact ⟨rfl, rfl⟩
    · split
      · exact ⟨rfl, rfl⟩
      · split <;> simp [hp]
  | close r =>
    obtain ⟨-, hr⟩ := hne r rfl
    simp [exec, hr]
  | unlink r =>
    obtain ⟨hp, hr⟩ := hne r rfl
    simp only [exec, execUnlink]
    split
    · exact ⟨rfl, rfl⟩
    · simp [hp, World.detach]
  | bind r =>
    obtain ⟨hp, -⟩ := hne r rfl
    simp only [exec]
    split <;> simp [hp]
  | slurp r | read r | pread r | tell r | fsync r | fsyncDir r | sys c | time | gwcCall body
    | send bs => exact ⟨rfl, rfl⟩

/-- A descriptor changes only by calls on its own role, and by an unlink of its path. -/
theorem exec_fd {o : Op} {q : Role} (hr : o.role ≠ some q) (hu : ∀ r, o ≠ .unlink r) :
    (exec cfg o e w).2.fd q = w.fd q := by
  have hne : ∀ r, o.role = some r → q ≠ r := by
    rintro r h rfl
    exact hr h
  cases o with
  | unlink r => exact absurd rfl (hu r)
  | openCreat r | openTrunc r | openAppend r =>
    have hqr := hne r rfl
    simp only [exec, execOpen]
    split
    · rfl
    · split <;> simp [hqr]
  | openExcl r =>
    have hqr := hne r rfl
    simp only [exec, execOpenExcl]
    split
    · rfl
    · split <;> simp [hqr]
  | seekEnd r =>
    have hqr := hne r rfl
    simp only [exec]
    split <;> simp [hqr]
  | write r bs =>
    have hqr := hne r rfl
    simp only [exec, execWrite]
    split
    · rfl
    next f _ => cases f.live <;> simp [hqr]
  | ftruncate r size =>
    simp only [exec, execFtruncate]
    split
    · rfl
    · split
      · rfl
      next f _ _ => cases f.live <;> rfl
  | close r =>
    have hqr := hne r rfl
    simp [exec, hqr]
  | bind r => simp only [exec]; split <;> rfl
  | slurp r | read r | pread r | tell r | fsync r | fsyncDir r | sys c | time | gwcCall body
    | send bs => rfl

theorem execOpen_history (r : Role) (trunc append : Bool) :
    (execOpen cfg e w r trunc append).2.calls = w.calls ∧
      (execOpen cfg e w r trunc append).2.walMarks = w.walMarks := by
  unfold execOpen
  split
  · exact ⟨rfl, rfl⟩
  · split <;> exact ⟨rfl, rfl⟩

theorem execWrite_history (r : Role) (bs : Bytes) :
    (execWrite cfg e w r bs).2.calls = w.calls ∧
      (execWrite cfg e w r bs).2.walMarks = w.walMarks := by
  unfold execWrite
  split
  · exact ⟨rfl, rfl⟩
  next f _ => cases f.live <;> exact ⟨rfl, rfl⟩

theorem execFtruncate_history (r : Role) (size : Nat) :
    (execFtruncate cfg e w r size).2.calls = w.calls ∧
      (execFtruncate cfg e w r size).2.walMarks = w.walMarks := by
  unfold execFtruncate
  split
  · exact ⟨rfl, rfl⟩
  · split
    · exact ⟨rfl, rfl⟩
    next f _ _ => cases f.live <;> exact ⟨rfl, rfl⟩

/-- Only `gwc_call` adds to the calls, and only the creation of the WAL adds a mark. -/
theorem exec_history {o : Op} (hcall : ∀ body, o ≠ .gwcCall body) (hwal : o ≠ .openExcl .wal) :
    (exec cfg o e w).2.calls = w.calls ∧ (exec cfg o e w).2.walMarks = w.walMarks := by
  cases o with
  | gwcCall body => exact absurd rfl (hcall body)
  | openCreat r => exact execOpen_history r false false
  | openTrunc r => exact execOpen_history r true false
  | openAppend r => exact execOpen_history r false true
  | openExcl r =>
    have hr : r ≠ .wal := by
      rintro rfl
      exact hwal rfl
    simp only [exec, execOpenExcl, hr, if_false]
    split <;> exact ⟨rfl, rfl⟩
  | seekEnd r => simp only [exec]; split <;> exact ⟨rfl, rfl⟩
  | write r bs => exact execWrite_history r bs
  | ftruncate r size => exact execFtruncate_history r size
  | unlink r => simp only [exec, execUnlink]; split <;> exact ⟨rfl, rfl⟩
  | bind r => simp only [exec]; split <;> exact ⟨rfl, rfl⟩
  | slurp r | read r | pread r | tell r | fsync r | fsyncDir r | close r | sys c | time
    | send bs => exact ⟨rfl, rfl⟩

/-- Every call but `gwc_call` leaves the calls as they are. -/
theorem exec_calls {o : Op} (hcall : ∀ body, o ≠ .gwcCall body) :
    (exec cfg o e w).2.calls = w.calls := by
  by_cases hwal : o = .openExcl .wal
  · subst hwal
    simp only [exec, execOpenExcl, if_true]
    split <;> rfl
  · exact (exec_history hcall hwal).1

/-! ## The open ledger -/

variable (cfg)

/-- The file of a role holds `bs`, and the process writes at its end. -/
structure WritesAt (r : Role) (w : World) (bs : Bytes) : Prop where
  file : w.node (cfg.path r) = some (.file bs)
  fd : w.fd r = some ⟨bs.length, true, false⟩

/-- The ledger file holds `bs`, and the process writes at its end. -/
abbrev LedgerAt (w : World) (bs : Bytes) : Prop := WritesAt cfg .ledger w bs

/-- Nothing but the ledger and its copy has changed. -/
structure Apart (w w' : World) : Prop where
  node : ∀ q, cfg.path q ≠ cfg.path .ledger → cfg.path q ≠ cfg.path .exportCopy →
    w'.node (cfg.path q) = w.node (cfg.path q)
  fd : ∀ q, q ≠ .ledger → q ≠ .exportCopy → w'.fd q = w.fd q
  calls : w'.calls = w.calls
  marks : w'.walMarks = w.walMarks

variable {cfg}

theorem Apart.refl (w : World) : Apart cfg w w := ⟨fun _ _ _ => rfl, fun _ _ _ => rfl, rfl, rfl⟩

theorem Apart.trans {w1 w2 w3 : World} (h : Apart cfg w1 w2) (h' : Apart cfg w2 w3) :
    Apart cfg w1 w3 where
  node q h1 h2 := (h'.node q h1 h2).trans (h.node q h1 h2)
  fd q h1 h2 := (h'.fd q h1 h2).trans (h.fd q h1 h2)
  calls := h'.calls.trans h.calls
  marks := h'.marks.trans h.marks

theorem exec_apart {o : Op} (hr : o.role = some .ledger ∨ o.role = some .exportCopy)
    (hu : ∀ r, o ≠ .unlink r) : Apart cfg w (exec cfg o e w).2 := by
  have hrole : ∀ q, q ≠ .ledger → q ≠ .exportCopy → o.role ≠ some q := by
    intro q h1 h2 h
    rcases hr with hr | hr
    · rw [hr, Option.some.injEq] at h
      exact h1 h.symm
    · rw [hr, Option.some.injEq] at h
      exact h2 h.symm
  have hhist : (exec cfg o e w).2.calls = w.calls ∧ (exec cfg o e w).2.walMarks = w.walMarks := by
    refine exec_history ?_ ?_
    · rintro body rfl
      simp [Op.role] at hr
    · rintro rfl
      simp [Op.role] at hr
  refine ⟨fun q h1 h2 => ?_, fun q h1 h2 => exec_fd (hrole q h1 h2) hu, hhist.1, hhist.2⟩
  refine (exec_elsewhere fun r h => ?_).1
  rcases hr with hr | hr
  · rw [hr, Option.some.injEq] at h
    exact h ▸ h1.symm
  · rw [hr, Option.some.injEq] at h
    exact h ▸ h2.symm

theorem WritesAt.content {r : Role} {bs : Bytes} (h : WritesAt cfg r w bs) :
    w.content cfg r = bs := by
  simp [World.content, World.file, World.fileAt, h.file]

theorem writeAt_end (bs chunk : Bytes) : writeAt bs bs.length chunk = bs ++ chunk := by
  simp [writeAt]

/-- A write at the end leaves some prefix of it, all of it when the call succeeds. -/
theorem exec_write_end {r : Role} {bs : Bytes} (hat : WritesAt cfg r w bs) (chunk : Bytes)
    (e : Env) : ∃ n, WritesAt cfg r (exec cfg (.write r chunk) e w).2 (bs ++ chunk.take n) ∧
      ((exec cfg (.write r chunk) e w).1 = true → chunk.take n = chunk) ∧
      (bs.length ≤ offMax → (bs ++ chunk.take n).length ≤ offMax) := by
  refine ⟨written e bs.length chunk.length, ⟨?_, ?_⟩, ?_, ?_⟩
  · simp [exec, execWrite, hat.fd, hat.content, writeAt_end]
  · have hle : written e bs.length chunk.length ≤ chunk.length := by
      unfold written
      split <;> omega
    simp [exec, execWrite, hat.fd, hle]
  · intro hok
    simp only [exec, execWrite, hat.fd, Bool.false_eq_true, if_false, beq_iff_eq] at hok
    rw [hok, List.take_length]
  · intro hmax
    have : written e bs.length chunk.length ≤ offMax - bs.length := Nat.min_le_right _ _
    rw [List.length_append, List.length_take]
    omega

/-! ## Rules for the programs of the ledger module -/

/-- The ledger has grown to `bs`, and nothing else changed. -/
structure Grown (cfg : GwConfig) (w w' : World) (bs bs' : Bytes) : Prop where
  at_ : LedgerAt cfg w' bs'
  apart : Apart cfg w w'
  size : bs.length ≤ offMax → bs'.length ≤ offMax

theorem Grown.refl {bs : Bytes} (ho : LedgerAt cfg w bs) : Grown cfg w w bs bs :=
  ⟨ho, .refl w, id⟩

theorem Grown.trans {w1 w2 w3 : World} {b1 b2 b3 : Bytes} (h : Grown cfg w1 w2 b1 b2)
    (h' : Grown cfg w2 w3 b2 b3) : Grown cfg w1 w3 b1 b3 :=
  ⟨h'.at_, h.apart.trans h'.apart, fun hb => h'.size (h.size hb)⟩

variable {A : Env → Prop} {K : World → Prop} {D P : Step (machine cfg) → Prop}
  {h : List (Answered Op Ans)}

/-- The calls on the primary succeed; those on the copy do as they like. -/
def primaryOk : (o : Op) → Ans o → Bool
  | .write .ledger _, ok => ok
  | .fsync .ledger, ok => ok
  | _, _ => true

variable (D) in
/-- Some call on the primary failed. -/
def PrimaryFails : Prop := ∃ m, D m ∧ primaryOk m.op m.answer = false

/-- The calls of an append: on the ledger and on its copy. -/
def Op.Append (o : Op) : Prop := o.role = some .ledger ∨ o.role = some .exportCopy

theorem writeAll_observes {Q : Bool → List (Answered Op Ans) → World → Prop} {chunks : List Bytes}
    {bs : Bytes} (ho : LedgerAt cfg w bs)
    (hP : ∀ m : Step (machine cfg), (∃ chunk ∈ chunks, m.op = .write .ledger chunk) →
      (∃ p, p <+: chunks.flatten ∧ Grown cfg w m.state bs (bs ++ p)) →
      (∃ p, p <+: chunks.flatten ∧ Grown cfg w m.next bs (bs ++ p)) →
      Extends Op.Append h m.before → D m → P m)
    (hQ : ∀ ok p h' w', p <+: chunks.flatten → (ok = true → p = chunks.flatten) →
      (ok = false → PrimaryFails D) → Grown cfg w w' bs (bs ++ p) → Extends Op.Append h h' →
      Q ok h' w') :
    Observes (machine cfg) D P Q (writeAll .ledger chunks) h w := by
  induction chunks generalizing w bs h with
  | nil =>
    exact .ret (hQ true [] h w List.nil_prefix (fun _ => rfl) (fun hf => by cases hf)
      (by simpa using Grown.refl ho) (.refl h))
  | cons chunk chunks ih =>
    have hstep : ∀ e, ∃ n, Grown cfg w (exec cfg (.write .ledger chunk) e w).2 bs
        (bs ++ chunk.take n) ∧
        ((exec cfg (.write .ledger chunk) e w).1 = true → chunk.take n = chunk) := by
      intro e
      obtain ⟨n, hat, hok, hsize⟩ := exec_write_end ho chunk e
      exact ⟨n, ⟨hat, exec_apart (.inl rfl) (fun _ => by simp), hsize⟩, hok⟩
    have hpre : ∀ n, chunk.take n <+: (chunk :: chunks).flatten := fun n => by
      rw [List.flatten_cons]
      exact (List.take_prefix n chunk).trans (List.prefix_append _ _)
    have hext : ∀ a, Extends Op.Append h (h ++ [⟨.write .ledger chunk, a⟩]) :=
      Extends.call (.inl rfl)
    refine Observes.perform ?_ ?_
    · intro e hD
      obtain ⟨n, hgrown, -⟩ := hstep e
      exact hP _ ⟨chunk, List.mem_cons_self, rfl⟩
        ⟨[], List.nil_prefix, by simpa using Grown.refl ho⟩ ⟨_, hpre n, hgrown⟩ (.refl h) hD
    · intro e hD
      obtain ⟨n, hgrown, hok⟩ := hstep e
      cases hans : ((machine cfg).exec (.write .ledger chunk) e w).1 with
      | false =>
        exact .ret (hQ false _ _ _ (hpre n) (fun hf => by cases hf) (fun _ => ⟨_, hD, hans⟩) hgrown
          (hext false))
      | true =>
        -- the chunk is there; the rest goes on from it
        rw [hok hans] at hgrown
        have hmore : ∀ p,
          chunk ++ p <+: (chunk :: chunks).flatten ↔ p <+: chunks.flatten := fun p => by
          rw [List.flatten_cons, List.prefix_append_right_inj]
        have hlater : ∀ {w'}, (∃ p, p <+: chunks.flatten ∧
            Grown cfg (exec cfg (.write .ledger chunk) e w).2 w' (bs ++ chunk) (bs ++ chunk ++ p)) →
            ∃ p, p <+: (chunk :: chunks).flatten ∧ Grown cfg w w' bs (bs ++ p) := by
          rintro w' ⟨p, hp, hw'⟩
          have := hgrown.trans hw'
          rw [List.append_assoc] at this
          exact ⟨_, (hmore p).2 hp, this⟩
        refine ih hgrown.at_ ?_ ?_
        · rintro m ⟨c, hc, hop⟩ hpre' hpost' hext' hD'
          exact hP m ⟨c, List.mem_cons_of_mem _ hc, hop⟩ (hlater hpre') (hlater hpost')
            ((hext true).trans hext') hD'
        · intro ok p h' w' hp hall hfail hw' hext'
          have := hgrown.trans hw'
          rw [List.append_assoc] at this
          refine hQ ok _ h' w' ((hmore p).2 hp) (fun hok' => ?_) hfail this
            ((hext true).trans hext')
          rw [hall hok', List.flatten_cons]

theorem writeAll_only (r : Role) (chunks : List Bytes) :
    (writeAll r chunks).Only fun o => ∃ bs, o = .write r bs := by
  induction chunks with
  | nil => exact .ret
  | cons chunk chunks ih =>
    refine .perform ⟨chunk, rfl⟩ fun ok => ?_
    cases ok with
    | false => exact .ret
    | true => exact ih

variable {S : Substrate}

/-- The mirror of a frame touches only the copy. -/
theorem mirrorFrame_observes {Q : Gwl S → List (Answered Op Ans) → World → Prop} {g : Gwl S}
    {chunks : List Bytes} {bs : Bytes} (ho : LedgerAt cfg w bs)
    (hexp : g.exportActive = true → cfg.path .exportCopy ≠ cfg.path .ledger)
    (hP : ∀ m : Step (machine cfg), m.op.role = some .exportCopy →
      LedgerAt cfg m.state bs ∧ Apart cfg w m.state → LedgerAt cfg m.next bs ∧ Apart cfg w m.next →
      Extends Op.Append h m.before → D m → P m)
    (hQ : ∀ act h' w', (act = true → g.exportActive = true) → LedgerAt cfg w' bs →
      Apart cfg w w' → Extends Op.Append h h' → Q { g with exportActive := act } h' w') :
    Observes (machine cfg) D P Q (mirrorFrame g chunks) h w := by
  unfold mirrorFrame
  cases hact : g.exportActive with
  | false =>
    have hg : g = { g with exportActive := false } := by rw [← hact]
    rw [hg]
    exact .ret (hQ false h w (fun hf => by cases hf) ho (.refl w) (.refl h))
  | true =>
    -- the calls on the copy keep the open ledger, and nothing but the copy changes
    have hne := hexp hact
    have hstep : ∀ o e s, o.role = some .exportCopy ∧ (∀ r, o ≠ .unlink r) →
        LedgerAt cfg s bs ∧ Apart cfg w s →
        LedgerAt cfg (exec cfg o e s).2 bs ∧ Apart cfg w (exec cfg o e s).2 := by
      rintro o e s ⟨hr, hu⟩ hs
      have hat := exec_elsewhere (e := e) (w := s) fun r h => by
        rw [hr, Option.some.injEq] at h
        exact h ▸ hne
      exact ⟨⟨hat.1.trans hs.1.file, hat.2.trans hs.1.fd⟩, hs.2.trans (exec_apart (.inr hr) hu)⟩
    have hwrites : (writeAll .exportCopy chunks).Only fun o =>
        o.role = some .exportCopy ∧ ∀ r, o ≠ .unlink r := by
      refine (writeAll_only .exportCopy chunks).mono ?_
      rintro o ⟨bs, rfl⟩
      exact ⟨rfl, fun _ => by simp⟩
    have happend : ∀ {h1 h2 : List (Answered Op Ans)},
        Extends (fun o => o.role = some .exportCopy ∧ ∀ r, o ≠ .unlink r) h1 h2 →
        Extends Op.Append h1 h2 := Extends.mono fun o ho => .inr ho.1
    refine Observes.bind (Q := fun _ h' s => (LedgerAt cfg s bs ∧ Apart cfg w s) ∧
      Extends Op.Append h h') (Observes.of_only hstep ?_ hwrites ⟨ho, .refl w⟩ ?_) ?_
    · intro m hext hm hs hD
      exact hP m hm.1 hs (hstep _ _ _ hm hs) (happend hext) hD
    · intro _ h' s hext hs
      exact ⟨hs, happend hext⟩
    intro ok h' w' hw'
    cases ok with
    | true =>
      have hg : g = { g with exportActive := true } := by rw [← hact]
      rw [hg]
      exact .ret (hQ true h' w' (fun _ => hact) hw'.1.1 hw'.1.2 hw'.2)
    | false =>
      have hclose : ∀ e, _ := fun e =>
        hstep (.close .exportCopy) e w' ⟨rfl, fun _ => by simp⟩ hw'.1
      refine Observes.perform (fun e hD => hP _ rfl hw'.1 (hclose e) hw'.2 hD) fun e _ => ?_
      exact .ret (hQ false _ _ (fun hf => by cases hf) (hclose e).1 (hclose e).2
        (hw'.2.trans (.call (.inr rfl) _)))

/-- The frame `gwl_append` writes for a tag and a payload. -/
structure FrameFor (S : Substrate) (tag : CStr) (payload : Bytes) (f : Frame) : Prop where
  tag_eq : f.tag = tag.bytes
  payload_eq : f.payload = payload
  commit_eq : S.axCommitEvidence tag payload = some ⟨f.commit, f.commitLen⟩

/-- The checks of `gwl_append` pass, and the commitment is made. -/
structure Appendable (S : Substrate) (g : Gwl S) (tag : CStr) (payload : Bytes) : Prop where
  isOpen : g.isOpen = true
  tag_pos : 0 < tag.bytes.length
  tag_le : tag.bytes.length ≤ gwlTagMax
  payload_pos : 0 < payload.length
  payload_le : payload.length ≤ gwlPayloadMax
  commit : (S.axCommitEvidence tag payload).isSome

/-- A call of an append: some part of the frame is in the file before it, and behind it. -/
structure Appending (cfg : GwConfig) (w : World) (bs : Bytes) (f : Frame)
    (m : Step (machine cfg)) : Prop where
  op : m.op = .fsync .ledger ∨ m.op.role = some .exportCopy ∨
    ∃ chunk ∈ frameChunks f.tag f.payload f.commit, m.op = .write .ledger chunk
  before : ∃ p, p <+: f.encode ∧ Grown cfg w m.state bs (bs ++ p)
  after : ∃ p, p <+: f.encode ∧ Grown cfg w m.next bs (bs ++ p)

/-- **Append**: some prefix of the frame is written; the chain advances only when all of it is. It
fails when its checks do, when a call on the ledger does, or when the chain faults. -/
theorem gwlAppend_observes
    {Q : Gwl S × Option (Digest × UInt64) → List (Answered Op Ans) → World → Prop} {g : Gwl S}
    {tag : CStr} {payload bs : Bytes} (ho : LedgerAt cfg w bs)
    (hexp : g.exportActive = true → cfg.path .exportCopy ≠ cfg.path .ledger)
    (hP : ∀ f m, FrameFor S tag payload f → Appending cfg w bs f m →
      Extends Op.Append h m.before → D m → P m)
    (hskip : ¬ Appendable S g tag payload → Q (g, none) h w)
    (hfail : ∀ f p h' w' act, FrameFor S tag payload f → (act = true → g.exportActive = true) →
      PrimaryFails D ∨ S.axLedgerAppend g.ctx ⟨f.commit, f.commitLen⟩ = none →
      p <+: f.encode → Grown cfg w w' bs (bs ++ p) → Extends Op.Append h h' →
      Q ({ g with exportActive := act }, none) h' w')
    (hdone : ∀ f h' w' act ctx, FrameFor S tag payload f → (act = true → g.exportActive = true) →
      Grown cfg w w' bs (bs ++ f.encode) →
      S.axLedgerAppend g.ctx ⟨f.commit, f.commitLen⟩ = some ctx → Extends Op.Append h h' →
      Q ({ g with exportActive := act, ctx := ctx, lastPayload := payload },
        some (S.currentHash ctx, S.sequence ctx)) h' w') :
    Observes (machine cfg) D P Q (gwlAppend g tag payload) h w := by
  unfold gwlAppend
  split
  · next hclosed =>
    refine .ret (hskip fun happ => ?_)
    rw [happ.isOpen] at hclosed
    cases hclosed
  split
  · next htag => exact .ret (hskip fun happ => by have := happ.tag_pos; have := happ.tag_le; omega)
  split
  · next hpay =>
    exact .ret (hskip fun happ => by have := happ.payload_pos; have := happ.payload_le; omega)
  next ht hp =>
  cases hcommit : S.axCommitEvidence tag payload with
  | none =>
    refine .ret (hskip fun happ => ?_)
    have := happ.commit
    rw [hcommit] at this
    cases this
  | some d =>
    let f : Frame := ⟨tag.bytes, payload, d.bytes, by omega, by omega, d.size⟩
    have hf : FrameFor S tag payload f := ⟨rfl, rfl, hcommit⟩
    refine Observes.bind (Q := fun ok h' w' => ∃ p, p <+: f.encode ∧ (ok = true → p = f.encode) ∧
      (ok = false → PrimaryFails D) ∧ Grown cfg w w' bs (bs ++ p) ∧ Extends Op.Append h h')
      (writeAll_observes ho ?_ fun ok p h' w' hp hall hbad hw' hext =>
        ⟨p, hp, hall, hbad, hw', hext⟩) ?_
    · rintro m ⟨chunk, hc, hop⟩ hpre hpost hext hD
      exact hP f m hf ⟨.inr (.inr ⟨chunk, hc, hop⟩), hpre, hpost⟩ hext hD
    rintro ok h1 w1 ⟨p, hp, hall, hbad, hw1, hext1⟩
    cases ok with
    | false => exact .ret (hfail f p h1 w1 g.exportActive hf id (.inl (hbad rfl)) hp hw1 hext1)
    | true =>
      rw [hall rfl] at hw1
      have hall : ∃ p, p <+: f.encode ∧ Grown cfg w w1 bs (bs ++ p) := ⟨_, List.prefix_rfl, hw1⟩
      refine Observes.perform (fun e hD => hP f _ hf ⟨.inl rfl, hall, hall⟩ hext1 hD) ?_
      intro e hD
      have hsame : ((machine cfg).exec (.fsync .ledger) e w1).2 = w1 := rfl
      have hext2 : ∀ a, Extends Op.Append h (h1 ++ [⟨.fsync .ledger, a⟩]) := fun a =>
        hext1.trans (.call (.inl rfl) a)
      rw [hsame]
      cases hans : ((machine cfg).exec (.fsync .ledger) e w1).1 with
      | false =>
        exact .ret (hfail f _ _ w1 g.exportActive hf id (.inl ⟨_, hD, hans⟩) List.prefix_rfl hw1
          (hext2 false))
      | true =>
        -- durable: the copy, and then the chain
        have hgrown : ∀ {w2 : World}, LedgerAt cfg w2 (bs ++ f.encode) ∧ Apart cfg w1 w2 →
            Grown cfg w w2 bs (bs ++ f.encode) := fun hw2 =>
          ⟨hw2.1, hw1.apart.trans hw2.2, hw1.size⟩
        refine Observes.bind (Q := fun g' h' w2 => ∃ act, (act = true → g.exportActive = true) ∧
          g' = { g with exportActive := act } ∧ Grown cfg w w2 bs (bs ++ f.encode) ∧
          Extends Op.Append h h') (mirrorFrame_observes hw1.at_ hexp ?_ ?_) ?_
        · intro m hm hpre hpost hext hD'
          exact hP f m hf ⟨.inr (.inl hm), ⟨_, List.prefix_rfl, hgrown hpre⟩,
            ⟨_, List.prefix_rfl, hgrown hpost⟩⟩ ((hext2 true).trans hext) hD'
        · intro act h' w2 hact hat hap hext
          exact ⟨act, hact, rfl, hgrown ⟨hat, hap⟩, (hext2 true).trans hext⟩
        rintro g' h2 w2 ⟨act, hact, rfl, hw2, hext3⟩
        cases hctx : S.axLedgerAppend g.ctx d with
        | none => exact .ret (hfail f _ h2 w2 act hf hact (.inr hctx) List.prefix_rfl hw2 hext3)
        | some ctx => exact .ret (hdone f h2 w2 act ctx hf hact hw2 hctx hext3)

instance : Nonempty (machine cfg).Env := ⟨({} : Env)⟩

/-- The rule of `Safe` for an append. -/
theorem gwlAppend_safe {Q : Gwl S × Option (Digest × UInt64) → World → Prop} {g : Gwl S}
    {tag : CStr} {payload bs : Bytes} (ho : LedgerAt cfg w bs)
    (hexp : g.exportActive = true → cfg.path .exportCopy ≠ cfg.path .ledger)
    (hskip : Q (g, none) w)
    (hK : ∀ f p w', FrameFor S tag payload f → p <+: f.encode → Grown cfg w w' bs (bs ++ p) → K w')
    (hfail : ∀ f p w' act, FrameFor S tag payload f → (act = true → g.exportActive = true) →
      p <+: f.encode → Grown cfg w w' bs (bs ++ p) → Q ({ g with exportActive := act }, none) w')
    (hdone : ∀ f w' act ctx, FrameFor S tag payload f → (act = true → g.exportActive = true) →
      Grown cfg w w' bs (bs ++ f.encode) →
      S.axLedgerAppend g.ctx ⟨f.commit, f.commitLen⟩ = some ctx →
      Q ({ g with exportActive := act, ctx := ctx, lastPayload := payload },
        some (S.currentHash ctx, S.sequence ctx)) w') :
    Safe (machine cfg) A (fun _ _ => True) K Q (gwlAppend g tag payload) w := by
  have hobs : Observes (machine cfg) (fun _ => True) (fun m => K m.state ∧ K m.next)
      (fun x _ w' => Q x w') (gwlAppend g tag payload) [] w := by
    refine gwlAppend_observes ho hexp ?_ (fun _ => hskip) ?_ ?_
    · rintro f m hf ⟨-, ⟨p, hp, hpre⟩, ⟨p', hp', hpost⟩⟩ _ _
      exact ⟨hK f p _ hf hp hpre, hK f p' _ hf hp' hpost⟩
    · intro f p _ w' act hf hact _ hp hw' _
      exact hfail f p w' act hf hact hp hw'
    · intro f _ w' act ctx hf hact hw' hctx _
      exact hdone f w' act ctx hf hact hw' hctx
  exact hobs.safe (fun _ => trivial) (fun m hm => ⟨hm.1, trivial, hm.2⟩) fun _ _ _ hq => hq

/-- The file cut at the end of accepted frames. When the reads meet no error, what is cut off starts
with no frame. -/
def CutTo (S : Substrate) (strict : Prop) (bs bs' : Bytes) : Prop :=
  ∃ fs tail, bs = encodeAll fs ++ tail ∧ bs' = encodeAll fs ∧
    (∀ f ∈ fs, commitMatches S f = true) ∧ (strict → nextFrame tail = none)

theorem exec_openCreat_ledger (e : Env) :
    exec cfg (.openCreat .ledger) e w = (false, w) ∨
      ∃ w', exec cfg (.openCreat .ledger) e w = (true, w') ∧
        w'.node (cfg.path .ledger) = some (.file (w.content cfg .ledger)) ∧
        w'.fd .ledger = some ⟨0, true, false⟩ := by
  simp only [exec, execOpen]
  split
  · exact .inl rfl
  · split
    · exact .inl rfl
    next bs hn =>
      exact .inr ⟨_, rfl, by simp [World.content, World.file, World.fileAt, hn], by simp⟩
    next hn => exact .inr ⟨_, rfl, by simp [World.content, World.file, World.fileAt, hn], by simp⟩

theorem content_congr {w' : World}
    (h : w'.node (cfg.path .ledger) = w.node (cfg.path .ledger)) :
    w'.content cfg .ledger = w.content cfg .ledger := by
  simp only [World.content, World.file, World.fileAt, h]

theorem content_of_node {bs : Bytes} (h : w.node (cfg.path .ledger) = some (.file bs)) :
    w.content cfg .ledger = bs := by
  simp [World.content, World.file, World.fileAt, h]

theorem exec_seekEnd_ledger {bs : Bytes} {o : Nat}
    (hn : w.node (cfg.path .ledger) = some (.file bs)) (hfd : w.fd .ledger = some ⟨o, true, false⟩)
    (e : Env) : LedgerAt cfg (exec cfg (.seekEnd .ledger) e w).2 bs := by
  constructor
  · simp [exec, hfd, hn]
  · simp [exec, hfd, content_of_node hn]

theorem exec_ftruncate_ledger {bs : Bytes} {o n : Nat}
    (hn : w.node (cfg.path .ledger) = some (.file bs)) (hfd : w.fd .ledger = some ⟨o, true, false⟩)
    (hle : n ≤ bs.length) (e : Env) :
    e.fails = true ∧ exec cfg (.ftruncate .ledger n) e w = (false, w) ∨
      e.fails = false ∧ ∃ w', exec cfg (.ftruncate .ledger n) e w = (true, w') ∧
        w'.node (cfg.path .ledger) = some (.file (bs.take n)) ∧
        w'.fd .ledger = some ⟨o, true, false⟩ := by
  simp only [exec, execFtruncate, hfd]
  cases hfails : e.fails with
  | true => exact .inl ⟨rfl, rfl⟩
  | false =>
    refine .inr ⟨rfl, _, rfl, ?_, ?_⟩
    · simp [content_of_node hn, hle]
    · simp [hfd]

/-- **Open**: the file is as it was, or cut at the end of the frames that were accepted. -/
theorem gwlOpen_safe {G : World → World → Prop} {Q : Option (Gwl S × Bool) → World → Prop}
    {tornTailOk : Bool} (strict : Prop) (hA : strict → ∀ e, A e → none ∉ e.script)
    (hG : ∀ w1 w2, w2.content cfg .ledger = w1.content cfg .ledger ∨
      CutTo S strict (w1.content cfg .ledger) (w2.content cfg .ledger) → G w1 w2)
    (hK : ∀ w', w'.content cfg .ledger = w.content cfg .ledger ∨
      CutTo S strict (w.content cfg .ledger) (w'.content cfg .ledger) → Apart cfg w w' → K w')
    (hnone : ∀ w', w'.content cfg .ledger = w.content cfg .ledger → Apart cfg w w' → Q none w')
    (hsome : ∀ w' genesis fs r cut, S.axLedgerGenesis = some genesis →
      acceptAll S (replayStart S genesis) fs = some r → LedgerAt cfg w' (encodeAll fs) →
      Apart cfg w w' →
      (cut = false ∧ w.content cfg .ledger = encodeAll fs ∨
        cut = true ∧ CutTo S strict (w.content cfg .ledger) (encodeAll fs)) →
      Q (some (⟨r.ctx, true, false, r.lastPayload⟩, cut)) w') :
    Safe (machine cfg) A G K Q (gwlOpen S tornTailOk) w := by
  unfold gwlOpen
  cases hgen : S.axLedgerGenesis with
  | none => exact .ret (hnone w rfl (.refl w))
  | some genesis =>
  have hK0 : K w := hK w (.inl rfl) (.refl w)
  -- from any state with the file as it was, giving up is safe
  have hclose : ∀ w1, w1.content cfg .ledger = w.content cfg .ledger → Apart cfg w w1 →
      Safe (machine cfg) A G K Q closeFail w1 := by
    intro w1 hc hap
    have hap' : ∀ e, Apart cfg w (exec cfg (.close .ledger) e w1).2 := fun e =>
      hap.trans (exec_apart (.inl rfl) (fun _ => by simp))
    exact .call (hK w1 (.inl hc) hap) (fun e => ⟨hG _ _ (.inl rfl), hK _ (.inl hc) (hap' e)⟩)
      fun e _ => .ret (hnone _ hc (hap' e))
  -- and so is going on from the end of accepted frames
  have hseek : ∀ w1 fs r cut, w1.node (cfg.path .ledger) = some (.file (encodeAll fs)) →
      w1.fd .ledger = some ⟨0, true, false⟩ → Apart cfg w w1 →
      acceptAll S (replayStart S genesis) fs = some r →
      (cut = false ∧ w.content cfg .ledger = encodeAll fs ∨
        cut = true ∧ CutTo S strict (w.content cfg .ledger) (encodeAll fs)) →
      Safe (machine cfg) A G K Q (do
        sys (.seekEnd .ledger)
        return some (⟨r.ctx, true, false, r.lastPayload⟩, cut)) w1 := by
    intro w1 fs r cut hn hfd hap hacc hcut
    have hKs : ∀ w2, w2.content cfg .ledger = encodeAll fs → Apart cfg w w2 → K w2 := by
      intro w2 hc hap2
      refine hK w2 ?_ hap2
      rcases hcut with ⟨-, hcut⟩ | ⟨-, hcut⟩
      · exact .inl (hc.trans hcut.symm)
      · exact .inr (hc ▸ hcut)
    have hat : ∀ e, LedgerAt cfg (exec cfg (.seekEnd .ledger) e w1).2 (encodeAll fs) :=
      exec_seekEnd_ledger hn hfd
    have hap' : ∀ e, Apart cfg w (exec cfg (.seekEnd .ledger) e w1).2 := fun e =>
      hap.trans (exec_apart (.inl rfl) (fun _ => by simp))
    refine Safe.perform (hKs w1 (content_of_node hn) hap) ?_ ?_
    · intro e
      exact ⟨hG _ _ (.inl ((hat e).content.trans (content_of_node hn).symm)),
        hKs _ (hat e).content (hap' e)⟩
    · intro e _
      exact .ret (hsome _ genesis fs r cut hgen hacc (hat e) (hap' e) hcut)
  have hopen : ∀ e, Apart cfg w (exec cfg (.openCreat .ledger) e w).2 := fun e =>
    exec_apart (.inl rfl) (fun _ => by simp)
  refine Safe.perform hK0 ?_ ?_
  · intro e
    rcases exec_openCreat_ledger (w := w) e with h | ⟨w1, h, hn, -⟩
    · exact ⟨hG _ _ (.inl (by rw [machine_exec, h])), by rw [machine_exec, h]; exact hK0⟩
    · have hap := hopen e
      rw [h] at hap
      have hc := content_of_node hn
      exact ⟨hG _ _ (.inl (by rw [machine_exec, h]; exact hc)), by
        rw [machine_exec, h]; exact hK _ (.inl hc) hap⟩
  intro e _
  rcases exec_openCreat_ledger (w := w) e with h | ⟨w1, h, hn, hfd⟩
  · rw [machine_exec, h]
    exact .ret (hnone w rfl (.refl w))
  have hap := hopen e
  rw [h] at hap
  have hc := content_of_node hn
  rw [machine_exec, h]
  have hK1 : K w1 := hK w1 (.inl hc) hap
  refine Safe.perform hK1 (fun _ => ⟨hG _ _ (.inl rfl), hK1⟩) ?_
  intro e1 he1
  have hread : (exec cfg (.read .ledger) e1 w1) = ((w.content cfg .ledger, e1.script), w1) := by
    simp [exec, hfd, hc]
  rw [machine_exec, hread]
  -- the replay of what was read
  rcases hreplay : replay S genesis (w.content cfg .ledger) e1.script with ⟨res, r⟩
  simp only [hreplay]
  cases res with
  | fail => exact hclose w1 hc hap
  | clean =>
    obtain ⟨fs, hfile, hacc⟩ := replay_clean hreplay
    exact hseek w1 fs r false (hfile ▸ hn) hfd hap hacc (.inl ⟨rfl, hfile⟩)
  | torn =>
    obtain ⟨fs, tail, hfile, hacc, htail⟩ := replay_torn hreplay
    cases tornTailOk with
    | false => exact hclose w1 hc hap
    | true =>
      have hcut : CutTo S strict (w.content cfg .ledger) (encodeAll fs) :=
        ⟨fs, tail, hfile, rfl, acceptAll_matches hacc, fun hs => htail (hA hs e1 he1)⟩
      have hend : r.goodEnd = (encodeAll fs).length := by
        rw [acceptAll_goodEnd hacc]
        exact Nat.zero_add _
      have hle : r.goodEnd ≤ (w.content cfg .ledger).length := by
        rw [hfile, List.length_append, hend]
        omega
      have htake : (w.content cfg .ledger).take r.goodEnd = encodeAll fs := by
        rw [hfile, hend, List.take_left]
      refine Safe.perform hK1 ?_ ?_
      · intro e2
        have hap2 : Apart cfg w1 (exec cfg (.ftruncate .ledger r.goodEnd) e2 w1).2 :=
          exec_apart (.inl rfl) (fun _ => by simp)
        rcases exec_ftruncate_ledger hn hfd hle e2 with ⟨-, h2⟩ | ⟨-, w2, h2, hn2, -⟩
        · rw [machine_exec, h2]
          exact ⟨hG _ _ (.inl rfl), hK1⟩
        · rw [machine_exec, h2]
          rw [h2] at hap2
          rw [htake] at hn2
          have hc2 := content_of_node hn2
          exact ⟨hG _ _ (.inr (by rw [hc, hc2]; exact hcut)),
            hK _ (.inr (by rw [hc2]; exact hcut)) (hap.trans hap2)⟩
      · intro e2 _
        have hap2 : Apart cfg w1 (exec cfg (.ftruncate .ledger r.goodEnd) e2 w1).2 :=
          exec_apart (.inl rfl) (fun _ => by simp)
        rcases exec_ftruncate_ledger hn hfd hle e2 with ⟨-, h2⟩ | ⟨-, w2, h2, hn2, hfd2⟩
        · rw [machine_exec, h2]
          exact hclose w1 hc hap
        · rw [machine_exec, h2]
          rw [h2] at hap2
          rw [htake] at hn2
          exact hseek w2 fs r true hn2 hfd2 (hap.trans hap2) hacc (.inr ⟨rfl, hcut⟩)

end Calls

end AxiomaOracle
