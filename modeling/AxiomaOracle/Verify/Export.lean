import AxiomaOracle.Lib.Trace
import AxiomaOracle.Verify.LedgerFaults

/-!
# The witness export

The copy of the ledger at `export_path`, over sequences of `gwl_export_enable` and `gwl_append` in
which the calls on the primary succeed and those on the copy may fail at any byte. The copy is
always behind the primary or equal to it: enabling rewrites it from the start
(`exportLoop_upholds`), an append writes the primary first (`gwlAppend_upholds`), and a failed write
ends the mirroring until the next enable.
-/

namespace AxiomaOracle

open Lib

section Export

variable {S : Substrate} {cfg : GwConfig} {w : World} {C : (o : Op) → Ans o → Prop}
  {K : List (Answered Op Ans) → World → Prop} {h : List (Answered Op Ans)}

/-! ## Writes at the end of a file -/

variable (cfg) in
/-- The file of a role and its descriptor are as they were. -/
structure Beside (q : Role) (w w' : World) : Prop where
  node : w'.node (cfg.path q) = w.node (cfg.path q)
  fd : w'.fd q = w.fd q

theorem Beside.refl (q : Role) (w : World) : Beside cfg q w w := ⟨rfl, rfl⟩

theorem Beside.trans {q : Role} {w1 w2 w3 : World} (h12 : Beside cfg q w1 w2)
    (h23 : Beside cfg q w2 w3) : Beside cfg q w1 w3 :=
  ⟨h23.node.trans h12.node, h23.fd.trans h12.fd⟩

theorem exec_beside {o : Op} {r q : Role} (hr : o.role = some r) (hne : cfg.path r ≠ cfg.path q)
    (e : Env) : Beside cfg q w (exec cfg o e w).2 := by
  have hel : (exec cfg o e w).2.node (cfg.path q) = w.node (cfg.path q) ∧
      (exec cfg o e w).2.fd q = w.fd q := by
    apply exec_elsewhere
    intro r' hr'
    rw [hr, Option.some.injEq] at hr'
    exact hr' ▸ hne
  exact ⟨hel.1, hel.2⟩

/-- Writes in order at the end of one file, beside another: at every moment some of the bytes are
there, and all of them at a successful end. -/
theorem writeAll_upholds {r q : Role} (hne : cfg.path r ≠ cfg.path q) (steady : Prop)
    (hC : steady → ∀ bs ok, C (.write r bs) ok → ok = true)
    {Q : Bool → List (Answered Op Ans) → World → Prop} {chunks : List Bytes} {bs : Bytes}
    (hat : WritesAt cfg r w bs)
    (hK : ∀ p h' w', p <+: chunks.flatten → Extends (fun o => ∃ bs, o = .write r bs) h h' →
      WritesAt cfg r w' (bs ++ p) → Beside cfg q w w' → K h' w')
    (hQ : ∀ ok p h' w', p <+: chunks.flatten → (ok = true → p = chunks.flatten) →
      (steady → ok = true) → Extends (fun o => ∃ bs, o = .write r bs) h h' →
      WritesAt cfg r w' (bs ++ p) → Beside cfg q w w' → Q ok h' w') :
    Upholds (machine cfg) C K Q (writeAll r chunks) h w := by
  induction chunks generalizing w h bs with
  | nil =>
    have hnow : WritesAt cfg r w (bs ++ []) := by rwa [List.append_nil]
    exact .ret (hK [] h w List.nil_prefix (.refl h) hnow (.refl q w))
      (hQ true [] h w List.nil_prefix (fun _ => rfl) (fun _ => rfl) (.refl h) hnow (.refl q w))
  | cons chunk chunks ih =>
    have hpre : ∀ n, chunk.take n <+: (chunk :: chunks).flatten := by
      intro n
      rw [List.flatten_cons]
      exact (List.take_prefix n chunk).trans (List.prefix_append _ _)
    have hnow : WritesAt cfg r w (bs ++ []) := by rwa [List.append_nil]
    refine Upholds.perform (hK [] h w List.nil_prefix (.refl h) hnow (.refl q w)) ?_
    intro e hcall
    obtain ⟨n, hat', hall, -⟩ := exec_write_end hat chunk e
    have hbeside : Beside cfg q w (exec cfg (.write r chunk) e w).2 := exec_beside rfl hne e
    have hext : Extends (fun o => ∃ bs, o = .write r bs) h
        (h ++ [⟨.write r chunk, (exec cfg (.write r chunk) e w).1⟩]) := .call ⟨chunk, rfl⟩ _
    cases hans : (exec cfg (.write r chunk) e w).1 with
    | false =>
      rw [hans] at hext
      have hsteady : steady → false = true := by
        intro hs
        rw [← hans]
        exact hC hs _ _ hcall
      dsimp only
      exact .ret (hK _ _ _ (hpre n) hext hat' hbeside)
        (hQ false _ _ _ (hpre n) (fun hf => by cases hf) hsteady hext hat' hbeside)
    | true =>
      -- the chunk is there; the rest goes on from it
      rw [hall hans] at hat'
      rw [hans] at hext
      dsimp only
      have hmore : ∀ p, chunk ++ p <+: (chunk :: chunks).flatten ↔ p <+: chunks.flatten := by
        intro p
        rw [List.flatten_cons, List.prefix_append_right_inj]
      refine ih hat' ?_ ?_
      · intro p h' w' hp hext' hw' hb
        rw [List.append_assoc] at hw'
        exact hK _ h' w' ((hmore p).2 hp) (hext.trans hext') hw' (hbeside.trans hb)
      · intro ok p h' w' hp hdone hs hext' hw' hb
        rw [List.append_assoc] at hw'
        refine hQ ok _ h' w' ((hmore p).2 hp) ?_ hs (hext.trans hext') hw' (hbeside.trans hb)
        intro hok
        rw [hdone hok, List.flatten_cons]

/-! ## The copy and the primary -/

/-- The call with which `gwl_export_enable` empties the copy. -/
def emptied : Answered Op Ans := ⟨.openTrunc .exportCopy, true⟩

variable (cfg) in
/-- The copy is a prefix of the primary. -/
def Behind (w : World) : Prop := w.content cfg .exportCopy <+: w.content cfg .ledger

variable (cfg) in
/-- Once it has been emptied, the copy is a prefix of the primary. -/
def Follows (h : List (Answered Op Ans)) (w : World) : Prop := emptied ∈ h → Behind cfg w

variable (cfg) in
/-- Between calls: the primary is open at its end, and an active copy is equal to it and open at its
end too. -/
structure Mirrored (g : Gwl S) (w : World) : Prop where
  primary : ∃ bs, WritesAt cfg .ledger w bs ∧
    (g.exportActive = true → WritesAt cfg .exportCopy w bs)

theorem Beside.content {q : Role} {w w' : World} (hb : Beside cfg q w w') :
    w'.content cfg q = w.content cfg q := by
  simp only [World.content, World.file, World.fileAt, hb.node]

theorem WritesAt.beside {q : Role} {bs : Bytes} {w w' : World} (hat : WritesAt cfg q w bs)
    (hb : Beside cfg q w w') : WritesAt cfg q w' bs :=
  ⟨hb.node.trans hat.file, hb.fd.trans hat.fd⟩

theorem behind_of_writesAt {bs cs : Bytes} (hl : WritesAt cfg .ledger w bs)
    (hc : WritesAt cfg .exportCopy w cs) (hpre : cs <+: bs) : Behind cfg w := by
  unfold Behind
  rw [hl.content, hc.content]
  exact hpre

/-- The primary grows and the copy stays behind. -/
theorem Follows.grown {w' : World} {h' : List (Answered Op Ans)} {bs p : Bytes}
    (hf : Follows cfg h w) (hl : WritesAt cfg .ledger w bs)
    (hext : Extends (fun o => o ≠ .openTrunc .exportCopy) h h')
    (hl' : WritesAt cfg .ledger w' (bs ++ p)) (hb : Beside cfg .exportCopy w w') :
    Follows cfg h' w' := by
  intro hmem
  have hbehind := hf (hext.mem hmem (by simp [emptied]))
  unfold Behind at hbehind ⊢
  rw [hb.content, hl'.content]
  rw [hl.content] at hbehind
  exact hbehind.trans (List.prefix_append _ _)

theorem mirrorFrame_upholds (hne : cfg.path .exportCopy ≠ cfg.path .ledger)
    {Q : Gwl S → List (Answered Op Ans) → World → Prop} {g : Gwl S} {chunks : List Bytes}
    {bs : Bytes} (hf : Follows cfg h w) (hl : WritesAt cfg .ledger w (bs ++ chunks.flatten))
    (hc : g.exportActive = true → WritesAt cfg .exportCopy w bs)
    (hQ : ∀ act h' w', WritesAt cfg .ledger w' (bs ++ chunks.flatten) →
      (act = true → WritesAt cfg .exportCopy w' (bs ++ chunks.flatten)) →
      Q { g with exportActive := act } h' w') :
    Upholds (machine cfg) (fun o a => primaryOk o a = true) (Follows cfg) Q
      (mirrorFrame g chunks) h w := by
  unfold mirrorFrame
  cases hact : g.exportActive with
  | false =>
    have hg : g = { g with exportActive := false } := by rw [← hact]
    rw [hg]
    exact .ret hf (hQ false h w hl fun hfalse => by cases hfalse)
  | true =>
    refine Upholds.bind (Q := fun ok _ w' => WritesAt cfg .ledger w' (bs ++ chunks.flatten) ∧
      (ok = true → WritesAt cfg .exportCopy w' (bs ++ chunks.flatten)))
      (writeAll_upholds hne False False.elim (hc hact) ?_ ?_) ?_
    · intro p h' w' hp _ hw' hb _
      exact behind_of_writesAt (hl.beside hb) hw' ((List.prefix_append_right_inj bs).2 hp)
    · intro ok p h' w' _ hall _ _ hw' hb
      refine ⟨hl.beside hb, ?_⟩
      intro hok
      rw [← hall hok]
      exact hw'
    · rintro ok h' w' hk ⟨hl', hc'⟩
      cases ok with
      | true =>
        have hg : g = { g with exportActive := true } := by rw [← hact]
        rw [hg]
        exact .ret hk (hQ true h' w' hl' fun _ => hc' rfl)
      | false =>
        refine Upholds.perform hk ?_
        intro e _
        have hb : Beside cfg .ledger w' (exec cfg (.close .exportCopy) e w').2 :=
          exec_beside rfl hne e
        have hfollows : Follows cfg (h' ++ [⟨.close .exportCopy, ()⟩])
            (exec cfg (.close .exportCopy) e w').2 := by
          intro hmem
          have hold : emptied ∈ h' := by simpa [emptied] using hmem
          exact hk hold
        exact .ret hfollows (hQ false _ _ (hl'.beside hb) fun hfalse => by cases hfalse)

theorem gwlAppend_upholds (hne : cfg.path .exportCopy ≠ cfg.path .ledger) {g : Gwl S}
    {tag : CStr} {payload : Bytes} (hf : Follows cfg h w) (hm : Mirrored cfg g w) :
    Upholds (machine cfg) (fun o a => primaryOk o a = true) (Follows cfg)
      (fun x _ w' => Mirrored cfg x.1 w')
      (gwlAppend g tag payload) h w := by
  unfold gwlAppend
  split
  · exact .ret hf hm
  split
  · exact .ret hf hm
  split
  · exact .ret hf hm
  cases S.axCommitEvidence tag payload with
  | none => exact .ret hf hm
  | some commit =>
  obtain ⟨bs, hl, hc⟩ := hm.primary
  let chunks := frameChunks tag.bytes payload commit.bytes
  have hwrite : ∀ {h'}, Extends (fun o => ∃ bs, o = .write .ledger bs) h h' →
      Extends (fun o => o ≠ .openTrunc .exportCopy) h h' := by
    intro h' hext
    refine hext.mono ?_
    rintro o ⟨bs, rfl⟩
    simp
  -- the primary first
  refine Upholds.bind (Q := fun ok h' w' => ok = true ∧ WritesAt cfg .ledger w'
    (bs ++ chunks.flatten) ∧ (g.exportActive = true → WritesAt cfg .exportCopy w' bs))
    (writeAll_upholds (Ne.symm hne) True ?_ hl ?_ ?_) ?_
  · intro _ bs ok hok
    exact hok
  · intro p h' w' _ hext hw' hb
    exact hf.grown hl (hwrite hext) hw' hb
  · intro ok p h' w' _ hall hok _ hw' hb
    rw [hall (hok trivial)] at hw'
    exact ⟨hok trivial, hw', fun hact => (hc hact).beside hb⟩
  rintro ok h' w' hk ⟨rfl, hl', hc'⟩
  refine Upholds.perform hk ?_
  intro e hsync
  have hans : ((machine cfg).exec (.fsync .ledger) e w').1 = true := hsync
  have hsame : ((machine cfg).exec (.fsync .ledger) e w').2 = w' := rfl
  rw [hans, hsame]
  have hk' : Follows cfg (h' ++ [⟨.fsync .ledger, true⟩]) w' := by
    intro hmem
    have hold : emptied ∈ h' := by simpa [emptied] using hmem
    exact hk hold
  -- then the copy, and the chain
  refine Upholds.bind (Q := fun g' _ w' => Mirrored cfg g' w')
    (mirrorFrame_upholds hne hk' hl' hc' ?_) ?_
  · intro act h2 w2 hl2 hc2
    exact ⟨_, hl2, hc2⟩
  · intro g' h2 w2 hk2 hm2
    cases S.axLedgerAppend g'.ctx commit with
    | none => exact .ret hk2 hm2
    | some ctx => exact .ret hk2 ⟨hm2.primary⟩

/-! ## Enabling -/

/-- The copy loop, with `n` bytes of the primary copied: at every moment some prefix of the primary
is there, and all of it at a successful end. -/
theorem exportLoop_upholds (hne : cfg.path .exportCopy ≠ cfg.path .ledger)
    {Q : Bool → List (Answered Op Ans) → World → Prop} {bs : Bytes} {fuel n : Nat}
    {script : ReadScript} (hn : n ≤ bs.length) (hl : WritesAt cfg .ledger w bs)
    (hc : WritesAt cfg .exportCopy w (bs.take n))
    (hQ : ∀ ok h' w', WritesAt cfg .ledger w' bs →
      (ok = true → WritesAt cfg .exportCopy w' bs) → Q ok h' w') :
    Upholds (machine cfg) (fun o a => primaryOk o a = true) (Follows cfg) Q
      (exportLoop fuel (bs.length - n) (bs.drop n) script) h w := by
  have hnow : ∀ {h'}, Follows cfg h' w := fun _ =>
    behind_of_writesAt hl hc (List.take_prefix n bs)
  have hstop : ∀ {h'},
    Upholds (machine cfg) (fun o a => primaryOk o a = true) (Follows cfg) Q (pure false) h' w :=
    .ret hnow (hQ false _ w hl fun hfalse => by cases hfalse)
  induction fuel generalizing n script h w with
  | zero => exact hstop
  | succ fuel ih =>
    unfold exportLoop
    split
    · next hzero =>
      -- nothing is left to copy
      have hall : bs.take n = bs := List.take_of_length_le (by omega)
      rw [hall] at hc
      exact .ret hnow (hQ true h w hl fun _ => hc)
    next hmore =>
    dsimp only
    split
    · exact hstop
    next limit _ =>
    split
    · exact hstop
    refine Upholds.perform hnow ?_
    intro e _
    obtain ⟨m, hc', hall, -⟩ := exec_write_end hc ((bs.drop n).take limit) e
    have hb : Beside cfg .ledger w (exec cfg (.write .exportCopy ((bs.drop n).take limit)) e w).2 :=
      exec_beside rfl hne e
    have hl' := hl.beside hb
    have htake : ∀ k, bs.take n ++ (bs.drop n).take k = bs.take (n + k) := by
      intro k
      rw [List.take_add]
    cases hans : (exec cfg (.write .exportCopy ((bs.drop n).take limit)) e w).1 with
    | false =>
      dsimp only
      have hpre : bs.take n ++ ((bs.drop n).take limit).take m <+: bs := by
        rw [List.take_take, htake]
        exact List.take_prefix _ _
      exact .ret (fun _ => behind_of_writesAt hl' hc' hpre)
        (hQ false _ _ hl' fun hfalse => by cases hfalse)
    | true =>
      dsimp only
      rw [hall hans] at hc'
      have hlen : ((bs.drop n).take limit).length ≤ bs.length - n := by
        rw [List.length_take, List.length_drop]
        omega
      have hchunk : (bs.drop n).take limit =
          (bs.drop n).take ((bs.drop n).take limit).length := by
        rw [List.length_take]
        exact (List.take_eq_take_iff.2 (by omega)).symm
      have hc2 : WritesAt cfg .exportCopy
          (exec cfg (.write .exportCopy ((bs.drop n).take limit)) e w).2
          (bs.take (n + ((bs.drop n).take limit).length)) := by
        rw [← htake, ← hchunk]
        exact hc'
      have hnow' : ∀ {h'}, Follows cfg h'
          (exec cfg (.write .exportCopy ((bs.drop n).take limit)) e w).2 := fun _ =>
        behind_of_writesAt hl' hc2 (List.take_prefix _ _)
      rw [Nat.sub_sub, List.drop_drop]
      exact ih (by omega) hl' hc2 hnow'
        (.ret hnow' (hQ false _ _ hl' fun hfalse => by cases hfalse))

theorem exec_openTrunc_export (hne : cfg.path .exportCopy ≠ cfg.path .ledger) (e : Env) :
    exec cfg (.openTrunc .exportCopy) e w = (false, w) ∨
      ∃ w', exec cfg (.openTrunc .exportCopy) e w = (true, w') ∧
        WritesAt cfg .exportCopy w' [] ∧ Beside cfg .ledger w w' := by
  have hb : Beside cfg .ledger w (exec cfg (.openTrunc .exportCopy) e w).2 :=
    exec_beside rfl hne e
  simp only [exec, execOpen] at hb ⊢
  split
  · exact .inl rfl
  next hfails =>
  rw [if_neg hfails] at hb
  split
  · exact .inl rfl
  next bs hn =>
    rw [hn] at hb
    exact .inr ⟨_, rfl, ⟨by simp, by simp⟩, hb⟩
  next hn =>
    rw [hn] at hb
    exact .inr ⟨_, rfl, ⟨by simp, by simp⟩, hb⟩

theorem follows_close {h' : List (Answered Op Ans)} (hk : Follows cfg h' w) (e : Env) :
    Follows cfg (h' ++ [⟨.close .exportCopy, ()⟩]) (exec cfg (.close .exportCopy) e w).2 := by
  intro hmem
  have hold : emptied ∈ h' := by simpa [emptied] using hmem
  exact hk hold

/-- Giving up on the copy. -/
theorem closeExport_upholds (hne : cfg.path .exportCopy ≠ cfg.path .ledger) {g : Gwl S} {bs : Bytes}
    (hact : g.exportActive = false) (hf : Follows cfg h w) (hl : WritesAt cfg .ledger w bs) :
    Upholds (machine cfg) (fun o a => primaryOk o a = true) (Follows cfg)
      (fun x _ w' => Mirrored cfg x.1 w')
      (do sys (.close .exportCopy); return (g, false)) h w := by
  refine Upholds.perform hf ?_
  intro e _
  have hb : Beside cfg .ledger w (exec cfg (.close .exportCopy) e w).2 := exec_beside rfl hne e
  exact .ret (follows_close hf e) ⟨bs, hl.beside hb, fun h => by rw [hact] at h; cases h⟩

theorem exportCopy_upholds (hne : cfg.path .exportCopy ≠ cfg.path .ledger) {g : Gwl S} {bs : Bytes}
    (hact : g.exportActive = false) (hf : Follows cfg h w) (hl : WritesAt cfg .ledger w bs) :
    Upholds (machine cfg) (fun o a => primaryOk o a = true) (Follows cfg)
      (fun x _ w' => Mirrored cfg x.1 w')
      (exportCopy g) h w := by
  unfold exportCopy
  refine Upholds.perform hf ?_
  intro e _
  rw [machine_exec]
  rcases exec_openTrunc_export (w := w) hne e with hopen | ⟨w1, hopen, hc1, hb1⟩
  · rw [hopen]
    have hf' : Follows cfg (h ++ [⟨.openTrunc .exportCopy, false⟩]) w := by
      intro hmem
      have hold : emptied ∈ h := by simpa [emptied] using hmem
      exact hf hold
    exact .ret hf' ⟨bs, hl, fun h => by rw [hact] at h; cases h⟩
  rw [hopen]
  have hl1 := hl.beside hb1
  have hnow : ∀ {h'}, Follows cfg h' w1 := fun _ =>
    behind_of_writesAt hl1 hc1 List.nil_prefix
  refine Upholds.perform hnow ?_
  intro e1 _
  have htell : exec cfg (.tell .ledger) e1 w1 = (bs.length, w1) := by simp [exec, hl1.fd]
  rw [machine_exec, htell]
  refine Upholds.perform hnow ?_
  intro e2 _
  have hpread : exec cfg (.pread .ledger) e2 w1 = ((bs, e2.script), w1) := by
    simp [exec, hl1.content]
  rw [machine_exec, hpread]
  refine Upholds.bind (Q := fun ok _ w' => WritesAt cfg .ledger w' bs ∧
    (ok = true → WritesAt cfg .exportCopy w' bs))
    (exportLoop_upholds hne (Nat.zero_le bs.length) hl1 hc1 fun ok h' w' hl' hc' => ⟨hl', hc'⟩) ?_
  rintro ok h2 w2 hk2 ⟨hl2, hc2⟩
  cases ok with
  | false => exact closeExport_upholds hne hact hk2 hl2
  | true =>
    refine Upholds.perform hk2 ?_
    intro e3 _
    have hsame : ((machine cfg).exec (.fsync .exportCopy) e3 w2).2 = w2 := rfl
    rw [hsame]
    have hk3 : ∀ ok, Follows cfg (h2 ++ [⟨.fsync .exportCopy, ok⟩]) w2 := fun _ _ =>
      behind_of_writesAt hl2 (hc2 rfl) List.prefix_rfl
    cases ((machine cfg).exec (.fsync .exportCopy) e3 w2).1 with
    | false => exact closeExport_upholds hne hact (hk3 false) hl2
    | true => exact .ret (hk3 true) ⟨bs, hl2, fun _ => hc2 rfl⟩

theorem gwlExportEnable_upholds (hne : cfg.path .exportCopy ≠ cfg.path .ledger) {g : Gwl S}
    (hf : Follows cfg h w) (hm : Mirrored cfg g w) :
    Upholds (machine cfg) (fun o a => primaryOk o a = true) (Follows cfg)
      (fun x _ w' => Mirrored cfg x.1 w')
      (gwlExportEnable cfg g) h w := by
  obtain ⟨bs, hl, -⟩ := hm.primary
  unfold gwlExportEnable
  split
  · exact .ret hf hm
  cases g.exportActive with
  | false => exact exportCopy_upholds hne rfl hf hl
  | true =>
    refine Upholds.perform hf ?_
    intro e _
    have hb : Beside cfg .ledger w (exec cfg (.close .exportCopy) e w).2 := exec_beside rfl hne e
    exact exportCopy_upholds hne rfl (follows_close hf e) (hl.beside hb)

/-! ## Sequences of calls -/

/-- The calls of the ledger module that write. -/
inductive LedgerCall where
  | exportEnable
  | append (tag : CStr) (payload : Bytes)

/-- The calls one after another, whatever each of them returns. -/
def ledgerCalls (cfg : GwConfig) : List LedgerCall → Gwl S → Io (Gwl S)
  | [], g => return g
  | .exportEnable :: calls, g => do
    let (g, _) ← gwlExportEnable cfg g
    ledgerCalls cfg calls g
  | .append tag payload :: calls, g => do
    let (g, _) ← gwlAppend g tag payload
    ledgerCalls cfg calls g

theorem ledgerCalls_upholds (hne : cfg.path .exportCopy ≠ cfg.path .ledger)
    (calls : List LedgerCall) {g : Gwl S} (hf : Follows cfg h w) (hm : Mirrored cfg g w) :
    Upholds (machine cfg) (fun o a => primaryOk o a = true) (Follows cfg)
      (fun g' _ w' => Mirrored cfg g' w')
      (ledgerCalls cfg calls g) h w := by
  induction calls generalizing g h w with
  | nil => exact .ret hf hm
  | cons call calls ih =>
    cases call with
    | exportEnable =>
      refine Upholds.bind (gwlExportEnable_upholds hne hf hm) ?_
      rintro ⟨g', ok⟩ h' w' hk' hm'
      exact ih hk' hm'
    | append tag payload =>
      refine Upholds.bind (gwlAppend_upholds hne hf hm) ?_
      rintro ⟨g', res⟩ h' w' hk' hm'
      exact ih hk' hm'

/-- **The export is always a prefix of the primary.** For every opened ledger, whatever is at the
export path, and every sequence of enables and appends in which the calls on the primary succeed: at
every moment after the copy was emptied it is a prefix of the primary, and after the calls, while
the export is active, the two are equal. -/
theorem export_behind_primary (hne : cfg.path .exportCopy ≠ cfg.path .ledger) {w0 w1 : World}
    {envs0 : Nat → Env} {tornTailOk cut : Bool} {g : Gwl S}
    (hopen : (machine cfg).eval (gwlOpen S tornTailOk) envs0 w0 = (some (g, cut), w1))
    (calls : List LedgerCall) (envs : Nat → Env)
    (hprimary : ∀ c ∈ (machine cfg).trace (ledgerCalls cfg calls g) envs w1,
      primaryOk c.1 c.2 = true) :
    (∀ m ∈ (machine cfg).moments (ledgerCalls cfg calls g) envs [] w1, emptied ∈ m.1 →
      m.2.content cfg .exportCopy <+: m.2.content cfg .ledger) ∧
    (((machine cfg).eval (ledgerCalls cfg calls g) envs w1).1.exportActive = true →
      ((machine cfg).eval (ledgerCalls cfg calls g) envs w1).2.content cfg .exportCopy =
        ((machine cfg).eval (ledgerCalls cfg calls g) envs w1).2.content cfg .ledger) := by
  obtain ⟨genesis, fs, hact, hstart⟩ := inStep_of_open (congrArg Prod.fst hopen)
  rw [hopen] at hstart
  have hm : Mirrored cfg g w1 := by
    refine ⟨encodeAll fs, ⟨hstart.at_.file, hstart.at_.fd⟩, ?_⟩
    intro hact'
    rw [hact] at hact'
    cases hact'
  have hf : Follows cfg [] w1 := by
    intro hmem
    cases hmem
  obtain ⟨hend, hmoments⟩ := (ledgerCalls_upholds hne calls hf hm).eval hprimary
  refine ⟨hmoments, ?_⟩
  intro hact'
  obtain ⟨bs, hl, hc⟩ := hend.primary
  rw [hl.content, (hc hact').content]

/-- The sample configuration with an export. -/
def exportConfig : GwConfig := { sampleConfig with exportPath := .ofBytes (ascii "copy") }

/-- An append, an enable, a second append whose mirror stops in its third byte, and an enable. -/
def exportCalls : List LedgerCall :=
  [.append (.ofBytes (ascii "T")) [1], .exportEnable, .append (.ofBytes (ascii "T")) [2],
    .exportEnable]

def exportEnvs : Nat → Env := fun n => if n = 17 then { fails := true, amount := 2 } else {}

def exportOpened : World :=
  ((machine exportConfig).eval (gwlOpen sampleSubstrate false) (fun _ => {})
    (.initial fun p => if p = ascii "copy" then some (.file (ascii "stale")) else none)).2

theorem export_behind_primary_sample :
    (∀ m ∈ (machine exportConfig).moments (ledgerCalls exportConfig exportCalls sampleGwl)
      exportEnvs [] exportOpened, emptied ∈ m.1 →
      m.2.content exportConfig .exportCopy <+: m.2.content exportConfig .ledger) ∧
    ((machine exportConfig).eval (ledgerCalls exportConfig exportCalls sampleGwl) exportEnvs
        exportOpened).2.content exportConfig .exportCopy =
      ((machine exportConfig).eval (ledgerCalls exportConfig exportCalls sampleGwl) exportEnvs
        exportOpened).2.content exportConfig .ledger := by
  have hopen : (machine exportConfig).eval (gwlOpen sampleSubstrate false) (fun _ => {})
      (.initial fun p => if p = ascii "copy" then some (.file (ascii "stale")) else none) =
      (some (sampleGwl, false), exportOpened) := rfl
  have hrun : ((machine exportConfig).eval (ledgerCalls exportConfig exportCalls sampleGwl)
        exportEnvs exportOpened).1.exportActive = true ∧
      ∀ c ∈ (machine exportConfig).trace (ledgerCalls exportConfig exportCalls sampleGwl)
        exportEnvs exportOpened, primaryOk c.1 c.2 = true := by decide +kernel
  obtain ⟨hmoments, hequal⟩ :=
    export_behind_primary (by decide) hopen exportCalls exportEnvs hrun.2
  exact ⟨hmoments, hequal hrun.1⟩

end Export

end AxiomaOracle
