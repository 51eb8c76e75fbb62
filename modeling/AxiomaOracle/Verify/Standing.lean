import AxiomaOracle.Verify.AdmissionRuns
import AxiomaOracle.Verify.LedgerFaults
import AxiomaOracle.Verify.Protocol

/-!
# The standing of a process

An idle process is current (its chain is that of its file, and the ordering guard lets the next
number pass) or it is blocked behind an open intent: after a failed append the guard refuses every
later observation, and nothing closes the intent. `commitObservation_observes` is the rule for a
commit by a current process: it is refused and nothing changes, it stops inside the append and the
process is blocked, or one frame is appended and the process is current again.

`Framed` is what a crash leaves of the ledger: whole frames whose commitments match, and at most the
beginning of one more.
-/

namespace AxiomaOracle

open Lib

/-- The functions outside the repository do not fault. -/
structure Faultless (S : Substrate) : Prop where
  commit : ∀ tag data, (S.axilogCommit tag data).isSome
  evidence : ∀ tag data, (S.axCommitEvidence tag data).isSome
  genesis : S.axLedgerGenesis.isSome
  append : ∀ ctx d, (S.axLedgerAppend ctx d).isSome

section Standing

variable (S : Substrate) (cfg : GwConfig) (whole : Prop)

/-- The ledger is of a size a file can have; when `whole`, it is frames whose commitments match and
at most the beginning of one more. -/
structure Framed (w : World) : Prop where
  size : (w.content cfg .ledger).length ≤ offMax
  frames : whole → ∃ fs tail, w.content cfg .ledger = encodeAll fs ++ tail ∧
    (∀ f ∈ fs, commitMatches S f = true) ∧ (tail = [] ∨ (readFrame tail []).1 = .torn)

/-- The chain in memory is that of the file, and the ordering guard lets the next number pass. -/
structure Current (genesis : S.LedgerCtx) (fs : List Frame) (st : GwState S) (w : World) :
    Prop where
  inStep : InStep S cfg genesis st.gwl w fs
  isOpen : st.gwl.isOpen = true
  ordered : st.adm.initialized = true → st.adm.lastLedgerSeq ≤ gwlSeq st.gwl

/-- The process waits for a request: it is current, or blocked behind an open intent. -/
structure Standing (st : GwState S) (w : World) : Prop where
  framed : Framed S cfg whole w
  mode : (∃ genesis fs, Current S cfg genesis fs st w) ∨
    (Blocked st ∧ w.node (cfg.path .wal) ≠ none)

variable {S cfg whole} {w w' : World} {genesis : S.LedgerCtx} {fs : List Frame} {st : GwState S}

/-! ## What a crash leaves -/

theorem Framed.congr (h : Framed S cfg whole w)
    (hcontent : w'.content cfg .ledger = w.content cfg .ledger) : Framed S cfg whole w' := by
  constructor
  · rw [hcontent]
    exact h.size
  · rw [hcontent]
    exact h.frames

theorem FrameFor.commitMatches {tag : CStr} {payload : Bytes} {f : Frame}
    (h : FrameFor S tag payload f) : AxiomaOracle.commitMatches S f = true := by
  have htag : CStr.ofBytes f.tag = tag := by
    apply CStr.ext
    rw [h.tag_eq]
    exact CStr.ofBytes_of_nulFree tag.nulFree
  have hcommit := h.commit_eq
  rw [← htag, ← h.payload_eq] at hcommit
  unfold AxiomaOracle.commitMatches
  rw [hcommit]
  exact beq_self_eq_true _

/-- A prefix of a frame is nothing, the beginning of one, or all of it. -/
theorem prefix_encode {f : Frame} {p : Bytes} (hp : p <+: f.encode) :
    p = [] ∨ (readFrame p []).1 = .torn ∨ p = f.encode := by
  by_cases hnil : p = []
  · exact .inl hnil
  by_cases hlen : p.length < f.encode.length
  · right
    left
    rw [List.prefix_iff_eq_take.1 hp]
    exact readFrame_take (List.length_pos_iff.2 hnil) hlen
  · exact .inr (.inr (hp.eq_of_length (Nat.le_antisymm hp.length_le (Nat.not_lt.1 hlen))))

theorem InStep.matches {g : Gwl S} (h : InStep S cfg genesis g w fs) :
    ∀ f ∈ fs, commitMatches S f = true := by
  obtain ⟨r, hacc, -⟩ := h.chain
  exact acceptAll_matches hacc

/-- Whatever part of its frame an append has written, the file is framed. -/
theorem Framed.grown {g : Gwl S} (h : Framed S cfg whole w) (hin : InStep S cfg genesis g w fs)
    {tag : CStr} {payload p : Bytes} {f : Frame} (hf : FrameFor S tag payload f)
    (hp : p <+: f.encode) (hgrown : Grown cfg w w' (encodeAll fs) (encodeAll fs ++ p)) :
    Framed S cfg whole w' := by
  have hcontent : w'.content cfg .ledger = encodeAll fs ++ p := hgrown.at_.content
  constructor
  · rw [hcontent]
    apply hgrown.size
    rw [← hin.at_.content]
    exact h.size
  · intro _
    rcases prefix_encode hp with rfl | htorn | rfl
    · exact ⟨fs, [], hcontent, hin.matches, .inl rfl⟩
    · exact ⟨fs, p, hcontent, hin.matches, .inr htorn⟩
    · refine ⟨fs ++ [f], [], ?_, ?_, .inl rfl⟩
      · rw [hcontent, encodeAll_append, encodeAll_cons, encodeAll_nil, List.append_nil,
          List.append_nil]
      · intro f' hf'
        rcases List.mem_append.1 hf' with hmem | hmem
        · exact hin.matches f' hmem
        · rw [List.mem_singleton.1 hmem]
          exact hf.commitMatches

theorem InStep.congr {g : Gwl S} (h : InStep S cfg genesis g w fs)
    (hnode : w'.node (cfg.path .ledger) = w.node (cfg.path .ledger))
    (hfd : w'.fd .ledger = w.fd .ledger) : InStep S cfg genesis g w' fs :=
  ⟨h.gen, ⟨hnode.trans h.at_.file, hfd.trans h.at_.fd⟩, h.chain, h.export_⟩

theorem Current.congr (h : Current S cfg genesis fs st w)
    (hnode : w'.node (cfg.path .ledger) = w.node (cfg.path .ledger))
    (hfd : w'.fd .ledger = w.fd .ledger) : Current S cfg genesis fs st w' :=
  ⟨h.inStep.congr hnode hfd, h.isOpen, h.ordered⟩

theorem Standing.same (h : Standing S cfg whole st w) (hs : Same cfg w w') :
    Standing S cfg whole st w' where
  framed := h.framed.congr hs.content
  mode := by
    rcases h.mode with ⟨genesis, fs, hcur⟩ | ⟨hb, hwal⟩
    · exact .inl ⟨genesis, fs, hcur.congr hs.ledger hs.ledgerFd⟩
    · refine .inr ⟨hb, ?_⟩
      rw [hs.wal]
      exact hwal

/-! ## What a commit records -/

variable (S) in
/-- The record of an input and an output. -/
structure Observed (input output : Bytes) (rec : AxObsRecord) : Prop where
  accepted : Accepted S rec
  inputHash : rec.inputHash = axComputeInputHash S input
  output : ∃ out, rec.output = some out ∧ out.bytes = normLF output

variable (S cfg) in
/-- The ledger ends with the observation a commit reports: its frame is the one with the reported
number, and the reported head is that of the replay of the whole file. -/
structure Recorded (input output : Bytes) (rec : AxObsRecord) (info : CommitInfo) (w : World) :
    Prop where
  observed : Observed S input output rec
  obsHash : rec.obsHash.bytes = info.obsHashHex
  ledgerSeq : rec.ledgerSeq = info.seq
  ledger : ∃ genesis fs f r, S.axLedgerGenesis = some genesis ∧
    w.content cfg .ledger = encodeAll (fs ++ [f]) ∧ info.seq.toNat = fs.length + 1 ∧
    f.tag = gwTagObs.bytes ∧ axObsCanonicalise axCanonicalBufferSize rec true = .ok f.payload ∧
    replay S genesis (w.content cfg .ledger) [] = (.clean, r) ∧
    info.headHex = (hex32 (S.currentHash r.ctx)).bytes

theorem Recorded.congr {input output : Bytes} {rec : AxObsRecord} {info : CommitInfo}
    (h : Recorded S cfg input output rec info w)
    (hcontent : w'.content cfg .ledger = w.content cfg .ledger) :
    Recorded S cfg input output rec info w' := by
  refine ⟨h.observed, h.obsHash, h.ledgerSeq, ?_⟩
  rw [hcontent]
  exact h.ledger

theorem observed_of_admit {state : AxCompletionState} {ftype : AxFailureType}
    {input output : Bytes} {params : AxOracleParams} (hne : input ≠ [])
    (hlen : input.length < sizeMod) (hout : output.length ≤ axMaxOutputBytes)
    (hret : (axObsAdmit S axMaxOutputBytes
      (observationInput cfg st state ftype input output params) st.adm {}).ret = none) :
    Observed S input output (axObsAdmit S axMaxOutputBytes
      (observationInput cfg st state ftype input output params) st.adm {}).out := by
  obtain ⟨-, hpass, hash, heq, -⟩ := axObsAdmit_ok hret
  refine ⟨⟨_, _, _, _, hret, rfl⟩, ?_, ?_⟩
  · rw [heq]
    exact inputHashOf_ofBytes hne hlen
  · rw [heq]
    refine ⟨_, rfl, ?_⟩
    rw [CStr.ofBytes_of_nulFree (nulFree_of_control hpass.control)]
    have hfits : output.length < sizeMod :=
      Nat.lt_of_le_of_lt hout (by decide)
    have hbytes : (CBuf.ofBytes output).bytes = output := by
      rw [CBuf.ofBytes, dif_pos hfits]
      rfl
    have hinp : (observationInput cfg st state ftype input output params).output =
        .ofBytes output := rfl
    rw [outputOf, hinp, hbytes, List.take_of_length_le hout]

theorem obsText_pos (rec : AxObsRecord) : 0 < (obsText rec true).length := by
  have hpos : 0 < (ascii "\x7b\"completion_state\":").length := by decide
  unfold obsText
  simp only [List.length_append]
  omega

/-! ## Committing -/

section Commit

variable {D P : Step (machine cfg) → Prop} {h : List (Answered Op Ans)}

variable (S cfg whole) in
/-- A call of a commit: the file is framed on both sides, and what is written to it is a chunk of
the frame of the observation. -/
structure Committing (input output : Bytes) (m : Step (machine cfg)) : Prop where
  op : m.op = .fsync .ledger ∨ m.op.role = some .exportCopy ∨
    ∃ rec f chunk, Observed S input output rec ∧ FrameFor S gwTagObs (obsText rec true) f ∧
      chunk ∈ frameChunks f.tag f.payload f.commit ∧ m.op = .write .ledger chunk
  before : Framed S cfg whole m.state
  after : Framed S cfg whole m.next

/-- An admitted observation can be appended, unless the commitment faults. -/
theorem appendable_of_admissible {rec : AxObsRecord} {g : Gwl S} (hadm : Admissible S rec)
    (hopen : g.isOpen = true) (hfault : Faultless S) :
    Appendable S g gwTagObs (obsText rec true) where
  isOpen := hopen
  tag_pos := by decide
  tag_le := by decide
  payload_pos := obsText_pos rec
  payload_le := Nat.le_trans hadm.fits (by decide)
  commit := hfault.evidence _ _

theorem recorded_of_grown (hcount : Counts S) (hcur : InStep S cfg genesis st.gwl w fs)
    (hframed : Framed S cfg whole w) {input output : Bytes} {rec : AxObsRecord} {f : Frame}
    {g' : Gwl S} (hobs : Observed S input output rec) (hseq : rec.ledgerSeq = gwlSeq st.gwl + 1)
    (hf : FrameFor S gwTagObs (obsText rec true) f) (hin : InStep S cfg genesis g' w' (fs ++ [f]))
    (hctx : S.sequence g'.ctx = S.sequence st.gwl.ctx + 1) :
    Recorded S cfg input output rec
      ⟨rec.obsHash.bytes, (hex32 (S.currentHash g'.ctx)).bytes, S.sequence g'.ctx⟩ w' := by
  obtain ⟨r, hacc, hr, -⟩ := hin.chain
  have hsize : (encodeAll fs).length ≤ offMax := hcur.at_.content ▸ hframed.size
  have hnum := hcur.sequence hcount hsize
  refine ⟨hobs, rfl, ?_, genesis, fs, f, r, hin.gen, hin.at_.content, ?_, hf.tag_eq, ?_, ?_, ?_⟩
  · rw [hseq, gwlSeq, hctx]
  · dsimp only
    rw [hctx]
    exact succ_toNat hsize hnum
  · rw [hf.payload_eq]
    exact axObsCanonicalise_admissible hobs.accepted.admissible (by decide) true
  · rw [hin.at_.content]
    exact replay_encodeAll (by simp) hacc
  · rw [hr]

/-- **Commit** by a current process. It is refused by admission and nothing changes; or the append
stops, some part of the frame is in the file and the process is blocked; or the frame is appended,
and the process is current again. -/
theorem commitObservation_observes (hcount : Counts S)
    {Q : GwState S × Option CommitInfo → List (Answered Op Ans) → World → Prop}
    {state : AxCompletionState} {ftype : AxFailureType} {input output : Bytes}
    {params : AxOracleParams} (hcur : Current S cfg genesis fs st w)
    (hframed : Framed S cfg whole w) (hne : input ≠ []) (hlen : input.length < sizeMod)
    (hout : output.length ≤ axMaxOutputBytes)
    (hP : ∀ m, Committing S cfg whole input output m → Extends Op.Append h m.before → D m → P m)
    (hrefused : (axObsAdmit S axMaxOutputBytes
      (observationInput cfg st state ftype input output params) st.adm {}).ret ≠ none →
      Q (st, none) h w)
    (hstopped : ∀ st' h' w', Blocked st' → Framed S cfg whole w' → Apart cfg w w' →
      PrimaryFails D ∨ ¬ Faultless S → Extends Op.Append h h' → Q (st', none) h' w')
    (hdone : ∀ f rec info st' h' w', (axObsAdmit S axMaxOutputBytes
        (observationInput cfg st state ftype input output params) st.adm {}).ret = none →
      rec = (axObsAdmit S axMaxOutputBytes
        (observationInput cfg st state ftype input output params) st.adm {}).out →
      FrameFor S gwTagObs (obsText rec true) f → Recorded S cfg input output rec info w' →
      Current S cfg genesis (fs ++ [f]) st' w' → Framed S cfg whole w' → Apart cfg w w' →
      st'.adm = ⟨gwlSeq st'.gwl, true⟩ → gwlSeq st'.gwl = gwlSeq st.gwl + 1 →
      Extends Op.Append h h' → Q (st', some info) h' w') :
    Observes (machine cfg) D P Q
      (commitObservation cfg st state ftype input output params) h w := by
  have hobserved : (axObsAdmit S axMaxOutputBytes
      (observationInput cfg st state ftype input output params) st.adm {}).ret = none → _ :=
    observed_of_admit hne hlen hout
  have hseq : (observationInput cfg st state ftype input output params).ledgerSeq =
      gwlSeq st.gwl + 1 := rfl
  unfold commitObservation
  dsimp only
  generalize observationInput cfg st state ftype input output params = inp at *
  cases hret : (axObsAdmit S axMaxOutputBytes inp st.adm {}).ret with
  | some err =>
    have hrej : (axObsAdmit S axMaxOutputBytes inp st.adm {}).ret ≠ none := by simp [hret]
    have hctx := axObsAdmit_rejects hrej
    rw [hctx]
    exact .ret (hrefused hrej)
  | none =>
    obtain ⟨hadm, -, hash, hrec, hctx⟩ := axObsAdmit_ok hret
    have hobs := hobserved hret
    have hledger : (axObsAdmit S axMaxOutputBytes inp st.adm {}).out.ledgerSeq =
        gwlSeq st.gwl + 1 := by
      rw [hrec, ← hseq]
      rfl
    -- behind the admission the guard refuses the number it has seen
    have hblocked : ∀ g : Gwl S, g.ctx = st.gwl.ctx → ∀ calls drop,
        Blocked ⟨(axObsAdmit S axMaxOutputBytes inp st.adm {}).ctx, calls, drop, g⟩ := by
      intro g hg calls drop
      rw [Blocked, hctx, gwlSeq, hg, hseq]
      exact ⟨rfl, UInt64.le_refl _⟩
    rw [axObsValidate_admissible hadm, axObsCanonicalise_admissible hadm (by decide)]
    generalize (axObsAdmit S axMaxOutputBytes inp st.adm {}).out = rec at *
    have hpos : obsText rec true ≠ [] := List.length_pos_iff.1 (obsText_pos rec)
    simp only [hpos, if_false]
    refine Observes.bind (Q := fun x h' w' => Framed S cfg whole w' ∧ Apart cfg w w' ∧
      Extends Op.Append h h' ∧ ((x.2 = none ∧ x.1.ctx = st.gwl.ctx ∧
          (PrimaryFails D ∨ ¬ Faultless S)) ∨
        ∃ f, x.2 = some (S.currentHash x.1.ctx, S.sequence x.1.ctx) ∧
          FrameFor S gwTagObs (obsText rec true) f ∧ InStep S cfg genesis x.1 w' (fs ++ [f]) ∧
          x.1.isOpen = true ∧ S.sequence x.1.ctx = S.sequence st.gwl.ctx + 1)) ?_ ?_
    · refine gwlAppend_observes hcur.inStep.at_ hcur.inStep.export_ ?_ ?_ ?_ ?_
      · intro f m hf hm hext hD
        obtain ⟨hop, ⟨p, hp, hpre⟩, ⟨p', hp', hpost⟩⟩ := hm
        refine hP m ⟨?_, hframed.grown hcur.inStep hf hp hpre,
          hframed.grown hcur.inStep hf hp' hpost⟩ hext hD
        rcases hop with hop | hop | ⟨chunk, hc, hop⟩
        · exact .inl hop
        · exact .inr (.inl hop)
        · exact .inr (.inr ⟨rec, f, chunk, hobs, hf, hc, hop⟩)
      · intro hskip
        refine ⟨hframed, .refl w, .refl h, .inl ⟨rfl, rfl, .inr fun hfault => ?_⟩⟩
        exact hskip (appendable_of_admissible hadm hcur.isOpen hfault)
      · intro f p h' w' act hf _ hwhy hp hgrown hext
        refine ⟨hframed.grown hcur.inStep hf hp hgrown, hgrown.apart, hext, .inl ⟨rfl, rfl, ?_⟩⟩
        rcases hwhy with hfail | hnone
        · exact .inl hfail
        · right
          intro hfault
          have := hfault.append st.gwl.ctx ⟨f.commit, f.commitLen⟩
          rw [hnone] at this
          cases this
      · intro f h' w' act ctx hf hact hgrown hctx' hext
        refine ⟨hframed.grown hcur.inStep hf List.prefix_rfl hgrown, hgrown.apart, hext,
          .inr ⟨f, rfl, hf, hcur.inStep.grown hf hgrown hctx' hact, hcur.isOpen, ?_⟩⟩
        exact hcount.append _ _ _ hctx'
    · rintro ⟨g', res⟩ h' w' ⟨hframed', hap, hext, hcase⟩
      rcases hcase with ⟨hnone, hg', hwhy⟩ | ⟨f, hsome, hf, hin, hopen, hnext⟩
      · obtain rfl : res = none := hnone
        exact .ret (hstopped _ h' w' (hblocked g' hg' _ _) hframed' hap hwhy hext)
      · obtain rfl : res = some (S.currentHash g'.ctx, S.sequence g'.ctx) := hsome
        have hrecorded := recorded_of_grown hcount hcur.inStep hframed hobs hledger hf hin hnext
        refine .ret (hdone f rec _ _ h' w' hret rfl hf hrecorded ⟨hin, hopen, fun _ => ?_⟩ hframed'
          hap ?_ hnext hext)
        · rw [hctx, hseq, gwlSeq, gwlSeq, hnext]
          exact UInt64.le_refl _
        · rw [hctx, hseq, gwlSeq, gwlSeq, hnext]

end Commit

end Standing

end AxiomaOracle
