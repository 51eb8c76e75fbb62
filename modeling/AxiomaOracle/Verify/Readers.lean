import AxiomaOracle.Verify.Histories
import AxiomaOracle.Verify.LossCheck
import AxiomaOracle.Verify.Restart

/-!
# Two readers of the ledger

`gwl_open` and `obs_v1_loss_check.py` read one file format. The gateway bounds the fields and checks
the commitments, the checker does neither; `readers_agree` says what of it shows. `ledger_audited`
is about histories: whatever fails, the checker finds no defect in what a history leaves.
-/

namespace AxiomaOracle

open Lib

/-! ## The loop of the checker -/

/-- Whole frames, and what stands behind them. -/
theorem framesLoop_encodeAll_append (fs : List Frame) (done tail : Bytes) (fuel seq : Nat) :
    LossCheck.framesLoop (done ++ (encodeAll fs ++ tail)) (fs.length + fuel) done.length seq =
      (LossCheck.framesLoop (done ++ (encodeAll fs ++ tail)) fuel
        (done ++ encodeAll fs).length (seq + fs.length)).map
          (numberedFrom (seq + 1) (fs.map fun f => (f.tag, f.payload)) ++ ·) := by
  induction fs generalizing done seq with
  | nil =>
    rw [encodeAll_nil, List.nil_append, List.append_nil, List.length_nil, Nat.zero_add,
      Nat.add_zero]
    cases LossCheck.framesLoop (done ++ tail) fuel done.length seq with
    | error e => rfl
    | ok xs => rfl
  | cons f fs ih =>
    have hrest := ih (done ++ f.encode) (seq + 1)
    rw [List.append_assoc, List.length_append] at hrest
    have hlen : (done ++ (f.encode ++ encodeAll fs)).length =
        (done ++ f.encode ++ encodeAll fs).length := by rw [List.append_assoc]
    rw [encodeAll_cons, List.append_assoc, List.length_cons, Nat.add_right_comm, framesLoop_encode,
      hrest, hlen, show seq + 1 + fs.length = seq + (fs.length + 1) by omega]
    cases LossCheck.framesLoop (done ++ (f.encode ++ (encodeAll fs ++ tail))) fuel
        (done ++ f.encode ++ encodeAll fs).length (seq + (fs.length + 1)) with
    | error e => rfl
    | ok xs => rfl

/-- A cut frame is an error of the checker. -/
theorem framesLoop_torn {tail : Bytes} (h : (readFrame tail []).1 = .torn) (done : Bytes)
    (fuel seq : Nat) : ∃ e, LossCheck.framesLoop (done ++ tail) (fuel + 1) done.length seq =
      .error e := by
  have hne : tail ≠ [] := by
    rintro rfl
    cases h
  have hpos := List.length_pos_iff.2 hne
  -- the slices of the checker are those of the gateway
  rw [LossCheck.framesLoop]
  simp only [List.length_append, Nat.add_assoc, List.drop_length_add_append, List.drop_left]
  rw [if_pos (by omega)]
  split
  · exact ⟨_, rfl⟩
  split
  · exact ⟨_, rfl⟩
  split
  · exact ⟨_, rfl⟩
  next hhead htag hbody =>
  unfold readFrame at h
  simp only [readExact_nil, shortRead, decide_eq_true_eq, Option.getD_some, rdU32le, rdU64le,
    List.length_take, List.length_drop, List.drop_drop] at h
  generalize leDecode (tail.take 4) = tlen at *
  generalize leDecode ((tail.drop (4 + tlen)).take 8) = plen at *
  rw [if_neg (by omega), if_neg (by omega)] at h
  split at h
  · cases h
  rw [if_neg (by omega), if_neg (by omega)] at h
  split at h
  · cases h
  rw [if_neg (by omega), if_neg (by omega)] at h
  cases h

/-- Fields of the lengths the gateway takes. -/
def InBounds (tp : Bytes × Bytes) : Prop :=
  (0 < tp.1.length ∧ tp.1.length ≤ gwlTagMax) ∧ 0 < tp.2.length ∧ tp.2.length ≤ gwlPayloadMax

/-- The fields of a frame, and what stands behind them. -/
theorem drop_fields (data : Bytes) (off tlen plen : Nat) : data.drop off =
    (data.drop off).take 4 ++ ((data.drop (off + 4)).take tlen ++
      ((data.drop (off + 4 + tlen)).take 8 ++ ((data.drop (off + 4 + tlen + 8)).take plen ++
        ((data.drop (off + 4 + tlen + 8 + plen)).take 32 ++
          data.drop (off + 4 + tlen + 8 + (plen + 32)))))) := by
  have hcut : ∀ a n, data.drop a = (data.drop a).take n ++ data.drop (a + n) := by
    intro a n
    rw [← List.drop_drop, List.take_append_drop]
  rw [← Nat.add_assoc (off + 4 + tlen + 8), ← hcut _ 32, ← hcut _ plen, ← hcut _ 8, ← hcut _ tlen,
    ← hcut _ 4]

/-- What the checker reads is encoded frames when the fields are within the gateway's bounds. -/
theorem framesLoop_sound {data : Bytes} {fuel off seq : Nat} {xs : List (Nat × Bytes × Bytes)}
    (h : LossCheck.framesLoop data fuel off seq = .ok xs) (hoff : off ≤ data.length)
    (hfuel : data.length ≤ off + fuel) (hin : ∀ x ∈ xs, InBounds x.2) :
    ∃ fs : List Frame, data.drop off = encodeAll fs ∧
      xs = numberedFrom (seq + 1) (fs.map fun f => (f.tag, f.payload)) := by
  induction fuel generalizing off seq xs with
  | zero =>
    cases h
    exact ⟨[], List.drop_eq_nil_of_le hfuel, rfl⟩
  | succ fuel ih =>
    rw [LossCheck.framesLoop] at h
    by_cases hlt : off < data.length
    · rw [if_pos hlt] at h
      dsimp only at h
      split at h
      · cases h
      split at h
      · cases h
      split at h
      · cases h
      next hhead htag hbody =>
      generalize htlen : leDecode ((data.drop off).take 4) = tlen at h htag hbody
      generalize hplen : leDecode ((data.drop (off + 4 + tlen)).take 8) = plen at h hbody
      cases hrest : LossCheck.framesLoop data fuel (off + 4 + tlen + 8 + (plen + 32)) (seq + 1) with
      | error e =>
        rw [hrest] at h
        cases h
      | ok ys =>
        rw [hrest] at h
        obtain rfl := Except.ok.inj h
        obtain ⟨htagIn, hpayIn⟩ := hin _ List.mem_cons_self
        obtain ⟨fs, hfs, hys⟩ := ih hrest (by omega) (by omega) fun x hx =>
          hin x (List.mem_cons_of_mem _ hx)
        have htag_length : ((data.drop (off + 4)).take tlen).length = tlen := by
          rw [List.length_take, List.length_drop]
          omega
        have hpay_length : ((data.drop (off + 4 + tlen + 8)).take plen).length = plen := by
          rw [List.length_take, List.length_drop]
          omega
        have hcommit_length : ((data.drop (off + 4 + tlen + 8 + plen)).take 32).length = 32 := by
          rw [List.length_take, List.length_drop]
          omega
        have h4 : ((data.drop off).take 4).length = 4 := by
          rw [List.length_take, List.length_drop]
          omega
        have h8 : ((data.drop (off + 4 + tlen)).take 8).length = 8 := by
          rw [List.length_take, List.length_drop]
          omega
        let f : Frame := ⟨_, _, _, htagIn, hpayIn, hcommit_length⟩
        have hencode : data.drop off = f.encode ++
            data.drop (off + 4 + tlen + 8 + (plen + 32)) := by
          have hw4 : wrU32le tlen = (data.drop off).take 4 := htlen ▸ wrU32le_rdU32le h4
          have hw8 : wrU64le plen = (data.drop (off + 4 + tlen)).take 8 :=
            hplen ▸ wrU64le_rdU64le h8
          rw [Frame.encode_eq]
          dsimp only [f]
          rw [htag_length, hpay_length, hw4, hw8]
          simpa only [List.append_assoc] using drop_fields data off tlen plen
        refine ⟨f :: fs, ?_, ?_⟩
        · rw [encodeAll_cons, ← hfs]
          exact hencode
        · rw [hys]
          rfl
    · rw [if_neg hlt] at h
      cases h
      exact ⟨[], List.drop_eq_nil_of_le (Nat.le_of_not_lt hlt), rfl⟩

theorem frames_torn (fs : List Frame) {tail : Bytes} (h : (readFrame tail []).1 = .torn) :
    ∃ e, LossCheck.frames (encodeAll fs ++ tail) = .error e := by
  have hne : tail ≠ [] := by
    rintro rfl
    cases h
  have hpos := List.length_pos_iff.2 hne
  have hge := encodeAll_length_ge fs
  obtain ⟨k, hk⟩ : ∃ k, (encodeAll fs ++ tail).length = fs.length + (k + 1) := by
    refine ⟨(encodeAll fs ++ tail).length - fs.length - 1, ?_⟩
    rw [List.length_append]
    omega
  have hall := framesLoop_encodeAll_append fs [] tail (k + 1) 0
  rw [List.nil_append, List.nil_append, List.length_nil] at hall
  obtain ⟨e, he⟩ := framesLoop_torn h (encodeAll fs) k (0 + fs.length)
  rw [LossCheck.frames, hk, hall, he]
  exact ⟨e, rfl⟩

theorem encodeAll_injective {fs gs : List Frame} (h : encodeAll fs = encodeAll gs) : fs = gs := by
  rw [← frames_encodeAll' fs, h, frames_encodeAll']

/-! ## The two readers -/

section Readers

variable {S : Substrate} {genesis : S.LedgerCtx}

/-- **The two readers agree.** What the gateway replays to the end the checker reads too, frame by
frame; where the gateway finds a cut frame the checker finds an error; and a file the checker reads
with fields within the gateway's bounds is opened exactly when its commitments match. -/
theorem readers_agree (hfault : Faultless S) (file : Bytes) {script : ReadScript}
    (hreads : none ∉ script) :
    (∀ r, replay S genesis file script = (.clean, r) →
      LossCheck.frames file = .ok (numberedFrom 1 r.frames)) ∧
    ((replay S genesis file script).1 = .torn → ∃ e, LossCheck.frames file = .error e) ∧
    ∀ xs, LossCheck.frames file = .ok xs → (∀ x ∈ xs, InBounds x.2) →
      ∃ fs, file = encodeAll fs ∧ xs = numberedFrom 1 (fs.map fun f => (f.tag, f.payload)) ∧
        ((replay S genesis file script).1 = .clean ↔ ∀ f ∈ fs, commitMatches S f = true) := by
  refine ⟨fun r hr => ?_, fun htorn => ?_, fun xs hxs hin => ?_⟩
  · obtain ⟨fs, rfl, hacc⟩ := replay_clean hr
    have hframes := acceptAll_frames hacc
    rw [replayStart, List.nil_append] at hframes
    rw [lossCheck_frames_encodeAll, hframes]
  · obtain ⟨fs, tail, script', r, e, hreplays, hhalts⟩ :=
      replayLoop_total file script (replayStart S genesis)
    rw [replay_eq hreplays hhalts] at htorn
    obtain rfl : e = .torn := htorn
    obtain ⟨hfile, -, hsuf⟩ := hreplays.facts
    have hnone : none ∉ script' := fun hmem => hreads (hsuf.mem hmem)
    obtain ⟨-, hbody⟩ := readFails_of_notMem tail hnone
    rw [hfile]
    cases hhalts with
    | cut ht => exact frames_torn fs ht
    | bodyError _ hb =>
      rw [hbody] at hb
      cases hb
  · obtain ⟨fs, hfile, hnum⟩ := framesLoop_sound hxs (Nat.zero_le _) (by omega) hin
    rw [List.drop_zero] at hfile
    refine ⟨fs, hfile, hnum, fun hclean => ?_, fun hmatch => ?_⟩
    · obtain ⟨gs, hgs, hacc⟩ := replay_clean (Prod.ext hclean rfl)
      rw [encodeAll_injective (hfile.symm.trans hgs)]
      exact acceptAll_matches hacc
    · obtain ⟨r, hr⟩ := acceptAll_of_matches hfault hmatch (replayStart S genesis)
      rw [hfile, replay_encodeAll hreads hr]

theorem readers_agree_sample : LossCheck.frames twoFrames =
    .ok (numberedFrom 1 (replay sampleSubstrate (0, checksum []) twoFrames []).2.frames) := by
  have hreads : none ∉ ([] : ReadScript) := List.not_mem_nil
  obtain ⟨hclean, -⟩ :=
    @readers_agree _ (0, checksum []) faultless_sampleSubstrate twoFrames _ hreads
  exact hclean _ (Prod.ext (by decide +kernel) rfl)

end Readers

/-! ## The checker over histories -/

theorem LossCheck.report_clean {loads : Bytes → Option PyValue} {records : List (Nat × Bytes)}
    (h : ∀ r ∈ records, signatures loads r.2 = [.ok]) :
    report loads records = ⟨records.map fun r => (r.1, .ok), 0, 0, 0⟩ := by
  have hsigs : (records.map fun r => (r.1, signatures loads r.2)) =
      records.map fun r => (r.1, [.ok]) :=
    List.map_congr_left fun r hr => by rw [h r hr]
  have hnone : ((records.map fun r => (r.1, [Signature.ok])).filter
      fun s => isFinding (s.2.headD .ok)) = [] := by
    rw [List.filter_eq_nil_iff]
    intro s hs
    obtain ⟨r, -, rfl⟩ := List.mem_map.1 hs
    exact Bool.false_ne_true
  simp only [report, hsigs, hnone, List.map_map, List.length_nil, List.countP_nil]
  rfl

section Audit

variable {S : Substrate} {cfg : GwConfig} {loads : Bytes → Option LossCheck.PyValue} {w : World}

/-- The labels of whole frames without a defect. -/
def okLabels (fs : List Frame) : List (Nat × LossCheck.Signature) :=
  (fs.zipIdx 1).filterMap fun x => if isObs x.1 then some (x.2, .ok) else none

theorem obsTag_eq : LossCheck.obsTag = gwTagObs.bytes := by decide

/-- Numbered observations have no defect. -/
theorem main_numbered (hloads : LossCheck.Rfc8259 loads) {fs : List Frame} (hnum : Numbered S fs) :
    LossCheck.main loads .frames (encodeAll fs) = .ok ⟨okLabels fs, 0, 0, 0⟩ := by
  have hrecords : LossCheck.items .frames (encodeAll fs) = .ok ((fs.zipIdx 1).filterMap fun x =>
      if isObs x.1 then some (x.2, x.1.payload) else none) := by
    rw [LossCheck.items, lossCheck_frames_encodeAll, numberedFrom, List.zipIdx_map, List.map_map,
      Except.map, List.filterMap_map]
    refine congrArg Except.ok (List.filterMap_congr fun x _ => ?_)
    simp only [Function.comp_apply, Prod.map_fst, Prod.map_snd, id, isObs, obsTag_eq, beq_iff_eq]
  have hclean : ∀ r ∈ (fs.zipIdx 1).filterMap fun x =>
      if isObs x.1 then some (x.2, x.1.payload) else none,
          LossCheck.signatures loads r.2 = [.ok] := by
    intro r hr
    obtain ⟨⟨f, k⟩, hk, hsome⟩ := List.mem_filterMap.1 hr
    obtain ⟨-, hf⟩ := List.mk_mem_zipIdx_iff_le_and_getElem?_sub.1 hk
    dsimp only at hsome
    split at hsome
    · next hobs =>
      obtain rfl := Option.some.inj hsome
      obtain ⟨rec, hacc, -, hcanon, -⟩ := hnum _ f hf hobs
      dsimp only
      rw [(axObsCanonicalise_ok_iff.1 hcanon).1]
      exact LossCheck.signatures_accepted hloads hacc
    · cases hsome
  rw [LossCheck.main, hrecords, Except.map, LossCheck.report_clean hclean, List.map_filterMap]
  refine congrArg (fun l => Except.ok (LossCheck.Report.mk l 0 0 0)) ?_
  refine List.filterMap_congr fun x _ => ?_
  cases isObs x.1 <;> rfl

/-- **An audit of a history finds nothing.** Whatever failed or was cut, the checker reads the
ledger to its end, without a finding, or it stops at a frame that was cut; and while the process
that waits for a request has no open intent, it reads to the end. -/
theorem ledger_audited (hloads : LossCheck.Rfc8259 loads) (host : Host) (hpaths : PathsApart cfg)
    (hcount : Counts S) {node : Bytes → Option Node} (hblank : Blank cfg node)
    {ctl : (gateway S cfg host).Control}
    (hc : (gateway S cfg host).Reaches (fun _ => True) (fun _ => True) (.initial node, .down)
      (w, ctl)) :
    ((∃ fs, w.content cfg .ledger = encodeAll fs ∧
        LossCheck.main loads .frames (w.content cfg .ledger) = .ok ⟨okLabels fs, 0, 0, 0⟩) ∨
      ∃ fs tail e, w.content cfg .ledger = encodeAll fs ++ tail ∧
        (readFrame tail []).1 = .torn ∧
        LossCheck.main loads .frames (w.content cfg .ledger) = .error e) ∧
    ∀ st, ctl = .idle st → w.node (cfg.path .wal) = none →
      LossCheck.exitStatus (LossCheck.main loads .frames (w.content cfg .ledger)) = 0 := by
  have hcontent : (World.initial node).content cfg .ledger = [] := by
    simp [World.content, World.file, World.fileAt, World.initial, hblank.ledger]
  have hinit : Framed S cfg True (.initial node) := by
    refine ⟨?_, fun _ => ⟨[], [], hcontent, fun _ hf => absurd hf List.not_mem_nil, .inl rfl⟩⟩
    rw [hcontent]
    exact Nat.zero_le _
  have hwhole : ∀ fs, w.content cfg .ledger = encodeAll fs →
      LossCheck.main loads .frames (w.content cfg .ledger) = .ok ⟨okLabels fs, 0, 0, 0⟩ := by
    intro fs hfs
    have hstrict : ¬ (Watch.mk False False True).strict := fun h => h.elim id id
    have hkept : Kept S ⟨False, False, True⟩ cfg w :=
      kept_of_reaches host hpaths (fun _ => hcount) (fun h => absurd h hstrict) hblank
        (hc.weaken (fun _ h => h) fun _ _ h => absurd h hstrict)
    have hnum : Numbered S (frames (w.content cfg .ledger)) := hkept.stable.numbered trivial
    rw [hfs, frames_encodeAll'] at hnum
    rw [hfs]
    exact main_numbered hloads hnum
  refine ⟨?_, ?_⟩
  · have hframed : Framed S cfg True w :=
      hc.crash (gateway_standing S cfg True host hpaths hcount) hinit
    obtain ⟨fs, tail, hfile, -, rfl | htorn⟩ := hframed.frames trivial
    · rw [List.append_nil] at hfile
      exact .inl ⟨fs, hfile, hwhole fs hfile⟩
    · obtain ⟨e, he⟩ := frames_torn fs htorn
      refine .inr ⟨fs, tail, e, hfile, htorn, ?_⟩
      rw [hfile, LossCheck.main, LossCheck.items, he]
      rfl
  · rintro st rfl hwal
    rcases (standing_of_reaches hpaths hcount hinit hc).mode with ⟨genesis, fs, hcur⟩ | ⟨-, hopen⟩
    · rw [hwhole fs hcur.inStep.at_.content]
      rfl
    · exact absurd hwal hopen

/-- A start, and a request that is served. -/
theorem ledger_audited_sample :
    (frames ((sampleRun (.boot :: sampleServed)).1.content sampleConfig .ledger)).map isObs =
      [false, true] ∧
    LossCheck.exitStatus (LossCheck.main LossCheck.sampleLoads .frames
      ((sampleRun (.boot :: sampleServed)).1.content sampleConfig .ledger)) = 0 := by
  have hframes : (frames ((sampleRun (.boot :: sampleServed)).1.content sampleConfig .ledger)).map
      isObs = [false, true] := by decide +kernel
  have hwhole : WholeLedger sampleConfig (sampleRun (.boot :: sampleServed)).1 :=
    ⟨frames ((sampleRun (.boot :: sampleServed)).1.content sampleConfig .ledger), by decide +kernel⟩
  have hreach : (sampleGateway sampleConfig).Reaches (fun _ => True) (fun _ => True)
      (.initial fun _ => none, .down) (sampleRun (.boot :: sampleServed)) :=
    Service.reaches_run (fun _ _ => trivial) (fun _ _ => trivial) _
  generalize sampleRun (.boot :: sampleServed) = c at hframes hwhole hreach ⊢
  obtain ⟨w, ctl⟩ := c
  refine ⟨hframes, ?_⟩
  rcases (ledger_audited LossCheck.rfc8259_sampleLoads sampleHost pathsApart_sampleConfig
    counts_sampleSubstrate blank_sample hreach).1 with ⟨fs, -, hmain⟩ |
      ⟨fs, tail, e, hfile, htorn, -⟩
  · rw [hmain]
    rfl
  · exact absurd hwhole (not_whole_of_torn hfile htorn)

end Audit

end AxiomaOracle
