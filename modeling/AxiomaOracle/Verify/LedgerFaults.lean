import AxiomaOracle.Verify.Ledger

/-!
# The ledger after a write that did not complete

What is left when an append stops inside its frame. Every prefix of a file that append produced is
whole frames and a cut one, and an open with leave to cut removes exactly the latter
(`torn_append_recovers`). A process that goes on appending behind a cut frame is another matter:
the file it then writes is refused (`failed_append_poisons`).
-/

namespace AxiomaOracle

open Lib

section Faults

variable {S : Substrate} {cfg : GwConfig} {w : World} {envs : Nat → Env}

/-! ## The open ledger and its file -/

theorem InStep.ctx {genesis : S.LedgerCtx} {g : Gwl S} {fs : List Frame}
    (h : InStep S cfg genesis g w fs) :
    chainOf S genesis fs = some g.ctx ∧ lastPayload fs = g.lastPayload := by
  obtain ⟨r, hacc, hctx, hlast⟩ := h.chain
  constructor
  · rw [← hctx]
    exact acceptAll_chainOf hacc
  · rw [← hlast, acceptAll_lastPayload hacc]
    rfl

/-- The chain has one number for each frame. -/
theorem InStep.sequence {genesis : S.LedgerCtx} {g : Gwl S} {fs : List Frame} (hcount : Counts S)
    (h : InStep S cfg genesis g w fs) (hsize : (encodeAll fs).length ≤ offMax) :
    (gwlSeq g).toNat = fs.length := by
  obtain ⟨r, hacc, hr, -⟩ := h.chain
  rw [gwlSeq, ← hr]
  exact sequence_toNat hcount h.gen hacc hsize

/-- Whatever `gwl_open` did to the file, it leaves the process in step with it. -/
theorem inStep_of_open {tornTailOk cut : Bool} {g : Gwl S}
    (h : ((machine cfg).eval (gwlOpen S tornTailOk) envs w).1 = some (g, cut)) :
    ∃ genesis fs, g.exportActive = false ∧
      InStep S cfg genesis g ((machine cfg).eval (gwlOpen S tornTailOk) envs w).2 fs := by
  obtain ⟨genesis, hgen, hfails, hsock⟩ := gwlOpen_some h
  obtain ⟨w', heval, -, hat⟩ := eval_gwlOpen envs tornTailOk hgen hfails hsock rfl
  rw [heval] at h ⊢
  rcases hreplay : replay S genesis (w.content cfg .ledger) (envs 1).script with ⟨res, r⟩
  simp only [openOutcome, hreplay] at h hat
  cases res with
  | fail => cases h
  | clean =>
    obtain ⟨fs, hfile, hacc⟩ := replay_clean hreplay
    cases h
    have hat := hat rfl
    rw [hfile] at hat
    exact ⟨genesis, fs, rfl, hgen, hat, ⟨r, hacc, rfl, rfl⟩, fun hact => by cases hact⟩
  | torn =>
    obtain ⟨fs, tail, hfile, hacc, -⟩ := replay_torn hreplay
    by_cases hcut : (tornTailOk && !(envs 2).fails) = true
    · simp only [hcut, if_true] at h hat
      cases h
      have hat := hat rfl
      have htake : (w.content cfg .ledger).take r.goodEnd = encodeAll fs := by
        rw [acceptAll_goodEnd hacc, hfile, replayStart, Nat.zero_add, List.take_left]
      rw [htake] at hat
      exact ⟨genesis, fs, rfl, hgen, hat, ⟨r, hacc, rfl, rfl⟩, fun hact => by cases hact⟩
    · simp [hcut] at h

/-! ## Cut files -/

/-- The whole frames at the start of a byte string: no longer prefix of it is made of frames. -/
structure WholeFrames (bs : Bytes) (fs : List Frame) : Prop where
  start : encodeAll fs <+: bs
  longest : ∀ gs, encodeAll gs <+: bs → encodeAll gs <+: encodeAll fs

theorem wholeFrames_of_nextFrame {fs : List Frame} {tail : Bytes} (ht : nextFrame tail = none) :
    WholeFrames (encodeAll fs ++ tail) fs := by
  refine ⟨List.prefix_append _ _, ?_⟩
  intro gs hgs
  obtain ⟨rest, hrest⟩ := hgs
  have hframes := congrArg frames hrest
  rw [frames_append, frames_append, frames_of_nextFrame_none ht, List.append_nil] at hframes
  rw [← hframes, encodeAll_append]
  exact List.prefix_append _ _

/-- What `gwl_open` makes of accepted frames with a cut one, or nothing, behind them. -/
theorem eval_gwlOpen_cut {genesis : S.LedgerCtx} {fs : List Frame} {r : Replayed S} {tail : Bytes}
    (hgen : S.axLedgerGenesis = some genesis)
      (hacc : acceptAll S (replayStart S genesis) fs = some r)
    (htail : tail = [] ∨ (readFrame tail []).1 = .torn)
    (hw : w.file cfg .ledger = some (encodeAll fs ++ tail))
    (hio : ∀ n, (envs n).fails = false ∧ none ∉ (envs n).script) (tornTailOk : Bool) :
    ∃ w', (machine cfg).eval (gwlOpen S tornTailOk) envs w =
        (if tail = [] then some (⟨r.ctx, true, false, r.lastPayload⟩, false)
          else if tornTailOk then some (⟨r.ctx, true, false, r.lastPayload⟩, true) else none, w') ∧
      w'.content cfg .ledger =
        if tail ≠ [] ∧ tornTailOk = true then encodeAll fs else encodeAll fs ++ tail := by
  have hcontent : w.content cfg .ledger = encodeAll fs ++ tail := by
    rw [World.content, hw]
    rfl
  have hsock : w.node (cfg.path .ledger) ≠ some .sock := by
    intro hn
    simp [World.file, World.fileAt, hn] at hw
  obtain ⟨w', heval, hfile, -⟩ := eval_gwlOpen envs tornTailOk hgen (hio 0).1 hsock rfl
  refine ⟨w', ?_, ?_⟩
  · rw [heval, hcontent]
    congr 1
    rcases htail with rfl | ht
    · rw [List.append_nil, openOutcome, replay_encodeAll (hio 1).2 hacc]
      rfl
    · have hne : tail ≠ [] := by
        rintro rfl
        cases ht
      rw [openOutcome, replay_encodeAll_cut (hio 1).2 hacc ht, (hio 2).1, if_neg hne]
      cases tornTailOk <;> rfl
  · rw [hfile, hcontent]
    rcases htail with rfl | ht
    · rw [List.append_nil, openOutcome, replay_encodeAll (hio 1).2 hacc]
      simp
    · have hne : tail ≠ [] := by
        rintro rfl
        cases ht
      have htake : (encodeAll fs ++ tail).take r.goodEnd = encodeAll fs := by
        rw [acceptAll_goodEnd hacc, replayStart, Nat.zero_add, List.take_left]
      rw [openOutcome, replay_encodeAll_cut (hio 1).2 hacc ht, (hio 2).1]
      cases tornTailOk with
      | false => simp
      | true => simp [htake, hne]

/-- **A torn append is recoverable.** For every prefix of a file that appends produced: an open with
leave to cut succeeds, leaves the whole frames at its start, restores the chain over them and their
last payload (those of the writing process when it had written just these), and reports a cut
exactly when the prefix does not end on a frame boundary; an open without leave succeeds exactly
when it does, and never changes the file. -/
theorem torn_append_recovers {w0 w1 : World} {envs0 : Nat → Env} {tornTailOk cut : Bool}
    {g g1 : Gwl S} {tps : List (CStr × Bytes)}
    (hopen : ((machine cfg).eval (gwlOpen S tornTailOk) envs0 w0).1 = some (g, cut))
    (happ : Appends cfg g ((machine cfg).eval (gwlOpen S tornTailOk) envs0 w0).2 tps g1 w1)
    {P : Bytes} (hP : P <+: w1.content cfg .ledger) (hw : w.file cfg .ledger = some P)
    (envs : Nat → Env) (hio : ∀ n, (envs n).fails = false ∧ none ∉ (envs n).script) :
    ∃ genesis fs ctx, S.axLedgerGenesis = some genesis ∧ WholeFrames P fs ∧
      chainOf S genesis fs = some ctx ∧
      (∃ w', (machine cfg).eval (gwlOpen S true) envs w =
          (some (⟨ctx, true, false, lastPayload fs⟩, decide (P ≠ encodeAll fs)), w') ∧
        w'.content cfg .ledger = encodeAll fs) ∧
      (∃ w', (machine cfg).eval (gwlOpen S false) envs w =
          (if P = encodeAll fs then some (⟨ctx, true, false, lastPayload fs⟩, false)
            else none, w') ∧
        w'.content cfg .ledger = P) ∧
      ∀ n g2 w2, Appends cfg g ((machine cfg).eval (gwlOpen S tornTailOk) envs0 w0).2
          (tps.take n) g2 w2 → w2.content cfg .ledger = encodeAll fs →
        ctx = g2.ctx ∧ lastPayload fs = g2.lastPayload := by
  obtain ⟨genesis, fs0, -, hstart⟩ := inStep_of_open hopen
  obtain ⟨gs, -, hend⟩ := happ.inStep hstart
  obtain ⟨rall, hall, -, -⟩ := hend.chain
  rw [hend.at_.content] at hP
  obtain ⟨fs, rest, tail, hsplit, rfl, htail⟩ := prefix_encodeAll hP
  rw [hsplit, acceptAll_append] at hall
  obtain ⟨r, hacc, -⟩ := Option.bind_eq_some_iff.1 hall
  have htorn : tail = [] ∨ (readFrame tail []).1 = .torn := by
    rcases htail with hnil | ⟨f, k, -, h0, hk, rfl⟩
    · exact .inl hnil
    · exact .inr (readFrame_take h0 hk)
  have hnext : nextFrame tail = none := by
    rcases htorn with rfl | ht
    · rfl
    · exact nextFrame_of_torn ht
  have hlast : r.lastPayload = lastPayload fs := acceptAll_lastPayload hacc
  refine ⟨genesis, fs, r.ctx, hstart.gen, wholeFrames_of_nextFrame hnext,
    acceptAll_chainOf hacc, ?_, ?_, ?_⟩
  · obtain ⟨w', heval, hfile⟩ := eval_gwlOpen_cut hstart.gen hacc htorn hw hio true
    refine ⟨w', ?_, ?_⟩
    · rw [heval, ← hlast]
      by_cases hnil : tail = []
      · simp [hnil]
      · simp [hnil]
    · rw [hfile]
      by_cases hnil : tail = []
      · simp [hnil]
      · simp [hnil]
  · obtain ⟨w', heval, hfile⟩ := eval_gwlOpen_cut hstart.gen hacc htorn hw hio false
    refine ⟨w', ?_, ?_⟩
    · rw [heval, ← hlast]
      by_cases hnil : tail = []
      · simp [hnil]
      · simp [hnil]
    · rw [hfile]
      simp
  · intro n g2 w2 happ2 hfile2
    obtain ⟨gs2, -, hend2⟩ := happ2.inStep hstart
    have hfs : fs0 ++ gs2 = fs := by
      have := congrArg frames (hend2.at_.content.symm.trans hfile2)
      rwa [frames_encodeAll', frames_encodeAll'] at this
    obtain ⟨hctx, hlast2⟩ := hend2.ctx
    rw [hfs] at hctx hlast2
    exact ⟨Option.some.inj ((acceptAll_chainOf hacc).symm.trans hctx), hlast2⟩

/-- The sample ledger, cut twenty bytes into its frame. -/
def sampleCutLedger : World :=
  (World.initial fun _ => none).setFile sampleConfig .ledger
    ((sampleAppended.2.content sampleConfig .ledger).take 20)

theorem torn_append_recovers_sample :
    ∃ fs w', ((machine sampleConfig).eval (gwlOpen sampleSubstrate true) (fun _ => {})
        sampleCutLedger).2 = w' ∧ w'.content sampleConfig .ledger = encodeAll fs ∧
      WholeFrames ((sampleAppended.2.content sampleConfig .ledger).take 20) fs := by
  have hopen : ((machine sampleConfig).eval (gwlOpen sampleSubstrate false) (fun _ => {})
      (.initial fun _ => none)).1 = some (sampleGwl, false) := rfl
  have happ : Appends sampleConfig sampleGwl sampleOpened [(.ofBytes (ascii "T"), [1, 2, 3])]
      sampleAppended.1.1 sampleAppended.2 :=
    .cons (fun _ => {}) (by decide +kernel) (.nil _ _)
  have hfile : sampleCutLedger.file sampleConfig .ledger =
      some ((sampleAppended.2.content sampleConfig .ledger).take 20) := by
    simp [sampleCutLedger, World.file, World.fileAt]
  obtain ⟨genesis, fs, ctx, -, hwhole, -, ⟨w', heval, hcut⟩, -⟩ :=
    torn_append_recovers hopen happ (List.take_prefix 20 _) hfile (fun _ => {})
      fun _ => ⟨rfl, by simp⟩
  exact ⟨fs, w', by rw [heval], hcut, hwhole⟩

/-! ## Going on after a failed append -/

variable (S cfg) in
/-- A fresh process, with no failing call, opens the file and comes to the sequence number and the
head that the writing process holds in memory. -/
def ReplaysToMemory (g : Gwl S) (w : World) : Prop :=
  ∀ (tornTailOk : Bool) (envs : Nat → Env),
    (∀ n, (envs n).fails = false ∧ none ∉ (envs n).script) →
    ∃ g' cut, ((machine cfg).eval (gwlOpen S tornTailOk) envs w.release).1 = some (g', cut) ∧
      gwlSeq g' = gwlSeq g ∧ S.currentHash g'.ctx = S.currentHash g.ctx

theorem InStep.replaysToMemory {genesis : S.LedgerCtx} {g : Gwl S} {fs : List Frame}
    (h : InStep S cfg genesis g w fs) : ReplaysToMemory S cfg g w := by
  intro tornTailOk envs hio
  obtain ⟨r, hacc, hctx, -⟩ := h.chain
  have hfile : w.release.file cfg .ledger = some (encodeAll fs ++ []) := by
    have hnode : w.release.node (cfg.path .ledger) = some (.file (encodeAll fs)) := h.at_.file
    rw [List.append_nil, World.file, World.fileAt, hnode]
  obtain ⟨w', heval, -⟩ := eval_gwlOpen_cut h.gen hacc (.inl rfl) hfile hio tornTailOk
  refine ⟨⟨r.ctx, true, false, r.lastPayload⟩, false, ?_, ?_, ?_⟩
  · rw [heval, if_pos rfl]
  · rw [gwlSeq, gwlSeq, hctx]
  · rw [hctx]

/-- What a failed append leaves: a part of its frame behind the file, and the chain as it was. -/
theorem InStep.failed {genesis : S.LedgerCtx} {g : Gwl S} {fs : List Frame}
    (h : InStep S cfg genesis g w fs) {tag : CStr} {payload : Bytes}
    (hnone : ((machine cfg).eval (gwlAppend g tag payload) envs w).1.2 = none) :
    ∃ p act, ((machine cfg).eval (gwlAppend g tag payload) envs w).1.1 =
        { g with exportActive := act } ∧ (act = true → g.exportActive = true) ∧
      LedgerAt cfg ((machine cfg).eval (gwlAppend g tag payload) envs w).2 (encodeAll fs ++ p) ∧
      (p = [] ∨ ∃ f : Frame, FrameFor S tag payload f ∧ p <+: f.encode) := by
  have hsafe : Safe (machine cfg) (fun _ => True) (fun _ _ => True) (fun _ => True)
      (fun x w' => x.2 = none → ∃ p act, x.1 = { g with exportActive := act } ∧
        (act = true → g.exportActive = true) ∧ LedgerAt cfg w' (encodeAll fs ++ p) ∧
        (p = [] ∨ ∃ f : Frame, FrameFor S tag payload f ∧ p <+: f.encode))
      (gwlAppend g tag payload) w := by
    apply gwlAppend_safe h.at_ h.export_
    · intro _
      exact ⟨[], g.exportActive, rfl, id, by rw [List.append_nil]; exact h.at_, .inl rfl⟩
    · intro f p w' _ _ _
      trivial
    · intro f p w' act hf hact hp hgrown _
      exact ⟨p, act, rfl, hact, hgrown.at_, .inr ⟨f, hf, hp⟩⟩
    · intro f w' act ctx _ _ _ _ hsome
      cases hsome
  exact hsafe.eval (fun _ => trivial) hnone

/-- Appends one after another, each of which succeeds or fails without having put a byte into the
file. -/
inductive Attempts (cfg : GwConfig) (g : Gwl S) (w : World) : Gwl S → World → Prop where
  | refl : Attempts cfg g w g w
  | done {g1 : Gwl S} {w1 : World} (envs : Nat → Env) (tag : CStr) (payload : Bytes) :
      Attempts cfg g w g1 w1 →
      ((machine cfg).eval (gwlAppend g1 tag payload) envs w1).1.2.isSome →
      Attempts cfg g w ((machine cfg).eval (gwlAppend g1 tag payload) envs w1).1.1
        ((machine cfg).eval (gwlAppend g1 tag payload) envs w1).2
  | failed {g1 : Gwl S} {w1 : World} (envs : Nat → Env) (tag : CStr) (payload : Bytes) :
      Attempts cfg g w g1 w1 →
      ((machine cfg).eval (gwlAppend g1 tag payload) envs w1).1.2 = none →
      ((machine cfg).eval (gwlAppend g1 tag payload) envs w1).2.content cfg .ledger =
        w1.content cfg .ledger →
      Attempts cfg g w ((machine cfg).eval (gwlAppend g1 tag payload) envs w1).1.1
        ((machine cfg).eval (gwlAppend g1 tag payload) envs w1).2

theorem InStep.failed_clean {genesis : S.LedgerCtx} {g : Gwl S} {fs : List Frame}
    (h : InStep S cfg genesis g w fs) {tag : CStr} {payload : Bytes}
    (hnone : ((machine cfg).eval (gwlAppend g tag payload) envs w).1.2 = none)
    (hsame : ((machine cfg).eval (gwlAppend g tag payload) envs w).2.content cfg .ledger =
      w.content cfg .ledger) :
    InStep S cfg genesis ((machine cfg).eval (gwlAppend g tag payload) envs w).1.1
      ((machine cfg).eval (gwlAppend g tag payload) envs w).2 fs := by
  obtain ⟨p, act, hg, hact, hat, -⟩ := h.failed hnone
  rw [hat.content, h.at_.content] at hsame
  obtain rfl : p = [] := by simpa using hsame
  rw [List.append_nil] at hat
  rw [hg]
  exact ⟨h.gen, hat, h.chain, fun hact' => h.export_ (hact hact')⟩

theorem Attempts.inStep {g g' : Gwl S} {w' : World} (happ : Attempts cfg g w g' w')
    {genesis : S.LedgerCtx} {fs : List Frame} (h : InStep S cfg genesis g w fs) :
    ∃ gs, InStep S cfg genesis g' w' gs := by
  induction happ with
  | refl => exact ⟨fs, h⟩
  | done envs tag payload _ hsome ih =>
    obtain ⟨gs, hgs⟩ := ih
    obtain ⟨f, -, hnext⟩ := hgs.append hsome
    exact ⟨_, hnext⟩
  | failed envs tag payload _ hnone hsame ih =>
    obtain ⟨gs, hgs⟩ := ih
    exact ⟨gs, hgs.failed_clean hnone hsame⟩

theorem wrU32le_small {n : Nat} (h : n < 256) : wrU32le n = [UInt8.ofNat n, 0, 0, 0] := by
  have h1 : n / 256 = 0 := Nat.div_eq_of_lt h
  simp [wrU32le, leEncode, h1]

theorem wrU32le_getElem? {n i : Nat} (h : n < 256) :
    (wrU32le n)[i]? = if i = 0 then some (UInt8.ofNat n) else if i < 4 then some 0 else none := by
  rw [wrU32le_small h]
  match i with
  | 0 => rfl
  | 1 => rfl
  | 2 => rfl
  | 3 => rfl
  | i + 4 => simp

theorem Frame.encode_getElem?_header (f : Frame) {i : Nat} (h : i < 4) :
    f.encode[i]? = some (if i = 0 then UInt8.ofNat f.tag.length else 0) := by
  have hmax : gwlTagMax = 32 := rfl
  have hlt : f.tag.length < 256 := by
    have := f.tagLen
    omega
  rw [f.encode_eq, List.getElem?_append_left (by rw [Frame.wrU32le_length]; exact h),
    wrU32le_getElem? hlt]
  split
  · rfl
  · rfl

theorem Frame.encode_getElem?_tag (f : Frame) {i : Nat} (h : i < f.tag.length) :
    f.encode[i + 4]? = f.tag[i]? := by
  rw [f.encode_eq, List.getElem?_append_right (by rw [Frame.wrU32le_length]; omega),
    Frame.wrU32le_length, Nat.add_sub_cancel, List.getElem?_append_left h]

/-- A tag field that reads as a shorter string is the string, a NUL and more. -/
theorem tag_eq_append_nul {field : Bytes} {tag : CStr} (h : CStr.ofBytes field = tag)
    (hlen : tag.bytes.length < field.length) : ∃ junk, field = tag.bytes ++ 0 :: junk := by
  have hsplit := List.takeWhile_append_dropWhile (p := (· != (0 : UInt8))) (l := field)
  have htake : field.takeWhile (· != 0) = tag.bytes := by
    rw [← h]
    rfl
  rw [htake] at hsplit
  cases hdrop : field.dropWhile (· != 0) with
  | nil =>
    rw [hdrop, List.append_nil] at hsplit
    rw [← hsplit] at hlen
    omega
  | cons b junk =>
    have hb : b = 0 := by
      have hhead := List.head?_dropWhile_not (fun b : UInt8 => b != 0) field
      rw [hdrop] at hhead
      simpa using hhead
    exact ⟨junk, by rw [← hsplit, hdrop, hb]⟩

/-- **No part of a cut frame can stand before a frame and make one with it.** The two together would
be a frame of the same payload whose tag is the same string in a longer field. The field would hold
a NUL, which only the length of the second frame can supply, and its place falls into the tag of the
cut frame or behind a printable tag. -/
theorem encode_append_ne {F f f1 : Frame} {p : Bytes} {tag : CStr} (hp : p <+: f1.encode)
    (htag1 : (0 : UInt8) ∉ f1.tag) (htag : f.tag = tag.bytes) (hsame : CStr.ofBytes F.tag = tag)
    (hpay : F.payload = f.payload) (hprint : ∀ b ∈ tag.bytes, 0x20 ≤ b.toNat)
    (henc : F.encode = p ++ f.encode) : p = [] := by
  by_contra hne
  have hmax : gwlTagMax = 32 := rfl
  have hFt := F.tagLen
  have hft := f.tagLen
  have hf1t := f1.tagLen
  have hd : 0 < p.length := List.length_pos_iff.2 hne
  have hlen := congrArg List.length henc
  rw [List.length_append, F.encode_length, f.encode_length, hpay] at hlen
  have hFlen : F.tag.length = f.tag.length + p.length := by omega
  obtain ⟨junk, hF⟩ := tag_eq_append_nul hsame (by rw [← htag]; omega)
  rw [← htag] at hF
  have ofNat_ne : ∀ {m n : Nat}, m < 256 → n < 256 → m ≠ n → UInt8.ofNat m ≠ UInt8.ofNat n := by
    intro m n hm hn hmn heq
    have := congrArg UInt8.toNat heq
    rw [UInt8.toNat_ofNat_of_lt' hm, UInt8.toNat_ofNat_of_lt' hn] at this
    exact hmn this
  have nonzero : UInt8.ofNat f.tag.length ≠ 0 :=
    ofNat_ne (by omega) (by omega) (n := 0) (by omega)
  have tagByte : ∀ i < f.tag.length, ∃ b, f.tag[i]? = some b ∧ 0x20 ≤ b.toNat := by
    intro i hi
    refine ⟨f.tag[i], List.getElem?_eq_getElem hi, hprint _ ?_⟩
    rw [← htag]
    exact List.getElem_mem hi
  -- behind `p` the bytes are those of the second frame
  have behind : ∀ i, F.encode[p.length + i]? = f.encode[i]? := by
    intro i
    rw [henc, List.getElem?_append_right (by omega), Nat.add_sub_cancel_left]
  have inside : ∀ i < p.length, F.encode[i]? = f1.encode[i]? := by
    intro i hi
    obtain ⟨rest, hrest⟩ := hp
    rw [henc, ← hrest, List.getElem?_append_left hi, List.getElem?_append_left hi]
  have hlow := behind 0
  rw [f.encode_getElem?_header (by omega), if_pos rfl, Nat.add_zero] at hlow
  -- the length of the second frame does not fall into the length of the first
  have h4 : 4 ≤ p.length := by
    by_contra hlt
    rw [F.encode_getElem?_header (by omega), if_neg (by omega)] at hlow
    exact nonzero (Option.some.inj hlow).symm
  obtain ⟨d, hd4⟩ : ∃ d, p.length = d + 4 := ⟨p.length - 4, by omega⟩
  rw [hd4, F.encode_getElem?_tag (by omega)] at hlow
  -- its NUL bytes do not fall into the tag
  have hnul := behind 1
  rw [f.encode_getElem?_header (by omega), if_neg (by omega), hd4,
    show d + 4 + 1 = (d + 1) + 4 by omega, F.encode_getElem?_tag (by omega)] at hnul
  have hbeyond : f.tag.length ≤ d + 1 := by
    by_contra hlt
    obtain ⟨b, hb, hge⟩ := tagByte (d + 1) (by omega)
    rw [hF, List.getElem?_append_left (by omega), hb] at hnul
    rw [Option.some.inj hnul] at hge
    exact absurd hge (by decide)
  -- the NUL behind the string does not fall into the cut frame's tag
  have hzero : F.encode[f.tag.length + 4]? = some 0 := by
    rw [F.encode_getElem?_tag (by omega), hF, List.getElem?_append_right (by omega),
      Nat.sub_self]
    rfl
  have hnear : d ≤ f.tag.length := by
    by_contra hlt
    have hhead := inside 0 hd
    rw [F.encode_getElem?_header (by omega), f1.encode_getElem?_header (by omega), if_pos rfl,
      if_pos rfl] at hhead
    have hf1 : F.tag.length = f1.tag.length := by
      by_contra hdiff
      exact ofNat_ne (by omega) (by omega) hdiff (Option.some.inj hhead)
    have hin := inside (f.tag.length + 4) (by omega)
    rw [hzero, f1.encode_getElem?_tag (by omega)] at hin
    exact htag1 (List.mem_of_getElem? hin.symm)
  rcases Nat.lt_or_ge d f.tag.length with hlast | hge
  · -- the length would be the last byte of the tag, and printable
    obtain ⟨b, hb, hbge⟩ := tagByte d hlast
    rw [hF, List.getElem?_append_left hlast, hb] at hlow
    rw [Option.some.inj hlow, UInt8.toNat_ofNat_of_lt' (show f.tag.length < 256 by omega)] at hbge
    omega
  · rw [hF, List.getElem?_append_right hge, show d - f.tag.length = 0 by omega] at hlow
    exact nonzero (Option.some.inj hlow).symm

/-- An open without leave to cut has accepted the whole file. -/
theorem gwlOpen_false_some {cut : Bool} {g : Gwl S}
    (h : ((machine cfg).eval (gwlOpen S false) envs w).1 = some (g, cut)) :
    ∃ genesis fs r, S.axLedgerGenesis = some genesis ∧ w.content cfg .ledger = encodeAll fs ∧
      acceptAll S (replayStart S genesis) fs = some r ∧ g.ctx = r.ctx := by
  obtain ⟨genesis, hgen, hfails, hsock⟩ := gwlOpen_some h
  obtain ⟨w', heval, -⟩ := eval_gwlOpen envs false hgen hfails hsock rfl
  rw [heval] at h
  rcases hreplay : replay S genesis (w.content cfg .ledger) (envs 1).script with ⟨res, r⟩
  simp only [openOutcome, hreplay] at h
  cases res with
  | fail => cases h
  | torn => cases h
  | clean =>
    obtain ⟨fs, hfile, hacc⟩ := replay_clean hreplay
    cases h
    exact ⟨genesis, fs, r, hgen, hfile, hacc, rfl⟩

theorem FrameFor.encode_length_le {tag : CStr} {payload : Bytes} {f : Frame}
    (_ : FrameFor S tag payload f) : f.encode.length ≤ 262300 := by
  have h1 := f.tagLen
  have h2 := f.payloadLen
  have hmax : gwlTagMax = 32 := rfl
  have hpmax : gwlPayloadMax = 262144 := rfl
  rw [f.encode_length]
  omega

/-- One frame was counted, so one frame is what a replay has to find behind the old ones. -/
theorem eq_singleton_of_sequence (hcount : Counts S) {r r' : Replayed S} {gs : List Frame}
    (hacc : acceptAll S r gs = some r') (hseq : S.sequence r'.ctx = S.sequence r.ctx + 1)
    (hsize : (encodeAll gs).length ≤ 2 * 262300) : ∃ F, gs = [F] := by
  have hlen := encodeAll_length_ge gs
  rw [acceptAll_sequence hcount hacc] at hseq
  have hone : UInt64.ofNat gs.length = 1 := (UInt64.add_right_inj _).1 hseq
  have hnat := congrArg UInt64.toNat hone
  rw [UInt64.toNat_ofNat_of_lt' (by have : UInt64.size = 2 ^ 64 := rfl; omega)] at hnat
  exact List.length_eq_one_iff.1 hnat

/-- The file behind a failed append that left bytes, and a successful one, is not what memory says:
else it is one frame more than it was, whose commitment is that of the new one. -/
theorem not_replaysToMemory (hcount : Counts S) {genesis : S.LedgerCtx} {fs : List Frame}
    {r : Replayed S} {f1 f : Frame} {p : Bytes} {tag1 tag : CStr} {payload1 payload : Bytes}
    {g : Gwl S} (hgen : S.axLedgerGenesis = some genesis)
    (hacc : acceptAll S (replayStart S genesis) fs = some r)
    (hf1 : FrameFor S tag1 payload1 f1) (hp : p <+: f1.encode) (hf : FrameFor S tag payload f)
    (hctx : S.axLedgerAppend r.ctx ⟨f.commit, f.commitLen⟩ = some g.ctx)
    (hprint : ∀ b ∈ tag.bytes, 0x20 ≤ b.toNat)
    (hfile : w.content cfg .ledger = encodeAll fs ++ p ++ f.encode)
    (hcoll : ∀ F : Frame, w.content cfg .ledger = encodeAll fs ++ F.encode →
      ¬ CollidesOn S (tag, payload) F.input)
    (hmem : ReplaysToMemory S cfg g w) : p = [] := by
  obtain ⟨g', cut, hopen, hseq, -⟩ := hmem false (fun _ => {}) fun _ => ⟨rfl, by simp⟩
  obtain ⟨genesis', fs', r', hgen', hfile', hacc', hctx'⟩ := gwlOpen_false_some hopen
  cases hgen.symm.trans hgen'
  -- behind the old frames there are others, that make up the left bytes and the new frame
  have hcontent : w.release.content cfg .ledger = w.content cfg .ledger := rfl
  rw [List.append_assoc] at hfile
  rw [hcontent, hfile] at hfile'
  have hfs' : fs' = fs ++ frames (p ++ f.encode) := by
    have := congrArg frames hfile'
    rwa [frames_append, frames_encodeAll', eq_comm] at this
  have hgs : encodeAll (frames (p ++ f.encode)) = p ++ f.encode := by
    rw [hfs', encodeAll_append, List.append_cancel_left_eq] at hfile'
    exact hfile'.symm
  rw [hfs', acceptAll_append, hacc, Option.bind_some] at hacc'
  -- it is one frame, with the commit of the new one
  have hsequence : S.sequence r'.ctx = S.sequence r.ctx + 1 := by
    rw [← hcount.append _ _ _ hctx, ← hctx']
    exact hseq
  have hsize : (encodeAll (frames (p ++ f.encode))).length ≤ 2 * 262300 := by
    have h1 := hf1.encode_length_le
    have h2 := hf.encode_length_le
    have h3 := hp.length_le
    rw [hgs, List.length_append]
    omega
  obtain ⟨F, hF⟩ := eq_singleton_of_sequence hcount hacc' hsequence hsize
  rw [hF, encodeAll_cons, encodeAll_nil, List.append_nil] at hgs
  rw [hF, acceptAll_cons] at hacc'
  obtain ⟨r1, haccF, -⟩ := Option.bind_eq_some_iff.1 hacc'
  obtain ⟨d, ctx, hd, hdc, -, -⟩ := accept_eq_some haccF
  have hcommit : F.commit = f.commit := by
    have hbody := hgs
    rw [F.encode_eq_body, f.encode_eq_body, ← List.append_assoc] at hbody
    exact (List.append_inj' hbody (F.commitLen.trans f.commitLen.symm)).2
  have hpair : (tag, payload) = F.input := by
    by_contra hne
    have hdf : d = ⟨f.commit, f.commitLen⟩ := by
      cases d with
      | mk bytes size =>
        obtain rfl : bytes = f.commit := hdc.trans hcommit
        rfl
    exact hcoll F (hfile.trans (by rw [hgs])) ⟨hne, d, hdf ▸ hf.commit_eq, hd⟩
  rw [Frame.input, Prod.mk.injEq] at hpair
  exact encode_append_ne hp (hf1.tag_eq ▸ tag1.nulFree) hf.tag_eq hpair.1.symm
    (hpair.2.symm.trans hf.payload_eq.symm) hprint hgs

/-- **A failed append poisons the ledger unless it has left no byte.** From every state of an open
ledger: in a run of appends that fail, if they fail, before their first byte, the file is always
what memory says; and when an append fails and the next one succeeds, the file replays to the
sequence number and the head in memory exactly when the failed append has put nothing into it. For
the latter, the left bytes and the new frame are not to read as one frame that another tag or
payload commits to as well. -/
theorem failed_append_poisons (hcount : Counts S) {genesis : S.LedgerCtx} {g : Gwl S}
    {fs : List Frame} (h : InStep S cfg genesis g w fs) :
    (∀ g' w', Attempts cfg g w g' w' → ReplaysToMemory S cfg g' w') ∧
    ∀ (tag1 tag : CStr) (payload1 payload : Bytes) (envs1 envs2 : Nat → Env) (g1 g2 : Gwl S)
      (w1 w2 : World) (res : Digest × UInt64), (∀ b ∈ tag.bytes, 0x20 ≤ b.toNat) →
      (machine cfg).eval (gwlAppend g tag1 payload1) envs1 w = ((g1, none), w1) →
      (machine cfg).eval (gwlAppend g1 tag payload) envs2 w1 = ((g2, some res), w2) →
      (∀ F : Frame, w2.content cfg .ledger = w.content cfg .ledger ++ F.encode →
        ¬ CollidesOn S (tag, payload) F.input) →
      (ReplaysToMemory S cfg g2 w2 ↔ w1.content cfg .ledger = w.content cfg .ledger) := by
  constructor
  · intro g' w' happ
    obtain ⟨gs, hgs⟩ := happ.inStep h
    exact hgs.replaysToMemory
  · intro tag1 tag payload1 payload envs1 envs2 g1 g2 w1 w2 res hprint h1 h2 hcoll
    have hfailed := h.failed (congrArg (fun x => x.1.2) h1)
    rw [h1] at hfailed
    obtain ⟨p, act, rfl, hact, hat, hpart⟩ := hfailed
    have hsome : ((machine cfg).eval (gwlAppend { g with exportActive := act } tag payload) envs2
        w1).1.2.isSome := by
      rw [h2]
      rfl
    constructor
    · -- the second append, behind what the first has left
      intro hmem
      rw [hat.content, h.at_.content]
      obtain ⟨r, hacc, hr, -⟩ := h.chain
      have hsafe : Safe (machine cfg) (fun _ => True) (fun _ _ => True) (fun _ => True)
          (fun x w' => x.2.isSome → ∃ f : Frame, FrameFor S tag payload f ∧
            w'.content cfg .ledger = encodeAll fs ++ p ++ f.encode ∧
            S.axLedgerAppend r.ctx ⟨f.commit, f.commitLen⟩ = some x.1.ctx)
          (gwlAppend { g with exportActive := act } tag payload) w1 := by
        apply gwlAppend_safe hat (fun hact' => h.export_ (hact hact'))
        · intro hnone
          cases hnone
        · intro f p w' _ _ _
          trivial
        · intro f p w' act _ _ _ _ hnone
          cases hnone
        · intro f w' act ctx hf _ hgrown hctx _
          exact ⟨f, hf, hgrown.at_.content, hr ▸ hctx⟩
      obtain ⟨f, hf, hfile, hctx⟩ := hsafe.eval (fun _ => trivial) hsome
      rw [h2] at hfile hctx
      rcases hpart with rfl | ⟨f1, hf1, hp⟩
      · rw [List.append_nil]
      · rw [h.at_.content] at hcoll
        rw [not_replaysToMemory hcount h.gen hacc hf1 hp hf hctx hprint hfile hcoll hmem,
          List.append_nil]
    · intro hsame
      have hclean := h.failed_clean (congrArg (fun x => x.1.2) h1) (by rw [h1]; exact hsame)
      rw [h1] at hclean
      obtain ⟨f, -, hnext⟩ := hclean.append hsome
      rw [h2] at hnext
      exact hnext.replaysToMemory

/-! ## A disk that is full for a moment -/

/-- The first write of an append stops after `k` of its four bytes. -/
def fullDisk (k : Nat) : Nat → Env := fun n => if n = 0 then { fails := true, amount := k } else {}

/-- An append to a new ledger that fails after `k` bytes, and the same append again. -/
def samplePair : CStr × Bytes := (.ofBytes (ascii "AX:OBS:v1"), [1])

def failedAppend (k : Nat) : (Gwl sampleSubstrate × Option (Digest × UInt64)) × World :=
  (machine sampleConfig).eval (gwlAppend sampleGwl samplePair.1 samplePair.2) (fullDisk k)
    sampleOpened

def laterAppend (k : Nat) : (Gwl sampleSubstrate × Option (Digest × UInt64)) × World :=
  (machine sampleConfig).eval (gwlAppend (failedAppend k).1.1 samplePair.1 samplePair.2)
    (fun _ => {}) (failedAppend k).2

theorem inStep_sampleOpened :
    InStep sampleSubstrate sampleConfig (0, checksum []) sampleGwl sampleOpened [] where
  gen := rfl
  at_ := ⟨by decide +kernel, by decide +kernel⟩
  chain := ⟨_, rfl, rfl, rfl⟩
  export_ := fun h => by cases h

/-- Three bytes are left, the next append returns 0, and the file does not open. -/
theorem append_behind_failed_refused :
    InStep sampleSubstrate sampleConfig (0, checksum []) sampleGwl sampleOpened [] ∧
    (failedAppend 3).1.2 = none ∧ (laterAppend 3).1.2.isSome = true ∧
    ¬ ReplaysToMemory sampleSubstrate sampleConfig (laterAppend 3).1.1 (laterAppend 3).2 := by
  have hrun : (failedAppend 3).1.2 = none ∧ (laterAppend 3).1.2.isSome = true ∧
      ((machine sampleConfig).eval (gwlOpen sampleSubstrate false) (fun _ => {})
        (laterAppend 3).2.release).1.isNone = true := by decide +kernel
  refine ⟨inStep_sampleOpened, hrun.1, hrun.2.1, ?_⟩
  intro hmem
  obtain ⟨g', cut, hopen, -⟩ := hmem false (fun _ => {}) fun _ => ⟨rfl, by simp⟩
  have hnone := hrun.2.2
  rw [hopen] at hnone
  cases hnone

/-- The three bytes left stay where the replay has to find a frame; without them it finds the new
one. -/
theorem failed_append_poisons_sample :
    ReplaysToMemory sampleSubstrate sampleConfig (laterAppend 0).1.1 (laterAppend 0).2 ∧
    ¬ ReplaysToMemory sampleSubstrate sampleConfig (laterAppend 3).1.1 (laterAppend 3).2 := by
  have hrun : ∀ k ∈ [0, 3], (failedAppend k).1.2 = none ∧ (laterAppend k).1.2.isSome = true := by
    decide +kernel
  have hiff : ∀ k ∈ [0, 3], (∀ F : Frame, (laterAppend k).2.content sampleConfig .ledger =
      sampleOpened.content sampleConfig .ledger ++ F.encode →
        ¬ CollidesOn sampleSubstrate samplePair F.input) →
      (ReplaysToMemory sampleSubstrate sampleConfig (laterAppend k).1.1 (laterAppend k).2 ↔
        (failedAppend k).2.content sampleConfig .ledger =
          sampleOpened.content sampleConfig .ledger) := by
    intro k hk
    obtain ⟨hnone, hsome⟩ := hrun k hk
    obtain ⟨res, hres⟩ := Option.isSome_iff_exists.1 hsome
    have h1 : (machine sampleConfig).eval (gwlAppend sampleGwl samplePair.1 samplePair.2)
        (fullDisk k) sampleOpened = (((failedAppend k).1.1, none), (failedAppend k).2) := by
      rw [← hnone]
      rfl
    have h2 : (machine sampleConfig).eval (gwlAppend (failedAppend k).1.1 samplePair.1 samplePair.2)
        (fun _ => {}) (failedAppend k).2 =
          (((laterAppend k).1.1, some res), (laterAppend k).2) := by
      rw [← hres]
      rfl
    exact (failed_append_poisons counts_sampleSubstrate inStep_sampleOpened).2 _ _ _ _ _ _ _ _ _ _ _
      (by decide) h1 h2
  constructor
  · refine (hiff 0 (by simp) fun F hF hcoll => ?_).2 (by decide +kernel)
    -- the one frame of the file is the appended one
    have hframes : (frames ((laterAppend 0).2.content sampleConfig .ledger)).map Frame.input =
        [samplePair] := by decide +kernel
    have hempty : sampleOpened.content sampleConfig .ledger = [] := by decide +kernel
    have hone : frames F.encode = [F] := by
      rw [← List.append_nil F.encode, ← encodeAll_nil, ← encodeAll_cons, frames_encodeAll']
    rw [hF, hempty, List.nil_append, hone, List.map_singleton, List.singleton_inj] at hframes
    exact hcoll.1 hframes.symm
  · intro hmem
    have hsame := (hiff 3 (by simp) fun F hF => ?_).1 hmem
    · exact absurd hsame (by decide +kernel)
    · -- the length of the second frame stands in the place of a zero of the first's
      have h3 : ((laterAppend 3).2.content sampleConfig .ledger)[3]? = some 9 := by decide +kernel
      have hempty : sampleOpened.content sampleConfig .ledger = [] := by decide +kernel
      rw [hF, hempty, List.nil_append, F.encode_getElem?_header (by decide)] at h3
      cases h3

end Faults

end AxiomaOracle
