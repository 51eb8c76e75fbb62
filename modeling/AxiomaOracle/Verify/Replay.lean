import Mathlib.Data.List.Induction
import AxiomaOracle.Verify.Frames

/-!
# Replay

What the loop of `gwl_open` accepts and how it ends. `Replays` follows the loop over whole frames;
`Halts` lists the ways the next read stops it. With no read error the outcome is a function of the
bytes: a clean end means that the file is the encoding of accepted frames (`replay_clean`).
-/

namespace AxiomaOracle

open Lib

section Replay

variable (S : Substrate)

/-! ## Accepting frames -/

/-- The stored commit is that of the tag, as the string that crosses into `ax_commit_evidence`, and
the payload. -/
def commitMatches (f : Frame) : Bool :=
  match S.axCommitEvidence (.ofBytes f.tag) f.payload with
  | some d => d.bytes == f.commit
  | none => false

def accept (r : Replayed S) (f : Frame) : Option (Replayed S) :=
  acceptFrame S r f.tag f.payload f.commit

/-- The chain after a list of frames, when each is accepted. -/
def acceptAll (r : Replayed S) (fs : List Frame) : Option (Replayed S) := fs.foldlM (accept S) r

/-- The loop before its first pass. -/
def replayStart (genesis : S.LedgerCtx) : Replayed S := ⟨genesis, [], 0, []⟩

variable {S}

theorem accept_eq_some {r r' : Replayed S} {f : Frame} (h : accept S r f = some r') :
    ∃ d ctx, S.axCommitEvidence (.ofBytes f.tag) f.payload = some d ∧ d.bytes = f.commit ∧
      S.axLedgerAppend r.ctx d = some ctx ∧
      r' = ⟨ctx, f.payload, r.goodEnd + f.encode.length, r.frames ++ [(f.tag, f.payload)]⟩ := by
  unfold accept acceptFrame at h
  split at h
  · cases h
  next d hd =>
  split at h
  · cases h
  next hne =>
  split at h
  · cases h
  next ctx hctx =>
  refine ⟨d, ctx, hd, not_not.1 hne, hctx, ?_⟩
  rw [f.encode_length]
  exact (Option.some.inj h).symm

theorem accept_of {r : Replayed S} {f : Frame} {d : Digest} {ctx : S.LedgerCtx}
    (hd : S.axCommitEvidence (.ofBytes f.tag) f.payload = some d) (hc : d.bytes = f.commit)
    (hctx : S.axLedgerAppend r.ctx d = some ctx) :
    accept S r f =
      some ⟨ctx, f.payload, r.goodEnd + f.encode.length, r.frames ++ [(f.tag, f.payload)]⟩ := by
  unfold accept acceptFrame
  simp only [hd, hc, ne_eq, not_true_eq_false, if_false, hctx, f.encode_length]

@[simp] theorem acceptAll_nil (r : Replayed S) : acceptAll S r [] = some r := rfl

@[simp] theorem acceptAll_cons (r : Replayed S) (f : Frame) (fs : List Frame) :
    acceptAll S r (f :: fs) = (accept S r f).bind fun r' => acceptAll S r' fs := rfl

theorem acceptAll_append (r : Replayed S) (fs gs : List Frame) :
    acceptAll S r (fs ++ gs) = (acceptAll S r fs).bind fun r' => acceptAll S r' gs :=
  List.foldlM_append

theorem acceptAll_matches {r r' : Replayed S} {fs : List Frame} (h : acceptAll S r fs = some r') :
    ∀ f ∈ fs, commitMatches S f = true := by
  induction fs generalizing r with
  | nil => simp
  | cons f fs ih =>
    obtain ⟨r1, h1, h2⟩ := Option.bind_eq_some_iff.1 h
    obtain ⟨d, ctx, hd, hc, -, -⟩ := accept_eq_some h1
    intro g hg
    rcases List.mem_cons.1 hg with rfl | hg
    · simp [commitMatches, hd, hc]
    · exact ih h2 g hg

theorem acceptAll_goodEnd {r r' : Replayed S} {fs : List Frame} (h : acceptAll S r fs = some r') :
    r'.goodEnd = r.goodEnd + (encodeAll fs).length := by
  induction fs generalizing r with
  | nil => cases h; simp
  | cons f fs ih =>
    obtain ⟨r1, h1, h2⟩ := Option.bind_eq_some_iff.1 h
    obtain ⟨d, ctx, -, -, -, rfl⟩ := accept_eq_some h1
    rw [ih h2, encodeAll_cons, List.length_append]
    exact Nat.add_assoc _ _ _

theorem acceptAll_frames {r r' : Replayed S} {fs : List Frame} (h : acceptAll S r fs = some r') :
    r'.frames = r.frames ++ fs.map fun f => (f.tag, f.payload) := by
  induction fs generalizing r with
  | nil => cases h; simp
  | cons f fs ih =>
    obtain ⟨r1, h1, h2⟩ := Option.bind_eq_some_iff.1 h
    obtain ⟨d, ctx, -, -, -, rfl⟩ := accept_eq_some h1
    rw [ih h2, List.map_cons, List.append_assoc, List.singleton_append]

theorem acceptAll_lastPayload {r r' : Replayed S} {fs : List Frame}
    (h : acceptAll S r fs = some r') :
    r'.lastPayload = (fs.getLast?.map Frame.payload).getD r.lastPayload := by
  induction fs generalizing r with
  | nil => cases h; rfl
  | cons f fs ih =>
    obtain ⟨r1, h1, h2⟩ := Option.bind_eq_some_iff.1 h
    obtain ⟨d, ctx, -, -, -, rfl⟩ := accept_eq_some h1
    rw [ih h2]
    cases fs with
    | nil => rfl
    | cons g gs => simp [List.getLast?_cons]

/-! ## The loop -/

variable (S)

/-- The loop accepts the frames `fs` on its way from one of its states to another. -/
inductive Replays : Bytes → ReadScript → Replayed S → List Frame → Bytes → ReadScript →
    Replayed S → Prop where
  | refl (rest : Bytes) (script : ReadScript) (r : Replayed S) :
      Replays rest script r [] rest script r
  | step {rest rest' tail : Bytes} {script script' script'' : ReadScript} {r r' r'' : Replayed S}
      {f : Frame} {fs : List Frame} :
      readFrame rest script = (.frame f.tag f.payload f.commit, rest', script') →
      accept S r f = some r' → Replays rest' script' r' fs tail script'' r'' →
      Replays rest script r (f :: fs) tail script'' r''

/-- How the loop ends: at the end of the file, inside the last frame, at a frame that is malformed
or refused, or at a read error, which counts as a failure at the header and as a torn frame inside
a frame. -/
inductive Halts (r : Replayed S) (tail : Bytes) (script : ReadScript) : ReplayEnd → Prop where
  | clean : tail = [] → headerReadFails tail script = false → bodyReadFails tail script = false →
      Halts r tail script .clean
  | cut : (readFrame tail []).1 = .torn → headerReadFails tail script = false →
      bodyReadFails tail script = false → Halts r tail script .torn
  | malformed : (readFrame tail []).1 = .fail → headerReadFails tail script = false →
      bodyReadFails tail script = false → Halts r tail script .fail
  | refused {f : Frame} {rest : Bytes} : tail = f.encode ++ rest → accept S r f = none →
      headerReadFails tail script = false → bodyReadFails tail script = false →
      Halts r tail script .fail
  | headerError : headerReadFails tail script = true → bodyReadFails tail script = false →
      Halts r tail script .fail
  | bodyError : headerReadFails tail script = false → bodyReadFails tail script = true →
      Halts r tail script .torn

variable {S}

theorem readFrame_frame {rest tag payload commit rest' : Bytes} {script script' : ReadScript}
    (h : readFrame rest script = (.frame tag payload commit, rest', script')) :
    ∃ f : Frame, f.tag = tag ∧ f.payload = payload ∧ f.commit = commit ∧
      rest = f.encode ++ rest' ∧ script' <:+ script := by
  rcases readFrame_cases rest script with ⟨-, -, s, hr, hs⟩ | ⟨-, -, hr, -⟩ | ⟨-, -, hr, -⟩
  · rw [h, Prod.mk.injEq, Prod.mk.injEq] at hr
    obtain ⟨h1, h2, rfl⟩ := hr
    have hnil : readFrame rest [] =
        (.frame tag payload commit, rest', (readFrame rest []).2.2) := by
      rw [h1, h2]
    obtain ⟨f, e1, e2, e3, e4⟩ := readFrame_sound hnil
    exact ⟨f, e1, e2, e3, e4, hs⟩
  · rw [h] at hr
    cases hr
  · rw [h] at hr
    cases hr

theorem Replays.facts {rest tail : Bytes} {script script' : ReadScript} {r r' : Replayed S}
    {fs : List Frame} (h : Replays S rest script r fs tail script' r') :
    rest = encodeAll fs ++ tail ∧ acceptAll S r fs = some r' ∧ script' <:+ script := by
  induction h with
  | refl rest script r => exact ⟨rfl, rfl, List.suffix_rfl⟩
  | @step rest rest' tail script script' script'' r r' r'' f fs hread hacc _ ih =>
    obtain ⟨htail, hall, hsuf⟩ := ih
    obtain ⟨g, h1, h2, h3, hrest, hs⟩ := readFrame_frame hread
    obtain rfl : g = f := Frame.ext h1 h2 h3
    refine ⟨?_, by rw [acceptAll_cons, hacc]; exact hall, hsuf.trans hs⟩
    rw [hrest, htail, encodeAll_cons, List.append_assoc]

theorem Replays.loop {rest tail : Bytes} {script script' : ReadScript} {r r' : Replayed S}
    {fs : List Frame} (h : Replays S rest script r fs tail script' r') (fuel : Nat) :
    replayLoop S (fs.length + fuel) rest script r = replayLoop S fuel tail script' r' := by
  induction h with
  | refl rest script r => rw [List.length_nil, Nat.zero_add]
  | @step rest rest' tail script script' script'' r r' r'' f fs hread hacc _ ih =>
    rw [List.length_cons, Nat.add_right_comm, replayLoop, hread]
    unfold accept at hacc
    simp only [hacc]
    exact ih

/-- The pass that ends the loop. -/
theorem Halts.loop {tail : Bytes} {script : ReadScript} {r : Replayed S} {e : ReplayEnd}
    (h : Halts S r tail script e) (fuel : Nat) :
    replayLoop S (fuel + 1) tail script r = (e, r) := by
  rw [replayLoop]
  rcases readFrame_cases tail script with ⟨hh, hb, s, hr, -⟩ | ⟨hh, hb, hr, -⟩ | ⟨hh, hb, hr, -⟩
  · cases h with
    | clean ht => subst ht; rw [hr]; rfl
    | cut ht => rw [hr, ht]
    | malformed ht => rw [hr, ht]
    | refused ht hacc =>
      subst ht
      unfold accept at hacc
      simp only [hr, readFrame_encode, hacc]
    | headerError he => simp [hh] at he
    | bodyError _ he => simp [hb] at he
  · rcases hread : readFrame tail script with ⟨res, rest', s⟩
    rw [hread] at hr
    cases hr
    cases h with
    | headerError => rfl
    | clean _ he => simp [hh] at he
    | cut _ he => simp [hh] at he
    | malformed _ he => simp [hh] at he
    | refused _ _ he => simp [hh] at he
    | bodyError he => simp [hh] at he
  · rcases hread : readFrame tail script with ⟨res, rest', s⟩
    rw [hread] at hr
    cases hr
    cases h with
    | bodyError => rfl
    | clean _ _ he => simp [hb] at he
    | cut _ _ he => simp [hb] at he
    | malformed _ _ he => simp [hb] at he
    | refused _ _ _ he => simp [hb] at he
    | headerError _ he => simp [hb] at he

/-- **Every run of the loop** is a stretch of accepted frames and a halt. -/
theorem replayLoop_total (rest : Bytes) (script : ReadScript) (r : Replayed S) :
    ∃ fs tail script' r' e, Replays S rest script r fs tail script' r' ∧
      Halts S r' tail script' e := by
  induction hn : rest.length using Nat.strong_induction_on generalizing rest script r with
  | _ n ih =>
  rcases readFrame_cases rest script with ⟨hh, hb, s, hr, -⟩ | ⟨hh, hb, hr, -⟩ | ⟨hh, hb, hr, -⟩
  · cases hres : (readFrame rest []).1 with
    | eof => exact ⟨[], rest, script, r, _, .refl _ _ _, .clean (readFrame_eof.1 hres) hh hb⟩
    | fail => exact ⟨[], rest, script, r, _, .refl _ _ _, .malformed hres hh hb⟩
    | torn => exact ⟨[], rest, script, r, _, .refl _ _ _, .cut hres hh hb⟩
    | frame tag payload commit =>
      rw [hres] at hr
      obtain ⟨f, rfl, rfl, rfl, hrest, -⟩ := readFrame_frame hr
      cases hacc : accept S r f with
      | none => exact ⟨[], rest, script, r, _, .refl _ _ _, .refused hrest hacc hh hb⟩
      | some r1 =>
        have hlt : (readFrame rest []).2.1.length < n := by
          have := f.encode_length_ge
          have hlen := congrArg List.length hrest
          rw [List.length_append] at hlen
          omega
        obtain ⟨fs, tail, s', r', e, hreplays, hhalts⟩ := ih _ hlt _ s r1 rfl
        exact ⟨f :: fs, tail, s', r', e, .step hr hacc hreplays, hhalts⟩
  · exact ⟨[], rest, script, r, _, .refl _ _ _, .headerError hh hb⟩
  · exact ⟨[], rest, script, r, _, .refl _ _ _, .bodyError hh hb⟩

/-- A pass that reads a frame and accepts it does not halt. -/
theorem Halts.not_accept {rest rest' : Bytes} {script script' : ReadScript} {r r' : Replayed S}
    {e : ReplayEnd} {f : Frame} (h : Halts S r rest script e)
    (hread : readFrame rest script = (.frame f.tag f.payload f.commit, rest', script'))
    (hacc : accept S r f = some r') : False := by
  rcases readFrame_cases rest script with ⟨hh, hb, s, hr, -⟩ | ⟨-, -, hr, -⟩ | ⟨-, -, hr, -⟩
  · have hnil : (readFrame rest []).1 = .frame f.tag f.payload f.commit := by
      rw [hread] at hr
      exact (congrArg Prod.fst hr).symm
    cases h with
    | clean ht =>
      subst ht
      cases hnil
    | cut ht => simp [ht] at hnil
    | malformed ht => simp [ht] at hnil
    | @refused g rest2 ht hnone =>
      rw [ht, readFrame_encode] at hnil
      simp only [FrameRead.frame.injEq] at hnil
      obtain rfl : g = f := Frame.ext hnil.1 hnil.2.1 hnil.2.2
      rw [hacc] at hnone
      cases hnone
    | headerError he => simp [hh] at he
    | bodyError _ he => simp [hb] at he
  · rw [hread] at hr
    cases hr
  · rw [hread] at hr
    cases hr

/-- A read error halts the loop. -/
theorem halts_of_readFails (r : Replayed S) {tail : Bytes} {script : ReadScript}
    (h : headerReadFails tail script = true ∨ bodyReadFails tail script = true) :
    ∃ e, Halts S r tail script e := by
  rcases readFrame_cases tail script with ⟨hh, hb, -⟩ | ⟨hh, hb, -⟩ | ⟨hh, hb, -⟩
  · simp [hh, hb] at h
  · exact ⟨_, .headerError hh hb⟩
  · exact ⟨_, .bodyError hh hb⟩

/-- The loop reaches one halt. -/
theorem Replays.unique {rest tail1 tail2 : Bytes} {script s1 s2 : ReadScript} {r r1 r2 : Replayed S}
    {fs1 fs2 : List Frame} {e1 e2 : ReplayEnd} (h1 : Replays S rest script r fs1 tail1 s1 r1)
    (hh1 : Halts S r1 tail1 s1 e1) (h2 : Replays S rest script r fs2 tail2 s2 r2)
    (hh2 : Halts S r2 tail2 s2 e2) : tail1 = tail2 ∧ s1 = s2 := by
  induction h1 generalizing fs2 with
  | refl rest script r =>
    cases h2 with
    | refl => exact ⟨rfl, rfl⟩
    | step hread hacc _ => exact (hh1.not_accept hread hacc).elim
  | step hread hacc _ ih =>
    cases h2 with
    | refl => exact (hh2.not_accept hread hacc).elim
    | step hread2 hacc2 h2 =>
      rw [hread] at hread2
      simp only [Prod.mk.injEq, FrameRead.frame.injEq] at hread2
      obtain ⟨⟨ht, hp, hc⟩, rfl, rfl⟩ := hread2
      rw [← Frame.ext ht hp hc, hacc] at hacc2
      cases hacc2
      exact ih hh1 h2

theorem replay_eq {genesis : S.LedgerCtx} {file tail : Bytes} {script script' : ReadScript}
    {fs : List Frame} {r : Replayed S} {e : ReplayEnd}
    (h : Replays S file script (replayStart S genesis) fs tail script' r)
    (hh : Halts S r tail script' e) : replay S genesis file script = (e, r) := by
  have hlen : 46 * fs.length ≤ file.length := by
    have := encodeAll_length_ge fs
    rw [h.facts.1, List.length_append]
    omega
  obtain ⟨k, hk⟩ : ∃ k, file.length + 1 = fs.length + (k + 1) := ⟨file.length - fs.length, by omega⟩
  unfold replay
  rw [hk]
  exact (h.loop (k + 1)).trans (hh.loop k)

/-- A clean end: the file is the encoding of accepted frames. -/
theorem replay_clean {genesis : S.LedgerCtx} {file : Bytes} {script : ReadScript} {r : Replayed S}
    (h : replay S genesis file script = (.clean, r)) :
    ∃ fs, file = encodeAll fs ∧ acceptAll S (replayStart S genesis) fs = some r := by
  obtain ⟨fs, tail, script', r', e, hreplays, hhalts⟩ :=
    replayLoop_total file script (replayStart S genesis)
  rw [replay_eq hreplays hhalts] at h
  cases h
  obtain ⟨hfile, hacc, -⟩ := hreplays.facts
  cases hhalts with
  | clean ht => exact ⟨fs, by rw [hfile, ht, List.append_nil], hacc⟩

/-- A torn end: accepted frames, and then either the end of the file inside a frame or an error. -/
theorem replay_torn {genesis : S.LedgerCtx} {file : Bytes} {script : ReadScript} {r : Replayed S}
    (h : replay S genesis file script = (.torn, r)) :
    ∃ fs tail, file = encodeAll fs ++ tail ∧ acceptAll S (replayStart S genesis) fs = some r ∧
      (none ∉ script → nextFrame tail = none) := by
  obtain ⟨fs, tail, script', r', e, hreplays, hhalts⟩ :=
    replayLoop_total file script (replayStart S genesis)
  rw [replay_eq hreplays hhalts] at h
  cases h
  obtain ⟨hfile, hacc, hsuf⟩ := hreplays.facts
  refine ⟨fs, tail, hfile, hacc, fun hnone => ?_⟩
  cases hhalts with
  | cut ht => exact nextFrame_of_torn ht
  | bodyError _ he =>
    rcases readFrame_cases tail script' with ⟨-, hb, -⟩ | ⟨-, hb, -⟩ | ⟨-, -, -, hmem⟩
    · simp [hb] at he
    · simp [hb] at he
    · exact absurd (hsuf.mem hmem) hnone

/-- With no read error the loop walks over accepted frames. -/
theorem replays_of_acceptAll {r r' : Replayed S} {fs : List Frame} {script : ReadScript}
    (hnone : none ∉ script) (h : acceptAll S r fs = some r') (tail : Bytes) :
    ∃ script', Replays S (encodeAll fs ++ tail) script r fs tail script' r' := by
  induction fs generalizing r script with
  | nil => cases h; exact ⟨script, .refl _ _ _⟩
  | cons f fs ih =>
    obtain ⟨r1, h1, h2⟩ := Option.bind_eq_some_iff.1 h
    rw [encodeAll_cons, List.append_assoc]
    rcases readFrame_cases (f.encode ++ (encodeAll fs ++ tail)) script with
      ⟨-, -, s, hr, hs⟩ | ⟨-, -, -, hmem⟩ | ⟨-, -, -, hmem⟩
    · rw [readFrame_encode] at hr
      obtain ⟨script', hreplays⟩ := ih (fun hm => hnone (hs.mem hm)) h2
      exact ⟨script', .step hr h1 hreplays⟩
    · exact absurd hmem hnone
    · exact absurd hmem hnone

/-- Without an error in the read results neither kind of read error occurs. -/
theorem readFails_of_notMem (tail : Bytes) {script : ReadScript} (hnone : none ∉ script) :
    headerReadFails tail script = false ∧ bodyReadFails tail script = false := by
  rcases readFrame_cases tail script with ⟨hh, hb, -⟩ | ⟨-, -, -, hmem⟩ | ⟨-, -, -, hmem⟩
  · exact ⟨hh, hb⟩
  · exact absurd hmem hnone
  · exact absurd hmem hnone

/-- **Replay reads back what was encoded**, when no read fails. -/
theorem replay_encodeAll {genesis : S.LedgerCtx} {fs : List Frame} {script : ReadScript}
    {r : Replayed S} (hnone : none ∉ script)
    (h : acceptAll S (replayStart S genesis) fs = some r) :
    replay S genesis (encodeAll fs) script = (.clean, r) := by
  obtain ⟨script', hreplays⟩ := replays_of_acceptAll hnone h []
  rw [List.append_nil] at hreplays
  have hnone' : none ∉ script' := fun hmem => hnone (hreplays.facts.2.2.mem hmem)
  obtain ⟨hh, hb⟩ := readFails_of_notMem [] hnone'
  exact replay_eq hreplays (.clean rfl hh hb)

/-- Accepted frames and a cut one behind them end torn. -/
theorem replay_encodeAll_cut {genesis : S.LedgerCtx} {fs : List Frame} {tail : Bytes}
    {script : ReadScript} {r : Replayed S} (hnone : none ∉ script)
    (h : acceptAll S (replayStart S genesis) fs = some r) (ht : (readFrame tail []).1 = .torn) :
    replay S genesis (encodeAll fs ++ tail) script = (.torn, r) := by
  obtain ⟨script', hreplays⟩ := replays_of_acceptAll hnone h tail
  have hnone' : none ∉ script' := fun hmem => hnone (hreplays.facts.2.2.mem hmem)
  obtain ⟨hh, hb⟩ := readFails_of_notMem tail hnone'
  exact replay_eq hreplays (.cut ht hh hb)

variable (S)

/-- The chain over the commits of frames. -/
def chainOf (ctx : S.LedgerCtx) (fs : List Frame) : Option S.LedgerCtx :=
  fs.foldlM (fun ctx f => S.axLedgerAppend ctx ⟨f.commit, f.commitLen⟩) ctx

variable {S}

theorem acceptAll_chainOf {r r' : Replayed S} {fs : List Frame} (h : acceptAll S r fs = some r') :
    chainOf S r.ctx fs = some r'.ctx := by
  induction fs generalizing r with
  | nil => cases h; rfl
  | cons f fs ih =>
    obtain ⟨r1, h1, h2⟩ := Option.bind_eq_some_iff.1 h
    obtain ⟨d, ctx, -, hc, hctx, rfl⟩ := accept_eq_some h1
    obtain rfl : d = ⟨f.commit, f.commitLen⟩ := by
      cases d
      cases hc
      rfl
    unfold chainOf
    rw [List.foldlM_cons, hctx]
    exact ih h2

/-- The genesis has sequence number 0, and an append that does not fault adds one. -/
structure Counts (S : Substrate) : Prop where
  genesis : ∀ g, S.axLedgerGenesis = some g → S.sequence g = 0
  append : ∀ ctx d ctx', S.axLedgerAppend ctx d = some ctx' → S.sequence ctx' = S.sequence ctx + 1

theorem acceptAll_sequence (hcount : Counts S) {r r' : Replayed S} {fs : List Frame}
    (h : acceptAll S r fs = some r') :
    S.sequence r'.ctx = S.sequence r.ctx + UInt64.ofNat fs.length := by
  induction fs generalizing r with
  | nil =>
    cases h
    simp
  | cons f fs ih =>
    obtain ⟨r1, h1, h2⟩ := Option.bind_eq_some_iff.1 h
    obtain ⟨d, ctx, -, -, hctx, rfl⟩ := accept_eq_some h1
    rw [ih h2, hcount.append _ _ _ hctx, List.length_cons, UInt64.ofNat_add, UInt64.add_assoc,
      UInt64.add_comm 1]
    rfl

/-- The chain has counted the frames of the file. -/
theorem sequence_toNat (hcount : Counts S) {genesis : S.LedgerCtx} {r : Replayed S}
    {fs : List Frame} (hgen : S.axLedgerGenesis = some genesis)
    (hacc : acceptAll S (replayStart S genesis) fs = some r)
    (hsize : (encodeAll fs).length ≤ offMax) : (S.sequence r.ctx).toNat = fs.length := by
  have hge := encodeAll_length_ge fs
  have hmax : offMax < UInt64.size := by decide
  have hstart : S.sequence (replayStart S genesis).ctx = 0 := hcount.genesis _ hgen
  rw [acceptAll_sequence hcount hacc, hstart, UInt64.zero_add]
  exact UInt64.toNat_ofNat_of_lt' (by omega)

/-! ## The valid frames of a file -/

variable (S)

/-- The complete frames whose commits match, up to the first that fails to. -/
def validFrames (file : Bytes) : List Frame := (frames file).takeWhile (commitMatches S)

variable {S}

theorem validFrames_encodeAll_append {fs : List Frame} (h : ∀ f ∈ fs, commitMatches S f = true)
    (rest : Bytes) : validFrames S (encodeAll fs ++ rest) = fs ++ validFrames S rest := by
  rw [validFrames, frames_append, List.takeWhile_append_of_pos h]
  rfl

/-- The valid frames are at the start of the file. -/
theorem encodeAll_validFrames_le (file : Bytes) : encodeAll (validFrames S file) <+: file := by
  obtain ⟨tail, hfile, -⟩ := frames_split file
  have hsplit := List.takeWhile_append_dropWhile (p := commitMatches S) (l := frames file)
  refine ⟨encodeAll ((frames file).dropWhile (commitMatches S)) ++ tail, ?_⟩
  rw [← List.append_assoc, ← encodeAll_append, validFrames, hsplit, ← hfile]

theorem validFrames_matches (file : Bytes) : ∀ f ∈ validFrames S file, commitMatches S f = true :=
  fun _ hf => List.mem_takeWhile_imp hf

/-- Frames that stay at the start of the file stay valid. -/
theorem validFrames_mono {file file' : Bytes} (h : encodeAll (validFrames S file) <+: file') :
    encodeAll (validFrames S file) <+: encodeAll (validFrames S file') := by
  obtain ⟨rest, rfl⟩ := h
  rw [validFrames_encodeAll_append (validFrames_matches file), encodeAll_append]
  exact List.prefix_append _ _

/-! ## What append writes, and tampering -/

theorem suffix_inside {α : Type} {as bs cs ds : List α} (h : as ++ bs = cs ++ ds)
    (hlen : ds.length ≤ bs.length) : ∃ q, bs = q ++ ds := by
  have hsuf : ds <:+ bs :=
    List.suffix_of_suffix_length_le (h ▸ List.suffix_append cs ds) (List.suffix_append as bs) hlen
  obtain ⟨q, hq⟩ := hsuf
  exact ⟨q, hq.symm⟩

variable (S)

/-- The bytes `gwl_append` writes for a tag and a payload, when it accepts them. -/
def frameBytes (tag : CStr) (payload : Bytes) : Option Bytes :=
  if tag.bytes.length = 0 ∨ tag.bytes.length > gwlTagMax then none
  else if payload.length = 0 ∨ payload.length > gwlPayloadMax then none
  else (S.axCommitEvidence tag payload).map fun commit =>
    (frameChunks tag.bytes payload commit.bytes).flatten

/-- The bytes of successive appends, when each is accepted. -/
def appendedBytes : List (CStr × Bytes) → Option Bytes
  | [] => some []
  | (tag, payload) :: rest => do
    let bs ← frameBytes S tag payload
    let more ← appendedBytes rest
    return bs ++ more

/-- Two different inputs of `ax_commit_evidence`, each a tag and a payload, have one commitment. -/
def CollidesOn (x y : CStr × Bytes) : Prop :=
  x ≠ y ∧ ∃ d, S.axCommitEvidence x.1 x.2 = some d ∧ S.axCommitEvidence y.1 y.2 = some d

/-- There are two such inputs. -/
def Collides : Prop := ∃ x y, CollidesOn S x y

/-- What `ax_commit_evidence` is given for a frame that is read back. -/
def Frame.input (f : Frame) : CStr × Bytes := (.ofBytes f.tag, f.payload)

variable {S}

theorem frameBytes_eq_some {tag : CStr} {payload bs : Bytes}
    (h : frameBytes S tag payload = some bs) :
    ∃ f : Frame, f.tag = tag.bytes ∧ f.payload = payload ∧ bs = f.encode ∧
      S.axCommitEvidence tag payload = some ⟨f.commit, f.commitLen⟩ := by
  unfold frameBytes at h
  split at h
  · cases h
  next ht =>
  split at h
  · cases h
  next hp =>
  obtain ⟨d, hd, rfl⟩ := Option.map_eq_some_iff.1 h
  exact ⟨⟨tag.bytes, payload, d.bytes, by omega, by omega, d.size⟩, rfl, rfl, rfl, hd⟩

/-- A valid frame whose tag holds no NUL is what append writes for it. -/
theorem frameBytes_of_matches {f : Frame} (hm : commitMatches S f = true) (hnul : 0 ∉ f.tag) :
    frameBytes S (.ofBytes f.tag) f.payload = some f.encode := by
  have ht := f.tagLen
  have hp := f.payloadLen
  have htag : (CStr.ofBytes f.tag).bytes = f.tag := CStr.ofBytes_of_nulFree hnul
  unfold commitMatches at hm
  split at hm
  next d hd =>
    unfold frameBytes
    rw [htag, if_neg (by omega), if_neg (by omega), hd, Option.map_some, eq_of_beq hm]
    rfl
  · cases hm

/-- What successive appends write is a list of frames with their tags. -/
theorem appendedBytes_eq_some {tps : List (CStr × Bytes)} {bs : Bytes}
    (h : appendedBytes S tps = some bs) :
    ∃ fs : List Frame, bs = encodeAll fs ∧ fs.map Frame.tag = tps.map fun tp => tp.1.bytes := by
  induction tps generalizing bs with
  | nil =>
    cases h
    exact ⟨[], rfl, rfl⟩
  | cons tp tps ih =>
    obtain ⟨b1, hb1, h⟩ := Option.bind_eq_some_iff.1 h
    obtain ⟨b2, hb2, h⟩ := Option.bind_eq_some_iff.1 h
    cases h
    obtain ⟨f, htag, -, rfl, -⟩ := frameBytes_eq_some hb1
    obtain ⟨fs, rfl, htags⟩ := ih hb2
    exact ⟨f :: fs, rfl, by rw [List.map_cons, List.map_cons, htag, htags]⟩

/-- **The stored bytes are those of an append exactly when no tag field holds a NUL.** -/
theorem appendedBytes_eq_encodeAll {fs : List Frame} (hm : ∀ f ∈ fs, commitMatches S f = true) :
    appendedBytes S (fs.map fun f => (.ofBytes f.tag, f.payload)) = some (encodeAll fs) ↔
      ∀ f ∈ fs, 0 ∉ f.tag := by
  constructor
  · intro h f hf
    obtain ⟨gs, hgs, htags⟩ := appendedBytes_eq_some h
    have hfs : fs = gs := by rw [← frames_encodeAll' fs, hgs, frames_encodeAll']
    subst hfs
    rw [List.map_map] at htags
    have htag : f.tag = (CStr.ofBytes f.tag).bytes := List.map_inj_left.1 htags f hf
    rw [htag]
    exact (CStr.ofBytes f.tag).nulFree
  · intro hnul
    induction fs with
    | nil => rfl
    | cons f fs ih =>
      have hf := frameBytes_of_matches (hm f List.mem_cons_self) (hnul f List.mem_cons_self)
      have hfs := ih (fun g hg => hm g (List.mem_cons_of_mem _ hg))
        fun g hg => hnul g (List.mem_cons_of_mem _ hg)
      rw [List.map_cons, appendedBytes, hf, Option.bind_eq_bind, Option.bind_some, hfs]
      rfl

/-- A frame up to its commit. -/
def Frame.body (f : Frame) : Bytes :=
  wrU32le f.tag.length ++ (f.tag ++ (wrU64le f.payload.length ++ f.payload))

theorem Frame.encode_eq_body (f : Frame) : f.encode = f.body ++ f.commit := by
  simp only [encode_eq, body, List.append_assoc]

theorem commit_eq_of_matches {f g : Frame} (hf : commitMatches S f = true)
    (hg : commitMatches S g = true) (ht : f.tag = g.tag) (hp : f.payload = g.payload) :
    f.commit = g.commit := by
  unfold commitMatches at hf hg
  rw [ht, hp] at hf
  split at hf
  next d hd =>
    simp only [hd] at hg
    rw [← eq_of_beq hf, ← eq_of_beq hg]
  · cases hf

theorem collides_of_commit_eq {f g : Frame} (hf : commitMatches S f = true)
    (hg : commitMatches S g = true) (hfn : 0 ∉ f.tag) (hgn : 0 ∉ g.tag)
    (hc : f.commit = g.commit) (hne : f ≠ g) : CollidesOn S f.input g.input := by
  unfold commitMatches at hf hg
  split at hf
  next d hd =>
    split at hg
    next d' hd' =>
      have hdd : d = d' := by
        cases d
        cases d'
        simp only [Digest.mk.injEq]
        exact ((eq_of_beq hf).trans hc).trans (eq_of_beq hg).symm
      subst hdd
      refine ⟨fun he => hne ?_, d, hd, hd'⟩
      simp only [Frame.input, Prod.mk.injEq] at he
      have htag := congrArg CStr.bytes he.1
      rw [CStr.ofBytes_of_nulFree hfn, CStr.ofBytes_of_nulFree hgn] at htag
      exact Frame.ext htag he.2 hc
    · cases hg
  · cases hf

/-- **One changed byte is a collision** between a frame of the one file and a frame of the other:
two files of valid frames, with no NUL in a tag field, that differ in exactly one byte. -/
theorem collides_of_tamper {fs fs' : List Frame} {pre post : Bytes} {b b' : UInt8}
    (hm : ∀ f ∈ fs, commitMatches S f = true ∧ 0 ∉ f.tag)
    (hm' : ∀ f ∈ fs', commitMatches S f = true ∧ 0 ∉ f.tag)
    (hF : encodeAll fs = pre ++ b :: post) (hF' : encodeAll fs' = pre ++ b' :: post)
    (hne : b ≠ b') : ∃ f ∈ fs, ∃ g ∈ fs', CollidesOn S f.input g.input := by
  -- from the end of the file: as long as the changed byte is before the last commit, the last two
  -- frames agree (or collide) and can be taken off
  induction fs using List.reverseRecOn generalizing fs' post with
  | nil => simp at hF
  | append_singleton gs f ih =>
    obtain ⟨hf, hfn⟩ := hm f (by simp)
    rcases List.eq_nil_or_concat fs' with rfl | ⟨gs', f', rfl⟩
    · simp at hF'
    rw [List.concat_eq_append] at hF' hm'
    obtain ⟨hf', hfn'⟩ := hm' f' (by simp)
    have hc := f.commitLen
    have hc' := f'.commitLen
    simp only [encodeAll_append, encodeAll_cons, encodeAll_nil, List.append_nil] at hF hF'
    by_cases hlen : 32 ≤ post.length
    · obtain ⟨p1, c, rfl, hcl⟩ : ∃ p1 c, post = p1 ++ c ∧ c.length = 32 :=
        ⟨post.take (post.length - 32), post.drop (post.length - 32),
          (List.take_append_drop _ _).symm, by rw [List.length_drop]; omega⟩
      have e1 : f.commit = c := by
        rw [f.encode_eq_body, ← List.append_assoc, ← List.cons_append, ← List.append_assoc] at hF
        exact (List.append_inj' hF (by omega)).2
      have e2 : f'.commit = c := by
        rw [f'.encode_eq_body, ← List.append_assoc, ← List.cons_append, ← List.append_assoc] at hF'
        exact (List.append_inj' hF' (by omega)).2
      by_cases hff : f = f'
      · subst hff
        by_cases hin : f.encode.length ≤ (p1 ++ c).length
        · obtain ⟨p2, e, hpe, hel⟩ : ∃ p2 e, p1 ++ c = p2 ++ e ∧ e.length = f.encode.length :=
            ⟨(p1 ++ c).take ((p1 ++ c).length - f.encode.length),
              (p1 ++ c).drop ((p1 ++ c).length - f.encode.length),
              (List.take_append_drop _ _).symm, by rw [List.length_drop]; omega⟩
          rw [hpe, ← List.cons_append, ← List.append_assoc] at hF hF'
          obtain ⟨h1, -⟩ := List.append_inj' hF hel.symm
          obtain ⟨h1', -⟩ := List.append_inj' hF' hel.symm
          obtain ⟨g, hg, g', hg', hcoll⟩ :=
            ih (fun g hg => hm g (by simp [hg])) (fun g hg => hm' g (by simp [hg])) h1 h1'
          exact ⟨g, by simp [hg], g', by simp [hg'], hcoll⟩
        · -- the changed byte would be inside the one last frame
          obtain ⟨q, hq⟩ : ∃ q, f.encode = q ++ b :: (p1 ++ c) :=
            suffix_inside hF (by rw [List.length_cons]; omega)
          obtain ⟨q', hq'⟩ : ∃ q, f.encode = q ++ b' :: (p1 ++ c) :=
            suffix_inside hF' (by rw [List.length_cons]; omega)
          have := (List.append_inj' (hq.symm.trans hq') rfl).2
          simp only [List.cons.injEq, and_true] at this
          exact absurd this hne
      · exact ⟨f, by simp, f', by simp,
          collides_of_commit_eq hf hf' hfn hfn' (e1.trans e2.symm) hff⟩
    · -- the changed byte is in the last commit: everything before it is the same
      rw [f.encode_eq_body, ← List.append_assoc] at hF
      obtain ⟨q, hq⟩ : ∃ q, f.commit = q ++ b :: post :=
        suffix_inside hF (by rw [List.length_cons]; omega)
      rw [hq, ← List.append_assoc] at hF
      have hpre := (List.append_inj' hF rfl).1
      have hql : (q ++ b' :: post).length = 32 := by
        rw [hq] at hc
        simpa using hc
      let g : Frame := ⟨f.tag, f.payload, q ++ b' :: post, f.tagLen, f.payloadLen, hql⟩
      have hg : encodeAll (gs' ++ [f']) = encodeAll (gs ++ [g]) := by
        have hbody : g.body = f.body := rfl
        simp only [encodeAll_append, encodeAll_cons, encodeAll_nil, List.append_nil, hF',
          g.encode_eq_body, hbody]
        rw [← hpre]
        simp [g]
      have hfs := congrArg frames hg
      rw [frames_encodeAll', frames_encodeAll'] at hfs
      have hlast := (List.append_inj' hfs rfl).2
      simp only [List.cons.injEq, and_true] at hlast
      have := commit_eq_of_matches hf hf' (by rw [hlast]) (by rw [hlast])
      rw [hq, hlast] at this
      have := (List.append_inj' this rfl).2
      simp only [List.cons.injEq, and_true] at this
      exact absurd this hne

end Replay

end AxiomaOracle
