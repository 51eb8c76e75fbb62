import AxiomaOracle.Gateway.Main
import AxiomaOracle.Verify.Admission
import AxiomaOracle.Verify.Frames

/-!
# What the evidence is about

The abstract state behind the gateway: the complete frames of the ledger, the WAL file, the oracle
calls made so far and, for each creation of the WAL, how many observations and calls there were. Its
steps are few: the WAL is created, written and removed, the oracle is called, a frame is appended,
and a failed read may cut frames off. `Stable` is the invariant, and each step keeps it under the
condition its lemma names.
-/

namespace AxiomaOracle

open Lib

def isObs (f : Frame) : Bool := f.tag == gwTagObs.bytes

/-- The number of `AX:OBS:v1` frames. -/
def obsCount (fs : List Frame) : Nat := fs.countP isObs

theorem obsCount_append (fs : List Frame) (f : Frame) :
    obsCount (fs ++ [f]) = obsCount fs + if isObs f then 1 else 0 := by
  rw [obsCount, List.countP_append, List.countP_singleton]
  rfl

/-- The frame holds a record that was admitted, that validates, and that has this number. -/
def HoldsRecord (S : Substrate) (f : Frame) (k : Nat) : Prop :=
  ∃ rec, Accepted S rec ∧ (∀ faults, axObsValidate S rec faults = (none, faults)) ∧
    axObsCanonicalise axCanonicalBufferSize rec true = .ok f.payload ∧ rec.ledgerSeq.toNat = k

/-- Every observation carries its own position, counted from 1. -/
def Numbered (S : Substrate) (fs : List Frame) : Prop :=
  ∀ i f, fs[i]? = some f → isObs f = true → HoldsRecord S f (i + 1)

theorem Numbered.append {S : Substrate} {fs : List Frame} (h : Numbered S fs) {f : Frame}
    (hf : isObs f = true → HoldsRecord S f (fs.length + 1)) : Numbered S (fs ++ [f]) := by
  intro i g hg hi
  rw [List.getElem?_append] at hg
  split at hg
  · exact h i g hg hi
  next hge =>
    obtain ⟨hlt, rfl⟩ := List.getElem?_eq_some_iff.1 hg
    have : i = fs.length := by
      rw [List.length_singleton] at hlt
      omega
    subst this
    rw [List.getElem_singleton] at hi ⊢
    exact hf hi

theorem Numbered.of_append {S : Substrate} {fs fs' : List Frame} (h : Numbered S fs)
    (hfs : fs' <+: fs) : Numbered S fs' := by
  intro i f hf
  obtain ⟨rest, hrest⟩ := hfs
  refine h i f ?_
  obtain ⟨hlt, -⟩ := List.getElem?_eq_some_iff.1 hf
  rw [← hrest, List.getElem?_append_left hlt, hf]

/-- What there was when a WAL was created. -/
structure Mark where
  frames : List Frame
  calls : Nat

def Mark.obs (m : Mark) : Nat := obsCount m.frames

structure Evidence where
  frames : List Frame
  wal : Option Node
  calls : Nat
  marks : List Mark

/-- From one creation of the WAL to the next there is at most one observation, and there is none
before the first. -/
inductive Spaced : Nat → List Mark → Prop
  | nil : Spaced 0 []
  | cons {n : Nat} {m : Mark} {ms : List Mark} (hle : n ≤ m.obs + 1) (hms : Spaced m.obs ms) :
      Spaced n (m :: ms)

theorem Spaced.tail {n : Nat} {m : Mark} {ms : List Mark} : Spaced n (m :: ms) → Spaced m.obs ms
  | .cons _ hms => hms

instance decidableSpaced : (n : Nat) → (ms : List Mark) → Decidable (Spaced n ms)
  | 0, [] => .isTrue .nil
  | _ + 1, [] => .isFalse nofun
  | n, m :: ms =>
    have := decidableSpaced m.obs ms
    decidable_of_iff (n ≤ m.obs + 1 ∧ Spaced m.obs ms)
      ⟨fun h => .cons h.1 h.2, fun | .cons hle hms => ⟨hle, hms⟩⟩

/-- The hash of the text a recovery of the intent records. -/
def recoveryHash (S : Substrate) (i : GwIntent) : Bytes :=
  (hex32 (axComputeInputHash S (synthInput i))).bytes

namespace Evidence

variable (E : Evidence)

def obs : Nat := obsCount E.frames

/-- The last payload holds this hash. -/
def Carries (hash : Bytes) : Prop := lastPayloadContains (lastPayload E.frames) hash = true

/-- The intent the WAL file holds. -/
def intent : Option GwIntent :=
  match E.wal with
  | some (.file bs) => match parseIntent bs with
    | .intent i => some i
    | _ => none
  | _ => none

/-- The frames are those there were when the WAL was created. -/
def Untouched : Prop := ∃ m ms, E.marks = m :: ms ∧ E.frames = m.frames

/-- The call of the last intent was made, and the frames are still those it found. -/
def Pending : Prop := ∃ m ms, E.marks = m :: ms ∧ m.calls < E.calls ∧ E.frames = m.frames

/-- The last payload tells of the open intent: it holds its hash, or that of its recovery. -/
def Traced (S : Substrate) : Prop :=
  ∀ i, E.intent = some i → E.Carries i.inputHashHex.bytes ∨ E.Carries (recoveryHash S i)

end Evidence

/-- Which parts of the invariant are followed: that calls are evidenced, that intents have one
observation, that observations are numbered. -/
structure Watch where
  owed : Prop
  spaced : Prop
  numbered : Prop

/-- The parts that lost frames would break. -/
def Watch.strict (W : Watch) : Prop := W.owed ∨ W.spaced

/-- The invariant. -/
structure Stable (S : Substrate) (W : Watch) (E : Evidence) : Prop where
  walFile : E.wal ≠ some .sock
  owed : W.owed → E.calls ≤ E.obs ∨ (E.wal ≠ none ∧ E.Pending ∧ E.calls ≤ E.obs + 1)
  opened : W.spaced → E.wal ≠ none → E.Untouched ∨ E.Traced S
  spaced : W.spaced → Spaced E.obs E.marks
  numbered : W.numbered → Numbered S E.frames

/-! ## The steps -/

namespace Stable

variable {S : Substrate} {W : Watch} {E : Evidence}

theorem initial (S : Substrate) (W : Watch) : Stable S W ⟨[], none, 0, []⟩ where
  walFile := by simp
  owed _ := .inl (Nat.le_refl 0)
  opened _ h := absurd rfl h
  spaced _ := .nil
  numbered _ := by simp [Numbered]

/-- At most one call has no observation. -/
theorem calls_le (h : Stable S W E) (hW : W.owed) : E.calls ≤ E.obs + 1 := by
  rcases h.owed hW with h | ⟨-, -, h⟩
  · omega
  · exact h

theorem calls_le_of_absent (h : Stable S W E) (hwal : E.wal = none) (hW : W.owed) :
    E.calls ≤ E.obs := by
  rcases h.owed hW with h | ⟨hne, -, -⟩
  · exact h
  · exact absurd hwal hne

theorem calls_le_of_answered (h : Stable S W E) (hW : W.owed) (hp : ¬ E.Pending) :
    E.calls ≤ E.obs := by
  rcases h.owed hW with h | ⟨-, hpend, -⟩
  · exact h
  · exact absurd hpend hp

/-- An open intent that no payload tells of has no observation. -/
theorem untouched_of_untraced (h : Stable S W E) (hW : W.spaced) {i : GwIntent}
    (hi : E.intent = some i) (hhash : ¬ E.Carries i.inputHashHex.bytes)
    (hrec : ¬ E.Carries (recoveryHash S i)) : E.Untouched := by
  have hwal : E.wal ≠ none := by
    intro hnone
    rw [Evidence.intent, hnone] at hi
    cases hi
  rcases h.opened hW hwal with h | htraced
  · exact h
  · rcases htraced i hi with h | h
    · exact absurd h hhash
    · exact absurd h hrec

theorem openWal (h : Stable S W E) (hwal : E.wal = none) (bs : Bytes) :
    Stable S W { E with wal := some (.file bs), marks := ⟨E.frames, E.calls⟩ :: E.marks } where
  walFile := by simp
  owed hW := .inl (h.calls_le_of_absent hwal hW)
  opened _ _ := .inl ⟨_, _, rfl, rfl⟩
  spaced hW := .cons (Nat.le_succ _) (h.spaced hW)
  numbered := h.numbered

/-- The WAL may go once every call has its observation. -/
theorem clearWal (h : Stable S W E) (hpaid : W.owed → E.calls ≤ E.obs) :
    Stable S W { E with wal := none } where
  walFile := by simp
  owed hW := .inl (hpaid hW)
  opened _ hne := absurd rfl hne
  spaced := h.spaced
  numbered := h.numbered

/-- A call under a fresh intent is the one that is pending. -/
theorem call (h : Stable S W E) (hwal : E.wal ≠ none) {ms : List Mark}
    (hmark : E.marks = ⟨E.frames, E.calls⟩ :: ms) (hpaid : W.owed → E.calls ≤ E.obs) :
    Stable S W { E with calls := E.calls + 1 } where
  walFile := h.walFile
  owed hW := .inr ⟨hwal, ⟨_, ms, hmark, Nat.lt_succ_self _, rfl⟩, Nat.succ_le_succ (hpaid hW)⟩
  opened := h.opened
  spaced := h.spaced
  numbered := h.numbered

/-- An observation may be appended when its intent has none yet, the payload tells of the intent,
and it carries the next number. -/
theorem appendObs (h : Stable S W E) {f : Frame} (hf : isObs f = true)
    (hone : W.spaced → E.Untouched)
      (htrace : W.spaced → { E with frames := E.frames ++ [f] }.Traced S)
    (hnum : W.numbered → HoldsRecord S f (E.frames.length + 1)) :
    Stable S W { E with frames := E.frames ++ [f] } := by
  have hobs : obsCount (E.frames ++ [f]) = E.obs + 1 := by
    rw [obsCount_append, if_pos hf]
    rfl
  refine ⟨h.walFile, fun hW => .inl ?_, fun hW _ => .inr (htrace hW), fun hW => ?_,
    fun hW => (h.numbered hW).append fun _ => hnum hW⟩
  · rw [Evidence.obs, hobs]
    exact h.calls_le hW
  · obtain ⟨m, ms, hmarks, hframes⟩ := hone hW
    have hsp := h.spaced hW
    rw [hmarks] at hsp ⊢
    refine .cons ?_ hsp.tail
    rw [Evidence.obs, hobs, Evidence.obs, hframes]
    exact Nat.le_refl _

/-- Any other frame, while no intent is open. -/
theorem appendState (h : Stable S W E) {f : Frame} (hf : isObs f = false)
    (hwal : W.strict → E.wal = none) : Stable S W { E with frames := E.frames ++ [f] } := by
  have hobs : obsCount (E.frames ++ [f]) = E.obs := by
    rw [obsCount_append, hf]
    rfl
  refine ⟨h.walFile, fun hW => .inl ?_, fun hW hne => absurd (hwal (.inr hW)) hne, fun hW => ?_,
    fun hW => (h.numbered hW).append fun hf' => ?_⟩
  · rw [Evidence.obs, hobs]
    exact h.calls_le_of_absent (hwal (.inl hW)) hW
  · rw [Evidence.obs, hobs]
    exact h.spaced hW
  · rw [hf] at hf'
    cases hf'

/-- A cut keeps the numbers. -/
theorem cut (h : Stable S W E) (hW : ¬ W.strict) {fs : List Frame} (hfs : fs <+: E.frames) :
    Stable S W { E with frames := fs } where
  walFile := h.walFile
  owed howed := absurd (.inl howed) hW
  opened hspaced := absurd (.inr hspaced) hW
  spaced hspaced := absurd (.inr hspaced) hW
  numbered hnum := (h.numbered hnum).of_append hfs

end Stable

end AxiomaOracle
