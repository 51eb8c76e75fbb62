import AxiomaOracle.Lib.Bytes

/-!
# Stores into a buffer

What a routine does to a buffer, as the list of its stores, first to last. A store outside of the
buffer is in the list like any other: that all are inside is a statement about the list (`Within`).
`run i bs` are the stores of a routine that fills from index `i` on.
-/

namespace Lib

/-- An index and the byte stored there. -/
abbrev Stores := List (Nat × UInt8)

namespace Stores

/-- Every store is below index `n`. -/
def Within (n : Nat) (w : Stores) : Prop := ∀ s ∈ w, s.1 < n

instance (n : Nat) (w : Stores) : Decidable (Within n w) :=
  inferInstanceAs (Decidable (∀ s ∈ w, s.1 < n))

/-- The byte at index `i` afterwards, when it was stored at all. -/
def read : Stores → Nat → Option UInt8
  | [], _ => none
  | (j, b) :: w, i => (read w i).orElse fun _ => if j = i then some b else none

/-- `bs`, stored one byte after the other from index `i` on. -/
def run : Nat → Bytes → Stores
  | _, [] => []
  | i, b :: bs => (i, b) :: run (i + 1) bs

/-- Afterwards `bs` is in the buffer from index `i` on. -/
def Holds (w : Stores) (i : Nat) (bs : Bytes) : Prop :=
  ∀ k b, bs[k]? = some b → w.read (i + k) = some b

variable {n i j : Nat} {w u : Stores} {bs cs : Bytes}

theorem within_nil (n : Nat) : Within n [] := fun _ h => absurd h List.not_mem_nil

theorem within_append : Within n (w ++ u) ↔ Within n w ∧ Within n u := List.forall_mem_append

theorem run_append (i : Nat) (bs cs : Bytes) :
    run i (bs ++ cs) = run i bs ++ run (i + bs.length) cs := by
  induction bs generalizing i with
  | nil => rfl
  | cons b bs ih =>
    rw [List.cons_append, run, ih, run, List.cons_append, List.length_cons, Nat.add_assoc,
      Nat.add_comm 1]

@[simp] theorem length_run (i : Nat) (bs : Bytes) : (run i bs).length = bs.length := by
  induction bs generalizing i with
  | nil => rfl
  | cons b bs ih => rw [run, List.length_cons, ih, List.length_cons]

theorem within_run : Within n (run i bs) ↔ bs = [] ∨ i + bs.length ≤ n := by
  induction bs generalizing i with
  | nil => exact iff_of_true (within_nil n) (.inl rfl)
  | cons b bs ih =>
    rw [run, Within, List.forall_mem_cons]
    change i < n ∧ Within n (run (i + 1) bs) ↔ _
    rw [ih, List.length_cons]
    constructor
    · rintro ⟨hi, rfl | hrest⟩
      · exact .inr hi
      · exact .inr (by omega)
    · intro h
      have hle := h.resolve_left (List.cons_ne_nil b bs)
      exact ⟨by omega, .inr (by omega)⟩

theorem read_eq_none (h : ∀ s ∈ w, s.1 ≠ i) : w.read i = none := by
  induction w with
  | nil => rfl
  | cons s w ih =>
    obtain ⟨hs, hw⟩ := List.forall_mem_cons.1 h
    rw [read, ih hw, if_neg hs]
    rfl

theorem mem_run {s : Nat × UInt8} (h : s ∈ run i bs) : i ≤ s.1 ∧ s.1 < i + bs.length := by
  induction bs generalizing i with
  | nil => cases h
  | cons b bs ih =>
    rw [List.length_cons]
    rcases List.mem_cons.1 h with rfl | h
    · exact ⟨Nat.le_refl i, by simp⟩
    · have := ih h
      omega

/-- What is stored byte by byte is there afterwards. -/
theorem holds_run (i : Nat) (bs : Bytes) : Holds (run i bs) i bs := by
  induction bs generalizing i with
  | nil => exact fun k b h => nomatch h
  | cons c bs ih =>
    intro k b hk
    cases k with
    | zero =>
      have hlater : (run (i + 1) bs).read i = none :=
        read_eq_none fun s hs => by have := (mem_run hs).1; omega
      rw [Nat.add_zero, run, read, hlater, if_pos rfl]
      exact hk
    | succ k =>
      have hlater := ih (i + 1) k b hk
      rw [Nat.add_assoc, Nat.add_comm 1] at hlater
      rw [run, read, hlater]
      rfl

theorem read_run {k : Nat} {b : UInt8} (h : bs[k]? = some b) : (run 0 bs).read k = some b := by
  have := holds_run 0 bs k b h
  rwa [Nat.zero_add] at this

end Stores

end Lib
