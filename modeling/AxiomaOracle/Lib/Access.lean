import AxiomaOracle.Lib.Bytes

/-!
# Scans with checked accesses

A scan over a block of memory in which everything that can go wrong has a stop of its own: a read
outside the block, a position behind its end, a write outside a buffer, a call too deep, a loop that
does not end. `Tracks` compares such a scan with a function on what is left of the text, which can
do nothing but reject. What tracks a function makes no wrong access (`Tracks.total`).
-/

namespace Lib

/-- How a scan ends without a result. Only the first is an answer of the program. -/
inductive Stop where
  | reject
  | read
  | past
  | write
  | deep
  | fuel
  deriving DecidableEq

abbrev Access (α : Type) := Except Stop α

namespace Access

def reject {α : Type} : Access α := .error .reject

def byteAt (mem : Bytes) (p : Nat) : Access UInt8 :=
  match mem[p]? with
  | some c => .ok c
  | none => .error .read

/-- The end of the block is the last position in it. -/
def moveTo (mem : Bytes) (p : Nat) : Access Unit :=
  if p ≤ mem.length then .ok () else .error .past

/-- `bs` behind the bytes `dst` at the start of a buffer of `size` bytes. -/
def put (size : Nat) (dst bs : Bytes) : Access Bytes :=
  if dst.length + bs.length ≤ size then .ok (dst ++ bs) else .error .write

/-- `s` is left at position `p`. -/
structure At (mem s : Bytes) (p : Nat) : Prop where
  le : p ≤ mem.length
  left : mem.drop p = s

/-- A result for a result, a rejection for none. -/
inductive Tracks {α β : Type} (R : α → β → Prop) : Access α → Option β → Prop where
  | ok {a : α} {b : β} : R a b → Tracks R (.ok a) (some b)
  | reject : Tracks R (.error .reject) none

/-- The scan comes to an answer. -/
def Total {α : Type} (x : Access α) : Prop := ∀ e, x = .error e → e = .reject

def ofOption {α : Type} : Option α → Access α
  | some a => .ok a
  | none => .error .reject

@[simp] theorem ok_bind {α β : Type} (a : α) (f : α → Access β) :
    ((Except.ok a : Access α) >>= f) = f a := rfl

@[simp] theorem reject_bind {α β : Type} (f : α → Access β) : (reject >>= f) = reject := rfl

/-! ## Positions -/

variable {mem s : Bytes} {c : UInt8} {p k : Nat}

theorem at_zero (mem : Bytes) : At mem mem 0 := ⟨Nat.zero_le _, rfl⟩

theorem at_drop (h : p ≤ mem.length) : At mem (mem.drop p) p := ⟨h, rfl⟩

theorem At.length (h : At mem s p) : mem.length - p = s.length := by
  rw [← h.left, List.length_drop]

theorem At.not_lt (h : At mem [] p) : ¬ p < mem.length := by
  have hlen := h.length
  rw [List.length_nil] at hlen
  omega

theorem At.lt (h : At mem (c :: s) p) : p < mem.length := by
  have hlen := h.length
  rw [List.length_cons] at hlen
  omega

theorem At.move (h : At mem s p) (hk : k ≤ s.length) : At mem (s.drop k) (p + k) := by
  refine ⟨?_, by rw [← h.left, List.drop_drop]⟩
  have hlen := h.length
  have hle := h.le
  omega

theorem At.next (h : At mem (c :: s) p) : At mem s (p + 1) :=
  h.move (k := 1) (Nat.succ_pos s.length)

theorem At.byteAt (h : At mem (c :: s) p) : byteAt mem p = .ok c := by
  have hget : mem[p]? = some c := by
    rw [← List.head?_drop, h.left, List.head?_cons]
  rw [Access.byteAt, hget]

theorem At.moveTo (h : At mem s p) : moveTo mem p = .ok () := if_pos h.le

theorem put_of_le {size : Nat} {dst bs : Bytes} (h : dst.length + bs.length ≤ size) :
    put size dst bs = .ok (dst ++ bs) := if_pos h

/-! ## Tracking -/

variable {α β γ δ : Type} {R : α → β → Prop} {S : γ → δ → Prop}

theorem Tracks.bind {x : Access α} {y : Option β} {f : α → Access γ} {g : β → Option δ}
    (h : Tracks R x y) (hf : ∀ a b, x = .ok a → y = some b → R a b → Tracks S (f a) (g b)) :
    Tracks S (x >>= f) (y >>= g) := by
  cases h with
  | ok hab => exact hf _ _ rfl rfl hab
  | reject => exact .reject

theorem Tracks.cases {x : Access α} {y : Option β} (h : Tracks R x y) :
    (x = Access.reject ∧ y = none) ∨ ∃ a b, x = .ok a ∧ y = some b ∧ R a b := by
  cases h with
  | ok hab => exact .inr ⟨_, _, rfl, rfl, hab⟩
  | reject => exact .inl ⟨rfl, rfl⟩

theorem Tracks.map {x : Access α} {y : Option β} {f : α → γ} {g : β → δ} (h : Tracks R x y)
    (hf : ∀ a b, R a b → S (f a) (g b)) : Tracks S (x >>= fun a => .ok (f a)) (y.map g) := by
  cases h with
  | ok hab => exact .ok (hf _ _ hab)
  | reject => exact .reject

theorem Tracks.ite {p q : Prop} [Decidable p] [Decidable q] {x x' : Access α} {y y' : Option β}
    (hpq : p ↔ q) (hpos : q → Tracks R x y) (hneg : ¬ q → Tracks R x' y') :
    Tracks R (if p then x else x') (if q then y else y') := by
  by_cases hq : q
  · rw [if_pos hq, if_pos (hpq.2 hq)]
    exact hpos hq
  · rw [if_neg hq, if_neg (mt hpq.1 hq)]
    exact hneg hq

/-- **What tracks a function comes to an answer.** -/
theorem Tracks.total {x : Access α} {y : Option β} (h : Tracks R x y) : Total x := by
  cases h with
  | ok _ => exact fun e he => nomatch he
  | reject => exact fun e he => (Except.error.inj he).symm

theorem Tracks.eq {x : Access α} {y : Option α} (h : Tracks (· = ·) x y) : x = ofOption y := by
  cases h with
  | ok hab => exact congrArg _ hab
  | reject => rfl

end Access

end Lib
