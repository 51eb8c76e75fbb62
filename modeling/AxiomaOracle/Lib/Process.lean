import Mathlib.Data.List.Induction
import Mathlib.Logic.Relation

/-!
# Processes that can die between any two calls

A program is a tree of calls to its environment (`Prog`). A machine says what one call does to the
persistent state, under every choice the environment can make (`Machine`). A service is a process
that boots, serves requests one after another and halts, on a machine whose state outlives it
(`Service`); at any moment the process can be killed, between two calls or inside one.

`Safe` is the program logic: a step guarantee that every call gives, a crash condition that holds at
every moment, and a postcondition. `Service.Reaches.inv` and `Service.Reaches.guarantee` are its
soundness over whole histories of boots, requests, crashes and halts.
-/

namespace Lib

/-! ## Programs -/

/-- A program that calls operations of type `Op` and goes on with their answers. -/
inductive Prog (Op : Type) (Ans : Op → Type) (α : Type) where
  | pure (a : α)
  | call (o : Op) (k : Ans o → Prog Op Ans α)

namespace Prog

variable {Op : Type} {Ans : Op → Type} {α β : Type}

def bind : Prog Op Ans α → (α → Prog Op Ans β) → Prog Op Ans β
  | .pure a, f => f a
  | .call o k, f => .call o fun a => (k a).bind f

instance : Monad (Prog Op Ans) where
  pure := Prog.pure
  bind := Prog.bind

/-- One call, with its answer as the result. -/
def perform (o : Op) : Prog Op Ans (Ans o) := .call o .pure

@[simp] theorem pure_bind' (a : α) (f : α → Prog Op Ans β) : (Prog.pure a >>= f) = f a := rfl

@[simp] theorem ret_bind (a : α) (f : α → Prog Op Ans β) :
    ((pure a : Prog Op Ans α) >>= f) = f a := rfl

@[simp] theorem perform_bind (o : Op) (f : Ans o → Prog Op Ans β) :
    (perform o >>= f) = .call o f := rfl

/-- Every operation the program can come to satisfies `P`. -/
inductive Only (P : Op → Prop) : Prog Op Ans α → Prop where
  | ret {a : α} : Only P (.pure a)
  | call {o : Op} {k : Ans o → Prog Op Ans α} (ho : P o) (hk : ∀ a, Only P (k a)) :
      Only P (.call o k)

namespace Only

variable {P P' : Op → Prop} {p q : Prog Op Ans α}

theorem perform {o : Op} {k : Ans o → Prog Op Ans β} (ho : P o) (hk : ∀ a, Only P (k a)) :
    Only P (Prog.perform o >>= k) := .call ho hk

theorem bind {f : α → Prog Op Ans β} (hp : Only P p) (hf : ∀ a, Only P (f a)) :
    Only P (p >>= f) := by
  induction hp with
  | ret => exact hf _
  | call ho _ ih => exact .call ho ih

theorem ite {c : Prop} [Decidable c] (hp : Only P p) (hq : Only P q) :
    Only P (if c then p else q) := by
  split
  · exact hp
  · exact hq

theorem mono (h : ∀ o, P o → P' o) (hp : Only P p) : Only P' p := by
  induction hp with
  | ret => exact .ret
  | call ho _ ih => exact .call (h _ ho) ih

end Only

/-- Every result the program can come to satisfies `R`. -/
inductive Yields (R : α → Prop) : Prog Op Ans α → Prop where
  | ret {a : α} (h : R a) : Yields R (.pure a)
  | call {o : Op} {k : Ans o → Prog Op Ans α} (hk : ∀ a, Yields R (k a)) : Yields R (.call o k)

namespace Yields

variable {R : α → Prop} {p q : Prog Op Ans α}

theorem bind {T : β → Prop} {f : α → Prog Op Ans β} (hp : Yields R p)
    (hf : ∀ a, R a → Yields T (f a)) : Yields T (p >>= f) := by
  induction hp with
  | ret h => exact hf _ h
  | call _ ih => exact .call ih

theorem mono {R' : α → Prop} (h : ∀ a, R a → R' a) (hp : Yields R p) : Yields R' p := by
  induction hp with
  | ret ha => exact .ret (h _ ha)
  | call _ ih => exact .call ih

/-- Behind a program whose result does not matter. -/
theorem seq {T : β → Prop} {f : α → Prog Op Ans β} (p : Prog Op Ans α) (hf : ∀ a, Yields T (f a)) :
    Yields T (p >>= f) := by
  induction p with
  | pure a => exact hf a
  | call o k ih => exact .call ih

theorem ite {c : Prop} [Decidable c] (hp : Yields R p) (hq : Yields R q) :
    Yields R (if c then p else q) := by
  split
  · exact hp
  · exact hq

end Yields

end Prog

/-! ## Machines and the program logic -/

/-- What the environment does with a call: the answer and the new state, for each of its choices. -/
structure Machine (Op : Type) (Ans : Op → Type) where
  State : Type
  Env : Type
  exec : (o : Op) → Env → State → Ans o × State

/-- A whole execution, with the environment's choice for each call. -/
def Machine.eval {Op : Type} {Ans : Op → Type} {α : Type} (M : Machine Op Ans) :
    Prog Op Ans α → (Nat → M.Env) → M.State → α × M.State
  | .pure a, _, s => (a, s)
  | .call o k, envs, s =>
    M.eval (k (M.exec o (envs 0) s).1) (fun n => envs (n + 1)) (M.exec o (envs 0) s).2

/-- What a program yields whatever is answered, it yields in every execution. -/
theorem Prog.Yields.eval {Op : Type} {Ans : Op → Type} {α : Type} {R : α → Prop}
    {p : Prog Op Ans α} (hp : p.Yields R) (M : Machine Op Ans) (envs : Nat → M.Env) (s : M.State) :
    R (M.eval p envs s).1 := by
  induction hp generalizing envs s with
  | ret h => exact h
  | call _ ih => exact ih _ _ _

section Safe

variable {Op : Type} {Ans : Op → Type} {α β : Type} (M : Machine Op Ans)
  (A : M.Env → Prop) (G : M.State → M.State → Prop) (K : M.State → Prop)

/-- The program `p` is safe from a state: every call keeps the guarantee `G`, whatever the
environment chooses; the crash condition `K` holds before and after every call; and when the
environment's choices are all allowed by `A`, the result and the final state satisfy `Q`. -/
inductive Safe (Q : α → M.State → Prop) : Prog Op Ans α → M.State → Prop where
  | ret {a : α} {s : M.State} (h : Q a s) : Safe Q (.pure a) s
  | call {o : Op} {k : Ans o → Prog Op Ans α} {s : M.State} (hk : K s)
      (hany : ∀ e, G s (M.exec o e s).2 ∧ K (M.exec o e s).2)
      (hok : ∀ e, A e → Safe Q (k (M.exec o e s).1) (M.exec o e s).2) : Safe Q (.call o k) s

variable {M A G K}

theorem Safe.mono {Q R : α → M.State → Prop} (h : ∀ a s, Q a s → R a s) {p : Prog Op Ans α}
    {s : M.State} (hp : Safe M A G K Q p s) : Safe M A G K R p s := by
  induction hp with
  | ret hQ => exact .ret (h _ _ hQ)
  | call hk hany _ ih => exact .call hk hany ih

theorem Safe.bind {Q : α → M.State → Prop} {R : β → M.State → Prop} {f : α → Prog Op Ans β}
    {p : Prog Op Ans α} {s : M.State} (hp : Safe M A G K Q p s)
    (hf : ∀ a s, Q a s → Safe M A G K R (f a) s) : Safe M A G K R (p >>= f) s := by
  induction hp with
  | ret hQ => exact hf _ _ hQ
  | call hk hany _ ih => exact .call hk hany ih

/-- The rule for one call: what holds whatever the environment does, and what holds when its choice
is allowed. -/
theorem Safe.perform {Q : β → M.State → Prop} {o : Op} {f : Ans o → Prog Op Ans β} {s : M.State}
    (hk : K s) (hany : ∀ e, G s (M.exec o e s).2 ∧ K (M.exec o e s).2)
    (hok : ∀ e, A e → Safe M A G K Q (f (M.exec o e s).1) (M.exec o e s).2) :
    Safe M A G K Q (Prog.perform o >>= f) s := .call hk hany hok

/-- A program whose operations all keep an invariant `J` and the guarantee is safe. -/
theorem Safe.of_only {P : Op → Prop} {J : M.State → Prop} {Q : α → M.State → Prop}
    (hstep : ∀ o e s, P o → J s → G s (M.exec o e s).2 ∧ J (M.exec o e s).2)
    (hK : ∀ s, J s → K s) {p : Prog Op Ans α} (hp : p.Only P) {s : M.State} (hJ : J s)
    (hQ : ∀ a s', J s' → Q a s') : Safe M A G K Q p s := by
  induction hp generalizing s with
  | ret => exact .ret (hQ _ s hJ)
  | call ho _ ih =>
    refine .call (hK s hJ) (fun e => ?_) fun e _ => ?_
    · obtain ⟨hG, hJ'⟩ := hstep _ e s ho hJ
      exact ⟨hG, hK _ hJ'⟩
    · exact ih _ (hstep _ e s ho hJ).2

/-- The results of a safe program. -/
theorem Safe.yields {Q : α → M.State → Prop} {R : α → Prop} {p : Prog Op Ans α} {s : M.State}
    (hp : Safe M A G K Q p s) (hR : p.Yields R) : Safe M A G K (fun a s => R a ∧ Q a s) p s := by
  induction hp with
  | ret hQ =>
    cases hR with
    | ret h => exact .ret ⟨h, hQ⟩
  | call hk hany _ ih =>
    cases hR with
    | call hk' => exact .call hk hany fun e he => ih e he (hk' _)

/-- A safe program, run to its end under allowed choices, ends in its postcondition. -/
theorem Safe.eval {Q : α → M.State → Prop} {p : Prog Op Ans α} {s : M.State}
    (hp : Safe M A G K Q p s) {envs : Nat → M.Env} (he : ∀ n, A (envs n)) :
    Q (M.eval p envs s).1 (M.eval p envs s).2 := by
  induction hp generalizing envs with
  | ret hQ => exact hQ
  | call _ _ _ ih => exact ih (envs 0) (he 0) fun n => he (n + 1)

end Safe

/-! ## Services -/

/-- A process on a machine: it boots, serves requests and halts. `none` is its end. `release` is
what the operating system does when it ends. -/
structure Service {Op : Type} {Ans : Op → Type} (M : Machine Op Ans) where
  St : Type
  Req : Type
  boot : Prog Op Ans (Option St)
  serve : St → Req → Prog Op Ans (Option St)
  halt : St → Prog Op Ans (Option St)
  release : M.State → M.State

namespace Service

variable {Op : Type} {Ans : Op → Type} {M : Machine Op Ans} (V : Service M)

/-- What the process is doing. -/
inductive Control where
  | down
  | idle (st : V.St)
  | busy (p : Prog Op Ans (Option V.St))

variable {V} in
def Control.isDown : V.Control → Bool
  | .down => true
  | _ => false

theorem Control.eq_down {c : V.Control} (h : c.isDown = true) : c = .down := by
  cases c with
  | down => rfl
  | idle st => cases h
  | busy p => cases h

variable {V} in
/-- The state of a process that waits. -/
def Control.state : V.Control → Option V.St
  | .idle st => some st
  | _ => none

theorem Control.eq_idle {c : V.Control} {st : V.St} (h : c.state = some st) : c = .idle st := by
  cases c with
  | down => cases h
  | idle st' =>
    cases h
    rfl
  | busy p => cases h

/-- One thing that happens: a boot, a request, a halt, the next call, or a death between two calls
(`kill`) or inside one (`cut`). -/
inductive Event where
  | boot
  | serve (req : V.Req)
  | halt
  | call (e : M.Env)
  | kill
  | cut (e : M.Env)

/-- Control after a program: it is done, or it waits for its next call. -/
def settle (p : Prog Op Ans (Option V.St)) (s : M.State) : M.State × V.Control :=
  match p with
  | .pure none => (V.release s, .down)
  | .pure (some st) => (s, .idle st)
  | .call o k => (s, .busy (.call o k))

/-- An event that does not apply changes nothing. -/
def step (c : M.State × V.Control) (e : V.Event) : M.State × V.Control :=
  match e, c with
  | .boot, (s, .down) => V.settle V.boot s
  | .serve req, (s, .idle st) => V.settle (V.serve st req) s
  | .halt, (s, .idle st) => V.settle (V.halt st) s
  | .call env, (s, .busy (.call o k)) => V.settle (k (M.exec o env s).1) (M.exec o env s).2
  | .kill, (s, .idle _) => (V.release s, .down)
  | .kill, (s, .busy _) => (V.release s, .down)
  | .cut env, (s, .busy (.call o _)) => (V.release (M.exec o env s).2, .down)
  | _, c => c

def run (c : M.State × V.Control) (es : List V.Event) : M.State × V.Control := es.foldl V.step c

/-- The event is one the history may contain: an allowed choice, or a boot from a state in which
`B` holds. -/
def Permits (A : M.Env → Prop) (B : M.State → Prop) (c : M.State × V.Control)
    (e : V.Event) : Prop :=
  match e with
  | .call env => A env
  | .boot => match c.2 with
    | .down => B c.1
    | _ => True
  | _ => True

/-- Histories: any sequence of permitted events. -/
def Reaches (A : M.Env → Prop) (B : M.State → Prop) :
    M.State × V.Control → M.State × V.Control → Prop :=
  Relation.ReflTransGen fun c c' => ∃ e, V.Permits A B c e ∧ c' = V.step c e

variable {V} {A : M.Env → Prop} {B : M.State → Prop}

/-- A history under stronger conditions is one under weaker ones. -/
theorem Reaches.weaken {A' : M.Env → Prop} {B' : M.State → Prop} (hA : ∀ e, A e → A' e)
    (hB : ∀ s, B s → B' s) {c c' : M.State × V.Control} (h : V.Reaches A B c c') :
    V.Reaches A' B' c c' := by
  refine Relation.ReflTransGen.mono ?_ c c' h
  rintro ⟨s, ctl⟩ c' ⟨e, he, hstep⟩
  refine ⟨e, ?_, hstep⟩
  cases e with
  | call env => exact hA env he
  | boot => cases ctl <;> first | exact hB s he | trivial
  | serve req => trivial
  | halt => trivial
  | kill => trivial
  | cut env => trivial

theorem Reaches.trans {c c' c'' : M.State × V.Control} (h : V.Reaches A B c c')
    (h' : V.Reaches A B c' c'') : V.Reaches A B c c'' := Relation.ReflTransGen.trans h h'

theorem Reaches.down {c c' : M.State × V.Control} (h : V.Reaches A B c c')
    (hdown : c'.2.isDown = true) : V.Reaches A B c (c'.1, .down) := by
  obtain ⟨s, ctl⟩ := c'
  cases Control.eq_down V hdown
  exact h

theorem Reaches.idle {c c' : M.State × V.Control} (h : V.Reaches A B c c') {st : V.St}
    (hst : c'.2.state = some st) : V.Reaches A B c (c'.1, .idle st) := by
  obtain ⟨s, ctl⟩ := c'
  cases Control.eq_idle V hst
  exact h

/-! ### Histories as lists of events -/

@[simp] theorem run_concat (c : M.State × V.Control) (es : List V.Event) (e : V.Event) :
    V.run c (es ++ [e]) = V.step (V.run c es) e := by
  simp [run]

variable (V A B) in
/-- Each event is permitted at its moment. -/
def Allows (c : M.State × V.Control) (es : List V.Event) : Prop :=
  ∀ es1 e es2, es = es1 ++ e :: es2 → V.Permits A B (V.run c es1) e

theorem Allows.nil (c : M.State × V.Control) : V.Allows A B c [] := by
  intro es1 e es2 h
  simp at h

theorem Allows.init {c : M.State × V.Control} {es : List V.Event} {e : V.Event}
    (h : V.Allows A B c (es ++ [e])) : V.Allows A B c es := by
  intro es1 e' es2 heq
  exact h es1 e' (es2 ++ [e]) (by rw [heq, List.append_assoc, List.cons_append])

theorem Allows.last {c : M.State × V.Control} {es : List V.Event} {e : V.Event}
    (h : V.Allows A B c (es ++ [e])) : V.Permits A B (V.run c es) e := h es e [] rfl

theorem Allows.concat {c : M.State × V.Control} {es : List V.Event} {e : V.Event}
    (h : V.Allows A B c es) (he : V.Permits A B (V.run c es) e) : V.Allows A B c (es ++ [e]) := by
  intro es1 e' es2 heq
  rcases List.eq_nil_or_concat es2 with rfl | ⟨es3, e3, rfl⟩
  · obtain ⟨rfl, hlast⟩ := List.append_inj' heq rfl
    cases hlast
    exact he
  · have hinit : es ++ [e] = (es1 ++ e' :: es3) ++ [e3] := by
      rw [heq, List.concat_eq_append, List.append_assoc, List.cons_append]
    exact h es1 e' es3 (List.append_inj' hinit rfl).1

/-- **A history is a list of permitted events.** -/
theorem reaches_iff_run {c c' : M.State × V.Control} :
    V.Reaches A B c c' ↔ ∃ es, V.Allows A B c es ∧ c' = V.run c es := by
  constructor
  · intro h
    induction h with
    | refl => exact ⟨[], .nil c, rfl⟩
    | tail _ hstep ih =>
      obtain ⟨es, hes, rfl⟩ := ih
      obtain ⟨e, he, rfl⟩ := hstep
      exact ⟨es ++ [e], hes.concat he, (run_concat c es e).symm⟩
  · rintro ⟨es, hes, rfl⟩
    induction es using List.reverseRecOn with
    | nil => exact .refl
    | append_singleton es e ih => exact (ih hes.init).tail ⟨e, hes.last, run_concat c es e⟩

/-- Events that are permitted whatever the state. -/
theorem allows_of_forall {es : List V.Event} (hB : .boot ∈ es → ∀ s, B s)
    (hA : ∀ e, .call e ∈ es → A e) (c : M.State × V.Control) : V.Allows A B c es := by
  rintro es1 e es2 rfl
  have hmem : e ∈ es1 ++ e :: es2 := List.mem_append_right _ List.mem_cons_self
  cases e with
  | call env => exact hA env hmem
  | boot =>
    obtain ⟨s, ctl⟩ := V.run c es1
    cases ctl with
    | down => exact hB hmem s
    | idle st | busy p => trivial
  | serve req | halt | kill | cut env => trivial

/-- A list of events, each permitted whatever the state, is a history. -/
theorem reaches_run {es : List V.Event} (hB : .boot ∈ es → ∀ s, B s)
    (hA : ∀ e, .call e ∈ es → A e) (c : M.State × V.Control) : V.Reaches A B c (V.run c es) :=
  reaches_iff_run.2 ⟨es, allows_of_forall hB hA c, rfl⟩

section Invariant

variable (V A) (G : M.State → M.State → Prop) (K : M.State → Prop) (L : V.St → M.State → Prop)

/-- What a program of the service ends in: the crash condition, or the idle condition. -/
def Ends (r : Option V.St) (s : M.State) : Prop :=
  match r with
  | none => K s
  | some st => L st s

/-- The invariant of a service, by what the process is doing. -/
def Inv (c : M.State × V.Control) : Prop :=
  match c.2 with
  | .down => K c.1
  | .idle st => L st c.1
  | .busy p => Safe M A G K (V.Ends K L) p c.1

/-- What has to be shown of a service: its three programs are safe, and the end of the process
keeps the crash condition. -/
structure Sound (B : M.State → Prop) : Prop where
  boot : ∀ s, K s → B s → Safe M A G K (V.Ends K L) V.boot s
  serve : ∀ st req s, L st s → Safe M A G K (V.Ends K L) (V.serve st req) s
  halt : ∀ st s, L st s → Safe M A G K (V.Ends K L) (V.halt st) s
  idle : ∀ st s, L st s → K s
  release : ∀ s, K s → K (V.release s)

variable {V A G K L} {c c' : M.State × V.Control}

theorem inv_settle (h : Sound V A G K L B) {p : Prog Op Ans (Option V.St)} {s : M.State}
    (hp : Safe M A G K (V.Ends K L) p s) : V.Inv A G K L (V.settle p s) := by
  cases hp with
  | @ret r s hr =>
    cases r with
    | none => exact h.release s hr
    | some st => exact hr
  | call hk hany hok => exact .call hk hany hok

theorem inv_step (h : Sound V A G K L B) {e : V.Event} (he : V.Permits A B c e)
    (hc : V.Inv A G K L c) : V.Inv A G K L (V.step c e) := by
  obtain ⟨s, ctl⟩ := c
  cases ctl with
  | down =>
    cases e with
    | boot => exact inv_settle h (h.boot s hc he)
    | serve req => exact hc
    | halt => exact hc
    | call env => exact hc
    | kill => exact hc
    | cut env => exact hc
  | idle st =>
    cases e with
    | boot => exact hc
    | serve req => exact inv_settle h (h.serve st req s hc)
    | halt => exact inv_settle h (h.halt st s hc)
    | call env => exact hc
    | kill => exact h.release s (h.idle st s hc)
    | cut env => exact hc
  | busy p =>
    cases hc with
    | @ret r s hr =>
      have hrel : K (V.release s) := by
        cases r with
        | none => exact h.release s hr
        | some st => exact h.release s (h.idle st s hr)
      cases e <;> first | exact .ret hr | exact hrel
    | call hk hany hok =>
      cases e with
      | call env => exact inv_settle h (hok env he)
      | kill => exact h.release s hk
      | cut env => exact h.release _ (hany env).2
      | boot => exact .call hk hany hok
      | serve req => exact .call hk hany hok
      | halt => exact .call hk hany hok

/-- **The invariant holds in every history.** -/
theorem Reaches.inv (hr : V.Reaches A B c c') (h : Sound V A G K L B) (hc : V.Inv A G K L c) :
    V.Inv A G K L c' := by
  induction hr with
  | refl => exact hc
  | tail _ hstep ih =>
    obtain ⟨e, he, rfl⟩ := hstep
    exact inv_step h he ih

/-- **The crash condition holds at every moment of a history.** -/
theorem Reaches.crash (hr : V.Reaches A B c c') (h : Sound V A G K L B) (hc : V.Inv A G K L c) :
    K c'.1 := by
  have hinv := hr.inv h hc
  obtain ⟨s, ctl⟩ := c'
  cases ctl with
  | down => exact hinv
  | idle st => exact h.idle st s hinv
  | busy p =>
    cases hinv with
    | @ret r _ hr =>
      cases r with
      | none => exact hr
      | some st => exact h.idle st s hr
    | call hk _ _ => exact hk

theorem guarantee_settle (hrel : ∀ s s', G s s' → G s (V.release s'))
    (p : Prog Op Ans (Option V.St)) {s s' : M.State} (hs : G s s') : G s (V.settle p s').1 := by
  cases p with
  | pure r =>
    cases r with
    | none => exact hrel s s' hs
    | some st => exact hs
  | call o k => exact hs

theorem guarantee_step (hrefl : ∀ s, G s s) (hrel : ∀ s s', G s s' → G s (V.release s'))
    (e : V.Event) (hc : V.Inv A G K L c) : G c.1 (V.step c e).1 := by
  obtain ⟨s, ctl⟩ := c
  cases ctl with
  | down => cases e <;> first | exact hrefl s | exact guarantee_settle hrel _ (hrefl s)
  | idle st => cases e <;> first | exact hrefl s | exact guarantee_settle hrel _ (hrefl s) |
      exact hrel s s (hrefl s)
  | busy p =>
    cases hc with
    | ret hr => cases e <;> first | exact hrefl s | exact hrel s s (hrefl s)
    | call hk hany hok =>
      cases e with
      | call env => exact guarantee_settle hrel _ (hany env).1
      | kill => exact hrel s s (hrefl s)
      | cut env => exact hrel _ _ (hany env).1
      | boot => exact hrefl s
      | serve req => exact hrefl s
      | halt => exact hrefl s

/-- **A transitive guarantee relates any two moments of a history.** -/
theorem Reaches.guarantee (hr : V.Reaches A B c c') (h : Sound V A G K L B)
    (hrefl : ∀ s, G s s) (htrans : ∀ s s' s'', G s s' → G s' s'' → G s s'')
    (hrel : ∀ s s', G s s' → G s (V.release s')) (hc : V.Inv A G K L c) : G c.1 c'.1 := by
  induction hr with
  | refl => exact hrefl _
  | tail hpre hstep ih =>
    obtain ⟨e, he, rfl⟩ := hstep
    exact htrans _ _ _ ih (guarantee_step hrefl hrel e (Reaches.inv hpre h hc))

end Invariant

end Service

end Lib
