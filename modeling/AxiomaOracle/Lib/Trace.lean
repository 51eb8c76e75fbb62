import AxiomaOracle.Lib.Process

/-!
# Executions and their calls

`Safe` is about every choice of the environment. Here a single execution is looked at: the calls it
makes with their answers (`Machine.trace`), and its moments, each the calls so far and the state
(`Machine.moments`). `Upholds` is the logic for executions whose answers are known to satisfy a
condition (no write fails, no read ends early), with a condition at every moment that may depend on
what has been called. `Upholds.eval` is its soundness.

`Observes` is the logic for what single calls do: a condition on every step (`Machine.steps`), that
is on a call together with the calls before it and the state it is made in.
-/

namespace Lib

variable {Op : Type} {Ans : Op → Type} {α β : Type}

/-- A call and its answer. -/
abbrev Answered (Op : Type) (Ans : Op → Type) := (o : Op) × Ans o

section Executions

variable (M : Machine Op Ans)

/-- The calls of an execution, in order. -/
def Machine.trace : Prog Op Ans α → (Nat → M.Env) → M.State → List (Answered Op Ans)
  | .pure _, _, _ => []
  | .call o k, envs, s =>
    ⟨o, (M.exec o (envs 0) s).1⟩ ::
      Machine.trace (k (M.exec o (envs 0) s).1) (fun n => envs (n + 1)) (M.exec o (envs 0) s).2

/-- The moments of an execution that starts after the calls `h`. -/
def Machine.moments : Prog Op Ans α → (Nat → M.Env) → List (Answered Op Ans) → M.State →
    List (List (Answered Op Ans) × M.State)
  | .pure _, _, h, s => [(h, s)]
  | .call o k, envs, h, s =>
    (h, s) :: Machine.moments (k (M.exec o (envs 0) s).1) (fun n => envs (n + 1))
      (h ++ [⟨o, (M.exec o (envs 0) s).1⟩]) (M.exec o (envs 0) s).2

/-- One call of an execution: the calls before it, the state it is made in, and the environment's
choice. -/
structure Step where
  before : List (Answered Op Ans)
  state : M.State
  op : Op
  env : M.Env

variable {M} in
def Step.answer (m : Step M) : Ans m.op := (M.exec m.op m.env m.state).1

variable {M} in
/-- The state behind the call. -/
def Step.next (m : Step M) : M.State := (M.exec m.op m.env m.state).2

variable {M} in
/-- The calls up to this one. -/
def Step.after (m : Step M) : List (Answered Op Ans) := m.before ++ [⟨m.op, m.answer⟩]

/-- The steps of an execution that starts after the calls `h`. -/
def Machine.steps : Prog Op Ans α → (Nat → M.Env) → List (Answered Op Ans) → M.State →
    List (Step M)
  | .pure _, _, _, _ => []
  | .call o k, envs, h, s =>
    ⟨h, s, o, envs 0⟩ :: Machine.steps (k (M.exec o (envs 0) s).1) (fun n => envs (n + 1))
      (h ++ [⟨o, (M.exec o (envs 0) s).1⟩]) (M.exec o (envs 0) s).2

variable {M} in
/-- The trace is made of the steps. -/
theorem Machine.trace_eq_steps (p : Prog Op Ans α) (envs : Nat → M.Env)
    (h : List (Answered Op Ans)) (s : M.State) :
    M.trace p envs s = (M.steps p envs h s).map fun m => ⟨m.op, m.answer⟩ := by
  induction p generalizing envs h s with
  | pure a => rfl
  | call o k ih => exact congrArg (⟨o, (M.exec o (envs 0) s).1⟩ :: ·) (ih _ _ _ _)

variable {M} in
/-- A call of the trace is that of a step. -/
theorem Machine.exists_step {p : Prog Op Ans α} {envs : Nat → M.Env}
    (h : List (Answered Op Ans)) {s : M.State} {o : Op} {a : Ans o}
    (hmem : ⟨o, a⟩ ∈ M.trace p envs s) : ∃ m ∈ M.steps p envs h s, m.op = o := by
  rw [M.trace_eq_steps p envs h s] at hmem
  obtain ⟨m, hm, heq⟩ := List.mem_map.1 hmem
  exact ⟨m, hm, (Sigma.mk.inj heq).1⟩

variable {M} in
/-- What is before a step is part of the trace. -/
theorem Machine.before_subset {p : Prog Op Ans α} {envs : Nat → M.Env}
    {h : List (Answered Op Ans)} {s : M.State} {m : Step M} (hm : m ∈ M.steps p envs h s) :
    m.before ⊆ h ++ M.trace p envs s := by
  induction p generalizing envs h s with
  | pure a => cases hm
  | call o k ih =>
    rcases List.mem_cons.1 hm with rfl | hm
    · exact List.subset_append_left _ _
    · have hrest := ih _ hm
      rwa [List.append_assoc] at hrest

variable {M}

/-- In an environment that does not change, a sequence runs as its parts one after the other. -/
theorem Machine.trace_bind (p : Prog Op Ans α) (f : α → Prog Op Ans β) (e : M.Env) (s : M.State) :
    M.trace (p >>= f) (fun _ => e) s = M.trace p (fun _ => e) s ++
      M.trace (f (M.eval p (fun _ => e) s).1) (fun _ => e) (M.eval p (fun _ => e) s).2 := by
  induction p generalizing s with
  | pure a => rfl
  | call o k ih => exact congrArg (⟨o, (M.exec o e s).1⟩ :: ·) (ih _ _)

/-- The value of a sequence is that of its last part. -/
theorem Machine.eval_bind (p : Prog Op Ans α) (f : α → Prog Op Ans β) (e : M.Env) (s : M.State) :
    M.eval (p >>= f) (fun _ => e) s =
      M.eval (f (M.eval p (fun _ => e) s).1) (fun _ => e) (M.eval p (fun _ => e) s).2 := by
  induction p generalizing s with
  | pure a => rfl
  | call o k ih => exact ih _ _

end Executions

/-- A history that has gone on with calls of a kind. -/
def Extends (P : Op → Prop) (h h' : List (Answered Op Ans)) : Prop :=
  ∃ cs, h' = h ++ cs ∧ ∀ c ∈ cs, P c.1

namespace Extends

variable {P P' : Op → Prop} {h h1 h2 : List (Answered Op Ans)}

theorem refl (h : List (Answered Op Ans)) : Extends P h h := ⟨[], by simp, by simp⟩

theorem trans (h01 : Extends P h h1) (h12 : Extends P h1 h2) : Extends P h h2 := by
  obtain ⟨cs, rfl, hcs⟩ := h01
  obtain ⟨ds, rfl, hds⟩ := h12
  refine ⟨cs ++ ds, by rw [List.append_assoc], ?_⟩
  intro c hc
  rcases List.mem_append.1 hc with hc | hc
  · exact hcs c hc
  · exact hds c hc

theorem call {o : Op} (ho : P o) (a : Ans o) : Extends P h (h ++ [⟨o, a⟩]) := by
  refine ⟨[⟨o, a⟩], rfl, ?_⟩
  intro c hc
  obtain rfl := List.mem_singleton.1 hc
  exact ho

theorem mono (hP : ∀ o, P o → P' o) (h01 : Extends P h h1) : Extends P' h h1 := by
  obtain ⟨cs, rfl, hcs⟩ := h01
  exact ⟨cs, rfl, fun c hc => hP _ (hcs c hc)⟩

/-- A call of another kind was there before. -/
theorem mem (h01 : Extends P h h1) {c : Answered Op Ans} (hc : c ∈ h1) (hP : ¬ P c.1) : c ∈ h := by
  obtain ⟨cs, rfl, hcs⟩ := h01
  rcases List.mem_append.1 hc with hc | hc
  · exact hc
  · exact absurd (hcs c hc) hP

theorem subset (h01 : Extends P h h1) {c : Answered Op Ans} (hc : c ∈ h) : c ∈ h1 := by
  obtain ⟨cs, rfl, -⟩ := h01
  exact List.mem_append_left cs hc

end Extends

section Upholds

variable (M : Machine Op Ans) (C : (o : Op) → Ans o → Prop)
  (K : List (Answered Op Ans) → M.State → Prop)

/-- In every execution of `p` after the calls `h` whose answers satisfy `C`, the condition `K` holds
at every moment and `Q` at the end. -/
inductive Upholds (Q : α → List (Answered Op Ans) → M.State → Prop) :
    Prog Op Ans α → List (Answered Op Ans) → M.State → Prop where
  | ret {a : α} {h : List (Answered Op Ans)} {s : M.State} (hk : K h s) (hq : Q a h s) :
      Upholds Q (.pure a) h s
  | call {o : Op} {k : Ans o → Prog Op Ans α} {h : List (Answered Op Ans)} {s : M.State}
      (hk : K h s) (hnext : ∀ e, C o (M.exec o e s).1 →
        Upholds Q (k (M.exec o e s).1) (h ++ [⟨o, (M.exec o e s).1⟩]) (M.exec o e s).2) :
      Upholds Q (.call o k) h s

variable {M C K} {Q R : α → List (Answered Op Ans) → M.State → Prop} {p q : Prog Op Ans α}
  {h : List (Answered Op Ans)} {s : M.State}

namespace Upholds

theorem bind {T : β → List (Answered Op Ans) → M.State → Prop} {f : α → Prog Op Ans β}
    (hp : Upholds M C K Q p h s)
    (hf : ∀ a h s, K h s → Q a h s → Upholds M C K T (f a) h s) :
    Upholds M C K T (p >>= f) h s := by
  induction hp with
  | ret hk hq => exact hf _ _ _ hk hq
  | call hk _ ih => exact .call hk ih

/-- The rule for one call. -/
theorem perform {T : β → List (Answered Op Ans) → M.State → Prop} {o : Op}
    {f : Ans o → Prog Op Ans β} (hk : K h s)
    (hnext : ∀ e, C o (M.exec o e s).1 →
      Upholds M C K T (f (M.exec o e s).1) (h ++ [⟨o, (M.exec o e s).1⟩]) (M.exec o e s).2) :
    Upholds M C K T (Prog.perform o >>= f) h s := .call hk hnext

/-- Soundness: an execution whose answers satisfy `C` keeps the condition at each of its moments and
ends in the postcondition. -/
theorem eval (hp : Upholds M C K Q p h s) {envs : Nat → M.Env}
    (hC : ∀ c ∈ M.trace p envs s, C c.1 c.2) :
    Q (M.eval p envs s).1 (h ++ M.trace p envs s) (M.eval p envs s).2 ∧
      ∀ m ∈ M.moments p envs h s, K m.1 m.2 := by
  induction hp generalizing envs with
  | @ret a h s hk hq =>
    refine ⟨by simpa [Machine.trace, Machine.eval] using hq, ?_⟩
    intro m hm
    obtain rfl := List.mem_singleton.1 hm
    exact hk
  | @call o k h s hk hnext ih =>
    have hhead : C o (M.exec o (envs 0) s).1 := hC _ List.mem_cons_self
    obtain ⟨hq, hmoments⟩ := ih (envs 0) hhead fun c hc => hC c (List.mem_cons_of_mem _ hc)
    constructor
    · rw [List.append_assoc] at hq
      exact hq
    · intro m hm
      rcases List.mem_cons.1 hm with rfl | hm
      · exact hk
      · exact hmoments m hm

end Upholds

end Upholds

section Observes

variable (M : Machine Op Ans) (C P : Step M → Prop)

/-- In every execution of `p` after the calls `h` whose steps satisfy `C`, they all satisfy `P`, and
the end satisfies `Q`. -/
inductive Observes (Q : α → List (Answered Op Ans) → M.State → Prop) :
    Prog Op Ans α → List (Answered Op Ans) → M.State → Prop where
  | ret {a : α} {h : List (Answered Op Ans)} {s : M.State} (hq : Q a h s) : Observes Q (.pure a) h s
  | call {o : Op} {k : Ans o → Prog Op Ans α} {h : List (Answered Op Ans)} {s : M.State}
      (hstep : ∀ e, C ⟨h, s, o, e⟩ → P ⟨h, s, o, e⟩)
      (hnext : ∀ e, C ⟨h, s, o, e⟩ →
        Observes Q (k (M.exec o e s).1) (h ++ [⟨o, (M.exec o e s).1⟩]) (M.exec o e s).2) :
      Observes Q (.call o k) h s

variable {M C P} {Q R : α → List (Answered Op Ans) → M.State → Prop} {p q : Prog Op Ans α}
  {h : List (Answered Op Ans)} {s : M.State}

namespace Observes

theorem mono (hQR : ∀ a h s, Q a h s → R a h s) (hp : Observes M C P Q p h s) :
    Observes M C P R p h s := by
  induction hp with
  | ret hq => exact .ret (hQR _ _ _ hq)
  | call hstep _ ih => exact .call hstep ih

theorem bind {T : β → List (Answered Op Ans) → M.State → Prop} {f : α → Prog Op Ans β}
    (hp : Observes M C P Q p h s) (hf : ∀ a h s, Q a h s → Observes M C P T (f a) h s) :
    Observes M C P T (p >>= f) h s := by
  induction hp with
  | ret hq => exact hf _ _ _ hq
  | call hstep _ ih => exact .call hstep ih

/-- The rule for one call. -/
theorem perform {T : β → List (Answered Op Ans) → M.State → Prop} {o : Op}
    {f : Ans o → Prog Op Ans β} (hstep : ∀ e, C ⟨h, s, o, e⟩ → P ⟨h, s, o, e⟩)
    (hnext : ∀ e, C ⟨h, s, o, e⟩ →
      Observes M C P T (f (M.exec o e s).1) (h ++ [⟨o, (M.exec o e s).1⟩]) (M.exec o e s).2) :
    Observes M C P T (Prog.perform o >>= f) h s := .call hstep hnext

/-- A program whose operations all keep an invariant `J`, which gives the condition on each of them
whatever operations of the program have been called. -/
theorem of_only {O : Op → Prop} {J : M.State → Prop}
    (hstep : ∀ o e s, O o → J s → J (M.exec o e s).2)
    (hP : ∀ m : Step M, Extends O h m.before → O m.op → J m.state → C m → P m)
    (hp : p.Only O) (hJ : J s)
    (hQ : ∀ a h' s, Extends O h h' → J s → Q a h' s) : Observes M C P Q p h s := by
  induction hp generalizing h s with
  | ret => exact .ret (hQ _ h s (.refl h) hJ)
  | call ho _ ih =>
    refine .call (fun e hC => hP _ (.refl h) ho hJ hC) fun e _ => ?_
    refine ih _ ?_ (hstep _ e s ho hJ) ?_
    · intro m hext hm hJm hC
      exact hP m ((Extends.call ho _).trans hext) hm hJm hC
    · intro a h' s' hext hJ'
      exact hQ a h' s' ((Extends.call ho _).trans hext) hJ'

/-- The results of the program. -/
theorem yields {T : α → Prop} (hp : Observes M C P Q p h s) (hT : p.Yields T) :
    Observes M C P (fun a h s => T a ∧ Q a h s) p h s := by
  induction hp with
  | ret hq =>
    cases hT with
    | ret ht => exact .ret ⟨ht, hq⟩
  | call hstep _ ih =>
    cases hT with
    | call hk => exact .call hstep fun e hC => ih e hC (hk _)

/-- Two observations of one program. -/
theorem and {P' : Step M → Prop} (hp : Observes M C P Q p h s) (hq : Observes M C P' R p h s) :
    Observes M C P (fun a h s => Q a h s ∧ R a h s) p h s := by
  induction hp with
  | ret hq1 =>
    cases hq with
    | ret hq2 => exact .ret ⟨hq1, hq2⟩
  | call hstep _ ih =>
    cases hq with
    | call _ hnext => exact .call hstep fun e hC => ih e hC (hnext e hC)

/-- The end of the program is the end of one of its executions. -/
theorem traced [Nonempty M.Env] (hp : Observes M C P Q p h s) :
    Observes M C P (fun a h' s' => Q a h' s' ∧
      ∃ envs, h' = h ++ M.trace p envs s ∧ M.eval p envs s = (a, s')) p h s := by
  induction hp with
  | ret hq =>
    refine .ret ⟨hq, ⟨fun _ => Classical.ofNonempty, ?_, rfl⟩⟩
    rw [Machine.trace, List.append_nil]
  | @call o k h s hstep _ ih =>
    refine .call hstep fun e hC => (ih e hC).mono ?_
    rintro a h' s' ⟨hq, envs, rfl, heval⟩
    refine ⟨hq, fun n => Nat.casesOn n e envs, ?_, ?_⟩
    · rw [List.append_assoc]
      rfl
    · exact heval

/-- Soundness: in an execution whose steps satisfy `C`, they satisfy `P`, and the end satisfies the
postcondition. -/
theorem eval (hp : Observes M C P Q p h s) {envs : Nat → M.Env}
    (hC : ∀ m ∈ M.steps p envs h s, C m) :
    (∀ m ∈ M.steps p envs h s, P m) ∧
      Q (M.eval p envs s).1 (h ++ M.trace p envs s) (M.eval p envs s).2 := by
  induction hp generalizing envs with
  | @ret a h s hq =>
    refine ⟨fun m hm => ?_, ?_⟩
    · cases hm
    · simpa [Machine.trace, Machine.eval] using hq
  | @call o k h s hstep hnext ih =>
    have hhead : C ⟨h, s, o, envs 0⟩ := hC _ List.mem_cons_self
    obtain ⟨hsteps, hq⟩ := ih (envs 0) hhead fun m hm => hC m (List.mem_cons_of_mem _ hm)
    constructor
    · intro m hm
      rcases List.mem_cons.1 hm with rfl | hm
      · exact hstep _ hhead
      · exact hsteps m hm
    · rw [List.append_assoc] at hq
      exact hq

/-- With no condition on the steps, what is observed is safe. -/
theorem safe [Nonempty M.Env] {A : M.Env → Prop} {G : M.State → M.State → Prop}
    {K : M.State → Prop} {T : α → M.State → Prop} (hC : ∀ m, C m)
    (hP : ∀ m, P m → K m.state ∧ G m.state m.next ∧ K m.next) (hQ : ∀ a h s, Q a h s → T a s)
    (hp : Observes M C P Q p h s) : Safe M A G K T p s := by
  induction hp with
  | ret hq => exact .ret (hQ _ _ _ hq)
  | @call o k h s hstep _ ih =>
    have hall := fun e => hP _ (hstep e (hC _))
    exact .call (hall (Classical.ofNonempty)).1 (fun e => (hall e).2) fun e _ => ih e (hC _)

/-- A condition that every step finds and leaves is a crash condition. -/
theorem keeps [Nonempty M.Env] {A : M.Env → Prop} {K : M.State → Prop} {T : α → M.State → Prop}
    (hp : Observes M (fun _ => True) (fun m => K m.state ∧ K m.next) (fun a _ s => T a s) p h s) :
    Safe M A (fun _ _ => True) K T p s :=
  hp.safe (fun _ => trivial) (fun _ hm => ⟨hm.1, trivial, hm.2⟩) fun _ _ _ hq => hq

end Observes

/-- What is safe under every choice is observed of all steps, with its crash condition around
each. -/
theorem Safe.observes {A : M.Env → Prop} {G : M.State → M.State → Prop} {K : M.State → Prop}
    {T : α → M.State → Prop} (hA : ∀ e, A e) (hP : ∀ m : Step M, K m.state → K m.next → P m)
    (hp : Safe M A G K T p s) : Observes M C P (fun a _ s => T a s) p h s := by
  induction hp generalizing h with
  | ret hq => exact .ret hq
  | call hk hany _ ih => exact .call (fun e _ => hP _ hk (hany e).2) fun e _ => ih e (hA e)

end Observes

end Lib
