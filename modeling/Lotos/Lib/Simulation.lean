import Mathlib.Logic.Relation

/-!
# Simulations

A system is a relation `r` on its states, and its runs are `Relation.ReflTransGen r`.  `Simulates R r t` says that a system
`t` can follow every step of `r` from related states; the run lemma carries related states along a run, and what `t` keeps is
then known of `r`.  `Carried` compares two ways to compute a result that can fail: the second has the errors of the first,
and values related to its values.

For a system made of components, `View` shows the component with an index, if there is one.  A step of the system may start
components, end them, and let those that are there go on by a run of their own (`ComponentStep`); then every component there
is has been reached from a start (`reached_of_run`).
-/

namespace Simulation

variable {σ τ : Type*}

/-- What holds at the start of a run, and is kept by every step, holds at its end. -/
theorem invariant {r : σ → σ → Prop} (P : σ → Prop) (hstep : ∀ s s', P s → r s s' → P s') {s s' : σ}
    (hrun : Relation.ReflTransGen r s s') (hs : P s) : P s' := by
  induction hrun with
  | refl => exact hs
  | tail _ h ih => exact hstep _ _ ih h

/-- Every step of `r` is followed by a run of `t`. -/
def Simulates (R : σ → τ → Prop) (r : σ → σ → Prop) (t : τ → τ → Prop) : Prop :=
  ∀ ⦃s s' : σ⦄ ⦃x : τ⦄, R s x → r s s' → ∃ x', Relation.ReflTransGen t x x' ∧ R s' x'

section Runs

variable {R : σ → τ → Prop} {r : σ → σ → Prop} {t : τ → τ → Prop}

/-- **The run lemma.** -/
theorem Simulates.run (h : Simulates R r t) {s s' : σ} {x : τ} (hrun : Relation.ReflTransGen r s s') (hs : R s x) :
    ∃ x', Relation.ReflTransGen t x x' ∧ R s' x' := by
  induction hrun with
  | refl => exact ⟨x, .refl, hs⟩
  | tail _ hstep ih =>
    obtain ⟨y, hy, hmid⟩ := ih
    obtain ⟨x', hx', hend⟩ := h hmid hstep
    exact ⟨x', hy.trans hx', hend⟩

end Runs

/-! ### Results -/

/-- The same error, or related values. -/
inductive Carried {ε ε' α β : Type*} (lift : ε → ε') (R : α → β → Prop) : Except ε α → Except ε' β → Prop where
  | error (e : ε) : Carried lift R (.error e) (.error (lift e))
  | ok {a : α} {b : β} (h : R a b) : Carried lift R (.ok a) (.ok b)

section Carried

variable {ε ε' α β : Type*} {lift : ε → ε'} {R : α → β → Prop} {y : Except ε' β}

theorem Carried.of_error {e : ε} (h : Carried lift R (.error e) y) : y = .error (lift e) := by
  cases h
  rfl

theorem Carried.of_ok {a : α} (h : Carried lift R (.ok a) y) : ∃ b, y = .ok b ∧ R a b := by
  cases h with
  | ok h => exact ⟨_, rfl, h⟩

theorem Carried.ok_right {x : Except ε α} {b : β} (h : Carried lift R x (.ok b)) : ∃ a, x = .ok a ∧ R a b := by
  cases h with
  | ok h => exact ⟨_, rfl, h⟩

end Carried

/-! ### Components -/

section Components

variable {ι γ : Type*}

/-- A component that a run of `t` leads to from a start. -/
def Reached (R : γ → τ → Prop) (start : τ → Prop) (t : τ → τ → Prop) (a : γ) : Prop :=
  ∃ x₀ x, start x₀ ∧ Relation.ReflTransGen t x₀ x ∧ R a x

/-- What a step of the system may do to the component with an index. -/
inductive ComponentStep (R : γ → τ → Prop) (start : τ → Prop) (t : τ → τ → Prop) : Option γ → Option γ → Prop where
  | run {a a' : γ} (h : ∀ x, R a x → ∃ x', Relation.ReflTransGen t x x' ∧ R a' x') :
      ComponentStep R start t (some a) (some a')
  | start {o : Option γ} {a' : γ} {x : τ} (hx : start x) (ha : R a' x) : ComponentStep R start t o (some a')
  | gone {o : Option γ} : ComponentStep R start t o none

variable {R : γ → τ → Prop} {start : τ → Prop} {t : τ → τ → Prop}

theorem ComponentStep.refl (o : Option γ) : ComponentStep R start t o o := by
  cases o with
  | none => exact .gone
  | some a => exact .run fun x ha => ⟨x, .refl, ha⟩

theorem ComponentStep.reached {o : Option γ} {a' : γ} (h : ComponentStep R start t o (some a'))
    (ho : ∀ a, o = some a → Reached R start t a) : Reached R start t a' := by
  cases h with
  | run h =>
    obtain ⟨x₀, x, hx₀, hrun, ha⟩ := ho _ rfl
    obtain ⟨x', hrun', ha'⟩ := h x ha
    exact ⟨x₀, x', hx₀, hrun.trans hrun', ha'⟩
  | start hx ha => exact ⟨_, _, hx, .refl, ha⟩

/-- **The projection.**  Along a run of a system whose steps are steps of every component, all components are reached from
starts; `P` is an invariant of the system. -/
theorem reached_of_run {r : σ → σ → Prop} (view : σ → ι → Option γ) (P : σ → Prop) (hP : ∀ s s', P s → r s s' → P s')
    (hstep : ∀ s s', P s → r s s' → (∀ i a, view s i = some a → Reached R start t a) →
      ∀ i, ComponentStep R start t (view s i) (view s' i))
    {s s' : σ} (hrun : Relation.ReflTransGen r s s') (h₀ : P s) (hs : ∀ i a, view s i = some a → Reached R start t a) (i : ι)
    (a : γ) (ha : view s' i = some a) : Reached R start t a := by
  refine (invariant (fun s => P s ∧ ∀ i a, view s i = some a → Reached R start t a) ?_ hrun ⟨h₀, hs⟩).2 i a ha
  rintro s s' ⟨hps, hs⟩ h
  refine ⟨hP s s' hps h, ?_⟩
  intro i a ha
  have hcomp := hstep s s' hps h hs i
  rw [ha] at hcomp
  exact hcomp.reached (hs i)

end Components

end Simulation
