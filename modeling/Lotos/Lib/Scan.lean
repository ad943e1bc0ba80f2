import Mathlib

/-!
# Resumable scanners

A *scanner* reads a stream one symbol at a time: at position `p` with symbol `c` in state `s` it either
moves on to a new state (`Step.next`) or stops with a result (`Step.halt`).  `run` feeds it a list of
symbols from a given position.  It ends either at the end of the list, with the state a later call resumes
from (`Result.again`), or at the position where the scanner stopped (`Result.halt`).

The two facts everything rests on:

* `run_append_again`, `run_append_halt`: the run over a concatenation is the run over the first part,
  resumed on the second part if it had not stopped;
* `run_inv`: what every step preserves holds of the state in which the run ends.
-/

namespace Scan

variable {β σ ρ : Type*}

/-- What a scanner does with one symbol. -/
inductive Step (σ ρ : Type*) where
  | next (s : σ)
  | halt (r : ρ) (s : σ)

/-- How a run ends: at the end of the input, or stopped at position `p`. -/
inductive Result (σ ρ : Type*) where
  | again (s : σ)
  | halt (r : ρ) (p : ℕ) (s : σ)

/-- The run of the scanner `f` over the symbols `xs`, the first of which stands at position `p`. -/
def run (f : ℕ → β → σ → Step σ ρ) (p : ℕ) (xs : List β) (s : σ) : Result σ ρ :=
  match xs with
  | [] => .again s
  | c :: cs =>
    match f p c s with
    | .next s' => run f (p + 1) cs s'
    | .halt r s' => .halt r p s'

/-- The state after a step. -/
def Step.state : Step σ ρ → σ
  | .next s => s
  | .halt _ s => s

/-- The state in which a run ends. -/
def Result.state : Result σ ρ → σ
  | .again s => s
  | .halt _ _ s => s

section Run

variable {f g : ℕ → β → σ → Step σ ρ} {p q : ℕ} {xs ys : List β} {s s' : σ} {r : ρ} {c : β}

@[simp] theorem run_nil : run f p [] s = .again s := rfl

theorem run_cons_next {t : σ} (h : f p c s = .next t) : run f p (c :: xs) s = run f (p + 1) xs t := by
  simp [run, h]

theorem run_cons_halt {t : σ} (h : f p c s = .halt r t) : run f p (c :: xs) s = .halt r p t := by
  simp [run, h]

/-! ### Runs over a concatenation -/

/-- **Resuming.**  A run that reached the end of its input goes on from the state it ended in. -/
theorem run_append_again (h : run f p xs s = .again s') :
    run f p (xs ++ ys) s = run f (p + xs.length) ys s' := by
  induction xs generalizing p s with
  | nil =>
    simp only [run_nil, Result.again.injEq] at h
    simp [h]
  | cons c cs ih =>
    rw [List.cons_append]
    cases hc : f p c s with
    | next t =>
      rw [run_cons_next hc] at h ⊢
      rw [ih h, List.length_cons]
      congr 1; omega
    | halt r t => rw [run_cons_halt hc] at h; cases h

/-- A run that has stopped does not depend on what follows. -/
theorem run_append_halt (h : run f p xs s = .halt r q s') :
    run f p (xs ++ ys) s = .halt r q s' := by
  induction xs generalizing p s with
  | nil => cases h
  | cons c cs ih =>
    rw [List.cons_append]
    cases hc : f p c s with
    | next t => rw [run_cons_next hc] at h ⊢; exact ih h
    | halt r t => rw [run_cons_halt hc] at h ⊢; exact h

theorem run_append_skip (h : ∀ q, ∀ c ∈ xs, f q c s = .next s) :
    run f p (xs ++ ys) s = run f (p + xs.length) ys s := by
  refine run_append_again ?_
  induction xs generalizing p with
  | nil => rfl
  | cons c cs ih =>
    rw [run_cons_next (h p c List.mem_cons_self)]
    exact ih fun q c hc => h q c (List.mem_cons_of_mem _ hc)

/-- Two scanners that agree on the positions of the input, in the states that satisfy an invariant of the
first, have the same run. -/
theorem run_congr (P : σ → Prop) (hP : ∀ q c s s', P s → f q c s = .next s' → P s')
    (h : ∀ q, p ≤ q → q < p + xs.length → ∀ c s, P s → f q c s = g q c s) (hs : P s) :
    run f p xs s = run g p xs s := by
  induction xs generalizing p s with
  | nil => rfl
  | cons c cs ih =>
    have hp := h p le_rfl (by simp) c s hs
    have hrest : ∀ q, p + 1 ≤ q → q < p + 1 + cs.length → ∀ c s, P s → f q c s = g q c s :=
      fun q h1 h2 => h q (by omega) (by simp only [List.length_cons]; omega)
    cases hc : f p c s with
    | next t => rw [run_cons_next hc, run_cons_next (hp ▸ hc)]; exact ih hrest (hP p c s t hs hc)
    | halt r t => rw [run_cons_halt hc, run_cons_halt (hp ▸ hc)]

/-! ### Parts of the state a scanner does not use -/

/-- A change of the state, carried through a step. -/
def Step.map (φ : σ → σ) : Step σ ρ → Step σ ρ
  | .next s => .next (φ s)
  | .halt r s => .halt r (φ s)

/-- A change of the state, carried through a result. -/
def Result.map (φ : σ → σ) : Result σ ρ → Result σ ρ
  | .again s => .again (φ s)
  | .halt r p s => .halt r p (φ s)

/-- A change of the state that every step carries through is carried through by the run. -/
theorem run_map (φ : σ → σ) (h : ∀ q c s, f q c (φ s) = (f q c s).map φ) :
    run f p xs (φ s) = (run f p xs s).map φ := by
  induction xs generalizing p s with
  | nil => rfl
  | cons c cs ih =>
    have hp := h p c s
    cases hc : f p c s with
    | next t =>
      rw [hc] at hp
      rw [run_cons_next hc, run_cons_next hp, ih]
    | halt r t =>
      rw [hc] at hp
      rw [run_cons_halt hc, run_cons_halt hp]
      rfl

/-! ### What a run reads -/

/-- The positions of the symbols that a run reads. -/
def reads (f : ℕ → β → σ → Step σ ρ) (p : ℕ) (xs : List β) (s : σ) : List ℕ :=
  match xs with
  | [] => []
  | c :: cs =>
    match f p c s with
    | .next s' => p :: reads f (p + 1) cs s'
    | .halt _ _ => [p]

theorem reads_bounds (h : q ∈ reads f p xs s) : p ≤ q ∧ q < p + xs.length := by
  induction xs generalizing p s with
  | nil => cases h
  | cons c cs ih =>
    rw [reads] at h
    split at h
    · rcases List.mem_cons.mp h with rfl | h
      · exact ⟨le_rfl, by simp⟩
      · have hq := ih h
        rw [List.length_cons]
        omega
    · rw [List.mem_singleton.mp h]
      exact ⟨le_rfl, by simp⟩

/-! ### Where a run stops, and in what state -/

theorem halt_bounds (h : run f p xs s = .halt r q s') : p ≤ q ∧ q < p + xs.length := by
  induction xs generalizing p s with
  | nil => cases h
  | cons c cs ih =>
    simp only [List.length_cons]
    cases hc : f p c s with
    | next t =>
      rw [run_cons_next hc] at h
      have := ih h
      omega
    | halt r t =>
      rw [run_cons_halt hc] at h
      injection h with _ hq _
      omega

/-- **The invariant rule.**  What every step at a position of the input preserves holds of the state in which a
run ends. -/
theorem run_inv (P : σ → Prop)
    (hnext : ∀ q c s s', p ≤ q → q < p + xs.length → P s → f q c s = .next s' → P s')
    (hhalt : ∀ q c s r s', p ≤ q → q < p + xs.length → P s → f q c s = .halt r s' → P s') (hs : P s) :
    P (run f p xs s).state := by
  induction xs generalizing p s with
  | nil => exact hs
  | cons c cs ih =>
    have hlen : p < p + (c :: cs).length := by simp
    cases hc : f p c s with
    | next t =>
      rw [run_cons_next hc]
      refine ih ?_ ?_ (hnext p c s t le_rfl hlen hs hc)
      · exact fun q c s s' h1 h2 => hnext q c s s' (by omega) (by simp only [List.length_cons]; omega)
      · exact fun q c s r s' h1 h2 => hhalt q c s r s' (by omega) (by simp only [List.length_cons]; omega)
    | halt r t => rw [run_cons_halt hc]; exact hhalt p c s r t le_rfl hlen hs hc

/-- The invariant rule, for a property that does not depend on how a step ends. -/
theorem run_state_inv (P : σ → Prop) (h : ∀ q c s, P s → P (f q c s).state) (hs : P s) : P (run f p xs s).state := by
  refine run_inv P (fun q c s s' _ _ hs hf => ?_) (fun q c s r s' _ _ hs hf => ?_) hs
  · have := h q c s hs
    rwa [hf] at this
  · have := h q c s hs
    rwa [hf] at this

/-- What every step that moves on preserves holds of the state from which a run is resumed. -/
theorem again_inv (P : σ → Prop) (hnext : ∀ q c s s', P s → f q c s = .next s' → P s') (hs : P s)
    (h : run f p xs s = .again s') : P s' := by
  induction xs generalizing p s with
  | nil => cases h; exact hs
  | cons c cs ih =>
    cases hc : f p c s with
    | next t => rw [run_cons_next hc] at h; exact ih (hnext p c s t hs hc) h
    | halt r t => rw [run_cons_halt hc] at h; cases h

theorem halt_inv (P : σ → Prop) (hnext : ∀ q c s s', P s → f q c s = .next s' → P s') (hs : P s)
    (h : run f p xs s = .halt r q s') : ∃ c t, P t ∧ f q c t = .halt r s' := by
  induction xs generalizing p s with
  | nil => cases h
  | cons c cs ih =>
    cases hc : f p c s with
    | next t => rw [run_cons_next hc] at h; exact ih (hnext p c s t hs hc) h
    | halt r t => rw [run_cons_halt hc] at h; cases h; exact ⟨c, s, hs, hc⟩

/-! ### Invariants that know the position -/

/-- A state that moves on to `g c` on the symbols that satisfy `cond`, and otherwise stops with another result. -/
theorem halt_iff_guard (cond : β → Bool) (g : β → σ) (hnext : ∀ c, cond c = true → f p c s = .next (g c))
    (hstop : ∀ c, cond c = false → ∃ r' t, f p c s = .halt r' t ∧ r' ≠ r) :
    run f p xs s = .halt r q s' ↔ ∃ c rest, xs = c :: rest ∧ cond c = true ∧ run f (p + 1) rest (g c) = .halt r q s' := by
  cases xs with
  | nil => simp
  | cons c cs =>
    cases hc : cond c with
    | true => rw [run_cons_next (hnext c hc)]; simp [hc]
    | false =>
      obtain ⟨r', t, hf, hr⟩ := hstop c hc
      rw [run_cons_halt hf]
      simp [hc, hr]

/-- A state that stays on the symbols of the class `skip`, moves on to `g q c` on the others that satisfy `cond`, and
from which on any other symbol the run does not stop with `r`. -/
theorem halt_iff_while_of_ne (skip : β → Bool) (cond : ℕ → β → Bool) (g : ℕ → β → σ)
    (hloop : ∀ q c, skip c = true → f q c s = .next s)
    (hnext : ∀ q c, skip c = false → cond q c = true → f q c s = .next (g q c))
    (hstop : ∀ k c cs, skip c = false → cond k c = false → run f k (c :: cs) s ≠ .halt r q s') :
    run f p xs s = .halt r q s' ↔ ∃ ks c rest, xs = ks ++ c :: rest ∧ (∀ k ∈ ks, skip k = true) ∧ skip c = false ∧
      cond (p + ks.length) c = true ∧
      run f (p + ks.length + 1) rest (g (p + ks.length) c) = .halt r q s' := by
  induction xs generalizing p with
  | nil => simp
  | cons c cs ih =>
    cases hc : skip c with
    | true =>
      rw [run_cons_next (hloop p c hc), ih]
      constructor
      · rintro ⟨ks, d, rest, rfl, hks, hd, hcond, hrun⟩
        have hp : p + 1 + ks.length = p + (c :: ks).length := by simp only [List.length_cons]; omega
        rw [hp] at hcond hrun
        exact ⟨c :: ks, d, rest, rfl, by simpa [hc] using hks, hd, hcond, hrun⟩
      · rintro ⟨_ | ⟨k, ks⟩, d, rest, hxs, hks, hd, hcond, hrun⟩
        · cases hxs
          rw [hc] at hd
          cases hd
        · cases hxs
          have hp : p + (c :: ks).length = p + 1 + ks.length := by simp only [List.length_cons]; omega
          rw [hp] at hcond hrun
          exact ⟨ks, d, rest, rfl, fun k hk => hks k (List.mem_cons_of_mem _ hk), hd, hcond, hrun⟩
    | false =>
      have hnil : ∀ ks d rest, c :: cs = ks ++ d :: rest → (∀ k ∈ ks, skip k = true) → ks = [] ∧ d = c ∧ rest = cs := by
        rintro (_ | ⟨k, ks⟩) d rest hxs hks
        · cases hxs; exact ⟨rfl, rfl, rfl⟩
        · cases hxs
          have := hks c (by simp)
          rw [hc] at this
          cases this
      cases hcond : cond p c with
      | true =>
        rw [run_cons_next (hnext p c hc hcond)]
        constructor
        · exact fun h => ⟨[], c, cs, rfl, by simp, hc, hcond, h⟩
        · rintro ⟨ks, d, rest, hxs, hks, -, -, hrun⟩
          obtain ⟨rfl, rfl, rfl⟩ := hnil ks d rest hxs hks
          exact hrun
      | false =>
        constructor
        · exact fun h => absurd h (hstop p c cs hc hcond)
        · rintro ⟨ks, d, rest, hxs, hks, -, hd, -⟩
          obtain ⟨rfl, rfl, rfl⟩ := hnil ks d rest hxs hks
          rw [List.length_nil, Nat.add_zero, hcond] at hd
          cases hd

theorem halt_iff_while (skip : β → Bool) (cond : ℕ → β → Bool) (g : ℕ → β → σ)
    (hloop : ∀ q c, skip c = true → f q c s = .next s)
    (hnext : ∀ q c, skip c = false → cond q c = true → f q c s = .next (g q c))
    (hstop : ∀ q c, skip c = false → cond q c = false → ∃ r' t, f q c s = .halt r' t ∧ r' ≠ r) :
    run f p xs s = .halt r q s' ↔ ∃ ks c rest, xs = ks ++ c :: rest ∧ (∀ k ∈ ks, skip k = true) ∧ skip c = false ∧
      cond (p + ks.length) c = true ∧
      run f (p + ks.length + 1) rest (g (p + ks.length) c) = .halt r q s' := by
  refine halt_iff_while_of_ne skip cond g hloop hnext ?_
  intro k c cs hc hcond h
  obtain ⟨r', t, hf, hr⟩ := hstop k c hc hcond
  rw [run_cons_halt hf] at h
  cases h
  exact hr rfl

end Run

end Scan
