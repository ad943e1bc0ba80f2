import Mathlib.Logic.Relation

/-!
# Reading in batches

A reader is given its input in batches.  `recv` puts a batch into the state, `handle` deals with what is there, and as long
as the state is `live` the next batch is waited for (`serve`).

What has come of a beginning of the input is compared with what comes of more of it by a preorder.  If a reader that waits
goes on as if it had been given everything at once, and what it has come to otherwise is kept when there is more (`Resumes`),
then what comes of the batches is kept by what comes of all the input in one batch (`serve_le`).
-/

namespace Batching

variable {σ β ε : Type*}

section Serve

variable (recv : σ → List β → σ) (handle : σ → Except ε σ) (live : σ → Bool)

/-- The batches, one after the other. -/
def serve : σ → List (List β) → Except ε σ
  | s, [] => .ok s
  | s, b :: bs =>
    match handle (recv s b) with
    | .ok s' => if live s' then serve s' bs else .ok s'
    | .error e => .error e

/-- What a reader has to satisfy: `J s input` holds of its states that wait, and of what may come. -/
structure Resumes (J : σ → List β → Prop) (le : Except ε σ → Except ε σ → Prop) : Prop where
  refl : ∀ x, le x x
  trans : ∀ {x y z}, le x y → le y z → le x z
  /-- a reader that waits goes on with what comes -/
  wait : ∀ {s s' b more}, J s (b ++ more) → handle (recv s b) = .ok s' → live s' = true →
    J s' more ∧ le (handle (recv s' more)) (handle (recv s (b ++ more)))
  /-- what a reader has come to does not change -/
  stop : ∀ {s b more}, J s (b ++ more) → (∀ s', handle (recv s b) = .ok s' → live s' = false) →
    le (handle (recv s b)) (handle (recv s (b ++ more)))

end Serve

variable {recv : σ → List β → σ} {handle : σ → Except ε σ} {live : σ → Bool} {J : σ → List β → Prop}
  {le : Except ε σ → Except ε σ → Prop}

theorem serve_cons_le (h : Resumes recv handle live J le) (bs : List (List β)) {s : σ} {b : List β}
    (hs : J s (b ++ bs.flatten)) : le (serve recv handle live s (b :: bs)) (handle (recv s (b ++ bs.flatten))) := by
  induction bs generalizing s b with
  | nil =>
    rw [List.flatten_nil, List.append_nil, serve]
    cases hb : handle (recv s b) with
    | error e => exact h.refl _
    | ok s' =>
      simp only
      split <;> exact h.refl _
  | cons b' bs ih =>
    have hstop := h.stop hs
    rw [serve]
    cases hb : handle (recv s b) with
    | error e =>
      rw [hb] at hstop
      refine hstop ?_
      rintro _ ⟨⟩
    | ok s' =>
      simp only
      by_cases hlive : live s' = true
      · rw [if_pos hlive]
        obtain ⟨hs', hgoes⟩ := h.wait hs hb hlive
        exact h.trans (ih hs') hgoes
      · rw [if_neg hlive]
        rw [hb] at hstop
        refine hstop ?_
        rintro _ ⟨⟩
        simpa using hlive

/-- **The batches and the whole input.** -/
theorem serve_le (h : Resumes recv handle live J le) (bs : List (List β)) {s : σ} (hs : J s bs.flatten)
    (hidle : handle (recv s []) = .ok s) : le (serve recv handle live s bs) (handle (recv s bs.flatten)) := by
  cases bs with
  | nil =>
    rw [List.flatten_nil, hidle]
    exact h.refl _
  | cons b bs => exact serve_cons_le h bs hs

end Batching
