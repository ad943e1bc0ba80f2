import Mathlib

/-!
# Walks in a tree

A walk starts at the root and makes moves: it stays, goes down to a child, or goes up to the parent.  `walk` follows it with
the names of the places it has come down through, and is undefined if a move goes up from the root.

`walk_ne_none_iff`: the walk stays at or below the root exactly if in no beginning of it the moves up outnumber the moves
down.
-/

namespace Walk

variable {α : Type*}

inductive Move (α : Type*) where
  | stay
  | up
  | down (a : α)

/-- The place, as the names from the innermost one on, after the moves. -/
def walk (place : List α) : List (Move α) → Option (List α)
  | [] => some place
  | .stay :: ms => walk place ms
  | .down a :: ms => walk (a :: place) ms
  | .up :: ms =>
    match place with
    | [] => none
    | _ :: above => walk above ms

/-- The number of moves up. -/
def ups : List (Move α) → ℕ
  | [] => 0
  | .up :: ms => ups ms + 1
  | _ :: ms => ups ms

/-- The number of moves down. -/
def downs : List (Move α) → ℕ
  | [] => 0
  | .down _ :: ms => downs ms + 1
  | _ :: ms => downs ms

theorem walk_ne_none_iff (place : List α) (ms : List (Move α)) :
    walk place ms ≠ none ↔ ∀ p, p <+: ms → ups p ≤ place.length + downs p := by
  induction ms generalizing place with
  | nil =>
    refine ⟨?_, fun _ => by simp [walk]⟩
    intro _ p hp
    rw [List.prefix_nil.mp hp]
    exact Nat.zero_le _
  | cons m ms ih =>
    have hcons : (∀ p, p <+: m :: ms → ups p ≤ place.length + downs p) ↔
        ∀ p, p <+: ms → ups (m :: p) ≤ place.length + downs (m :: p) := by
      refine ⟨fun h p hp => h _ (List.cons_prefix_cons.mpr ⟨rfl, hp⟩), ?_⟩
      intro h p hp
      rcases List.prefix_cons_iff.mp hp with rfl | ⟨t, rfl, ht⟩
      · exact Nat.zero_le _
      · exact h t ht
    rw [hcons]
    cases m with
    | stay => exact ih place
    | down a =>
      rw [walk, ih, List.length_cons]
      simp only [ups, downs, Nat.add_assoc, Nat.add_comm 1]
    | up =>
      cases place with
      | nil =>
        refine ⟨fun h => absurd rfl h, ?_⟩
        intro h
        have hfirst := h [] List.nil_prefix
        simp [ups, downs] at hfirst
      | cons a above =>
        rw [walk, ih]
        simp only [ups, downs, List.length_cons]
        refine forall_congr' fun p => imp_congr_right fun _ => ?_
        omega

end Walk
