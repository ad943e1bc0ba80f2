import Mathlib

/-!
# Intrusive linked lists

The nodes of the list are addresses, and each holds the address of the next one: `link a` is what stands in node `a`, and
`none` is the null pointer.  `Chain link head l` says that `l` are the nodes met from `head` on, and `follow` collects them.

Writing into a node that is not in the list does not change the list (`Chain.congr`, `Chain.update`), and a node is put in
front by one write into it (`Chain.push`).
-/

namespace FreeList

variable {α : Type*} {link link' : α → Option α} {head : Option α} {l : List α} {a : α}

/-- The nodes met from `head` on. -/
def Chain (link : α → Option α) : Option α → List α → Prop
  | head, [] => head = none
  | head, a :: l => head = some a ∧ Chain link (link a) l

/-- The first `n` nodes met from `head` on. -/
def follow (link : α → Option α) : Option α → ℕ → List α
  | some a, n + 1 => a :: follow link (link a) n
  | _, _ => []

theorem Chain.congr (h : Chain link head l) (hlink : ∀ a ∈ l, link' a = link a) : Chain link' head l := by
  induction l generalizing head with
  | nil => exact h
  | cons a l ih =>
    refine ⟨h.1, ?_⟩
    rw [hlink a List.mem_cons_self]
    exact ih h.2 fun b hb => hlink b (List.mem_cons_of_mem _ hb)

theorem Chain.follow_eq (h : Chain link head l) {n : ℕ} (hn : l.length ≤ n) : follow link head n = l := by
  induction l generalizing head n with
  | nil =>
    rw [show head = none from h]
    cases n <;> rfl
  | cons a l ih =>
    obtain ⟨rfl, h⟩ := h
    obtain ⟨m, rfl⟩ := Nat.exists_eq_succ_of_ne_zero (show n ≠ 0 by rw [List.length_cons] at hn; omega)
    rw [follow, ih h (by rw [List.length_cons] at hn; omega)]

variable [DecidableEq α]

theorem Chain.update (h : Chain link head l) (ha : a ∉ l) (v : Option α) : Chain (Function.update link a v) head l := by
  refine h.congr ?_
  intro b hb
  refine Function.update_of_ne ?_ _ _
  rintro rfl
  exact ha hb

theorem Chain.push (h : Chain link head l) (ha : a ∉ l) : Chain (Function.update link a head) (some a) (a :: l) := by
  refine ⟨rfl, ?_⟩
  rw [Function.update_self]
  exact h.update ha head

end FreeList
