import Mathlib

/-!
# Three-way comparisons

A function that answers `-1`, `0` or `1` compares what it is given by a key in a linear order.  `Agrees` says that an answer
is the right one for two keys; the laws of the comparison are those of the order.

Lists are compared by their first difference and then by their lengths (`firstDiff_agrees`), which is the lexicographic
order.
-/

namespace ThreeWay

section Answers

variable {κ : Type*} [LinearOrder κ] {v w : ℤ} {x y z : κ}

/-- `v` is the answer for `x` and `y`. -/
def Agrees (v : ℤ) (x y : κ) : Prop := (x < y ∧ v = -1) ∨ (x = y ∧ v = 0) ∨ (y < x ∧ v = 1)

theorem Agrees.range (h : Agrees v x y) : v = -1 ∨ v = 0 ∨ v = 1 := by
  rcases h with ⟨-, h⟩ | ⟨-, h⟩ | ⟨-, h⟩
  · exact .inl h
  · exact .inr (.inl h)
  · exact .inr (.inr h)

theorem Agrees.neg_one_iff (h : Agrees v x y) : v = -1 ↔ x < y := by
  rcases h with ⟨hlt, rfl⟩ | ⟨heq, rfl⟩ | ⟨hgt, rfl⟩
  · exact iff_of_true rfl hlt
  · exact iff_of_false (by decide) heq.not_lt
  · exact iff_of_false (by decide) hgt.not_gt

theorem Agrees.zero_iff (h : Agrees v x y) : v = 0 ↔ x = y := by
  rcases h with ⟨hlt, rfl⟩ | ⟨heq, rfl⟩ | ⟨hgt, rfl⟩
  · exact iff_of_false (by decide) hlt.ne
  · exact iff_of_true rfl heq
  · exact iff_of_false (by decide) hgt.ne'

theorem Agrees.swap (h : Agrees v x y) : Agrees (-v) y x := by
  rcases h with ⟨hlt, rfl⟩ | ⟨heq, rfl⟩ | ⟨hgt, rfl⟩
  · exact .inr (.inr ⟨hlt, rfl⟩)
  · exact .inr (.inl ⟨heq.symm, rfl⟩)
  · exact .inl ⟨hgt, rfl⟩

theorem Agrees.unique (hv : Agrees v x y) (hw : Agrees w x y) : v = w := by
  rcases hv with ⟨hlt, rfl⟩ | ⟨heq, rfl⟩ | ⟨hgt, rfl⟩
  · exact (hw.neg_one_iff.mpr hlt).symm
  · exact (hw.zero_iff.mpr heq).symm
  · have hneg := hw.swap.neg_one_iff.mpr hgt
    omega

theorem Agrees.one_iff (h : Agrees v x y) : v = 1 ↔ y < x := by
  rw [← h.swap.neg_one_iff]
  omega

/-- With a smallest key added to the order. -/
theorem Agrees.coe (h : Agrees v x y) : Agrees v (x : WithBot κ) (y : WithBot κ) := by
  rcases h with ⟨hlt, rfl⟩ | ⟨rfl, rfl⟩ | ⟨hgt, rfl⟩
  · exact .inl ⟨WithBot.coe_lt_coe.mpr hlt, rfl⟩
  · exact .inr (.inl ⟨rfl, rfl⟩)
  · exact .inr (.inr ⟨WithBot.coe_lt_coe.mpr hgt, rfl⟩)

theorem Agrees.nonpos_iff (h : Agrees v x y) : v ≤ 0 ↔ x ≤ y := by
  rw [← not_lt, ← not_lt, ← h.one_iff]
  rcases h.range with rfl | rfl | rfl <;> decide

theorem Agrees.neg_iff (h : Agrees v x y) : v < 0 ↔ x < y := by
  rw [← h.neg_one_iff]
  rcases h.range with rfl | rfl | rfl <;> decide

end Answers

/-! ### Lists -/

section Lists

variable {κ : Type*} [LinearOrder κ] {v : ℤ} {a b : κ}

/-- The answer at the first place at which two lists differ, if there is one. -/
def firstDiff : List κ → List κ → Option ℤ
  | a :: as, b :: bs => if a < b then some (-1) else if a > b then some 1 else firstDiff as bs
  | _, _ => none

/-- The answer for two lengths. -/
def byLength (n m : ℕ) : ℤ := if m = n then 0 else if n < m then -1 else 1

theorem byLength_succ (n m : ℕ) : byLength (n + 1) (m + 1) = byLength n m := by
  simp only [byLength, Nat.add_right_cancel_iff, Nat.add_lt_add_iff_right]

theorem Agrees.cons {as bs : List κ} (h : Agrees v as bs) (a : κ) : Agrees v (a :: as) (a :: bs) := by
  rcases h with ⟨hlt, rfl⟩ | ⟨rfl, rfl⟩ | ⟨hgt, rfl⟩
  · exact .inl ⟨List.cons_lt_cons_iff.mpr (.inr ⟨rfl, hlt⟩), rfl⟩
  · exact .inr (.inl ⟨rfl, rfl⟩)
  · exact .inr (.inr ⟨List.cons_lt_cons_iff.mpr (.inr ⟨rfl, hgt⟩), rfl⟩)

/-- **The lexicographic order**: the first difference decides, and without one the shorter list is the smaller. -/
theorem firstDiff_agrees (as bs : List κ) :
    Agrees ((firstDiff as bs).getD (byLength as.length bs.length)) as bs := by
  induction as generalizing bs with
  | nil =>
    cases bs with
    | nil => exact .inr (.inl ⟨rfl, rfl⟩)
    | cons b bs => exact .inl ⟨List.nil_lt_cons b bs, rfl⟩
  | cons a as ih =>
    cases bs with
    | nil => exact .inr (.inr ⟨List.nil_lt_cons a as, rfl⟩)
    | cons b bs =>
      rw [firstDiff]
      split_ifs with hlt hgt
      · exact .inl ⟨List.cons_lt_cons_iff.mpr (.inl hlt), rfl⟩
      · exact .inr (.inr ⟨List.cons_lt_cons_iff.mpr (.inl hgt), rfl⟩)
      · obtain rfl : a = b := le_antisymm (not_lt.mp hgt) (not_lt.mp hlt)
        rw [List.length_cons, List.length_cons, byLength_succ]
        exact (ih bs).cons a

end Lists

end ThreeWay
