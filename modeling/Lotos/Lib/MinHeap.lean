import Mathlib

/-!
# Binary min-heaps on an array of keys

The keys are a function `key : ℕ → K`, of which the positions below `n` count.  A heap with one key out of place is
repaired by exchanging it along a path: `UpReady` is what holds while it moves towards the root, `DownReady` while it
moves away from it.  For each of the two, one lemma says that an exchange keeps the property (`UpReady.exchange`,
`DownReady.exchange`) and one that the heap is ordered when no exchange is called for (`UpReady.ordered`,
`DownReady.ordered`).  The section on changes says which of the two holds after a key has changed, a key has been added
at the end, or the last key has taken the place of another.
-/

namespace MinHeap

variable {K : Type*}

/-- The position above `i`. -/
def parent (i : ℕ) : ℕ := (i - 1) / 2

theorem parent_lt {i : ℕ} (h : 0 < i) : parent i < i := by unfold parent; omega

theorem parent_eq_iff {i j : ℕ} (hj : 0 < j) : parent j = i ↔ j = 2 * i + 1 ∨ j = 2 * i + 2 := by
  unfold parent
  omega

/-- The keys with those at `i` and `j` exchanged. -/
def exchange (key : ℕ → K) (i j : ℕ) : ℕ → K := fun k => key (Equiv.swap i j k)

section Exchange

variable {key : ℕ → K} {i j k : ℕ}

@[simp] lemma exchange_left : exchange key i j i = key j := by simp [exchange]

@[simp] lemma exchange_right : exchange key i j j = key i := by simp [exchange]

theorem exchange_of_ne (hi : k ≠ i) (hj : k ≠ j) : exchange key i j k = key k := by
  rw [exchange, Equiv.swap_apply_of_ne_of_ne hi hj]

end Exchange

variable [LinearOrder K]

/-- No key is below its parent's. -/
def Ordered (key : ℕ → K) (n : ℕ) : Prop := ∀ i, 0 < i → i < n → key (parent i) ≤ key i

/-- Only the key at `i` may be out of place, and it may be too small for its parent. -/
structure UpReady (key : ℕ → K) (n i : ℕ) : Prop where
  edge : ∀ j, 0 < j → j < n → j ≠ i → key (parent j) ≤ key j
  grand : 0 < i → ∀ j, 0 < j → j < n → parent j = i → key (parent i) ≤ key j

/-- Only the key at `i` may be out of place, and it may be too large for its children. -/
structure DownReady (key : ℕ → K) (n i : ℕ) : Prop where
  edge : ∀ j, 0 < j → j < n → parent j ≠ i → key (parent j) ≤ key j
  grand : 0 < i → ∀ j, 0 < j → j < n → parent j = i → key (parent i) ≤ key j

section Repair

variable {key : ℕ → K} {n i : ℕ}

theorem Ordered.root_le (h : Ordered key n) {i : ℕ} (hi : i < n) : key 0 ≤ key i := by
  induction i using Nat.strong_induction_on with
  | _ i ih =>
    rcases Nat.eq_zero_or_pos i with rfl | hpos
    · exact le_rfl
    · have hlt := parent_lt hpos
      exact (ih (parent i) hlt (by omega)).trans (h i hpos hi)

/-! ### Towards the root -/

theorem UpReady.ordered (h : UpReady key n i) (hstop : 0 < i → key (parent i) ≤ key i) : Ordered key n := by
  intro j hpos hj
  by_cases hji : j = i
  · subst hji
    exact hstop hpos
  · exact h.edge j hpos hj hji

theorem UpReady.exchange (h : UpReady key n i) (hpos : 0 < i) (hi : i < n) (hlt : key i < key (parent i)) :
    UpReady (exchange key i (parent i)) n (parent i) := by
  have hp := parent_lt hpos
  -- what hangs under the parent is not below it
  have hunder : ∀ j, 0 < j → j < n → parent j = parent i → j ≠ i → key (parent i) ≤ key j := by
    intro j hj hjn hpar hji
    have := h.edge j hj hjn hji
    rwa [hpar] at this
  constructor
  · intro j hj hjn hjp
    by_cases hji : j = i
    · subst hji
      rw [exchange_left, exchange_right]
      exact hlt.le
    · rw [exchange_of_ne hji hjp]
      by_cases hpi : parent j = i
      · rw [hpi, exchange_left]
        exact h.grand hpos j hj hjn hpi
      · by_cases hpp : parent j = parent i
        · rw [hpp, exchange_right]
          exact hlt.le.trans (hunder j hj hjn hpp hji)
        · rw [exchange_of_ne hpi hpp]
          exact h.edge j hj hjn hji
  · intro hpos' j hj hjn hpar
    have hpp := parent_lt hpos'
    have hup : key (parent (parent i)) ≤ key (parent i) := h.edge (parent i) hpos' (by omega) (by omega)
    rw [exchange_of_ne (by omega) (by omega)]
    by_cases hji : j = i
    · subst hji
      rw [exchange_left]
      exact hup
    · have hj' := parent_lt hj
      rw [exchange_of_ne hji (by omega)]
      exact hup.trans (hunder j hj hjn hpar hji)

/-! ### Away from the root -/

theorem DownReady.ordered (h : DownReady key n i) (hstop : ∀ j, 0 < j → j < n → parent j = i → key i ≤ key j) :
    Ordered key n := by
  intro j hpos hj
  by_cases hji : parent j = i
  · rw [hji]
    exact hstop j hpos hj hji
  · exact h.edge j hpos hj hji

theorem DownReady.exchange {c : ℕ} (h : DownReady key n i) (hpos : 0 < c) (hc : c < n) (hci : parent c = i)
    (hmin : ∀ j, 0 < j → j < n → parent j = i → key c ≤ key j) (hlt : key c < key i) :
    DownReady (exchange key i c) n c := by
  have hic : i < c := hci ▸ parent_lt hpos
  constructor
  · intro j hj hjn hjc
    have hj' := parent_lt hj
    by_cases hji : j = i
    · subst hji
      rw [exchange_left, exchange_of_ne (by omega) hjc]
      exact h.grand hj c hpos hc hci
    · by_cases hjc' : j = c
      · subst hjc'
        rw [hci, exchange_left, exchange_right]
        exact hlt.le
      · rw [exchange_of_ne hji hjc']
        by_cases hpi : parent j = i
        · rw [hpi, exchange_left]
          exact hmin j hj hjn hpi
        · rw [exchange_of_ne hpi hjc]
          exact h.edge j hj hjn hpi
  · intro _ j hj hjn hjc
    have hj' := parent_lt hj
    rw [hci, exchange_left, exchange_of_ne (by omega) (by omega)]
    have := h.edge j hj hjn (by omega)
    rwa [hjc] at this

/-! ### Changes -/

variable {key' : ℕ → K}

/-- A key has become smaller. -/
theorem Ordered.upReady_of_lt (h : Ordered key n) (hi : i < n) (hother : ∀ j, j < n → j ≠ i → key' j = key j)
    (hle : key' i ≤ key i) : UpReady key' n i := by
  constructor
  · intro j hj hjn hji
    have hp := parent_lt hj
    rw [hother j hjn hji]
    by_cases hpi : parent j = i
    · have := h j hj hjn
      rw [hpi] at this ⊢
      exact hle.trans this
    · rw [hother _ (by omega) hpi]
      exact h j hj hjn
  · intro hpos j hj hjn hji
    have hp := parent_lt hpos
    have hij : i < j := hji ▸ parent_lt hj
    rw [hother _ (by omega) (by omega), hother _ hjn (by omega)]
    have := h j hj hjn
    rw [hji] at this
    exact (h i hpos (by omega)).trans this

/-- Another key, not below the parent's, has taken the place of a key. -/
theorem Ordered.downReady_replace (h : Ordered key n) (hi : i < n) (hother : ∀ j, j < n → j ≠ i → key' j = key j)
    (hle : 0 < i → key (parent i) ≤ key' i) : DownReady key' n i := by
  constructor
  · intro j hj hjn hpi
    have hp := parent_lt hj
    rw [hother _ (by omega) hpi]
    by_cases hji : j = i
    · subst hji
      exact hle hj
    · rw [hother j hjn hji]
      exact h j hj hjn
  · intro hpos j hj hjn hji
    have hp := parent_lt hpos
    have hij : i < j := hji ▸ parent_lt hj
    rw [hother _ (by omega) (by omega), hother _ hjn (by omega)]
    have := h j hj hjn
    rw [hji] at this
    exact (h i hpos (by omega)).trans this

theorem Ordered.downReady_of_lt (h : Ordered key n) (hi : i < n) (hother : ∀ j, j < n → j ≠ i → key' j = key j)
    (hle : key i ≤ key' i) : DownReady key' n i :=
  h.downReady_replace hi hother fun hpos => (h i hpos hi).trans hle

/-- A key has been added at the end. -/
theorem Ordered.upReady_append (h : Ordered key n) (hother : ∀ j, j < n → key' j = key j) : UpReady key' (n + 1) n := by
  constructor
  · intro j hj hjn hne
    have hp := parent_lt hj
    rw [hother _ (by omega), hother _ (by omega)]
    exact h j hj (by omega)
  · intro _ j hj hjn hpar
    have hp := parent_lt hj
    omega

theorem Ordered.downReady_root (h : Ordered key n) (hother : ∀ j, 0 < j → j < n → key' j = key j) :
    DownReady key' n 0 := by
  constructor
  · intro j hj hjn hp0
    rw [hother j hj hjn, hother _ (by omega) (by have := parent_lt hj; omega)]
    exact h j hj hjn
  · intro h0
    omega

theorem Ordered.mono (h : Ordered key n) {m : ℕ} (hm : m ≤ n) : Ordered key m :=
  fun i hi him => h i hi (by omega)

end Repair

end MinHeap
