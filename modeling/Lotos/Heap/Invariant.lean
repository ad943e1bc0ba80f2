import Lotos.Heap.Defs

/-!
# What the heap operations keep

`Heap.Valid h live` is the invariant: the array holds the connections of `live` and no others, each at the index it has
in `heap_idx`, with no connection older than the one above it.  Each operation has one theorem: it succeeds, and the heap
it leaves is valid for the connections that are then registered.

The bubbling only rearranges (`Heap.Rearranged`), and repairs the order that `MinHeap.UpReady` or `MinHeap.DownReady`
describes.
-/

namespace Lotos

/-- The back-indices are right. -/
def Heap.Indexed (h : Heap) : Prop := ∀ i, i < h.heapSize → h.heapIdx (h.lotosConnections i) = i

/-- The connection is in the heap. -/
def Heap.Holds (h : Heap) (c : ConnPtr) : Prop := ∃ i, i < h.heapSize ∧ h.lotosConnections i = c

/-- The heap is right, and `live` are the connections in it. -/
structure Heap.Valid (h : Heap) (live : Finset ConnPtr) : Prop where
  size : h.heapSize ≤ maxConnection
  indexed : h.Indexed
  holds : ∀ c, c ∈ live ↔ h.Holds c
  ordered : MinHeap.Ordered h.key h.heapSize

theorem Heap.Indexed.inj {h : Heap} (hi : h.Indexed) {i j : ℕ} (hin : i < h.heapSize) (hjn : j < h.heapSize)
    (heq : h.lotosConnections i = h.lotosConnections j) : i = j := by
  rw [← hi i hin, heq, hi j hjn]

theorem Heap.Indexed.holds_iff {h : Heap} (hi : h.Indexed) (c : ConnPtr) :
    h.Holds c ↔ h.heapIdx c < h.heapSize ∧ h.lotosConnections (h.heapIdx c) = c := by
  constructor
  · rintro ⟨i, hin, rfl⟩
    rw [hi i hin]
    exact ⟨hin, rfl⟩
  · rintro ⟨hlt, hc⟩
    exact ⟨_, hlt, hc⟩

/-! ### Bubbling -/

/-- The same connections, with the same times, in another order. -/
structure Heap.Rearranged (h h' : Heap) : Prop where
  size : h'.heapSize = h.heapSize
  time : h'.activeTime = h.activeTime
  holds : ∀ c, h'.Holds c ↔ h.Holds c

theorem Heap.Rearranged.refl (h : Heap) : h.Rearranged h := ⟨rfl, rfl, fun _ => Iff.rfl⟩

theorem Heap.Rearranged.trans {h₁ h₂ h₃ : Heap} (h₁₂ : h₁.Rearranged h₂) (h₂₃ : h₂.Rearranged h₃) :
    h₁.Rearranged h₃ :=
  ⟨h₂₃.size.trans h₁₂.size, h₂₃.time.trans h₁₂.time, fun c => (h₂₃.holds c).trans (h₁₂.holds c)⟩

theorem cSwap_spec {h : Heap} {x y : ℕ} (hi : h.Indexed) (hx : x < h.heapSize) (hy : y < h.heapSize) :
    ∃ h', cSwap h x y = .ok h' ∧ h.Rearranged h' ∧ h'.Indexed ∧ h'.key = MinHeap.exchange h.key x y := by
  have hswap : ∀ i, i < h.heapSize → Equiv.swap x y i < h.heapSize := by
    intro i hin
    by_cases hix : i = x
    · rwa [hix, Equiv.swap_apply_left]
    · by_cases hiy : i = y
      · rwa [hiy, Equiv.swap_apply_right]
      · rwa [Equiv.swap_apply_of_ne_of_ne hix hiy]
  have hinj : ∀ i j, i < h.heapSize → j < h.heapSize →
      MinHeap.exchange h.lotosConnections x y i = MinHeap.exchange h.lotosConnections x y j → i = j := by
    intro i j hin hjn heq
    exact (Equiv.swap x y).injective (hi.inj (hswap i hin) (hswap j hjn) heq)
  refine ⟨_, if_pos ⟨hx, hy⟩, ⟨rfl, rfl, ?_⟩, ?_, rfl⟩
  · intro c
    constructor
    · rintro ⟨i, hin, hc⟩
      exact ⟨Equiv.swap x y i, hswap i hin, hc⟩
    · rintro ⟨i, hin, hc⟩
      refine ⟨Equiv.swap x y i, hswap i hin, ?_⟩
      simp only [Heap.setIdx, MinHeap.exchange, Equiv.swap_apply_self]
      exact hc
  · intro i hin
    simp only [Heap.setIdx] at hin ⊢
    by_cases hiy : i = y
    · rw [hiy, Function.update_self]
    · rw [Function.update_of_ne (fun heq => hiy (hinj i y hin hy heq))]
      by_cases hix : i = x
      · rw [hix, Function.update_self]
      · rw [Function.update_of_ne (fun heq => hix (hinj i x hin hx heq)), MinHeap.exchange_of_ne hix hiy]
        exact hi i hin

/-- `heap_bubble_up` orders a heap whose entry at `idx` may be too small for its place. -/
theorem heapBubbleUp_spec (idx : ℕ) {h : Heap} (hi : h.Indexed) (hidx : idx < h.heapSize)
    (hup : MinHeap.UpReady h.key h.heapSize idx) :
    ∃ h', heapBubbleUp h idx = .ok h' ∧ h.Rearranged h' ∧ h'.Indexed ∧ MinHeap.Ordered h'.key h'.heapSize := by
  induction idx using Nat.strong_induction_on generalizing h with
  | _ idx ih =>
    rw [heapBubbleUp]
    by_cases hpos : 0 < idx
    · have hlt := MinHeap.parent_lt hpos
      by_cases hstop : h.key idx ≥ h.key (MinHeap.parent idx)
      · simp only [hpos, hstop, dif_pos, if_true]
        exact ⟨h, rfl, .refl h, hi, hup.ordered fun _ => hstop⟩
      · obtain ⟨h₁, hs, hre, hi₁, hkey⟩ := cSwap_spec hi hidx (hlt.trans hidx)
        simp only [hpos, hstop, dif_pos, if_false, hs]
        have hup₁ : MinHeap.UpReady h₁.key h₁.heapSize (MinHeap.parent idx) := by
          rw [hkey, hre.size]
          exact hup.exchange hpos hidx (not_le.mp hstop)
        obtain ⟨h₂, hok, hre₂, hi₂, hord⟩ := ih _ hlt hi₁ (by rw [hre.size]; omega) hup₁
        exact ⟨h₂, hok, hre.trans hre₂, hi₂, hord⟩
    · simp only [hpos, dif_neg, not_false_eq_true]
      exact ⟨h, rfl, .refl h, hi, hup.ordered fun h0 => absurd h0 hpos⟩

/-- The proper child is a child, and no child is below it; without one there is no child. -/
theorem properChild_spec (h : Heap) (idx : ℕ) :
    match properChild h idx with
    | none => ∀ j, 0 < j → j < h.heapSize → MinHeap.parent j ≠ idx
    | some c => ∀ j, 0 < j → j < h.heapSize → MinHeap.parent j = idx → h.key c ≤ h.key j := by
  have hchild : ∀ j, 0 < j → MinHeap.parent j = idx → j = 2 * idx + 1 ∨ j = 2 * idx + 2 :=
    fun j hj => (MinHeap.parent_eq_iff hj).mp
  unfold properChild childOrEnd
  simp only
  by_cases hl : 2 * idx + 1 < h.heapSize
  · by_cases hr : 2 * idx + 2 < h.heapSize
    · simp only [hl, hr, if_true, and_self, gt_iff_lt, not_lt.mpr hl.le, false_and, if_false]
      intro j hj _ hpar
      by_cases hlt : h.key (2 * idx + 1) < h.key (2 * idx + 2)
      · simp only [hlt, if_true]
        rcases hchild j hj hpar with rfl | rfl
        · exact le_rfl
        · exact hlt.le
      · simp only [hlt, if_false]
        rcases hchild j hj hpar with rfl | rfl
        · exact not_lt.mp hlt
        · exact le_rfl
    · have hend : ¬ h.heapSize < 2 * idx + 1 := by omega
      have hout : ¬ h.heapSize + 1 < h.heapSize := by omega
      simp only [hl, hr, hend, hout, if_true, if_false, and_false, gt_iff_lt, false_and]
      intro j hj hjn hpar
      rcases hchild j hj hpar with rfl | rfl
      · exact le_rfl
      · omega
  · have hr : ¬ 2 * idx + 2 < h.heapSize := by omega
    simp only [hl, hr, if_false, gt_iff_lt, Nat.lt_succ_self, and_self, if_true]
    intro j hj hjn hpar
    rcases hchild j hj hpar with rfl | rfl <;> omega

/-- `heap_bubble_down` orders a heap whose entry at `idx` may be too large for its place. -/
theorem heapBubbleDown_spec {h : Heap} {idx : ℕ} (hi : h.Indexed)
    (hdown : MinHeap.DownReady h.key h.heapSize idx) :
    ∃ h', heapBubbleDown h idx = .ok h' ∧ h.Rearranged h' ∧ h'.Indexed ∧ MinHeap.Ordered h'.key h'.heapSize := by
  induction hn : h.heapSize - idx using Nat.strong_induction_on generalizing h idx with
  | _ n ih =>
    have hspec := properChild_spec h idx
    cases hc : properChild h idx with
    | none =>
      rw [hc] at hspec
      refine ⟨h, heapBubbleDown_leaf hc, .refl h, hi, hdown.ordered ?_⟩
      exact fun j hj hjn hpar => absurd hpar (hspec j hj hjn)
    | some c =>
      rw [hc] at hspec
      obtain ⟨hgt, hcn, hpar⟩ := properChild_gt hc
      by_cases hle : h.key idx ≤ h.key c
      · refine ⟨h, heapBubbleDown_stop hc hle, .refl h, hi, hdown.ordered ?_⟩
        exact fun j hj hjn hjp => hle.trans (hspec j hj hjn hjp)
      · obtain ⟨h₁, hs, hre, hi₁, hkey⟩ := cSwap_spec hi (hgt.trans hcn) hcn
        have hdown₁ : MinHeap.DownReady h₁.key h₁.heapSize c := by
          rw [hkey, hre.size]
          exact hdown.exchange (by omega) hcn hpar hspec (not_le.mp hle)
        obtain ⟨h₂, hok, hre₂, hi₂, hord⟩ := ih (h₁.heapSize - c) (by rw [hre.size]; omega) hi₁ hdown₁ rfl
        rw [heapBubbleDown_swap hc hle hs]
        exact ⟨h₂, hok, hre.trans hre₂, hi₂, hord⟩

/-! ### The operations -/

section Operations

variable {h : Heap} {live : Finset ConnPtr} {c : ConnPtr}

theorem Heap.Valid.idx (hv : h.Valid live) (hc : c ∈ live) :
    h.heapIdx c < h.heapSize ∧ h.lotosConnections (h.heapIdx c) = c :=
  (hv.indexed.holds_iff c).mp ((hv.holds c).mp hc)

theorem Heap.Valid.mem (hv : h.Valid live) {i : ℕ} (hi : i < h.heapSize) : h.lotosConnections i ∈ live :=
  (hv.holds _).mpr ⟨i, hi, rfl⟩

theorem Heap.Valid.setTime (hv : h.Valid live) (hc : c ∉ live) (now : ℤ) :
    ({ h with activeTime := Function.update h.activeTime c now } : Heap).Valid live := by
  refine ⟨hv.size, hv.indexed, hv.holds, ?_⟩
  have hkey : ∀ i, i < h.heapSize → Function.update h.activeTime c now (h.lotosConnections i) = h.key i := by
    intro i hi
    refine Function.update_of_ne ?_ _ _
    rintro rfl
    exact hc (hv.mem hi)
  intro i hi hin
  have hp := MinHeap.parent_lt hi
  change Function.update h.activeTime c now _ ≤ Function.update h.activeTime c now _
  rw [hkey i hin, hkey _ (hp.trans hin)]
  exact hv.ordered i hi hin

theorem setTime_within {time : ConnPtr → ℤ} {past now : ℤ} (htime : ∀ d ∈ live, 0 ≤ time d ∧ time d ≤ past) (c : ConnPtr)
    {t : ℤ} (ht : 0 ≤ t) (htn : t ≤ now) (hnow : past ≤ now) :
    ∀ d ∈ live, 0 ≤ Function.update time c t d ∧ Function.update time c t d ≤ now := by
  intro d hd
  by_cases hdc : d = c
  · rw [hdc, Function.update_self]
    exact ⟨ht, htn⟩
  · rw [Function.update_of_ne hdc]
    exact ⟨(htime d hd).1, (htime d hd).2.trans hnow⟩

theorem Heap.Rearranged.valid {h' : Heap} (hre : h.Rearranged h') (hsize : h.heapSize ≤ maxConnection)
    (hholds : ∀ c, c ∈ live ↔ h.Holds c) (hi : h'.Indexed) (hord : MinHeap.Ordered h'.key h'.heapSize) :
    h'.Valid live :=
  ⟨by rw [hre.size]; exact hsize, hi, fun c => (hholds c).trans (hre.holds c).symm, hord⟩

/-- A new entry is the youngest, and stays where it is put. -/
theorem connectionRegister_valid (hv : h.Valid live) (hc : c ∉ live) (hroom : h.heapSize < maxConnection)
    (hyoung : ∀ d ∈ live, h.activeTime d ≤ h.activeTime c) :
    ∃ h', connectionRegister h c = .ok (.ok, h') ∧ h'.Valid (insert c live) ∧ h'.activeTime = h.activeTime ∧
      h'.heapIdx c + 1 = h'.heapSize := by
  set h₁ : Heap := { h with
    lotosConnections := Function.update h.lotosConnections h.heapSize c
    heapSize := h.heapSize + 1
    heapIdx := Function.update h.heapIdx c h.heapSize } with hh₁
  have hold : ∀ i, i < h.heapSize → h₁.lotosConnections i = h.lotosConnections i :=
    fun i hi => Function.update_of_ne (by omega) _ _
  have hnew : h₁.lotosConnections h.heapSize = c := Function.update_self _ _ _
  have hindexed : h₁.Indexed := by
    intro i hi
    simp only [hh₁] at hi
    by_cases hlast : i = h.heapSize
    · rw [hlast, hnew]
      exact Function.update_self _ _ _
    · rw [hold i (by omega)]
      have hne : h.lotosConnections i ≠ c := fun heq => hc (heq ▸ hv.mem (by omega))
      exact (Function.update_of_ne hne _ _).trans (hv.indexed i (by omega))
  have hholds : ∀ d, d ∈ insert c live ↔ h₁.Holds d := by
    intro d
    rw [Finset.mem_insert]
    constructor
    · rintro (rfl | hd)
      · exact ⟨h.heapSize, Nat.lt_succ_self _, hnew⟩
      · obtain ⟨i, hi, hd⟩ := (hv.holds d).mp hd
        exact ⟨i, Nat.lt_succ_of_lt hi, (hold i hi).trans hd⟩
    · rintro ⟨i, hi, rfl⟩
      simp only [hh₁] at hi
      by_cases hlast : i = h.heapSize
      · exact .inl (by rw [hlast, hnew])
      · exact .inr (by rw [hold i (by omega)]; exact hv.mem (by omega))
  have hkey : ∀ i, i < h.heapSize → h₁.key i = h.key i := fun i hi => congrArg h.activeTime (hold i hi)
  have hup : MinHeap.UpReady h₁.key h₁.heapSize h.heapSize := hv.ordered.upReady_append hkey
  -- nothing above the new entry is younger, so that `heap_bubble_up` stops at once
  have hstop : 0 < h.heapSize → h₁.key (MinHeap.parent h.heapSize) ≤ h₁.key h.heapSize := by
    intro hpos
    have hlt := MinHeap.parent_lt hpos
    rw [hkey _ hlt, show h₁.key h.heapSize = h.activeTime c from congrArg h.activeTime hnew]
    exact hyoung _ (hv.mem hlt)
  have hbubble : heapBubbleUp h₁ h.heapSize = .ok h₁ := by
    rw [heapBubbleUp]
    by_cases hpos : 0 < h.heapSize
    · simp only [hpos, hstop hpos, dif_pos, if_true]
    · simp only [hpos, dif_neg, not_false_eq_true]
  refine ⟨h₁, ?_, ⟨hroom, hindexed, hholds, hup.ordered hstop⟩, rfl, ?_⟩
  · unfold connectionRegister heapInsert
    simp only [ge_iff_le, not_le.mpr hroom, if_false]
    rw [← hh₁, hbubble]
  · exact congrArg (· + 1) (Function.update_self _ _ _)

theorem connecionSetReactivated_valid {now : ℤ} (hv : h.Valid live) (hc : c ∈ live) (hnow : h.activeTime c ≤ now) :
    ∃ h', connecionSetReactivated h now c = .ok h' ∧ h'.Valid live ∧
      h'.activeTime = Function.update h.activeTime c now := by
  obtain ⟨hlt, hat⟩ := hv.idx hc
  set h₁ : Heap := { h with activeTime := Function.update h.activeTime c now } with hh₁
  have hdown : MinHeap.DownReady h₁.key h.heapSize (h.heapIdx c) := by
    -- the entries at other indices are other connections, by the back-indices
    refine MinHeap.Ordered.downReady_of_lt hv.ordered hlt (fun j hj hne => ?_) ?_
    · refine Function.update_of_ne (fun heq => hne ?_) _ _
      rw [← heq, hv.indexed j hj]
    · rw [show h₁.key (h.heapIdx c) = now by simp only [hh₁, Heap.key, hat, Function.update_self],
        show h.key (h.heapIdx c) = h.activeTime c from congrArg h.activeTime hat]
      exact hnow
  obtain ⟨h', hok, hre, hi, hord⟩ := heapBubbleDown_spec (h := h₁) hv.indexed hdown
  exact ⟨h', hok, hre.valid hv.size hv.holds hi hord, hre.time⟩

theorem connecionSetExpired_valid (hv : h.Valid live) (hc : c ∈ live) (hpos : 0 ≤ h.activeTime c) :
    ∃ h', connecionSetExpired h c = .ok h' ∧ h'.Valid live ∧ h'.activeTime = Function.update h.activeTime c 0 := by
  obtain ⟨hlt, hat⟩ := hv.idx hc
  set h₁ : Heap := { h with activeTime := Function.update h.activeTime c 0 } with hh₁
  have hup : MinHeap.UpReady h₁.key h.heapSize (h.heapIdx c) := by
    refine MinHeap.Ordered.upReady_of_lt hv.ordered hlt (fun j hj hne => ?_) ?_
    · refine Function.update_of_ne (fun heq => hne ?_) _ _
      rw [← heq, hv.indexed j hj]
    · rw [show h₁.key (h.heapIdx c) = 0 by simp only [hh₁, Heap.key, hat, Function.update_self],
        show h.key (h.heapIdx c) = h.activeTime c from congrArg h.activeTime hat]
      exact hpos
  obtain ⟨h', hok, hre, hi, hord⟩ := heapBubbleUp_spec _ (h := h₁) hv.indexed hlt hup
  exact ⟨h', hok, hre.valid hv.size hv.holds hi hord, hre.time⟩

/-- The entry of a removed connection is taken by the last one; the other back-indices stay right. -/
theorem Heap.Valid.dropTo (hv : h.Valid live) (hc : c ∈ live) :
    (h.dropTo (h.heapIdx c)).Indexed ∧ ∀ d, d ∈ live.erase c ↔ (h.dropTo (h.heapIdx c)).Holds d := by
  obtain ⟨hlt, hat⟩ := hv.idx hc
  have hat' : ∀ i, i < h.heapSize - 1 → (h.dropTo (h.heapIdx c)).lotosConnections i =
      h.lotosConnections (if i = h.heapIdx c then h.heapSize - 1 else i) := by
    intro i hi
    by_cases hic : i = h.heapIdx c
    · simp only [hic, Heap.dropTo, if_true]
      exact Function.update_self _ _ _
    · simp only [hic, Heap.dropTo, if_false]
      exact Function.update_of_ne hic _ _
  constructor
  · intro i hi
    rw [hat' i hi]
    simp only [Heap.dropTo] at hi ⊢
    by_cases hic : i = h.heapIdx c
    · rw [if_pos hic, Function.update_self, hic]
    · rw [if_neg hic, Function.update_of_ne (fun heq => ?_)]
      · exact hv.indexed i (by omega)
      · have := hv.indexed.inj (by omega) (by omega) heq
        omega
  · intro d
    rw [Finset.mem_erase, hv.holds]
    constructor
    · rintro ⟨hne, i, hi, rfl⟩
      have hic : i ≠ h.heapIdx c := by rintro rfl; exact hne hat
      by_cases hlast : i = h.heapSize - 1
      · refine ⟨h.heapIdx c, by simp only [Heap.dropTo]; omega, ?_⟩
        rw [hat' _ (by omega), if_pos rfl, hlast]
      · refine ⟨i, by simp only [Heap.dropTo]; omega, ?_⟩
        rw [hat' _ (by omega), if_neg hic]
    · rintro ⟨i, hi, rfl⟩
      simp only [Heap.dropTo] at hi
      rw [hat' i hi]
      by_cases hic : i = h.heapIdx c
      · rw [if_pos hic]
        refine ⟨?_, _, by omega, rfl⟩
        intro heq
        have := hv.indexed.inj (show h.heapSize - 1 < h.heapSize by omega) hlt (heq.trans hat.symm)
        omega
      · rw [if_neg hic]
        exact ⟨fun heq => hic (hv.indexed.inj (by omega) hlt (heq.trans hat.symm)), i, by omega, rfl⟩

/-- What closing leaves, if the order below the gap can be repaired. -/
theorem connectionClose_valid_of (hv : h.Valid live) (hc : c ∈ live)
    (hdown : MinHeap.DownReady (h.dropTo (h.heapIdx c)).key (h.heapSize - 1) (h.heapIdx c)) :
    ∃ h', connectionClose h c = .ok h' ∧ h'.Valid (live.erase c) ∧ h'.activeTime = h.activeTime := by
  obtain ⟨hlt, -⟩ := hv.idx hc
  obtain ⟨hindexed, hholds⟩ := hv.dropTo hc
  obtain ⟨h', hok, hre, hi, hord⟩ := heapBubbleDown_spec hindexed hdown
  refine ⟨h', ?_, hre.valid ?_ hholds hi hord, hre.time⟩
  · unfold connectionClose connectionUnregister
    rw [if_pos (by omega), hok]
  · exact (Nat.sub_le _ _).trans hv.size

theorem connectionClose_root_valid (hv : h.Valid live) (hpos : 0 < h.heapSize) :
    ∃ h', connectionClose h (h.lotosConnections 0) = .ok h' ∧ h'.Valid (live.erase (h.lotosConnections 0)) ∧
      h'.activeTime = h.activeTime := by
  refine connectionClose_valid_of hv (hv.mem hpos) ?_
  rw [hv.indexed 0 hpos]
  refine (hv.ordered.mono (Nat.sub_le _ 1)).downReady_root ?_
  intro j hj _
  exact congrArg h.activeTime (Function.update_of_ne (by omega) _ _)

/-- Closing the connection in the last entry: the order of the others is not touched. -/
theorem connectionClose_last_valid (hv : h.Valid live) (hc : c ∈ live) (hlast : h.heapIdx c + 1 = h.heapSize) :
    ∃ h', connectionClose h c = .ok h' ∧ h'.Valid (live.erase c) ∧ h'.activeTime = h.activeTime := by
  refine connectionClose_valid_of hv hc ?_
  have hkey : ∀ j, j ≠ h.heapIdx c → (h.dropTo (h.heapIdx c)).key j = h.key j :=
    fun j hj => congrArg h.activeTime (Function.update_of_ne hj _ _)
  constructor
  · intro j hj hjn hpar
    rw [hkey _ hpar, hkey j (by omega)]
    exact hv.ordered j hj (by omega)
  · intro _ j hj hjn hpar
    have := MinHeap.parent_lt hj
    omega

end Operations

end Lotos
