import Lotos.Heap.Invariant

/-!
# Removing a connection from anywhere in the heap

`connection_unregister` puts the last entry in the place of the connection and moves it away from the root, never towards
it.  So the heap it leaves is right exactly if the last entry is not too old for that place.
-/

namespace Lotos

section Remove

variable {h : Heap} {live : Finset ConnPtr} {c : ConnPtr}

/-- The last entry is not older than what is above the connection. -/
def Heap.LastFits (h : Heap) (c : ConnPtr) : Prop :=
  0 < h.heapIdx c → h.heapIdx c + 1 < h.heapSize → h.key (MinHeap.parent (h.heapIdx c)) ≤ h.key (h.heapSize - 1)

theorem dropTo_key_of_ne {idx j : ℕ} (hj : j ≠ idx) : (h.dropTo idx).key j = h.key j :=
  congrArg h.activeTime (Function.update_of_ne hj _ _)

theorem dropTo_key_self (idx : ℕ) : (h.dropTo idx).key idx = h.key (h.heapSize - 1) :=
  congrArg h.activeTime (Function.update_self _ _ _)

/-- If the last entry fits in the gap, the order below it is repaired. -/
theorem connectionUnregister_fits (hv : h.Valid live) (hc : c ∈ live) (hfits : h.LastFits c) :
    ∃ h', connectionUnregister h c = .ok h' ∧ h'.Valid (live.erase c) ∧ h'.activeTime = h.activeTime := by
  obtain ⟨hlt, -⟩ := hv.idx hc
  by_cases hlast : h.heapIdx c + 1 = h.heapSize
  · exact connectionClose_last_valid hv hc hlast
  · refine connectionClose_valid_of hv hc ?_
    refine (hv.ordered.mono (Nat.sub_le _ 1)).downReady_replace (by omega) (fun j _ hj => dropTo_key_of_ne hj) ?_
    intro hpos
    rw [dropTo_key_self]
    exact hfits hpos (by omega)

/-- If it does not, it stays below an entry that is younger. -/
theorem connectionUnregister_unfit (hv : h.Valid live) (hc : c ∈ live) (hunfit : ¬ h.LastFits c) :
    connectionUnregister h c = .ok (h.dropTo (h.heapIdx c)) ∧
      ¬ MinHeap.Ordered (h.dropTo (h.heapIdx c)).key (h.dropTo (h.heapIdx c)).heapSize := by
  obtain ⟨hlt, -⟩ := hv.idx hc
  unfold Heap.LastFits at hunfit
  push Not at hunfit
  obtain ⟨hpos, hin, hyoung⟩ := hunfit
  have hparent := MinHeap.parent_lt hpos
  have hself := dropTo_key_self (h := h) (h.heapIdx c)
  constructor
  · rw [connectionUnregister, if_pos (by omega)]
    cases hchild : properChild (h.dropTo (h.heapIdx c)) (h.heapIdx c) with
    | none => exact heapBubbleDown_leaf hchild
    | some d =>
      -- nothing below the connection is older than what is above it
      obtain ⟨hgt, hdn, hpar⟩ := properChild_gt hchild
      have hdn : d < h.heapSize - 1 := hdn
      have hchildren := hv.ordered d (by omega) (by omega)
      rw [hpar] at hchildren
      have habove := hv.ordered (h.heapIdx c) hpos hlt
      refine heapBubbleDown_stop hchild ?_
      rw [hself, dropTo_key_of_ne (by omega)]
      exact hyoung.le.trans (habove.trans hchildren)
  · intro hord
    have hle := hord (h.heapIdx c) hpos (by simp only [Heap.dropTo]; omega)
    rw [hself, dropTo_key_of_ne (by omega)] at hle
    exact absurd hle (not_le.mpr hyoung)

/-- **Removing any connection.**  `connection_unregister` leaves a valid heap of exactly the other connections, with their
times, if and only if the last entry is not older than the one above the connection, or the connection is at the root or
in the last entry itself. -/
theorem connectionUnregister_valid_iff (hv : h.Valid live) (hc : c ∈ live) :
    (∃ h', connectionUnregister h c = .ok h' ∧ h'.Valid (live.erase c) ∧
      ∀ d ∈ live.erase c, h'.activeTime d = h.activeTime d) ↔ h.LastFits c := by
  constructor
  · rintro ⟨h', hok, hv', -⟩
    by_contra hunfit
    obtain ⟨hok', hunordered⟩ := connectionUnregister_unfit hv hc hunfit
    cases hok.symm.trans hok'
    exact hunordered hv'.ordered
  · intro hfits
    obtain ⟨h', hok, hv', htime⟩ := connectionUnregister_fits hv hc hfits
    exact ⟨h', hok, hv', fun d _ => congrFun htime d⟩

end Remove

/-- A heap in which the connection at index `i` is `i`. -/
def Heap.ofTimes (times : List ℤ) : Heap := ⟨id, times.length, fun c => times.getD c 0, id⟩

theorem ofTimes_valid {times : List ℤ} (hsize : times.length ≤ maxConnection)
    (hord : MinHeap.Ordered (Heap.ofTimes times).key times.length) :
    (Heap.ofTimes times).Valid (Finset.range times.length) := by
  refine ⟨hsize, fun _ _ => rfl, ?_, hord⟩
  intro c
  rw [Finset.mem_range]
  constructor
  · exact fun hc => ⟨c, hc, rfl⟩
  · rintro ⟨i, hi, rfl⟩
    exact hi

theorem ofTimes_six_valid : (Heap.ofTimes [1, 5, 2, 6, 7, 3]).Valid (Finset.range 6) := by
  refine ofTimes_valid (by decide) ?_
  intro i hpos hi
  simp only [List.length_cons, List.length_nil] at hi
  interval_cases i <;> decide

/-- The connection above that subtree. -/
theorem connectionUnregister_valid_iff_second :
    (∃ h', connectionUnregister (Heap.ofTimes [1, 5, 2, 6, 7, 3]) 1 = .ok h' ∧ h'.Valid ((Finset.range 6).erase 1) ∧
      ∀ d ∈ (Finset.range 6).erase 1, h'.activeTime d = (Heap.ofTimes [1, 5, 2, 6, 7, 3]).activeTime d) ↔
        (Heap.ofTimes [1, 5, 2, 6, 7, 3]).LastFits 1 :=
  connectionUnregister_valid_iff ofTimes_six_valid (by decide)

/-- The connection at index 3 has a younger one above it than the last entry is. -/
theorem not_forall_connectionUnregister_valid :
    ¬ ∀ (h : Heap) (live : Finset ConnPtr) (c : ConnPtr), h.Valid live → c ∈ live →
      ∃ h', connectionUnregister h c = .ok h' ∧ h'.Valid (live.erase c) ∧
        ∀ d ∈ live.erase c, h'.activeTime d = h.activeTime d := by
  intro hall
  obtain ⟨h', hok, hv', -⟩ := hall (.ofTimes [1, 5, 2, 6, 7, 3]) (Finset.range 6) 3 ofTimes_six_valid (by decide)
  have hunfit : ¬ (Heap.ofTimes [1, 5, 2, 6, 7, 3]).LastFits 3 := by
    intro hfits
    have hle := hfits (by decide) (by decide)
    exact absurd hle (by decide)
  obtain ⟨hok', hunordered⟩ := connectionUnregister_unfit ofTimes_six_valid (by decide) hunfit
  cases hok.symm.trans hok'
  exact hunordered hv'.ordered

end Lotos
