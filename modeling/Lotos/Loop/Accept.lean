import Lotos.Loop.Defs

/-!
# `connection_accept`

`World.Inv` says that the heap is valid and that the connections in it are the blocks in use.  `connectionAccept_spec` lists
how `connection_accept` ends from there:

* no block, or no buffer: nothing has changed, and the descriptor is still open;
* the heap is full: `connection_close` takes the connection for a registered one, and the heap loses another one;
* `lotos_epoll_add` fails: all is as before, and the descriptor is closed;
* the connection is registered.
-/

namespace Lotos

/-! ### The allocator -/

/-- The free list of a pool is intact. -/
def Allocator.Valid : Allocator → Prop
  | .pool p => p.Valid
  | .malloc _ => True

/-- A block is available. -/
def Allocator.Available (r : AcceptResults) : Allocator → Prop
  | .pool p => p.blockAllocated < p.blockNum
  | .malloc _ => r.malloc ≠ none

/-- The number of free blocks of the pool; there is none to count without a pool. -/
def Allocator.freeBlocks : Allocator → ℕ
  | .pool p => p.free.length
  | .malloc _ => 0

/-- The number of blocks of the pool. -/
def Allocator.capacity : Allocator → Option ℕ
  | .pool p => some p.blockNum
  | .malloc _ => none

/-- A block with both buffers is available: `connection_init` succeeds. -/
def Allocates (a : Allocator) (r : AcceptResults) : Prop := a.Available r ∧ r.ib = true ∧ r.ob = true

section Allocate

variable {a : Allocator} {r : AcceptResults}

/-- A block that has been given out: it is new, and when it is given back all is as before. -/
structure GivenOut (a : Allocator) (c : ConnPtr) (a' : Allocator) : Prop where
  fresh : c ∉ a.live
  live : a'.live = insert c a.live
  valid : a'.Valid
  capacity : a'.capacity = a.capacity
  back : (a'.free c).Valid ∧ (a'.free c).live = a.live ∧ (a'.free c).freeBlocks = a.freeBlocks

@[simp]
theorem free_capacity (c : ConnPtr) : (a.free c).capacity = a.capacity := by
  cases a <;> rfl

theorem GivenOut.write {a' : Allocator} {c : ConnPtr} (h : GivenOut a c a') (word : Option ConnPtr) :
    GivenOut a c (a'.write c word) := by
  cases a' with
  | malloc live => exact h
  | pool p =>
    have hmem : c ∈ p.live := by
      rw [show p.live = _ from h.live]
      exact Finset.mem_insert_self _ _
    obtain ⟨hvalid, hfree⟩ := write_valid h.valid hmem word
    obtain ⟨hback, hbackFree⟩ := poolFree_valid hvalid hmem
    refine ⟨h.fresh, h.live, hvalid, h.capacity, hback, h.back.2.1, ?_⟩
    rw [← h.back.2.2]
    change (poolFree (p.write c word) c).free.length = (poolFree p c).free.length
    rw [hbackFree, (poolFree_valid h.valid hmem).2, hfree]

theorem alloc_spec (h : a.Valid) (hfresh : ∀ c, r.malloc = some c → c ∉ a.live) :
    (a.Available r ∧ ∃ c a', a.alloc r.malloc = (some c, a') ∧ GivenOut a c a') ∨
      (¬ a.Available r ∧ a.alloc r.malloc = (none, a)) := by
  cases a with
  | malloc live =>
    cases hm : r.malloc with
    | none => exact .inr ⟨not_not.mpr hm, rfl⟩
    | some c =>
      refine .inl ⟨by rw [Allocator.Available, hm]; nofun, c, _, rfl, hfresh c hm, rfl, trivial, rfl, trivial, ?_, rfl⟩
      exact Finset.erase_insert (hfresh c hm)
  | pool p =>
    rcases poolAlloc_spec h with ⟨hroom, c, p', halloc, hc, hlive, hnum, hfree, hvalid⟩ | ⟨hfull, halloc⟩
    · have hmem : c ∈ p'.live := by
        rw [hlive]
        exact Finset.mem_insert_self _ _
      obtain ⟨hback, hbackFree⟩ := poolFree_valid hvalid hmem
      refine .inl ⟨hroom, c, .pool p', by rw [Allocator.alloc, halloc], hc, hlive, hvalid, congrArg some hnum, hback, ?_, ?_⟩
      · change p'.live.erase c = p.live
        rw [hlive, Finset.erase_insert hc]
      · change (poolFree p' c).free.length = p.free.length
        rw [hbackFree, hfree]
    · exact .inr ⟨hfull, by rw [Allocator.alloc, halloc]⟩

/-- **`connection_init`.** -/
theorem connectionInit_spec (h : a.Valid) (hfresh : ∀ c, r.malloc = some c → c ∉ a.live) :
    (Allocates a r ∧ ∃ c a', connectionInit a r = (some c, a') ∧ GivenOut a c a') ∨
      (¬ Allocates a r ∧ ∃ a', connectionInit a r = (none, a') ∧ a'.Valid ∧ a'.live = a.live ∧
        a'.freeBlocks = a.freeBlocks ∧ a'.capacity = a.capacity) := by
  rcases alloc_spec h hfresh with ⟨hav, c, a', halloc, hgiven⟩ | ⟨hav, halloc⟩
  · by_cases hbufs : r.ib = true ∧ r.ob = true
    · refine .inl ⟨⟨hav, hbufs⟩, c, a', ?_, hgiven⟩
      rw [connectionInit, halloc]
      simp [hbufs]
    · refine .inr ⟨fun h => hbufs h.2, a'.free c, ?_, hgiven.back.1, hgiven.back.2.1, hgiven.back.2.2, ?_⟩
      · rw [connectionInit, halloc]
        simp only [Bool.and_eq_true, hbufs, if_false]
      · rw [free_capacity, hgiven.capacity]
  · refine .inr ⟨fun h => hav h.1, a, ?_, h, rfl, rfl, rfl⟩
    rw [connectionInit, halloc]

end Allocate

/-! ### The invariant -/

/-- The connections in the heap are the blocks in use, and their times are not ahead of the clock; `capacity` is the number
of blocks of the pool. -/
structure World.Inv (capacity : Option ℕ) (w : World) : Prop where
  valid : w.heap.Valid w.alloc.live
  time : ∀ c ∈ w.alloc.live, 0 ≤ w.heap.activeTime c ∧ w.heap.activeTime c ≤ w.now
  clock : 0 ≤ w.now
  alloc : w.alloc.Valid
  capacity : w.alloc.capacity = capacity
  epoll : w.epoll ⊆ w.alloc.live

theorem Heap.Valid.card {h : Heap} {live : Finset ConnPtr} (hv : h.Valid live) : live.card = h.heapSize := by
  have himage : live = (Finset.range h.heapSize).image h.lotosConnections := by
    ext c
    rw [hv.holds]
    simp [Heap.Holds]
  rw [himage, Finset.card_image_of_injOn, Finset.card_range]
  intro i hi j hj heq
  exact hv.indexed.inj (by simpa using hi) (by simpa using hj) heq

theorem heapBubbleDown_ne_error (h : Heap) (idx : ℕ) : ∃ h', heapBubbleDown h idx = .ok h' := by
  induction h, idx using heapBubbleDown.induct with
  | case1 h idx hc => exact ⟨h, heapBubbleDown_leaf hc⟩
  | case2 h idx c hc hle => exact ⟨h, heapBubbleDown_stop hc hle⟩
  | case3 h idx c hc hlt _ h₁ hs ih =>
    rw [heapBubbleDown_swap hc hlt hs]
    exact ih
  | case4 h idx c hc hlt hin e hs =>
    have hgt := (properChild_gt hc).1
    rw [cSwap, if_pos ⟨by omega, hin⟩] at hs
    cases hs
  | case5 h idx c hc hlt hout => exact absurd (properChild_gt hc).2.1 hout

/-- `connection_close` takes one entry from the heap, whatever `heap_idx` is. -/
theorem connectionClose_size {h : Heap} (c : ConnPtr) (hpos : 0 < h.heapSize) :
    ∃ h', connectionClose h c = .ok h' ∧ h'.heapSize + 1 = h.heapSize := by
  obtain ⟨h', hdown⟩ := heapBubbleDown_ne_error (h.dropTo (h.heapIdx c)) (h.heapIdx c)
  refine ⟨h', ?_, ?_⟩
  · rw [connectionClose, connectionUnregister, if_pos (by omega), hdown]
  · rw [heapBubbleDown_heapSize hdown]
    simp only [Heap.dropTo]
    omega

/-! ### The ends of `connection_accept` -/

section Accept

variable {w : World} {r : AcceptResults} {capacity : Option ℕ}

theorem World.Inv.fill (fd : ℕ) (hw : w.Inv capacity) (hclock : w.now ≤ r.now) {c : ConnPtr} {a : Allocator}
    (hgiven : GivenOut w.alloc c a) :
    (w.fill a c fd r).heap.Valid w.alloc.live ∧
      (∀ d ∈ w.alloc.live, 0 ≤ (w.fill a c fd r).heap.activeTime d ∧ (w.fill a c fd r).heap.activeTime d ≤ r.now) ∧
      (w.fill a c fd r).heap.activeTime c = r.now := by
  refine ⟨hw.valid.setTime hgiven.fresh r.now, ?_, Function.update_self _ _ _⟩
  intro d hd
  have hne : d ≠ c := by
    rintro rfl
    exact hgiven.fresh hd
  have hsame : (w.fill a c fd r).heap.activeTime d = w.heap.activeTime d := Function.update_of_ne hne _ _
  rw [hsame]
  exact ⟨(hw.time d hd).1, (hw.time d hd).2.trans hclock⟩

/-- What `connection_close` leaves of a connection that was registered last. -/
theorem World.Inv.close_last (hw : w.Inv capacity) (w₁ : World) {c : ConnPtr} (hv : w₁.heap.Valid (insert c w.alloc.live))
    (hgiven : GivenOut w.alloc c w₁.alloc) (hlast : w₁.heap.heapIdx c + 1 = w₁.heap.heapSize)
    (htime : ∀ d ∈ w.alloc.live, 0 ≤ w₁.heap.activeTime d ∧ w₁.heap.activeTime d ≤ w₁.now) (hclock : 0 ≤ w₁.now)
    (hepoll : w₁.epoll = w.epoll) :
    ∃ w', w₁.close c = .ok w' ∧ w'.Inv capacity ∧ w'.alloc.live = w.alloc.live ∧ w'.alloc.freeBlocks = w.alloc.freeBlocks ∧
      w'.openFds = w₁.openFds.erase (w₁.connFd c) := by
  obtain ⟨h, hclose, hvalid, hsame⟩ := connectionClose_last_valid hv (Finset.mem_insert_self _ _) hlast
  obtain ⟨hback, hlive, hcount⟩ := hgiven.back
  rw [Finset.erase_insert hgiven.fresh] at hvalid
  refine ⟨({ w₁ with heap := h } : World).release c, by rw [World.close, hclose], ⟨?_, ?_, hclock, hback, ?_, ?_⟩, hlive,
    hcount, rfl⟩
  · change h.Valid (w₁.alloc.free c).live
    rw [hlive]
    exact hvalid
  · change ∀ d ∈ (w₁.alloc.free c).live, 0 ≤ h.activeTime d ∧ h.activeTime d ≤ w₁.now
    rw [hlive, hsame]
    exact htime
  · change (w₁.alloc.free c).capacity = capacity
    rw [free_capacity, hgiven.capacity, hw.capacity]
  · change w₁.epoll.erase c ⊆ (w₁.alloc.free c).live
    rw [hlive, hepoll]
    exact (Finset.erase_subset _ _).trans hw.epoll

/-- **The ends of `connection_accept`.** -/
theorem connectionAccept_spec (fd : ℕ) (hw : w.Inv capacity) (hr : r.Possible w) :
    (¬ Allocates w.alloc r ∧ ∃ a, connectionAccept w fd r = .ok (none, { w with alloc := a }) ∧ a.Valid ∧
      a.live = w.alloc.live ∧ a.freeBlocks = w.alloc.freeBlocks ∧ a.capacity = w.alloc.capacity) ∨
    (Allocates w.alloc r ∧ w.heap.heapSize < maxConnection ∧ r.epollAdd = true ∧
      ∃ c w', connectionAccept w fd r = .ok (some c, w') ∧ w'.Inv capacity ∧ c ∉ w.alloc.live ∧
        w'.alloc.live = insert c w.alloc.live ∧ w'.connFd c = fd) ∨
    (Allocates w.alloc r ∧ w.heap.heapSize < maxConnection ∧ r.epollAdd = false ∧
      ∃ w', connectionAccept w fd r = .ok (none, w') ∧ w'.Inv capacity ∧ w'.alloc.live = w.alloc.live ∧
        w'.alloc.freeBlocks = w.alloc.freeBlocks ∧ w'.openFds = w.openFds.erase fd) ∨
    (Allocates w.alloc r ∧ ¬ w.heap.heapSize < maxConnection ∧
      ∃ w', connectionAccept w fd r = .ok (none, w') ∧ w'.heap.heapSize + 1 = w.heap.heapSize) := by
  rcases connectionInit_spec hw.alloc hr.fresh with ⟨hall, c, a, hinit, hgiven⟩ |
    ⟨hall, a, hinit, hvalid, hlive, hcount, hcap⟩
  · have hunfold : connectionAccept w fd r = (w.fill a c fd r).enter c r := by rw [connectionAccept, hinit]
    obtain ⟨hv, htime, hnow⟩ := hw.fill fd hr.clock hgiven
    have hgiven' := hgiven.write r.word
    have hclock := hw.clock.trans hr.clock
    rw [hunfold, World.enter]
    by_cases hroom : w.heap.heapSize < maxConnection
    · obtain ⟨h, hreg, hvalid, htime', hlast⟩ := connectionRegister_valid hv hgiven.fresh hroom
        (fun d hd => by rw [hnow]; exact (htime d hd).2)
      rw [hreg]
      cases hadd : r.epollAdd with
      | true =>
        refine .inr (.inl ⟨hall, hroom, rfl, c, _, if_pos rfl, ⟨?_, ?_, hclock, hgiven'.valid,
          hgiven'.capacity.trans hw.capacity, ?_⟩, hgiven.fresh, hgiven'.live, Function.update_self _ _ _⟩)
        · change h.Valid (a.write c r.word).live
          rw [hgiven'.live]
          exact hvalid
        · change ∀ d ∈ (a.write c r.word).live, 0 ≤ h.activeTime d ∧ h.activeTime d ≤ r.now
          rw [hgiven'.live, htime']
          intro d hd
          rcases Finset.mem_insert.mp hd with rfl | hd
          · rw [hnow]
            exact ⟨hclock, le_rfl⟩
          · exact htime d hd
        · change insert c w.epoll ⊆ (a.write c r.word).live
          rw [hgiven'.live]
          exact Finset.insert_subset_insert c hw.epoll
      | false =>
        obtain ⟨w', hclose, hinv, hlive, hcount, hfds⟩ := hw.close_last { w.fill a c fd r with heap := h } hvalid hgiven'
          hlast (by rw [htime']; exact htime) hclock rfl
        refine .inr (.inr (.inl ⟨hall, hroom, rfl, w', ?_, hinv, hlive, hcount, ?_⟩))
        · simp only [Bool.false_eq_true, if_false]
          rw [hclose]
          rfl
        · rw [hfds]
          exact congrArg w.openFds.erase (Function.update_self _ _ _)
    · have hreg : connectionRegister (w.fill a c fd r).heap c = .ok (.error, (w.fill a c fd r).heap) := by
        rw [connectionRegister, if_pos (show (w.fill a c fd r).heap.heapSize ≥ maxConnection from not_lt.mp hroom)]
      have hpos : 0 < (w.fill a c fd r).heap.heapSize := by
        have hmax : 0 < maxConnection := by decide
        exact hmax.trans_le (not_lt.mp hroom)
      obtain ⟨h, hclose, hsize⟩ := connectionClose_size c hpos
      refine .inr (.inr (.inr ⟨hall, hroom, ({ w.fill a c fd r with heap := h } : World).release c, ?_, hsize⟩))
      rw [hreg]
      simp only [World.close, hclose]
      rfl
  · refine .inl ⟨hall, a, ?_, hvalid, hlive, hcount, hcap⟩
    rw [connectionAccept, hinit]

end Accept

end Lotos
