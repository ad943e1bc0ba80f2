import Lotos.Heap.Run
import Lotos.Loop.Accept

/-!
# Runs of the event loop

Every step of the loop keeps `Loop.Inv`: the heap and the allocator agree, and the connections in the events that are still
to be processed are in use.  The one step that would not is `connection_accept` with a full heap, and with the pool the heap
is never full.
-/

namespace Lotos

/-- The invariant of the loop. -/
structure Loop.Inv (capacity : Option ℕ) (l : Loop) : Prop where
  world : l.world.Inv capacity
  batch : ∀ c i o, .conn c i o ∈ l.batch.getD [] → c ∈ l.world.alloc.live

section Steps

variable {capacity : Option ℕ} {w : World}

/-! ### Dispatching -/

theorem World.Inv.setHeap (hw : w.Inv capacity) {h : Heap} {now : ℤ} (hv : h.Valid w.alloc.live) (hnow : w.now ≤ now)
    (htime : ∀ c ∈ w.alloc.live, 0 ≤ h.activeTime c ∧ h.activeTime c ≤ now) :
    ({ w with heap := h, now := now } : World).Inv capacity :=
  ⟨hv, htime, hw.clock.trans hnow, hw.alloc, hw.capacity, hw.epoll⟩

theorem World.Inv.setNow (hw : w.Inv capacity) {now : ℤ} (hnow : w.now ≤ now) :
    ({ w with now := now } : World).Inv capacity :=
  hw.setHeap hw.valid hnow fun c hc => ⟨(hw.time c hc).1, (hw.time c hc).2.trans hnow⟩

theorem handled_inv (hw : w.Inv capacity) {c : ConnPtr} (hc : c ∈ w.alloc.live) {now : ℤ} (hnow : w.now ≤ now)
    (st : Option Status) :
    ∃ w', w.handled c now st = .ok w' ∧ w'.Inv capacity ∧ w'.alloc = w.alloc ∧ w'.now = now := by
  cases st with
  | none => exact ⟨_, rfl, hw.setNow hnow, rfl, rfl⟩
  | some st =>
    obtain ⟨hpos, hpast⟩ := hw.time c hc
    rw [World.handled]
    by_cases hst : st = .error
    · obtain ⟨h, hok, hv, htime⟩ := connecionSetExpired_valid hw.valid hc hpos
      rw [if_pos hst, hok]
      refine ⟨_, rfl, hw.setHeap hv hnow ?_, rfl, rfl⟩
      rw [htime]
      exact setTime_within hw.time c le_rfl (hw.clock.trans hnow) hnow
    · obtain ⟨h, hok, hv, htime⟩ := connecionSetReactivated_valid hw.valid hc (hpast.trans hnow)
      rw [if_neg hst, hok]
      refine ⟨_, rfl, hw.setHeap hv hnow ?_, rfl, rfl⟩
      rw [htime]
      exact setTime_within hw.time c (hw.clock.trans hnow) le_rfl hnow

theorem dispatch_inv (timeout : ℤ) (hw : w.Inv capacity) {c : ConnPtr} (hc : c ∈ w.alloc.live) {i o : Bool} {d : Dispatch}
    (hd : d.Possible w i o) : ∃ w', w.dispatch timeout c d = .ok w' ∧ w'.Inv capacity ∧ w'.alloc = w.alloc := by
  obtain ⟨hnow, hin, hout⟩ := hd.clock
  rw [World.dispatch]
  by_cases hexp : d.now - w.heap.activeTime c > timeout
  · rw [if_pos hexp]
    exact ⟨_, rfl, hw.setNow hnow, rfl⟩
  · obtain ⟨w₁, hok₁, hw₁, halloc₁, hnow₁⟩ := handled_inv hw hc (hnow.trans hin) d.input
    rw [if_neg hexp, hok₁]
    obtain ⟨w₂, hok₂, hw₂, halloc₂, -⟩ := handled_inv hw₁ (by rwa [halloc₁]) (hnow₁.trans_le hout) d.output
    exact ⟨w₂, hok₂, hw₂, halloc₂.trans halloc₁⟩

/-! ### Pruning -/

/-- What the loop of `connection_prune` keeps of the rest of the world. -/
structure Released (w w' : World) (closed : List ConnPtr) : Prop where
  heap : w'.heap = w.heap
  now : w'.now = w.now
  live : w'.alloc.live = w.alloc.live \ closed.toFinset
  valid : w'.alloc.Valid
  capacity : w'.alloc.capacity = w.alloc.capacity
  epoll : w'.epoll = w.epoll \ closed.toFinset

theorem free_live {a : Allocator} (c : ConnPtr) : (a.free c).live = a.live.erase c := by
  cases a <;> rfl

theorem free_valid {a : Allocator} (h : a.Valid) {c : ConnPtr} (hc : c ∈ a.live) : (a.free c).Valid := by
  cases a with
  | malloc live => trivial
  | pool p => exact (poolFree_valid h hc).1

theorem foldl_release (closed : List ConnPtr) {w : World} (hvalid : w.alloc.Valid) (hnodup : closed.Nodup)
    (hsub : ∀ c ∈ closed, c ∈ w.alloc.live) : Released w (closed.foldl World.release w) closed := by
  induction closed generalizing w with
  | nil => exact ⟨rfl, rfl, by simp, hvalid, rfl, by simp⟩
  | cons c closed ih =>
    obtain ⟨hc, hnodup⟩ := List.nodup_cons.mp hnodup
    have hlive : (w.release c).alloc.live = w.alloc.live.erase c := free_live c
    have hsub' : ∀ d ∈ closed, d ∈ (w.release c).alloc.live := by
      intro d hd
      rw [hlive]
      refine Finset.mem_erase.mpr ⟨?_, hsub d (List.mem_cons_of_mem _ hd)⟩
      rintro rfl
      exact hc hd
    have hrest := ih (free_valid hvalid (hsub c List.mem_cons_self)) hnodup hsub'
    rw [List.foldl_cons]
    refine ⟨hrest.heap, hrest.now, ?_, hrest.valid, ?_, ?_⟩
    · rw [hrest.live, hlive, List.toFinset_cons, Finset.sdiff_insert, Finset.erase_sdiff_comm]
    · rw [hrest.capacity]
      exact free_capacity c
    · rw [hrest.epoll, List.toFinset_cons, Finset.sdiff_insert, ← Finset.erase_sdiff_comm]
      rfl

theorem prune_inv (timeout : ℤ) {clock : ℕ → ℤ} (hw : w.Inv capacity) (hmono : Monotone clock) (hclock : w.now ≤ clock 0) :
    ∃ w', w.prune timeout clock = .ok w' ∧ w'.Inv capacity := by
  obtain ⟨closed, h, hok, hnodup, hsub, hv, htime, -, -⟩ := connectionPrune_spec timeout clock hw.valid
  have hlater : w.now ≤ clock closed.length := hclock.trans (hmono (Nat.zero_le _))
  have hrel : Released { w with heap := h, now := clock closed.length } _ closed := foldl_release closed hw.alloc hnodup hsub
  refine ⟨_, by rw [World.prune, hok], ?_, ?_, ?_, hrel.valid, hrel.capacity.trans hw.capacity, ?_⟩
  · rw [hrel.heap, hrel.live]
    exact hv
  · intro d hd
    rw [hrel.live] at hd
    have hd := (Finset.mem_sdiff.mp hd).1
    rw [hrel.heap, hrel.now]
    change 0 ≤ h.activeTime d ∧ h.activeTime d ≤ clock closed.length
    rw [htime]
    exact ⟨(hw.time d hd).1, (hw.time d hd).2.trans hlater⟩
  · rw [hrel.now]
    exact hw.clock.trans hlater
  · rw [hrel.epoll, hrel.live]
    exact Finset.sdiff_subset_sdiff hw.epoll subset_rfl

/-! ### Accepting -/

theorem World.Inv.setOpenFds (hw : w.Inv capacity) (fds : Finset ℕ) : ({ w with openFds := fds } : World).Inv capacity :=
  ⟨hw.valid, hw.time, hw.clock, hw.alloc, hw.capacity, hw.epoll⟩

theorem AcceptResults.Possible.setOpenFds {r : AcceptResults} (hr : r.Possible w) (fds : Finset ℕ) :
    r.Possible { w with openFds := fds } := ⟨hr.clock, hr.fresh⟩

/-- `connection_accept` keeps the invariant and the connections there are, unless the heap is full. -/
theorem connectionAccept_inv (fd : ℕ) {r : AcceptResults} (hw : w.Inv capacity) (hr : r.Possible w)
    (hroom : Allocates w.alloc r → w.heap.heapSize < maxConnection) :
    ∃ c w', connectionAccept w fd r = .ok (c, w') ∧ w'.Inv capacity ∧ w.alloc.live ⊆ w'.alloc.live := by
  rcases connectionAccept_spec fd hw hr with ⟨-, a, hok, hvalid, hlive, -, hcap⟩ |
    ⟨-, -, -, c, w', hok, hinv, -, hlive, -⟩ | ⟨-, -, -, w', hok, hinv, hlive, -, -⟩ | ⟨hall, hfull, -⟩
  · refine ⟨none, _, hok, ⟨?_, ?_, hw.clock, hvalid, hcap.trans hw.capacity, ?_⟩, hlive.ge⟩
    · change w.heap.Valid a.live
      rw [hlive]
      exact hw.valid
    · change ∀ c ∈ a.live, _
      rw [hlive]
      exact hw.time
    · change w.epoll ⊆ a.live
      rw [hlive]
      exact hw.epoll
  · exact ⟨some c, w', hok, hinv, hlive ▸ Finset.subset_insert _ _⟩
  · exact ⟨none, w', hok, hinv, hlive.ge⟩
  · exact absurd (hroom hall) hfull

/-! ### Runs -/

/-- **The step.**  No step breaks the invariant, if `connection_accept` is not called for a full heap. -/
theorem Loop.Step.inv {timeout : ℤ} {cond : World → AcceptResults → Prop} {l l' : Loop} (hs : Loop.Step timeout cond l l')
    (hl : l.Inv capacity) (hroom : ∀ r, cond l.world r → Allocates l.world.alloc r → l.world.heap.heapSize < maxConnection) :
    l'.Inv capacity := by
  cases hs with
  | @wait w events h =>
    refine ⟨hl.world, ?_⟩
    intro c i o hmem
    exact hl.world.epoll (h c i o hmem)
  | @accept w w' events fd r c hfd hr hcond h =>
    obtain ⟨c', w'', hok, hinv, hsub⟩ := connectionAccept_inv fd (hl.world.setOpenFds (insert fd w.openFds))
      (hr.setOpenFds _) (hroom r hcond)
    cases h.symm.trans hok
    refine ⟨hinv, ?_⟩
    intro c i o hmem
    exact hsub (hl.batch c i o hmem)
  | accepted =>
    refine ⟨hl.world, ?_⟩
    intro c i o hmem
    exact hl.batch c i o (List.mem_cons_of_mem _ hmem)
  | @dispatch w w' c i o events d hd h =>
    obtain ⟨w'', hok, hinv, halloc⟩ := dispatch_inv timeout hl.world (hl.batch c i o List.mem_cons_self) hd
    cases h.symm.trans hok
    refine ⟨hinv, ?_⟩
    intro c' i' o' hmem
    rw [halloc]
    exact hl.batch c' i' o' (List.mem_cons_of_mem _ hmem)
  | @prune w w' clock hmono hclock h =>
    obtain ⟨w'', hok, hinv⟩ := prune_inv timeout hl.world hmono hclock
    cases h.symm.trans hok
    exact ⟨hinv, nofun⟩

/-- **The run.** -/
theorem Loop.Run.inv {timeout : ℤ} {cond : World → AcceptResults → Prop} {l l' : Loop} (hrun : Loop.Run timeout cond l l')
    (hl : l.Inv capacity)
    (hroom : ∀ w r, w.Inv capacity → cond w r → Allocates w.alloc r → w.heap.heapSize < maxConnection) :
    l'.Inv capacity := by
  induction hrun with
  | refl => exact hl
  | tail _ hs ih => exact hs.inv ih fun r => hroom _ r ih.world

end Steps

theorem Loop.start_inv {a : Allocator} (hvalid : a.Valid) (hlive : a.live = ∅) (lotosConnections : ℕ → ConnPtr)
    (activeTime : ConnPtr → ℤ) (heapIdx connFd : ConnPtr → ℕ) (openFds : Finset ℕ) {now : ℤ} (hnow : 0 ≤ now) :
    (Loop.start a lotosConnections activeTime heapIdx connFd openFds now).Inv a.capacity := by
  refine ⟨⟨?_, ?_, hnow, hvalid, rfl, Finset.empty_subset _⟩, nofun⟩
  · change Heap.Valid _ a.live
    rw [hlive]
    exact (HeapWorld.init_inv lotosConnections activeTime heapIdx hnow).valid
  · change ∀ c ∈ a.live, _
    rw [hlive]
    exact fun c hc => absurd hc (Finset.notMem_empty c)

/-! ### The pool -/

/-- With a pool the heap has as many entries as blocks are in use. -/
theorem World.Inv.pool {w : World} {n : ℕ} (hw : w.Inv (some n)) :
    ∃ p, w.alloc = .pool p ∧ p.blockNum = n ∧ w.heap.heapSize = p.blockAllocated ∧ p.blockAllocated ≤ n := by
  have hcap := hw.capacity
  have hvalid := hw.alloc
  have hcard := hw.valid.card
  cases halloc : w.alloc with
  | malloc live =>
    rw [halloc] at hcap
    cases hcap
  | pool p =>
    rw [halloc] at hcap hvalid hcard
    have hnum : p.blockNum = n := Option.some.inj hcap
    have hlive : p.live.card = p.blockAllocated := hvalid.card
    have hcount := hvalid.count
    refine ⟨p, rfl, hnum, hcard.symm.trans hlive, ?_⟩
    omega

/-- **The heap, the pool and the events agree.**  In every state that the loop reaches with a pool of 1024 blocks, the
connections in the heap are the blocks in use, `connection_register` does not fail for the connections that `connection_init`
gives out, and the events that are still to be processed are on blocks in use. -/
theorem run_pool_agrees (timeout : ℤ) (blocks : ConnPtr) (size : ℕ) (lotosConnections : ℕ → ConnPtr)
    (activeTime : ConnPtr → ℤ) (heapIdx connFd : ConnPtr → ℕ) (openFds : Finset ℕ) (now : ℤ) (hnow : 0 ≤ now) (l : Loop)
    (hrun : Loop.Run timeout (fun _ _ => True)
      (Loop.start (.pool (poolCreate blocks 1024 size)) lotosConnections activeTime heapIdx connFd openFds now) l) :
    ∃ p, l.world.alloc = .pool p ∧ (∀ c, l.world.heap.Holds c ↔ c ∈ p.live) ∧
      l.world.heap.heapSize = p.blockAllocated ∧ p.blockAllocated ≤ 1024 ∧
      (∀ fd r c a, r.Possible l.world → connectionInit l.world.alloc r = (some c, a) →
        ∃ h, connectionRegister (l.world.fill a c fd r).heap c = .ok (.ok, h)) ∧
      ∀ c i o, .conn c i o ∈ l.batch.getD [] → c ∈ p.live := by
  have hstart := Loop.start_inv (a := .pool (poolCreate blocks 1024 size)) (poolCreate_valid blocks size (by decide)) rfl
    lotosConnections activeTime heapIdx connFd openFds hnow
  have hsmall : ∀ w : World, w.Inv (some 1024) → w.heap.heapSize < maxConnection := by
    intro w hw
    obtain ⟨p, -, -, hsize, hle⟩ := hw.pool
    have hmax : 1024 < maxConnection := by decide
    omega
  have hl : l.Inv (some 1024) := Loop.Run.inv hrun hstart fun w _ hw _ _ => hsmall w hw
  obtain ⟨p, halloc, -, hsize, hle⟩ := hl.world.pool
  have hlive : l.world.alloc.live = p.live := by rw [halloc]; rfl
  refine ⟨p, halloc, ?_, hsize, hle, ?_, ?_⟩
  · intro c
    rw [← hlive, hl.world.valid.holds]
  · intro fd r c a hr hinit
    rcases connectionInit_spec hl.world.alloc hr.fresh with ⟨-, c', a', hinit', hgiven⟩ | ⟨-, a', hinit', -⟩
    · cases hinit.symm.trans hinit'
      obtain ⟨hv, htime, hc⟩ := hl.world.fill fd hr.clock hgiven
      obtain ⟨h, hreg, -⟩ := connectionRegister_valid hv hgiven.fresh (hsmall l.world hl.world)
        (fun d hd => by rw [hc]; exact (htime d hd).2)
      exact ⟨h, hreg⟩
    · cases hinit.symm.trans hinit'
  · intro c i o hmem
    rw [← hlive]
    exact hl.batch c i o hmem

/-- The server with the pool, before its first connection. -/
def Loop.firstPool : Loop :=
  Loop.start (.pool (poolCreate 4096 1024 400)) (fun _ => 0) (fun _ => 0) (fun _ => 0) (fun _ => 0) {3} 100

/-- The first connection is accepted. -/
theorem run_pool_agrees_accepted :
    ∃ l p c, Loop.Run 10 (fun _ _ => True) Loop.firstPool l ∧ l.world.alloc = .pool p ∧ l.world.heap.Holds c ∧
      l.world.heap.heapSize = p.blockAllocated := by
  have hvalid : (Allocator.pool (poolCreate 4096 1024 400)).Valid := poolCreate_valid 4096 400 (by decide)
  have hw : Loop.firstPool.world.Inv (some 1024) :=
    (Loop.start_inv hvalid rfl (fun _ => 0) (fun _ => 0) (fun _ => 0) (fun _ => 0) {3} (show (0 : ℤ) ≤ 100 by decide)).world
  have hr : (⟨none, true, true, 100, none, true⟩ : AcceptResults).Possible Loop.firstPool.world := ⟨le_rfl, nofun⟩
  rcases connectionAccept_spec 5 (hw.setOpenFds (insert 5 {3})) (hr.setOpenFds _) with ⟨hall, -⟩ |
    ⟨-, -, -, c, w', hok, hinv, -, hlive, -⟩ | ⟨-, -, hadd, -⟩ | ⟨-, hfull, -⟩
  · exact absurd ⟨show 0 < 1024 by decide, rfl, rfl⟩ hall
  · have hrun : Loop.Run 10 (fun _ _ => True) Loop.firstPool ⟨w', some [.listen]⟩ := by
      refine .tail (.single (.wait ?_)) (.accept (show 5 ∉ _ by decide) hr trivial hok)
      intro c i o hmem
      cases List.mem_singleton.mp hmem
    obtain ⟨p, halloc, hholds, hsize, -⟩ := run_pool_agrees 10 4096 400 (fun _ => 0) (fun _ => 0) (fun _ => 0)
      (fun _ => 0) {3} 100 (by decide) _ hrun
    refine ⟨_, p, c, hrun, halloc, ?_, hsize⟩
    rw [← hinv.valid.holds, hlive]
    exact Finset.mem_insert_self _ _
  · cases hadd
  · exact absurd (show 0 < maxConnection by decide) hfull

/-! ### Failed accepts -/

/-- What the call of `connection_accept` for `fd` should leave of the world: a connection that is in the heap, once, and has
the descriptor; or, without a connection, all as it was and the descriptor closed. -/
def AcceptAtomic (w w' : World) (fd : ℕ) : Option ConnPtr → Prop
  | some c => (∃! i, i < w'.heap.heapSize ∧ w'.heap.lotosConnections i = c) ∧ w'.connFd c = fd
  | none => fd ∉ w'.openFds ∧ (∀ d, w'.heap.Holds d ↔ w.heap.Holds d) ∧ w'.heap.Indexed ∧
      MinHeap.Ordered w'.heap.key w'.heap.heapSize ∧ w'.alloc.freeBlocks = w.alloc.freeBlocks

/-- A heap with fewer entries does not hold the same connections. -/
theorem Heap.Valid.not_holds_iff {h h' : Heap} {live : Finset ConnPtr} (hv : h.Valid live) (hlt : h'.heapSize < h.heapSize) :
    ¬ ∀ d, h'.Holds d ↔ h.Holds d := by
  intro hsame
  have hsub : live ⊆ (Finset.range h'.heapSize).image h'.lotosConnections := by
    intro d hd
    obtain ⟨i, hi, rfl⟩ := (hsame d).mpr ((hv.holds d).mp hd)
    exact Finset.mem_image_of_mem _ (Finset.mem_range.mpr hi)
  have hcard := (Finset.card_le_card hsub).trans Finset.card_image_le
  rw [hv.card, Finset.card_range] at hcard
  omega

/-- When `connection_accept` does what it should, from a state with the invariant. -/
theorem connectionAccept_atomic_iff {capacity : Option ℕ} {w : World} (hw : w.Inv capacity) {fd : ℕ} (hfd : fd ∈ w.openFds)
    {r : AcceptResults} (hr : r.Possible w) :
    ∃ c w', connectionAccept w fd r = .ok (c, w') ∧
      (AcceptAtomic w w' fd c ↔ Allocates w.alloc r ∧ w.heap.heapSize < maxConnection) := by
  rcases connectionAccept_spec fd hw hr with ⟨hall, a, hok, -⟩ | ⟨hall, hroom, -, c, w', hok, hinv, -, hlive, hconn⟩ |
    ⟨hall, hroom, -, w', hok, hinv, hlive, hcount, hfds⟩ | ⟨hall, hfull, w', hok, hsize⟩
  · refine ⟨none, _, hok, ?_, ?_⟩
    · intro hatomic
      exact absurd hfd hatomic.1
    · intro hcond
      exact absurd hcond.1 hall
  · refine ⟨some c, w', hok, fun _ => ⟨hall, hroom⟩, fun _ => ⟨?_, hconn⟩⟩
    have hmem : c ∈ w'.alloc.live := by
      rw [hlive]
      exact Finset.mem_insert_self _ _
    obtain ⟨i, hi, hat⟩ := (hinv.valid.holds c).mp hmem
    refine ⟨i, ⟨hi, hat⟩, ?_⟩
    rintro j ⟨hj, hat'⟩
    exact hinv.valid.indexed.inj hj hi (hat'.trans hat.symm)
  · refine ⟨none, w', hok, fun _ => ⟨hall, hroom⟩, fun _ => ⟨?_, ?_, hinv.valid.indexed, hinv.valid.ordered, hcount⟩⟩
    · rw [hfds]
      exact Finset.notMem_erase _ _
    · intro d
      rw [← hinv.valid.holds, ← hw.valid.holds, hlive]
  · refine ⟨none, w', hok, ?_, ?_⟩
    · intro hatomic
      exact absurd hatomic.2.1 (hw.valid.not_holds_iff (by omega))
    · intro hcond
      exact absurd hcond.2 hfull

/-- The allocators the server starts with. -/
def Allocator.Initial (a : Allocator) : Prop := a = .malloc ∅ ∨ ∃ blocks size, a = .pool (poolCreate blocks 1024 size)

theorem Allocator.Initial.valid {a : Allocator} (ha : a.Initial) : a.Valid ∧ a.live = ∅ := by
  rcases ha with rfl | ⟨blocks, size, rfl⟩
  · exact ⟨trivial, rfl⟩
  · exact ⟨poolCreate_valid blocks size (by decide), rfl⟩

/-- **Failed accepts.**  In every run in which no connection is made for a full heap, and for everything that the calls of
`connection_accept` can answer, a call is atomic if and only if a block with its buffers is available and the heap is not
full.  Without a block the descriptor stays open; with a full heap, `connection_close` takes another connection from it. -/
theorem run_accept_atomic_iff (timeout : ℤ) (a : Allocator) (ha : a.Initial) (lotosConnections : ℕ → ConnPtr)
    (activeTime : ConnPtr → ℤ) (heapIdx connFd : ConnPtr → ℕ) (openFds : Finset ℕ) (now : ℤ) (hnow : 0 ≤ now) (l : Loop)
    (hrun : Loop.Run timeout (fun w r => Allocates w.alloc r → w.heap.heapSize < maxConnection)
      (Loop.start a lotosConnections activeTime heapIdx connFd openFds now) l)
    (fd : ℕ) (r : AcceptResults) (hr : r.Possible l.world) :
    ∃ c w', connectionAccept { l.world with openFds := insert fd l.world.openFds } fd r = .ok (c, w') ∧
      (AcceptAtomic l.world w' fd c ↔ Allocates l.world.alloc r ∧ l.world.heap.heapSize < maxConnection) := by
  obtain ⟨hvalid, hlive⟩ := ha.valid
  have hstart := Loop.start_inv hvalid hlive lotosConnections activeTime heapIdx connFd openFds hnow
  have hl : l.Inv a.capacity := Loop.Run.inv hrun hstart fun w r _ hcond hall => hcond hall
  exact connectionAccept_atomic_iff (hl.world.setOpenFds _) (Finset.mem_insert_self fd _) (hr.setOpenFds _)

/-- The server with `malloc`, before its first connection. -/
def Loop.first : Loop := Loop.start (.malloc ∅) (fun _ => 0) (fun _ => 0) (fun _ => 0) (fun _ => 0) {3} 100

/-- `epoll` refuses the second connection, and the first one stays. -/
theorem run_accept_atomic_iff_refused :
    ∃ l c w', Loop.Run 10 (fun w r => Allocates w.alloc r → w.heap.heapSize < maxConnection) Loop.first l ∧
      l.world.alloc.live = {4096} ∧ connectionAccept { l.world with openFds := insert 6 l.world.openFds } 6
        ⟨some 8192, true, true, 105, none, false⟩ = .ok (c, w') ∧ AcceptAtomic l.world w' 6 c := by
  let r : AcceptResults := ⟨some 4096, true, true, 100, none, true⟩
  let call := connectionAccept { Loop.first.world with openFds := insert 5 Loop.first.world.openFds } 5 r
  have hobs : call.toOption.map (fun x => (x.2.alloc.capacity, x.2.alloc.live, x.2.heap.heapSize, x.2.now)) =
      some (none, {4096}, 1, 100) := by decide +kernel
  cases hok : call with
  | error e =>
    rw [hok] at hobs
    cases hobs
  | ok x =>
    obtain ⟨c, w⟩ := x
    rw [hok] at hobs
    simp only [Except.toOption, Option.map_some, Option.some.injEq, Prod.mk.injEq] at hobs
    obtain ⟨hcapacity, hlive, hsize, hnow⟩ := hobs
    have halloc : w.alloc = .malloc {4096} := by
      cases halloc : w.alloc with
      | pool p =>
        rw [halloc] at hcapacity
        cases hcapacity
      | malloc live =>
        rw [halloc] at hlive
        exact congrArg Allocator.malloc hlive
    have hwait : Loop.Step 10 (fun w r => Allocates w.alloc r → w.heap.heapSize < maxConnection) Loop.first
        ⟨Loop.first.world, some [.listen]⟩ := by
      refine .wait ?_
      intro c i o hmem
      cases List.mem_singleton.mp hmem
    have hrun := (Relation.ReflTransGen.single hwait).tail (.accept (r := r) (show 5 ∉ Loop.first.world.openFds by decide)
      ⟨le_rfl, fun c _ => Finset.notMem_empty c⟩ (fun _ => by decide) hok)
    obtain ⟨c', w', hok', hiff⟩ := run_accept_atomic_iff 10 (.malloc ∅) (.inl rfl) _ _ _ _ _ 100 (by decide) _ hrun 6
      ⟨some 8192, true, true, 105, none, false⟩ ⟨by rw [hnow]; decide, by rw [halloc]; rintro d ⟨⟩; decide⟩
    refine ⟨_, c', w', hrun, by rw [halloc]; rfl, hok', hiff.mpr ⟨?_, ?_⟩⟩
    · rw [halloc]
      exact ⟨nofun, rfl, rfl⟩
    · rw [hsize]
      decide

/-- `malloc` fails for the first connection: the descriptor stays open. -/
theorem not_forall_accept_atomic :
    ¬ ∀ (l : Loop) (fd : ℕ) (r : AcceptResults) (c : Option ConnPtr) (w' : World),
      Loop.Run 10 (fun _ _ => True) Loop.first l → r.Possible l.world →
      connectionAccept { l.world with openFds := insert fd l.world.openFds } fd r = .ok (c, w') →
      AcceptAtomic l.world w' fd c := by
  intro h
  have hatomic := h Loop.first 5 ⟨none, true, true, 100, none, true⟩ none _ .refl ⟨le_rfl, nofun⟩ rfl
  exact hatomic.1 (Finset.mem_insert_self 5 _)

end Lotos
