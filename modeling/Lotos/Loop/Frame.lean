import Lotos.Heap.Run
import Lotos.Loop.Accept
import Lotos.Loop.Run

/-!
# What the calls of the loop leave alone

The heap operations move connections and do not touch `active_time`; the times, the descriptors and the interest set change
only where the calls of the loop say so.  `connectionAccept_frame`, `handled_frame` and `prune_frame` have one clause for
each member of `World` that is not in the invariant.
-/

namespace Lotos

/-! ### The heap -/

section Heap

variable {h h' : Heap} {c : ConnPtr}

theorem cSwap_time {x y : ℕ} (hs : cSwap h x y = .ok h') : h'.activeTime = h.activeTime := by
  unfold cSwap at hs
  split_ifs at hs
  cases hs
  rfl

theorem heapBubbleUp_time {idx : ℕ} (hok : heapBubbleUp h idx = .ok h') : h'.activeTime = h.activeTime := by
  induction idx using Nat.strong_induction_on generalizing h with
  | _ idx ih =>
    rw [heapBubbleUp] at hok
    by_cases hpos : 0 < idx
    · by_cases hstop : h.key idx ≥ h.key (MinHeap.parent idx)
      · simp only [hpos, hstop, dif_pos, if_true] at hok
        cases hok
        rfl
      · simp only [hpos, hstop, dif_pos, if_false] at hok
        split at hok
        · rename_i h₁ hs
          exact (ih _ (MinHeap.parent_lt hpos) hok).trans (cSwap_time hs)
        · cases hok
    · simp only [hpos, dif_neg, not_false_eq_true] at hok
      cases hok
      rfl

theorem heapBubbleDown_time {idx : ℕ} (hok : heapBubbleDown h idx = .ok h') : h'.activeTime = h.activeTime := by
  induction h, idx using heapBubbleDown.induct with
  | case1 h idx hc =>
    rw [heapBubbleDown_leaf hc] at hok
    cases hok
    rfl
  | case2 h idx c hc hle =>
    rw [heapBubbleDown_stop hc hle] at hok
    cases hok
    rfl
  | case3 h idx c hc hlt _ h₁ hs ih =>
    rw [heapBubbleDown_swap hc hlt hs] at hok
    exact (ih hok).trans (cSwap_time hs)
  | case4 h idx c hc hlt _ e hs =>
    rw [heapBubbleDown_error hc hlt hs] at hok
    cases hok
  | case5 h idx c hc hlt hout => exact absurd (properChild_gt hc).2.1 hout

theorem connectionRegister_time {st : Status} (hok : connectionRegister h c = .ok (st, h')) :
    h'.activeTime = h.activeTime := by
  unfold connectionRegister at hok
  split_ifs at hok
  · cases hok
    rfl
  · unfold heapInsert at hok
    split_ifs at hok
    simp only at hok
    split at hok
    · rename_i h₁ hup
      cases hok
      have htime := heapBubbleUp_time hup
      exact htime
    · cases hok

theorem connectionClose_time (hok : connectionClose h c = .ok h') : h'.activeTime = h.activeTime := by
  unfold connectionClose connectionUnregister at hok
  split_ifs at hok
  exact heapBubbleDown_time (h := h.dropTo (h.heapIdx c)) hok

end Heap

/-! ### Pruning, in order -/

/-- **How `connection_prune` goes.**  It closes the connections in the order of their times, each at a value of the clock by
which it has timed out, and it ends at one by which none that is left has. -/
theorem connectionPrune_order {timeout : ℤ} {clock : ℕ → ℤ} {h h' : Heap} {live : Finset ConnPtr} (hv : h.Valid live)
    {closed : List ConnPtr} (hok : connectionPrune timeout clock h = .ok (closed, h')) :
    closed.Pairwise (fun c d => h.activeTime c ≤ h.activeTime d) ∧ (∀ c ∈ closed, c ∈ live) ∧
      (∀ i c, closed[i]? = some c → clock i - h.activeTime c ≥ timeout) ∧
      ∀ c ∈ live, c ∉ closed → clock closed.length - h.activeTime c < timeout := by
  induction hn : h.heapSize using Nat.strong_induction_on generalizing h live clock closed with
  | _ n ih =>
    rw [connectionPrune] at hok
    by_cases hpos : h.heapSize > 0
    · have hroot : ∀ c ∈ live, h.activeTime (h.lotosConnections 0) ≤ h.activeTime c := by
        intro c hc
        obtain ⟨hlt, hat⟩ := hv.idx hc
        have hle := hv.ordered.root_le hlt
        simp only [Heap.key, hat] at hle
        exact hle
      by_cases hold : clock 0 - h.activeTime (h.lotosConnections 0) ≥ timeout
      · obtain ⟨h₁, hclose, hv₁, htime₁⟩ := connectionClose_root_valid hv hpos
        simp only [hpos, hold, if_true] at hok
        rw [hclose] at hok
        simp only at hok
        split at hok
        · rename_i closed₁ h₂ hprune
          obtain ⟨rfl, rfl⟩ := Prod.mk.inj (Except.ok.inj hok)
          obtain ⟨hsorted, hsub, hdue, hkeep⟩ := ih h₁.heapSize (hn ▸ connectionClose_heapSize hclose) hv₁ hprune rfl
          rw [htime₁] at hsorted hdue hkeep
          refine ⟨List.pairwise_cons.mpr ⟨?_, hsorted⟩, ?_, ?_, ?_⟩
          · intro d hd
            exact hroot d (Finset.mem_of_mem_erase (hsub d hd))
          · intro d hd
            rcases List.mem_cons.mp hd with rfl | hd
            · exact hv.mem hpos
            · exact Finset.mem_of_mem_erase (hsub d hd)
          · intro i d hi
            cases i with
            | zero =>
              cases hi
              exact hold
            | succ i => exact hdue i d hi
          · intro d hd hnot
            rw [List.mem_cons, not_or] at hnot
            exact hkeep d (Finset.mem_erase.mpr ⟨hnot.1, hd⟩) hnot.2
        · cases hok
      · simp only [hpos, hold, if_true, if_false] at hok
        obtain ⟨rfl, rfl⟩ := Prod.mk.inj (Except.ok.inj hok)
        refine ⟨.nil, by simp, by simp, ?_⟩
        intro c hc _
        have hle := hroot c hc
        change clock 0 - h.activeTime c < timeout
        omega
    · simp only [hpos, if_false] at hok
      obtain ⟨rfl, rfl⟩ := Prod.mk.inj (Except.ok.inj hok)
      refine ⟨.nil, by simp, by simp, ?_⟩
      intro c hc _
      have := (hv.idx hc).1
      omega

/-! ### The loop -/

section Loop

variable {w w' : World} {c : ConnPtr}

theorem connectionAccept_frame {fd : ℕ} {r : AcceptResults} {o : Option ConnPtr}
    (hok : connectionAccept w fd r = .ok (o, w')) :
    (o = none ∧ ∃ a, w' = { w with alloc := a }) ∨
    ∃ c, (connectionInit w.alloc r).1 = some c ∧ w'.connFd = Function.update w.connFd c fd ∧
      w'.heap.activeTime = Function.update w.heap.activeTime c r.now ∧ w'.now = r.now ∧
      (o = some c ∧ w'.openFds = w.openFds ∧ w'.epoll = insert c w.epoll ∨
        o = none ∧ w'.openFds = w.openFds.erase fd ∧ w'.epoll = w.epoll.erase c) := by
  unfold connectionAccept at hok
  split at hok
  · cases hok
    exact .inl ⟨rfl, _, rfl⟩
  rename_i c a hinit
  refine .inr ⟨c, by rw [hinit], ?_⟩
  have hclosed : ∀ h₁, h₁.activeTime = (w.fill a c fd r).heap.activeTime →
      (({ w.fill a c fd r with heap := h₁ } : World).close c).map (fun w => ((none : Option ConnPtr), w)) = .ok (o, w') →
      w'.connFd = Function.update w.connFd c fd ∧ w'.heap.activeTime = Function.update w.heap.activeTime c r.now ∧
        w'.now = r.now ∧ (o = some c ∧ w'.openFds = w.openFds ∧ w'.epoll = insert c w.epoll ∨
          o = none ∧ w'.openFds = w.openFds.erase fd ∧ w'.epoll = w.epoll.erase c) := by
    intro h₁ htime hclose
    unfold World.close at hclose
    split at hclose
    · rename_i h₂ hh₂
      obtain ⟨rfl, rfl⟩ := Prod.mk.inj (Except.ok.inj hclose)
      refine ⟨rfl, (connectionClose_time hh₂).trans htime, rfl, .inr ⟨rfl, ?_, rfl⟩⟩
      exact congrArg w.openFds.erase (Function.update_self _ _ _)
    · cases hclose
  unfold World.enter at hok
  split at hok
  · rename_i h₁ hreg
    split_ifs at hok with hadd
    · obtain ⟨rfl, rfl⟩ := Prod.mk.inj (Except.ok.inj hok)
      exact ⟨rfl, connectionRegister_time hreg, rfl, .inl ⟨rfl, rfl, rfl⟩⟩
    · exact hclosed h₁ (connectionRegister_time hreg) hok
  · rename_i st h₁ hne hreg
    exact hclosed h₁ (connectionRegister_time hreg) hok
  · cases hok

/-- The times after a handler has answered. -/
def timeAfter (time : ConnPtr → ℤ) (c : ConnPtr) (now : ℤ) : Option Status → ConnPtr → ℤ
  | none => time
  | some st => Function.update time c (if st = .error then 0 else now)

theorem handled_frame {now : ℤ} {st : Option Status} (hok : w.handled c now st = .ok w') :
    w'.connFd = w.connFd ∧ w'.openFds = w.openFds ∧ w'.epoll = w.epoll ∧ w'.now = now ∧
      w'.heap.activeTime = timeAfter w.heap.activeTime c now st := by
  cases st with
  | none =>
    cases hok
    exact ⟨rfl, rfl, rfl, rfl, rfl⟩
  | some st =>
    rw [World.handled] at hok
    by_cases hst : st = .error
    · rw [if_pos hst] at hok
      split at hok
      · rename_i h hh
        cases hok
        refine ⟨rfl, rfl, rfl, rfl, ?_⟩
        rw [timeAfter, if_pos hst]
        exact heapBubbleUp_time hh
      · cases hok
    · rw [if_neg hst] at hok
      split at hok
      · rename_i h hh
        cases hok
        refine ⟨rfl, rfl, rfl, rfl, ?_⟩
        rw [timeAfter, if_neg hst]
        exact heapBubbleDown_time hh
      · cases hok

theorem foldl_release_frame (closed : List ConnPtr) (w : World) :
    (closed.foldl World.release w).connFd = w.connFd ∧
      (closed.foldl World.release w).openFds = w.openFds \ closed.toFinset.image w.connFd := by
  induction closed generalizing w with
  | nil => simp
  | cons c closed ih =>
    obtain ⟨hfd, hopen⟩ := ih (w.release c)
    refine ⟨hfd, ?_⟩
    rw [List.foldl_cons, hopen, List.toFinset_cons, Finset.image_insert, Finset.sdiff_insert, ← Finset.erase_sdiff_comm]
    rfl

/-- What `connection_prune` changes: the connections that are closed are those that have timed out by the clock it reads. -/
theorem prune_frame {timeout : ℤ} {clock : ℕ → ℤ} {capacity : Option ℕ} (hw : w.Inv capacity)
    (hok : w.prune timeout clock = .ok w') :
    ∃ closed : List ConnPtr, (∀ c ∈ closed, c ∈ w.alloc.live) ∧
      closed.Pairwise (fun c d => w.heap.activeTime c ≤ w.heap.activeTime d) ∧
      w'.alloc.live = w.alloc.live \ closed.toFinset ∧ w'.connFd = w.connFd ∧
      w'.openFds = w.openFds \ closed.toFinset.image w.connFd ∧ w'.epoll = w.epoll \ closed.toFinset ∧
      w'.heap.activeTime = w.heap.activeTime ∧ w'.now = clock closed.length ∧
      (∀ i c, closed[i]? = some c → clock i - w.heap.activeTime c ≥ timeout) ∧
      ∀ c ∈ w'.alloc.live, clock closed.length - w.heap.activeTime c < timeout := by
  obtain ⟨closed, h, hprune, hnodup, hsub, -, htime, -⟩ := connectionPrune_spec timeout clock hw.valid
  rw [World.prune, hprune] at hok
  cases hok
  obtain ⟨hsorted, -, hdue, hkeep⟩ := connectionPrune_order hw.valid hprune
  have hrel := foldl_release closed (w := { w with heap := h, now := clock closed.length }) hw.alloc hnodup hsub
  obtain ⟨hfd, hopen⟩ := foldl_release_frame closed { w with heap := h, now := clock closed.length }
  refine ⟨closed, hsub, hsorted, hrel.live, hfd, hopen, hrel.epoll, ?_, hrel.now, hdue, ?_⟩
  · rw [hrel.heap]
    exact htime
  · intro c hc
    rw [hrel.live, Finset.mem_sdiff, List.mem_toFinset] at hc
    exact hkeep c hc.1 hc.2

theorem prune_live {timeout : ℤ} {clock : ℕ → ℤ} {capacity : Option ℕ} (hw : w.Inv capacity)
    (hok : w.prune timeout clock = .ok w') : w'.alloc.live ⊆ w.alloc.live := by
  obtain ⟨closed, -, -, hlive, -⟩ := prune_frame hw hok
  rw [hlive]
  exact Finset.sdiff_subset

end Loop

end Lotos
