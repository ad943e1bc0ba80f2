import Lotos.Heap.Invariant

/-!
# Runs of the connection heap

A `HeapWorld` is the heap with what the run has done so far: the connections that are registered, those marked expired
since they were last active, the one registered immediately before, and the last value of the clock.  `HeapOp` are the
calls the server makes, each with the values of the clock it reads; `HeapOp.Enabled` says when the server can make it:
a fresh connection is registered, a registered one is reactivated or expired, the connection registered immediately
before is closed (the path of a failed `lotos_epoll_add`), and the clock does not go back.
-/

namespace Lotos

structure HeapWorld where
  heap : Heap
  live : Finset ConnPtr
  /-- marked by `connecion_set_expired` and not reactivated since -/
  expired : Finset ConnPtr
  /-- registered by the last call -/
  last : Option ConnPtr
  now : ℤ

inductive HeapOp where
  /-- `connection_accept` stores the time it reads and registers -/
  | register (c : ConnPtr) (now : ℤ)
  | setReactivated (c : ConnPtr) (now : ℤ)
  | setExpired (c : ConnPtr)
  | closeLast
  | prune (timeout : ℤ) (clock : ℕ → ℤ)

def HeapOp.Enabled (w : HeapWorld) : HeapOp → Prop
  | .register c now => c ∉ w.live ∧ w.now ≤ now
  | .setReactivated c now => c ∈ w.live ∧ w.now ≤ now
  | .setExpired c => c ∈ w.live
  | .closeLast => w.last ≠ none
  | .prune _ clock => Monotone clock ∧ w.now ≤ clock 0

/-- The effect of a call. -/
def HeapWorld.apply (w : HeapWorld) : HeapOp → Except AssertFailure HeapWorld
  | .register c now => do
    let (status, h) ← connectionRegister { w.heap with activeTime := Function.update w.heap.activeTime c now } c
    if status = .ok then return { w with heap := h, live := insert c w.live, last := some c, now := now }
    else return { w with heap := h, last := none, now := now }
  | .setReactivated c now => do
    let h ← connecionSetReactivated w.heap now c
    return { w with heap := h, expired := w.expired.erase c, last := none, now := now }
  | .setExpired c => do
    let h ← connecionSetExpired w.heap c
    return { w with heap := h, expired := insert c w.expired, last := none }
  | .closeLast =>
    match w.last with
    | some c => do
      let h ← connectionClose w.heap c
      return { w with heap := h, live := w.live.erase c, expired := w.expired.erase c, last := none }
    | none => return w
  | .prune timeout clock => do
    let (closed, h) ← connectionPrune timeout clock w.heap
    return { w with
      heap := h
      live := w.live \ closed.toFinset
      expired := w.expired \ closed.toFinset
      last := none
      now := clock closed.length }

/-- The states that a run reaches from the empty heap. -/
inductive HeapWorld.Reachable : HeapWorld → Prop where
  | init (lotosConnections : ℕ → ConnPtr) (activeTime : ConnPtr → ℤ) (heapIdx : ConnPtr → ℕ) {now : ℤ}
      (hnow : 0 ≤ now) : Reachable ⟨Heap.empty lotosConnections activeTime heapIdx, ∅, ∅, none, now⟩
  | step {w w' : HeapWorld} (op : HeapOp) (hw : Reachable w) (hen : op.Enabled w) (happ : w.apply op = .ok w') :
      Reachable w'

/-- The invariant of the runs: the heap is valid, and no `active_time` is negative or ahead of the clock.  The latter
keeps a connection that has just been registered in the last entry. -/
structure HeapWorld.Inv (w : HeapWorld) : Prop where
  valid : w.heap.Valid w.live
  time : ∀ c ∈ w.live, 0 ≤ w.heap.activeTime c ∧ w.heap.activeTime c ≤ w.now
  clock : 0 ≤ w.now
  expired : ∀ c ∈ w.expired, c ∈ w.live ∧ w.heap.activeTime c = 0
  last : ∀ c, w.last = some c → c ∈ w.live ∧ w.heap.heapIdx c + 1 = w.heap.heapSize

/-! ### Pruning -/

/-- **What `connection_prune` does.**  It ends, closes each connection at most once, and leaves a valid heap of the
others with their times unchanged.  Every connection it closes was too old by one of the values of the clock it read,
and every one it leaves is not too old by one of them. -/
theorem connectionPrune_spec (timeout : ℤ) (clock : ℕ → ℤ) {h : Heap} {live : Finset ConnPtr} (hv : h.Valid live) :
    ∃ closed h', connectionPrune timeout clock h = .ok (closed, h') ∧ closed.Nodup ∧ (∀ c ∈ closed, c ∈ live) ∧
      h'.Valid (live \ closed.toFinset) ∧ h'.activeTime = h.activeTime ∧
      (∀ c ∈ closed, ∃ k, clock k - h.activeTime c ≥ timeout) ∧
      ∀ c ∈ live, c ∉ closed → ∃ k, clock k - h.activeTime c < timeout := by
  induction hn : h.heapSize using Nat.strong_induction_on generalizing h live clock with
  | _ n ih =>
    rw [connectionPrune]
    by_cases hpos : h.heapSize > 0
    · by_cases hold : clock 0 - h.activeTime (h.lotosConnections 0) ≥ timeout
      · obtain ⟨h₁, hclose, hv₁, htime₁⟩ := connectionClose_root_valid hv hpos
        have hless := connectionClose_heapSize hclose
        obtain ⟨closed, h', hprune, hnodup, hsub, hv', htime, hdue, hkeep⟩ :=
          ih h₁.heapSize (hn ▸ hless) (fun k => clock (k + 1)) hv₁ rfl
        rw [htime₁] at htime hdue hkeep
        refine ⟨h.lotosConnections 0 :: closed, h', ?_, ?_, ?_, ?_, htime, ?_, ?_⟩
        · simp only [hpos, hold, if_true]
          rw [hclose]
          simp only [hprune]
        · refine List.nodup_cons.mpr ⟨?_, hnodup⟩
          intro hmem
          exact Finset.notMem_erase _ _ (hsub _ hmem)
        · intro c hc
          rcases List.mem_cons.mp hc with rfl | hc
          · exact hv.mem hpos
          · exact Finset.mem_of_mem_erase (hsub c hc)
        · rw [List.toFinset_cons, Finset.sdiff_insert, ← Finset.erase_sdiff_comm]
          exact hv'
        · intro c hc
          rcases List.mem_cons.mp hc with rfl | hc
          · exact ⟨0, hold⟩
          · obtain ⟨k, hk⟩ := hdue c hc
            exact ⟨k + 1, hk⟩
        · intro c hc hnot
          rw [List.mem_cons, not_or] at hnot
          obtain ⟨k, hk⟩ := hkeep c (Finset.mem_erase.mpr ⟨hnot.1, hc⟩) hnot.2
          exact ⟨k + 1, hk⟩
      · -- the root is young enough, and no connection is older
        refine ⟨[], h, ?_, List.nodup_nil, by simp, by simpa using hv, rfl, by simp, fun c hc _ => ⟨0, ?_⟩⟩
        · simp only [hpos, hold, if_true, if_false]
        · obtain ⟨hlt, hat⟩ := hv.idx hc
          have hroot := hv.ordered.root_le hlt
          simp only [Heap.key, hat] at hroot
          omega
    · refine ⟨[], h, ?_, List.nodup_nil, by simp, by simpa using hv, rfl, by simp, ?_⟩
      · simp only [hpos, if_false]
      · intro c hc _
        have := (hv.idx hc).1
        omega

/-! ### The invariant -/

theorem HeapWorld.init_inv (lotosConnections : ℕ → ConnPtr) (activeTime : ConnPtr → ℤ) (heapIdx : ConnPtr → ℕ) {now : ℤ}
    (hnow : 0 ≤ now) : HeapWorld.Inv ⟨Heap.empty lotosConnections activeTime heapIdx, ∅, ∅, none, now⟩ where
  valid := ⟨Nat.zero_le _, fun i hi => absurd hi (Nat.not_lt_zero i), fun c => by simp [Heap.Holds, Heap.empty],
    fun i _ hi => absurd hi (Nat.not_lt_zero i)⟩
  time := by simp
  clock := hnow
  expired := by simp
  last := by simp

section Apply

variable {w : HeapWorld}

theorem apply_register (hw : w.Inv) {c : ConnPtr} {now : ℤ} (hc : c ∉ w.live) (hnow : w.now ≤ now) :
    ∃ w', w.apply (.register c now) = .ok w' ∧ w'.Inv := by
  set h₀ : Heap := { w.heap with activeTime := Function.update w.heap.activeTime c now } with hh₀
  have hv₀ : h₀.Valid w.live := hw.valid.setTime hc now
  have hpast : ∀ d ∈ w.live, 0 ≤ h₀.activeTime d ∧ h₀.activeTime d ≤ now :=
    setTime_within hw.time c (hw.clock.trans hnow) le_rfl hnow
  have hself : h₀.activeTime c = now := Function.update_self _ _ _
  have hexp : ∀ d ∈ w.expired, d ∈ w.live ∧ h₀.activeTime d = 0 := by
    intro d hd
    obtain ⟨hlive, hzero⟩ := hw.expired d hd
    have hdc : d ≠ c := ne_of_mem_of_not_mem hlive hc
    exact ⟨hlive, (Function.update_of_ne hdc _ _).trans hzero⟩
  by_cases hroom : h₀.heapSize < maxConnection
  · obtain ⟨h', hreg, hv', htime', hlast⟩ := connectionRegister_valid hv₀ hc hroom
      (fun d hd => by rw [hself]; exact (hpast d hd).2)
    refine ⟨{ w with heap := h', live := insert c w.live, last := some c, now := now },
      by simp only [HeapWorld.apply, ← hh₀, hreg]; rfl, ⟨hv', ?_, hw.clock.trans hnow, ?_, ?_⟩⟩
    · intro d hd
      simp only [htime']
      rcases Finset.mem_insert.mp hd with rfl | hd
      · rw [hself]
        exact ⟨hw.clock.trans hnow, le_rfl⟩
      · exact hpast d hd
    · intro d hd
      obtain ⟨hlive, hzero⟩ := hexp d hd
      exact ⟨Finset.mem_insert_of_mem hlive, by simp only [htime']; exact hzero⟩
    · intro d hd
      obtain rfl : c = d := Option.some.inj hd
      exact ⟨Finset.mem_insert_self _ _, hlast⟩
  · have hreg : connectionRegister h₀ c = .ok (.error, h₀) := by
      unfold connectionRegister
      rw [if_pos (by omega)]
    exact ⟨{ w with heap := h₀, last := none, now := now }, by simp only [HeapWorld.apply, ← hh₀, hreg]; rfl,
      ⟨hv₀, hpast, hw.clock.trans hnow, hexp, by simp⟩⟩

theorem apply_setReactivated (hw : w.Inv) {c : ConnPtr} {now : ℤ} (hc : c ∈ w.live) (hnow : w.now ≤ now) :
    ∃ w', w.apply (.setReactivated c now) = .ok w' ∧ w'.Inv := by
  obtain ⟨h', hok, hv', htime⟩ := connecionSetReactivated_valid hw.valid hc ((hw.time c hc).2.trans hnow)
  refine ⟨{ w with heap := h', expired := w.expired.erase c, last := none, now := now },
    by simp only [HeapWorld.apply, hok]; rfl, ⟨hv', ?_, hw.clock.trans hnow, ?_, by simp⟩⟩
  · simp only [htime]
    exact setTime_within hw.time c (hw.clock.trans hnow) le_rfl hnow
  · intro d hd
    obtain ⟨hdc, hd⟩ := Finset.mem_erase.mp hd
    simp only [htime, Function.update_of_ne hdc]
    exact hw.expired d hd

theorem apply_setExpired (hw : w.Inv) {c : ConnPtr} (hc : c ∈ w.live) :
    ∃ w', w.apply (.setExpired c) = .ok w' ∧ w'.Inv := by
  obtain ⟨h', hok, hv', htime⟩ := connecionSetExpired_valid hw.valid hc (hw.time c hc).1
  refine ⟨{ w with heap := h', expired := insert c w.expired, last := none },
    by simp only [HeapWorld.apply, hok]; rfl, ⟨hv', ?_, hw.clock, ?_, by simp⟩⟩
  · simp only [htime]
    exact setTime_within hw.time c le_rfl hw.clock le_rfl
  · intro d hd
    simp only [htime]
    by_cases hdc : d = c
    · rw [hdc, Function.update_self]
      exact ⟨hc, rfl⟩
    · rw [Function.update_of_ne hdc]
      exact hw.expired d (Finset.mem_of_mem_insert_of_ne hd hdc)

theorem apply_closeLast (hw : w.Inv) (hlast : w.last ≠ none) : ∃ w', w.apply .closeLast = .ok w' ∧ w'.Inv := by
  obtain ⟨c, hc⟩ := Option.ne_none_iff_exists'.mp hlast
  obtain ⟨hlive, hidx⟩ := hw.last c hc
  obtain ⟨h', hok, hv', htime⟩ := connectionClose_last_valid hw.valid hlive hidx
  refine ⟨{ w with heap := h', live := w.live.erase c, expired := w.expired.erase c, last := none },
    by simp only [HeapWorld.apply, hc, hok]; rfl, ⟨hv', ?_, hw.clock, ?_, by simp⟩⟩
  · intro d hd
    simp only [htime]
    exact hw.time d (Finset.mem_of_mem_erase hd)
  · intro d hd
    obtain ⟨hdc, hd⟩ := Finset.mem_erase.mp hd
    simp only [htime]
    exact ⟨Finset.mem_erase.mpr ⟨hdc, (hw.expired d hd).1⟩, (hw.expired d hd).2⟩

theorem apply_prune (hw : w.Inv) {timeout : ℤ} {clock : ℕ → ℤ} (hmono : Monotone clock) (hnow : w.now ≤ clock 0) :
    ∃ w', w.apply (.prune timeout clock) = .ok w' ∧ w'.Inv := by
  obtain ⟨closed, h', hok, -, -, hv', htime, -, -⟩ := connectionPrune_spec timeout clock hw.valid
  have hlater : w.now ≤ clock closed.length := hnow.trans (hmono (Nat.zero_le _))
  refine ⟨⟨h', w.live \ closed.toFinset, w.expired \ closed.toFinset, none, clock closed.length⟩,
    by simp only [HeapWorld.apply, hok]; rfl, ⟨hv', ?_, hw.clock.trans hlater, ?_, by simp⟩⟩
  · intro d hd
    have hd := (Finset.mem_sdiff.mp hd).1
    simp only [htime]
    exact ⟨(hw.time d hd).1, (hw.time d hd).2.trans hlater⟩
  · intro d hd
    obtain ⟨hd, hnot⟩ := Finset.mem_sdiff.mp hd
    simp only [htime]
    exact ⟨Finset.mem_sdiff.mpr ⟨(hw.expired d hd).1, hnot⟩, (hw.expired d hd).2⟩

/-- **The step.**  A call that the server can make succeeds, and keeps the invariant. -/
theorem apply_inv (hw : w.Inv) {op : HeapOp} (hen : op.Enabled w) : ∃ w', w.apply op = .ok w' ∧ w'.Inv := by
  cases op with
  | register c now => exact apply_register hw hen.1 hen.2
  | setReactivated c now => exact apply_setReactivated hw hen.1 hen.2
  | setExpired c => exact apply_setExpired hw hen
  | closeLast => exact apply_closeLast hw hen
  | prune timeout clock => exact apply_prune hw hen.1 hen.2

end Apply

/-- **The run.** -/
theorem HeapWorld.Reachable.inv {w : HeapWorld} (hw : w.Reachable) : w.Inv := by
  induction hw with
  | init conns times idxs hnow => exact HeapWorld.init_inv conns times idxs hnow
  | step op _ hen happ ih =>
    obtain ⟨w', hok, hinv⟩ := apply_inv ih hen
    rw [happ] at hok
    cases hok
    exact hinv

/-- **The connection heap over whole runs.**  In every state that a run reaches, the size is within the array, the
back-indices are right, the entries are distinct and are the connections registered and not yet unregistered, no
connection is older than the one above it; and no call that the server can make from there fails an assertion. -/
theorem reachable_heap (w : HeapWorld) (hw : w.Reachable) :
    w.heap.heapSize ≤ maxConnection ∧
    (∀ i, i < w.heap.heapSize → w.heap.heapIdx (w.heap.lotosConnections i) = i) ∧
    (∀ i j, i < w.heap.heapSize → j < w.heap.heapSize →
      w.heap.lotosConnections i = w.heap.lotosConnections j → i = j) ∧
    (∀ c, c ∈ w.live ↔ ∃ i, i < w.heap.heapSize ∧ w.heap.lotosConnections i = c) ∧
    (∀ i, 0 < i → i < w.heap.heapSize →
      w.heap.activeTime (w.heap.lotosConnections ((i - 1) / 2)) ≤ w.heap.activeTime (w.heap.lotosConnections i)) ∧
    ∀ op : HeapOp, op.Enabled w → ∃ w', w.apply op = .ok w' := by
  have hinv := hw.inv
  refine ⟨hinv.valid.size, hinv.valid.indexed, fun i j => hinv.valid.indexed.inj, hinv.valid.holds,
    hinv.valid.ordered, ?_⟩
  intro op hen
  obtain ⟨w', hok, -⟩ := apply_inv hinv hen
  exact ⟨w', hok⟩

/-- The empty heap at time 100. -/
def HeapWorld.start : HeapWorld := ⟨Heap.empty (fun _ => 0) (fun _ => 0) (fun _ => 0), ∅, ∅, none, 100⟩

/-- The connection at address 7 is registered at time 100, and the one at address 8 at time 105. -/
theorem two_registered : ∃ w : HeapWorld, w.Reachable ∧ w.live = {7, 8} ∧ w.heap.heapSize = 2 ∧ w.heap.activeTime 7 = 100 ∧
    w.heap.activeTime 8 = 105 := by
  have hreach : HeapWorld.start.Reachable := .init _ _ _ (by decide)
  have hen₁ : (HeapOp.register 7 100).Enabled HeapWorld.start := ⟨by decide, le_rfl⟩
  obtain ⟨w₁, h₁, -⟩ := apply_inv hreach.inv hen₁
  have hfirst : some (w₁.now, decide (8 ∈ w₁.live)) = some (100, false) := by
    rw [← show (HeapWorld.start.apply (.register 7 100)).toOption.map (fun w => (w.now, decide (8 ∈ w.live))) =
      some (100, false) by decide +kernel, h₁]
    rfl
  simp only [Option.some.injEq, Prod.mk.injEq, decide_eq_false_iff_not] at hfirst
  have hen₂ : (HeapOp.register 8 105).Enabled w₁ := ⟨hfirst.2, by rw [hfirst.1]; decide⟩
  have hreach₁ := HeapWorld.Reachable.step _ hreach hen₁ h₁
  obtain ⟨w₂, h₂, -⟩ := apply_inv hreach₁.inv hen₂
  let observe (w : HeapWorld) := (w.live, w.heap.heapSize, w.heap.activeTime 7, w.heap.activeTime 8)
  have hsecond : some (observe w₂) = some ({7, 8}, 2, 100, 105) := by
    rw [← show (HeapWorld.start.apply (.register 7 100) >>= fun w => w.apply (.register 8 105)).toOption.map observe =
      some ({7, 8}, 2, 100, 105) by decide +kernel, h₁]
    exact congrArg (fun r => Option.map observe (Except.toOption r)) h₂.symm
  simp only [observe, Option.some.injEq, Prod.mk.injEq] at hsecond
  exact ⟨w₂, .step _ hreach₁ hen₂ h₂, hsecond⟩

theorem reachable_heap_two :
    ∃ w : HeapWorld, w.Reachable ∧ w.heap.heapSize = 2 ∧ w.heap.heapIdx (w.heap.lotosConnections 1) = 1 ∧
      w.heap.activeTime (w.heap.lotosConnections 0) ≤ w.heap.activeTime (w.heap.lotosConnections 1) := by
  obtain ⟨w, hreach, -, hsize, -⟩ := two_registered
  obtain ⟨-, hidx, -, -, hord, -⟩ := reachable_heap w hreach
  exact ⟨w, hreach, hsize, hidx 1 (by omega), hord 1 (by decide) (by omega)⟩

/-- **Pruning closes exactly the connections that have timed out.**  In every state that a run reaches, for every
timeout and every value of the clock, `connection_prune` ends, and closes the registered connections whose time is at
least the timeout ago, each once; the others stay in a valid heap, with their times.  A connection marked expired, and
not reactivated since, is closed if the timeout is not ahead of the clock. -/
theorem connectionPrune_exact (w : HeapWorld) (hw : w.Reachable) (timeout now : ℤ) :
    ∃ closed h', connectionPrune timeout (fun _ => now) w.heap = .ok (closed, h') ∧ closed.Nodup ∧
      (∀ c, c ∈ closed ↔ c ∈ w.live ∧ now - w.heap.activeTime c ≥ timeout) ∧
      h'.Valid (w.live \ closed.toFinset) ∧ (∀ c, h'.activeTime c = w.heap.activeTime c) ∧
      (timeout ≤ now → ∀ c ∈ w.expired, c ∈ closed) := by
  have hinv := hw.inv
  obtain ⟨closed, h', hok, hnodup, hsub, hv', htime, hdue, hkeep⟩ :=
    connectionPrune_spec timeout (fun _ => now) hinv.valid
  have hiff : ∀ c, c ∈ closed ↔ c ∈ w.live ∧ now - w.heap.activeTime c ≥ timeout := by
    intro c
    constructor
    · intro hc
      obtain ⟨-, hk⟩ := hdue c hc
      exact ⟨hsub c hc, hk⟩
    · rintro ⟨hlive, hold⟩
      by_contra hnot
      obtain ⟨-, hk⟩ := hkeep c hlive hnot
      omega
  refine ⟨closed, h', hok, hnodup, hiff, hv', fun c => congrFun htime c, ?_⟩
  intro hle c hc
  obtain ⟨hlive, hzero⟩ := hinv.expired c hc
  exact (hiff c).mpr ⟨hlive, by rw [hzero]; omega⟩

/-- At time 112 one of the two has timed out, for a timeout of 10, and the other is kept. -/
theorem connectionPrune_exact_one :
    ∃ w : HeapWorld, w.Reachable ∧ w.live = {7, 8} ∧ ∃ closed h',
      connectionPrune 10 (fun _ => 112) w.heap = .ok (closed, h') ∧ closed = [7] ∧ h'.Valid {8} := by
  obtain ⟨w, hreach, hlive, -, htime₇, htime₈⟩ := two_registered
  obtain ⟨closed, h', hok, hnodup, hiff, hv, -⟩ := connectionPrune_exact w hreach 10 112
  have hclosed : ∀ c, c ∈ closed ↔ c = 7 := by
    intro c
    rw [hiff, hlive, Finset.mem_insert, Finset.mem_singleton]
    constructor
    · rintro ⟨rfl | rfl, hold⟩
      · rfl
      · omega
    · rintro rfl
      exact ⟨.inl rfl, by omega⟩
  have heq : closed = [7] := by
    refine List.perm_singleton.mp ?_
    exact (List.perm_ext_iff_of_nodup hnodup (List.nodup_singleton 7)).mpr fun c => by rw [hclosed, List.mem_singleton]
  subst heq
  rw [hlive] at hv
  exact ⟨w, hreach, hlive, [7], h', hok, rfl, hv⟩

end Lotos
