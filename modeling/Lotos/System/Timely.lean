import Lotos.System.Project

/-!
# Timeouts

`connecion_set_expired` sets `active_time` to `0`, and `connection_prune` at the end of the batch closes what is too old.  So
when `epoll_wait` is called, no connection is left that has been idle for the timeout, and none whose last result was `ERROR`
(`Server.Timely`): the third phase of a connection, in which it would answer `ERROR` for ever, is not seen by `epoll_wait`.
-/

namespace Lotos

/-- No connection waits for an event when it should have been closed. -/
structure Server.Timely (timeout : ℤ) (s : Server) : Prop where
  inv : s.Inv
  clock : timeout ≤ s.world.now
  failed : ∀ c ∈ s.world.alloc.live, s.last c = some .error → s.world.heap.activeTime c = 0
  waiting : s.batch = none → ∀ c ∈ s.world.alloc.live, s.world.now - s.world.heap.activeTime c < timeout

section Times

variable {time : ConnPtr → ℤ} {c d : ConnPtr} {now : ℤ} {st last : Option Status}

theorem timeAfter_of_ne (h : d ≠ c) : timeAfter time c now st d = time d := by
  cases st with
  | none => rfl
  | some st => exact Function.update_of_ne h _ _

theorem timeAfter_failed (hlast : last = some .error → time c = 0) (h : st.or last = some .error) :
    timeAfter time c now st c = 0 := by
  cases st with
  | none => exact hlast h
  | some st =>
    obtain rfl : st = .error := Option.some.inj h
    exact (Function.update_self _ _ _).trans (if_pos rfl)

end Times

section Step

variable {timeout : ℤ} {s s' : Server}

theorem Served.frame {c : ConnPtr} {d : Service} (h : Served s s' c d) :
    s'.world.connFd = s.world.connFd ∧ s'.world.openFds = s.world.openFds ∧ s'.world.epoll = s.world.epoll ∧
      s'.world.now = d.outputNow ∧
      s'.world.heap.activeTime = timeAfter (timeAfter s.world.heap.activeTime c d.inputNow h.st) c d.outputNow h.st' := by
  obtain ⟨hfd, hopen, hepoll, -, htime⟩ := handled_frame h.handled
  obtain ⟨hfd', hopen', hepoll', hnow', htime'⟩ := handled_frame h.handled'
  rw [h.world_eq]
  exact ⟨hfd'.trans hfd, hopen'.trans hopen, hepoll'.trans hepoll, hnow', htime'.trans (by rw [htime])⟩

theorem accept_frame {w : World} {fd : ℕ} {r : AcceptResults} {o : Option ConnPtr} (hs : s.Inv) (hr : r.Possible s.world)
    (h : connectionAccept { s.world with openFds := insert fd s.world.openFds } fd r = .ok (o, w)) :
    s.world.now ≤ w.now ∧ ∀ d ∈ s.world.alloc.live,
      w.heap.activeTime d = s.world.heap.activeTime d ∧ w.connFd d = s.world.connFd d := by
  rcases connectionAccept_frame h with ⟨-, a, rfl⟩ | ⟨c, hinit, hfd, htime, hnow, -⟩
  · exact ⟨le_rfl, fun d _ => ⟨rfl, rfl⟩⟩
  · refine ⟨hr.clock.trans hnow.ge, ?_⟩
    intro d hd
    have hne : d ≠ c := by
      rintro rfl
      rcases connectionInit_spec hs.world.alloc hr.fresh with ⟨-, c', a', hok, hgiven⟩ | ⟨-, a', hok, -⟩
      · rw [show connectionInit s.world.alloc r = _ from hok] at hinit
        cases hinit
        exact hgiven.fresh hd
      · rw [show connectionInit s.world.alloc r = _ from hok] at hinit
        cases hinit
    rw [htime, hfd]
    exact ⟨Function.update_of_ne hne _ _, Function.update_of_ne hne _ _⟩

theorem Server.Timely.accept {w : World} {events : List Event} {fd nextFd : ℕ} {r : AcceptResults} {o : Option ConnPtr}
    (hs : s.Timely timeout) (hbatch : s.batch = some (.listen :: events)) (hr : r.Possible s.world)
    (h : connectionAccept { s.world with openFds := insert fd s.world.openFds } fd r = .ok (o, w))
    (hinv : (s.accepted w nextFd o).Inv) : (s.accepted w nextFd o).Timely timeout := by
  obtain ⟨hnow, hsame⟩ := accept_frame hs.inv hr h
  have hnone : ¬ (s.accepted w nextFd o).batch = none := by
    cases o <;> simp [Server.accepted, hbatch]
  rcases hs.inv.accept hr h with ⟨rfl, hlive⟩ | ⟨c', rfl, hnew, hlive⟩
  · refine ⟨hinv, hs.clock.trans hnow, ?_, fun hb => absurd hb hnone⟩
    intro c hc hlast
    have hc : c ∈ s.world.alloc.live := hlive ▸ hc
    exact (hsame c hc).1.trans (hs.failed c hc hlast)
  · refine ⟨hinv, hs.clock.trans hnow, ?_, fun hb => absurd hb hnone⟩
    intro c hc hlast
    by_cases hcc : c = c'
    · rw [hcc, (accepted_self s w nextFd c').2] at hlast
      cases hlast
    · have hc : c ∈ s.world.alloc.live := by
        refine Finset.mem_of_mem_insert_of_ne ?_ hcc
        rw [← hlive]
        exact hc
      refine (hsame c hc).1.trans (hs.failed c hc ?_)
      rw [← hlast]
      exact (Function.update_of_ne hcc _ _).symm

theorem Server.Timely.dispatch {c : ConnPtr} {i o : Bool} {events : List Event} {d : Service} (hs : s.Timely timeout)
    (hbatch : s.batch = some (.conn c i o :: events)) (hd : d.Possible s.world i o)
    (h : { s with batch := some events }.dispatch timeout c d = .ok s') (hinv : s'.Inv) : s'.Timely timeout := by
  have hlive : s'.world.alloc = s.world.alloc := hs.inv.dispatch_alloc hbatch hd h
  have hsome : s'.batch = some events := (dispatch_loop h hd).1
  have hwaiting : s'.batch = none → ∀ c ∈ s'.world.alloc.live, s'.world.now - s'.world.heap.activeTime c < timeout := by
    rw [hsome]
    rintro ⟨⟩
  obtain ⟨hnow, hin, hout⟩ := hd.clock
  rcases dispatch_cases h with ⟨-, rfl⟩ | ⟨-, ⟨hserved⟩⟩
  · exact ⟨hinv, hs.clock.trans hnow, hs.failed, hwaiting⟩
  · obtain ⟨-, -, -, hnow', htime⟩ := hserved.frame
    refine ⟨hinv, ?_, ?_, hwaiting⟩
    · rw [hnow']
      exact hs.clock.trans (hnow.trans (hin.trans hout))
    · intro c' hc' hlast
      rw [hlive] at hc'
      rw [htime]
      by_cases hcc : c' = c
      · subst hcc
        rw [hserved.last, Function.update_self] at hlast
        exact timeAfter_failed (fun h => timeAfter_failed (hs.failed c' hc') h) hlast
      · rw [timeAfter_of_ne hcc, timeAfter_of_ne hcc]
        refine hs.failed c' hc' ?_
        rw [← hlast, hserved.last, Function.update_of_ne hcc]

/-- **The step.** -/
theorem step_timely (hs : s.Timely timeout) (hstep : s.Step timeout s') : s'.Timely timeout := by
  have hinv := hstep.inv hs.inv
  cases hstep with
  | wait hbatch h => exact ⟨hinv, hs.clock, hs.failed, by rintro ⟨⟩⟩
  | accept hbatch hfd hr h => exact hs.accept hbatch hr h hinv
  | acceptDone hbatch => exact ⟨hinv, hs.clock, hs.failed, by rintro ⟨⟩⟩
  | dispatch hbatch hd h => exact hs.dispatch hbatch hd h hinv
  | @prune w clock hbatch hmono hclock h =>
    obtain ⟨closed, -, -, hlive, -, -, -, htime, hnow, -, hyoung⟩ := prune_frame hs.inv.world h
    have hlater : s.world.now ≤ w.now := by
      rw [hnow]
      exact hclock.trans (hmono (Nat.zero_le _))
    refine ⟨hinv, hs.clock.trans hlater, ?_, fun _ => ?_⟩
    · intro c hc hlast
      have hc : c ∈ w.alloc.live := hc
      rw [hlive] at hc
      change w.heap.activeTime c = 0
      rw [htime]
      exact hs.failed c (Finset.mem_sdiff.mp hc).1 hlast
    · intro c hc
      change w.now - w.heap.activeTime c < timeout
      rw [hnow, htime]
      exact hyoung c hc

theorem timely_of_run {s₀ : Server} (h₀ : s₀.Initial) (hclock : timeout ≤ s₀.world.now) (hrun : s₀.Run timeout s) :
    s.Timely timeout := by
  refine Simulation.invariant (Server.Timely timeout) (fun _ _ h hstep => step_timely h hstep) hrun ⟨h₀.inv, hclock, ?_, ?_⟩
  · rw [h₀.live]
    exact fun c hc => absurd hc (Finset.notMem_empty c)
  · rw [h₀.live]
    exact fun _ c hc => absurd hc (Finset.notMem_empty c)

/-- A connection that waits for an event is not at its end. -/
theorem Server.Timely.phase (hs : s.Timely timeout) (hreach : s.Reachable timeout) (hbatch : s.batch = none) {c : ConnPtr}
    (hc : c ∈ s.world.alloc.live) : s.last c ≠ some .error ∧ ((s.conns c).Reading ∨ (s.conns c).Sending) := by
  have hlast : s.last c ≠ some .error := by
    intro hlast
    have hwait := hs.waiting hbatch c hc
    rw [hs.failed c hc hlast] at hwait
    have hclock := hs.clock
    omega
  obtain ⟨nextFd, now, cs, hrun, hof⟩ := hreach.conn hc
  have hphase := run_phase hrun
  rw [ConnState.Phase, hof.conn, hof.lastResult] at hphase
  exact ⟨hlast, hphase.imp_right fun h => h.resolve_right fun h => hlast h.2⟩

/-- **Timeouts.**  If the clock has passed the timeout when the server starts, then in every state it reaches: when
`epoll_wait` is called, every connection has been idle for less than the timeout, its last result was not `ERROR`, and it is
reading a request or sending a response; and a connection is closed by no other step than `connection_prune`, when it has
been idle for the timeout. -/
theorem run_timely (timeout : ℤ) (s₀ s : Server) (h₀ : s₀.Initial) (hclock : timeout ≤ s₀.world.now)
    (hrun : s₀.Run timeout s) :
    (s.batch = none → ∀ c, s.world.heap.Holds c → s.world.now - s.world.heap.activeTime c < timeout ∧
      s.last c ≠ some .error ∧ ((s.conns c).Reading ∨ (s.conns c).Sending)) ∧
    ∀ s', s.Step timeout s' → ∀ c, s.world.heap.Holds c → ¬ s'.world.heap.Holds c →
      s.batch = some [] ∧ s'.world.now - s.world.heap.activeTime c ≥ timeout := by
  have hs := timely_of_run h₀ hclock hrun
  refine ⟨?_, ?_⟩
  · intro hbatch c hc
    have hc : c ∈ s.world.alloc.live := (hs.inv.world.valid.holds c).mpr hc
    exact ⟨hs.waiting hbatch c hc, hs.phase ⟨s₀, h₀, hrun⟩ hbatch hc⟩
  · intro s' hstep c hc hnot
    have hc : c ∈ s.world.alloc.live := (hs.inv.world.valid.holds c).mpr hc
    have hnot : c ∉ s'.world.alloc.live := fun hc' => hnot (((hstep.inv hs.inv).loop.world.valid.holds c).mp hc')
    cases hstep with
    | wait hbatch h => exact absurd hc hnot
    | @accept w events fd nextFd r o hbatch hfd hr h =>
      rcases hs.inv.accept hr h with ⟨rfl, hlive⟩ | ⟨c', rfl, -, hlive⟩
      · exact absurd (hlive ▸ hc) hnot
      · have hmem : c ∈ w.alloc.live := by
          rw [hlive]
          exact Finset.mem_insert_of_mem hc
        exact absurd hmem hnot
    | acceptDone hbatch => exact absurd hc hnot
    | @dispatch _ c' i o events d hbatch hd h =>
      rw [hs.inv.dispatch_alloc hbatch hd h] at hnot
      exact absurd hc hnot
    | @prune w clock hbatch hmono hclk h =>
      obtain ⟨closed, -, -, hlive, -, -, -, -, hnow, hdue, -⟩ := prune_frame hs.inv.world h
      refine ⟨hbatch, ?_⟩
      have hmem : c ∈ closed := by
        by_contra hmem
        refine hnot ?_
        change c ∈ w.alloc.live
        rw [hlive, Finset.mem_sdiff, List.mem_toFinset]
        exact ⟨hc, hmem⟩
      obtain ⟨i, hi⟩ := List.mem_iff_getElem?.mp hmem
      have hold := hdue i c hi
      have hle : clock i ≤ clock closed.length := hmono (List.getElem?_eq_some_iff.mp hi).1.le
      change w.now - s.world.heap.activeTime c ≥ timeout
      rw [hnow]
      omega

/-- The first connection has timed out at time 110. -/
theorem run_timely_first : ∃ s s' : Server, Server.first.Run 10 s ∧ s.Step 10 s' ∧ s.world.heap.Holds 4096 ∧
    ¬ s'.world.heap.Holds 4096 ∧ s.batch = some [] ∧ s'.world.now - s.world.heap.activeTime 4096 ≥ 10 := by
  obtain ⟨s, hrun, hbatch, hlive, -, htime, hnow, -⟩ := first_waits
  have hwait : s.Step 10 { s with batch := some [] } := by
    refine .wait hbatch ⟨?_, ?_, List.nodup_nil⟩ <;> intro c i o hmem <;> cases hmem
  have hrun₁ := hrun.tail hwait
  have hinv : ({ s with batch := some [] } : Server).Inv := Server.Reachable.inv ⟨Server.first, first_initial, hrun₁⟩
  have hclock : s.world.now ≤ 110 := by
    rw [hnow]
    decide
  obtain ⟨w, hprune, hw⟩ := prune_inv 10 hinv.world (show Monotone fun _ => 110 from fun _ _ _ => le_rfl) hclock
  have hstep : Server.Step 10 _ _ := .prune (s := { s with batch := some [] }) rfl (fun _ _ _ => le_rfl) hclock hprune
  have hholds : s.world.heap.Holds 4096 := live_holds (s := { s with batch := some [] }) hinv hlive
  have hgone : ¬ w.heap.Holds 4096 := by
    intro h
    obtain ⟨closed, -, -, -, -, -, -, -, -, -, hyoung⟩ := prune_frame hinv.world hprune
    have hlt := hyoung 4096 ((hw.valid.holds 4096).mpr h)
    change 110 - s.world.heap.activeTime 4096 < 10 at hlt
    omega
  refine ⟨_, _, hrun₁, hstep, hholds, hgone, ?_⟩
  exact (run_timely 10 Server.first _ first_initial (by decide) hrun₁).2 _ hstep 4096 hholds hgone

end Step

end Lotos
