import Lotos.Loop.Frame
import Lotos.System.Run

/-!
# The connections of the server

A connection in use is, at every moment of a run of the server, in a state that a run of `Server/Defs` leads to: a run of
that connection alone, from `connection_accept` on.  The other connections, the heap and the clock show in it only as the
moments at which its events are dispatched, and whether it has expired by then.
-/

namespace Lotos

/-! ### One event -/

/-- The state of a connection, as far as its handlers go, is one of a run of the connection alone. -/
structure OfState (x : Conn × Option Status) (cs : ConnState) : Prop where
  conn : cs.conn = x.1
  lastResult : cs.lastResult = x.2
  open_ : cs.closed = false

section Serve

variable {conn : Conn} {input : Option (Env × List RecvResult)} {st : Option Status} {cs : ConnState}

theorem input_serveIn (now : ℤ) {env : Env} {recvs : List RecvResult}
    (h : cs.conn.serveIn (some (env, recvs)) = .ok (st, conn)) :
    ∃ st', st = some st' ∧ cs.input now env recvs = .ok (cs.finish now (st', conn)) := by
  simp only [Conn.serveIn] at h
  unfold ConnState.input
  split at h
  · rename_i st' c' hres
    obtain ⟨rfl, rfl⟩ := Prod.mk.inj (Except.ok.inj h)
    exact ⟨st', rfl, by rw [hres]⟩
  · cases h

/-- An event that has been served, on the connection alone; the time is one at which it has not expired. -/
theorem apply_serve (timeout : ℤ) (hopen : cs.closed = false) {output : Option (List SendResult × List SendResult)}
    {st' : Option Status} {conn' : Conn} (hin : cs.conn.serveIn input = .ok (st, conn))
    (hout : conn.serveOut output = (st', conn')) :
    ∃ cs', cs.apply timeout (.event (cs.activeTime + timeout) input output) = .ok cs' ∧
      OfState (conn', st'.or (st.or cs.lastResult)) cs' := by
  have hexp : ¬ cs.activeTime + timeout - cs.activeTime > timeout := by omega
  simp only [ConnState.apply, hexp, if_false]
  rcases input with _ | ⟨env, recvs⟩ <;> rcases output with _ | ⟨sends, files⟩
  · obtain ⟨rfl, rfl⟩ := Prod.mk.inj (Except.ok.inj hin)
    obtain ⟨rfl, rfl⟩ := Prod.mk.inj hout
    exact ⟨cs, rfl, rfl, rfl, hopen⟩
  · obtain ⟨rfl, rfl⟩ := Prod.mk.inj (Except.ok.inj hin)
    obtain ⟨rfl, rfl⟩ := Prod.mk.inj hout
    exact ⟨_, rfl, rfl, rfl, hopen⟩
  · obtain ⟨st₁, rfl, hinput⟩ := input_serveIn (cs.activeTime + timeout) hin
    obtain ⟨rfl, rfl⟩ := Prod.mk.inj hout
    simp only [hinput]
    exact ⟨_, rfl, rfl, rfl, hopen⟩
  · obtain ⟨st₁, rfl, hinput⟩ := input_serveIn (cs.activeTime + timeout) hin
    obtain ⟨rfl, rfl⟩ := Prod.mk.inj hout
    simp only [hinput]
    exact ⟨_, rfl, rfl, rfl, hopen⟩

end Serve

/-! ### Runs -/

/-- The connection at an address, if it is in use. -/
noncomputable def Server.view (s : Server) (c : ConnPtr) : Option (Conn × Option Status) :=
  if c ∈ s.world.alloc.live then some (s.conns c, s.last c) else none

/-- A connection that has just been accepted. -/
def Accepted (cs : ConnState) : Prop := ∃ nextFd now, cs = .accept nextFd now

section Runs

variable {timeout : ℤ} {s s' : Server}

theorem view_live {c : ConnPtr} (h : c ∈ s.world.alloc.live) : s.view c = some (s.conns c, s.last c) := if_pos h

/-- A step on a connection of its own, for one that stays in use. -/
abbrev ViewStep (timeout : ℤ) : Option (Conn × Option Status) → Option (Conn × Option Status) → Prop :=
  Simulation.ComponentStep OfState Accepted (Step timeout anyStep)

/-- The connections that a step does not serve are left as they are, or closed. -/
theorem view_idle {c : ConnPtr} (hlive : s'.world.alloc.live ⊆ s.world.alloc.live) (hconn : s'.conns c = s.conns c)
    (hlast : s'.last c = s.last c) : ViewStep timeout (s.view c) (s'.view c) := by
  by_cases hc : c ∈ s'.world.alloc.live
  · have hsame : s'.view c = s.view c := by rw [view_live hc, view_live (hlive hc), hconn, hlast]
    rw [hsame]
    exact .refl _
  · rw [show s'.view c = none from if_neg hc]
    exact .gone

theorem view_dispatch {c : ConnPtr} {d : Service} (hc : c ∈ s.world.alloc.live)
    (hmask : (d.input ≠ none → (s.conns c).epollIn = true) ∧ (d.output ≠ none → (s.conns c).epollOut = true))
    (h : s.dispatch timeout c d = .ok s') (hlive : s'.world.alloc.live = s.world.alloc.live) :
    ViewStep timeout (s.view c) (s'.view c) := by
  rcases dispatch_cases h with ⟨-, rfl⟩ | ⟨-, ⟨hserved⟩⟩
  · exact view_idle hlive.le rfl rfl
  · rw [view_live hc, view_live (by rw [hlive]; exact hc)]
    refine .run ?_
    rintro cs ⟨hconn, hlast, hopen⟩
    obtain ⟨cs', happly, hof⟩ := apply_serve timeout hopen (by rw [hconn]; exact hserved.serveIn) hserved.serveOut
    have hen : (Action.event (cs.activeTime + timeout) d.input d.output).Enabled timeout cs := by
      refine ⟨hopen, ?_, ?_⟩
      · rw [hconn]
        exact hmask.1
      · rw [hconn]
        exact hmask.2
    refine ⟨cs', .single ⟨_, hen, trivial, happly⟩, ?_⟩
    rw [hserved.conns, hserved.last, Function.update_self, Function.update_self]
    rw [hlast] at hof
    exact hof

theorem accepted_self (s : Server) (w : World) (nextFd : ℕ) (c : ConnPtr) :
    (s.accepted w nextFd (some c)).conns c = (ConnState.accept nextFd w.now).conn ∧
      (s.accepted w nextFd (some c)).last c = none :=
  ⟨Function.update_self _ _ _, Function.update_self _ _ _⟩

/-- `connection_accept` makes a connection, or leaves it as it is. -/
theorem accepted_conn (hs : s.Inv) {w : World} {fd : ℕ} (nextFd : ℕ) {r : AcceptResults} {c₁ : Option ConnPtr}
    (hr : r.Possible s.world)
    (h : connectionAccept { s.world with openFds := insert fd s.world.openFds } fd r = .ok (c₁, w)) {c : ConnPtr}
    (hc : c ∈ w.alloc.live) : c ∈ s.world.alloc.live ∧ (s.accepted w nextFd c₁).conns c = s.conns c ∨
      c ∉ s.world.alloc.live ∧ (s.accepted w nextFd c₁).conns c = (ConnState.accept nextFd w.now).conn := by
  rcases hs.accept hr h with ⟨rfl, hlive⟩ | ⟨c', rfl, hnew, hlive⟩
  · exact .inl ⟨hlive ▸ hc, rfl⟩
  · by_cases heq : c = c'
    · subst heq
      exact .inr ⟨hnew, (accepted_self s w nextFd c).1⟩
    · rw [hlive, Finset.mem_insert] at hc
      exact .inl ⟨hc.resolve_left heq, Function.update_of_ne heq _ _⟩

/-- **The step, for every connection.** -/
theorem step_view (hs : s.Inv) (hstep : s.Step timeout s') (c : ConnPtr) : ViewStep timeout (s.view c) (s'.view c) := by
  cases hstep with
  | wait hbatch h => exact view_idle subset_rfl rfl rfl
  | @accept w events fd nextFd r c₁ hbatch hfd hr h =>
    rcases hs.accept hr h with ⟨rfl, hlive⟩ | ⟨c', rfl, hnew, hlive⟩
    · exact view_idle hlive.le rfl rfl
    · by_cases hc : c = c'
      · subst hc
        have hmem : c ∈ w.alloc.live := by
          rw [hlive]
          exact Finset.mem_insert_self _ _
        rw [view_live (s := s.accepted w nextFd (some c)) hmem]
        obtain ⟨hconn, hlast⟩ := accepted_self s w nextFd c
        rw [hconn, hlast]
        exact .start ⟨nextFd, w.now, rfl⟩ ⟨rfl, rfl, rfl⟩
      · have hsame : (s.accepted w nextFd (some c')).view c = s.view c := by
          have hconn : (s.accepted w nextFd (some c')).conns c = s.conns c := Function.update_of_ne hc _ _
          have hlast : (s.accepted w nextFd (some c')).last c = s.last c := Function.update_of_ne hc _ _
          have hiff : c ∈ (s.accepted w nextFd (some c')).world.alloc.live ↔ c ∈ s.world.alloc.live := by
            change c ∈ w.alloc.live ↔ _
            rw [hlive, Finset.mem_insert, or_iff_right hc]
          simp only [Server.view, hconn, hlast, hiff]
        rw [hsame]
        exact .refl _
  | acceptDone hbatch => exact view_idle subset_rfl rfl rfl
  | @dispatch _ c₁ i o events d hbatch hd h =>
    have hlive₁ : c₁ ∈ s.world.alloc.live := hs.live hbatch
    have hlive : s'.world.alloc.live = s.world.alloc.live := congrArg Allocator.live (hs.dispatch_alloc hbatch hd h)
    by_cases hc : c = c₁
    · subst hc
      obtain ⟨hin, hout⟩ := hs.pending.masked c i o (next_mem hbatch)
      refine view_dispatch (s := { s with batch := some events }) hlive₁ ⟨?_, ?_⟩ h hlive
      · intro hne
        exact hin (by rw [← hd.input]; exact Option.isSome_iff_ne_none.mpr hne)
      · intro hne
        exact hout (by rw [← hd.output]; exact Option.isSome_iff_ne_none.mpr hne)
    · obtain ⟨hconn, hlast⟩ := dispatch_other h hc
      exact view_idle hlive.le hconn hlast
  | @prune w clock hbatch hmono hclock h =>
    exact view_idle (prune_live hs.world h) rfl rfl

theorem Server.Reachable.conn (h : s.Reachable timeout) {c : ConnPtr} (hc : c ∈ s.world.alloc.live) :
    ∃ nextFd now cs, Lotos.Run timeout anyStep (.accept nextFd now) cs ∧ OfState (s.conns c, s.last c) cs := by
  obtain ⟨s₀, hinit, hrun⟩ := h
  obtain ⟨_, cs, ⟨nextFd, now, rfl⟩, hrun', hof⟩ := Simulation.reached_of_run Server.view Server.Inv
    (fun _ _ h hstep => hstep.inv h) (fun _ _ h hstep _ => step_view h hstep) hrun hinit.inv
    (fun i a hview => by
      rw [show s₀.view i = none from if_neg (by rw [hinit.live]; exact Finset.notMem_empty i)] at hview
      cases hview) c _ (view_live hc)
  exact ⟨nextFd, now, cs, hrun', hof⟩

/-- **The server is the loop over its connections.**  What the server reaches is, without the requests, reached by the loop
on the heap and the pool; and every connection in use is in a state that is reached by a run of that connection alone, with
its last result. -/
theorem run_refines (timeout : ℤ) (s : Server) (hs : s.Reachable timeout) :
    (∃ blocks size lotosConnections activeTime heapIdx connFd openFds now, Loop.Run timeout (fun _ _ => True)
      (Loop.start (.pool (poolCreate blocks 1024 size)) lotosConnections activeTime heapIdx connFd openFds now)
      ⟨s.world, s.batch⟩) ∧
    ∀ c, s.world.heap.Holds c → ∃ nextFd now cs, Lotos.Run timeout anyStep (.accept nextFd now) cs ∧ cs.conn = s.conns c ∧
      cs.lastResult = s.last c ∧ cs.closed = false := by
  refine ⟨?_, ?_⟩
  · obtain ⟨s₀, hinit, hrun⟩ := hs
    obtain ⟨blocks, size, hpool, hloop⟩ := hinit.loop
    have hlift : Loop.Run timeout (fun _ _ => True) s₀.loop s.loop := hrun.lift Server.loop fun _ _ hstep => hstep.loop
    rw [hpool] at hloop
    rw [hloop] at hlift
    exact ⟨blocks, size, _, _, _, _, _, _, hlift⟩
  · intro c hc
    obtain ⟨nextFd, now, cs, hrun, hof⟩ := hs.conn ((hs.inv.world.valid.holds c).mpr hc)
    exact ⟨nextFd, now, cs, hrun, hof.conn, hof.lastResult, hof.open_⟩

end Runs

/-! ### The first connection -/

/-- The server before its first connection. -/
def Server.first : Server := ⟨Loop.firstPool.world, fun _ => (ConnState.accept 0 0).conn, fun _ => none, none⟩

theorem first_initial : Server.first.Initial := ⟨⟨4096, 400, rfl⟩, rfl, rfl, by decide, rfl⟩

/-- The call of `connection_accept` for the first connection. -/
def firstAccept : Except AssertFailure (Option ConnPtr × World) :=
  connectionAccept { Server.first.world with openFds := insert 5 Server.first.world.openFds } 5
    ⟨none, true, true, 100, none, true⟩

theorem firstAccept_eq : firstAccept.toOption.map (fun x => (x.1, x.2.alloc.live, x.2.now)) =
    some (some 4096, {4096}, 100) := by
  decide +kernel

theorem firstPrune_eq : (firstAccept >>= fun x => x.2.prune 10 fun _ => 100).toOption.map (fun w =>
    (w.alloc.live, w.epoll, w.heap.activeTime 4096, w.now)) = some ({4096}, {4096}, 100, 100) := by
  decide +kernel

theorem first_accept_ok : ∃ w, firstAccept = .ok (some 4096, w) ∧ w.alloc.live = {4096} ∧ w.now = 100 ∧
    ∃ w', w.prune 10 (fun _ => 100) = .ok w' ∧ w'.alloc.live = {4096} ∧ w'.epoll = {4096} ∧ w'.heap.activeTime 4096 = 100 ∧
      w'.now = 100 := by
  have haccept := firstAccept_eq
  have hprune := firstPrune_eq
  cases hok : firstAccept with
  | error e =>
    rw [hok] at haccept
    cases haccept
  | ok x =>
    obtain ⟨c, w⟩ := x
    rw [hok] at haccept hprune
    simp only [Except.toOption, Option.map_some, Option.some.injEq, Prod.mk.injEq] at haccept
    obtain ⟨rfl, hlive, hnow⟩ := haccept
    refine ⟨w, rfl, hlive, hnow, ?_⟩
    change (w.prune 10 fun _ => 100).toOption.map _ = _ at hprune
    cases hw : w.prune 10 fun _ => 100 with
    | error e =>
      rw [hw] at hprune
      cases hprune
    | ok w' =>
      rw [hw] at hprune
      simp only [Except.toOption, Option.map_some, Option.some.injEq, Prod.mk.injEq] at hprune
      exact ⟨w', rfl, hprune⟩

/-- The first connection is made, and waits for its request when `epoll_wait` is called again. -/
theorem first_quiet : ∃ s : Server, Relation.ReflTransGen (Server.Quiet 10) Server.first s ∧ s.batch = none ∧
    s.world.alloc.live = {4096} ∧ s.world.epoll = {4096} ∧ s.world.heap.activeTime 4096 = 100 ∧ s.world.now = 100 ∧
    s.conns 4096 = (ConnState.accept 7 100).conn ∧ s.last 4096 = none := by
  obtain ⟨w, haccept, -, hw, w', hprune, hlive, hepoll, htime, hnow⟩ := first_accept_ok
  have hwait : Server.first.Step 10 { Server.first with batch := some [.listen] } := by
    refine .wait rfl ⟨?_, ?_, List.nodup_nil⟩ <;> intro c i o hmem <;> cases List.mem_singleton.mp hmem
  have hok : ({ Server.first with batch := some [.listen] } : Server).Step 10
      (({ Server.first with batch := some [.listen] } : Server).accepted w 7 (some 4096)) :=
    .accept rfl (show 5 ∉ _ by decide) ⟨le_rfl, by rintro c ⟨⟩⟩ haccept
  have hdone : Server.Step 10 _ _ := .acceptDone (s := ({ Server.first with batch := some [.listen] } : Server).accepted w 7
    (some 4096)) rfl
  have hend : Server.Step 10 _ _ := .prune (s := { ({ Server.first with batch := some [.listen] } : Server).accepted w 7
    (some 4096) with batch := some [] }) rfl (fun _ _ _ => le_rfl) hw.le hprune
  refine ⟨_, (((Relation.ReflTransGen.single ⟨?_, hwait⟩).tail ⟨?_, hok⟩).tail ⟨?_, hdone⟩).tail ⟨?_, hend⟩, rfl, hlive,
    hepoll, htime, hnow, accepted_self { Server.first with batch := some [.listen] } w 7 4096⟩
  all_goals rintro c i o events ⟨⟩

theorem first_waits : ∃ s : Server, Server.first.Run 10 s ∧ s.batch = none ∧ s.world.alloc.live = {4096} ∧
    s.world.epoll = {4096} ∧ s.world.heap.activeTime 4096 = 100 ∧ s.world.now = 100 ∧
    s.conns 4096 = (ConnState.accept 7 100).conn ∧
    s.last 4096 = none := by
  obtain ⟨s, hrun, hs⟩ := first_quiet
  exact ⟨s, hrun.lift id fun _ _ h => h.2, hs⟩

theorem live_holds {s : Server} {c : ConnPtr} (hinv : s.Inv) (hlive : s.world.alloc.live = {c}) : s.world.heap.Holds c := by
  refine (hinv.world.valid.holds c).mp ?_
  rw [hlive]
  exact Finset.mem_singleton_self _

/-- The first connection, when it waits for its request. -/
theorem run_refines_first : ∃ s : Server, s.Reachable 10 ∧ s.world.heap.Holds 4096 ∧
    ∃ nextFd now cs, Run 10 anyStep (.accept nextFd now) cs ∧ cs.conn = s.conns 4096 ∧ cs.lastResult = s.last 4096 ∧
      cs.closed = false := by
  obtain ⟨s, hrun, -, hlive, -⟩ := first_waits
  have hreach : s.Reachable 10 := ⟨Server.first, first_initial, hrun⟩
  have hholds := live_holds hreach.inv hlive
  exact ⟨s, hreach, hholds, (run_refines 10 s hreach).2 4096 hholds⟩

end Lotos
