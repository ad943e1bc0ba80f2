import Lotos.System.Defs

/-!
# Runs of the server

Every step keeps `Server.Inv`: the invariant of the loop, and the events still to be processed are on different connections
and report only bits of their masks.  What the handlers do on one connection does not reach the others, so a connection in
use goes through a run of its own (`System/Project`), and without its `Conn`s the server runs as the loop does.
-/

namespace Lotos

/-- The loop of the server, without what its connections hold. -/
def Server.loop (s : Server) : Loop := ⟨s.world, s.batch⟩

/-- The events that are still to be processed report only bits that are in the masks, each connection once. -/
structure Server.Pending (s : Server) : Prop where
  masked : ∀ c i o, .conn c i o ∈ s.batch.getD [] →
    (i = true → (s.conns c).epollIn = true) ∧ (o = true → (s.conns c).epollOut = true)
  once : ((s.batch.getD []).filterMap Event.conn?).Nodup

/-- The invariant of the server. -/
structure Server.Inv (s : Server) : Prop where
  loop : s.loop.Inv (some 1024)
  pending : s.Pending

theorem Server.Inv.world {s : Server} (h : s.Inv) : s.world.Inv (some 1024) := h.loop.world

/-! ### Dispatching -/

section Dispatch

variable {timeout : ℤ} {s s' : Server} {c : ConnPtr} {d : Service}

/-- What an event on a connection does when it has not expired: the handlers, one after the other, and what follows each of
them. -/
structure Served (s s' : Server) (c : ConnPtr) (d : Service) where
  st : Option Status
  conn : Conn
  st' : Option Status
  conn' : Conn
  world : World
  world' : World
  serveIn : (s.conns c).serveIn d.input = .ok (st, conn)
  handled : s.world.handled c d.inputNow st = .ok world
  serveOut : conn.serveOut d.output = (st', conn')
  handled' : world.handled c d.outputNow st' = .ok world'
  eq : s' = { s with
    world := world'
    conns := Function.update s.conns c conn'
    last := Function.update s.last c (st'.or (st.or (s.last c))) }

theorem handled_ok {now : ℤ} {st : Option Status} {conn : Conn} {w : World} (h : s.world.handled c now st = .ok w) :
    s.handled c now (st, conn) = .ok { s with
      world := w
      conns := Function.update s.conns c conn
      last := Function.update s.last c (st.or (s.last c)) } := by
  rw [Server.handled, h]

theorem handled_cases {now : ℤ} {st : Option Status} {conn : Conn} (h : s.handled c now (st, conn) = .ok s') :
    ∃ w, s.world.handled c now st = .ok w ∧ s' = { s with
      world := w
      conns := Function.update s.conns c conn
      last := Function.update s.last c (st.or (s.last c)) } := by
  rw [Server.handled] at h
  split at h
  · rename_i w hw
    exact ⟨w, hw, (Except.ok.inj h).symm⟩
  · cases h

/-- **What an event on a connection does.** -/
theorem dispatch_cases (h : s.dispatch timeout c d = .ok s') :
    (d.now - s.world.heap.activeTime c > timeout ∧ s' = { s with world := { s.world with now := d.now } }) ∨
    (d.now - s.world.heap.activeTime c ≤ timeout ∧ Nonempty (Served s s' c d)) := by
  rw [Server.dispatch] at h
  by_cases hexp : d.now - s.world.heap.activeTime c > timeout
  · rw [if_pos hexp] at h
    exact .inl ⟨hexp, (Except.ok.inj h).symm⟩
  rw [if_neg hexp] at h
  refine .inr ⟨not_lt.mp hexp, ?_⟩
  split at h
  · cases h
  rename_i res hin
  obtain ⟨st, conn⟩ := res
  split at h
  · cases h
  rename_i s₁ hs₁
  obtain ⟨w, hw, rfl⟩ := handled_cases hs₁
  rcases hout : conn.serveOut d.output with ⟨st', conn'⟩
  simp only [Function.update_self, hout] at h
  obtain ⟨w', hw', rfl⟩ := handled_cases h
  refine ⟨⟨st, conn, st', conn', w, w', hin, hw, hout, hw', ?_⟩⟩
  simp only [Function.update_idem, Function.update_self]

theorem Served.dispatch (h : Served s s' c d) (hexp : d.now - s.world.heap.activeTime c ≤ timeout) :
    s.dispatch timeout c d = .ok s' := by
  rw [Server.dispatch, if_neg (not_lt.mpr hexp), h.serveIn]
  simp only
  rw [handled_ok h.handled]
  simp only [Function.update_self]
  rw [h.serveOut, handled_ok h.handled']
  simp only [Function.update_idem, Function.update_self]
  rw [← h.eq]

theorem Served.conns (h : Served s s' c d) : s'.conns = Function.update s.conns c h.conn' := congrArg Server.conns h.eq

theorem Served.last (h : Served s s' c d) : s'.last = Function.update s.last c (h.st'.or (h.st.or (s.last c))) :=
  congrArg Server.last h.eq

theorem Served.world_eq (h : Served s s' c d) : s'.world = h.world' := congrArg Server.world h.eq

theorem serveIn_isSome {conn conn' : Conn} {input : Option (Env × List RecvResult)} {st : Option Status}
    (h : conn.serveIn input = .ok (st, conn')) : st.isSome = input.isSome := by
  rcases input with _ | ⟨env, recvs⟩
  · obtain ⟨rfl, -⟩ := Prod.mk.inj (Except.ok.inj h)
    rfl
  · simp only [Conn.serveIn] at h
    split at h
    · obtain ⟨rfl, -⟩ := Prod.mk.inj (Except.ok.inj h)
      rfl
    · cases h

theorem serveOut_isSome {conn conn' : Conn} {output : Option (List SendResult × List SendResult)} {st : Option Status}
    (h : conn.serveOut output = (st, conn')) : st.isSome = output.isSome := by
  rcases output with _ | ⟨sends, files⟩ <;> obtain ⟨rfl, -⟩ := Prod.mk.inj h <;> rfl

/-- The loop takes the results that the handlers have. -/
def Served.results (h : Served s s' c d) : Dispatch := ⟨d.now, h.st, d.inputNow, h.st', d.outputNow⟩

/-- **An event on a connection is one of the loop.** -/
theorem dispatch_loop {i o : Bool} (h : s.dispatch timeout c d = .ok s') (hd : d.Possible s.world i o) :
    s'.batch = s.batch ∧ ∃ d' : Dispatch, d'.Possible s.world i o ∧ s.world.dispatch timeout c d' = .ok s'.world := by
  rcases dispatch_cases h with ⟨hexp, rfl⟩ | ⟨hexp, ⟨hserved⟩⟩
  · refine ⟨rfl, ⟨d.now, d.input.map fun _ => .ok, d.inputNow, d.output.map fun _ => .ok, d.outputNow⟩,
      ⟨hd.clock, ?_, ?_⟩, ?_⟩
    · rw [← hd.input, Option.isSome_map]
    · rw [← hd.output, Option.isSome_map]
    · rw [World.dispatch, if_pos hexp]
  · refine ⟨by rw [hserved.eq], hserved.results, ⟨hd.clock, ?_, ?_⟩, ?_⟩
    · exact (serveIn_isSome hserved.serveIn).trans hd.input
    · exact (serveOut_isSome hserved.serveOut).trans hd.output
    · rw [World.dispatch, Served.results, if_neg (not_lt.mpr hexp)]
      simp only
      rw [hserved.handled]
      simp only
      rw [hserved.handled']
      rw [hserved.world_eq]

theorem dispatch_alloc {capacity : Option ℕ} {i o : Bool} (hw : s.world.Inv capacity) (hc : c ∈ s.world.alloc.live)
    (h : s.dispatch timeout c d = .ok s') (hd : d.Possible s.world i o) : s'.world.alloc = s.world.alloc := by
  obtain ⟨-, d', hd', hdisp⟩ := dispatch_loop h hd
  obtain ⟨w', hok, -, halloc⟩ := dispatch_inv timeout hw hc hd'
  rw [Except.ok.inj (hdisp.symm.trans hok), halloc]

/-- An event on a connection leaves the others alone. -/
theorem dispatch_other (h : s.dispatch timeout c d = .ok s') {c' : ConnPtr} (hne : c' ≠ c) :
    s'.conns c' = s.conns c' ∧ s'.last c' = s.last c' := by
  rcases dispatch_cases h with ⟨-, rfl⟩ | ⟨-, ⟨hserved⟩⟩
  · exact ⟨rfl, rfl⟩
  · rw [hserved.conns, hserved.last]
    exact ⟨Function.update_of_ne hne _ _, Function.update_of_ne hne _ _⟩

end Dispatch

/-! ### The invariant -/

section Step

variable {timeout : ℤ} {s s' : Server}

theorem Server.Step.loop (hs : s.Step timeout s') : Loop.Step timeout (fun _ _ => True) s.loop s'.loop := by
  cases hs with
  | @wait events hbatch h =>
    simp only [Server.loop, hbatch]
    exact .wait h.registered
  | @accept w events fd nextFd r c hbatch hfd hr h =>
    have hloop : (s.accepted w nextFd c).loop = ⟨w, some (.listen :: events)⟩ := by
      cases c <;> simp only [Server.loop, Server.accepted, hbatch]
    rw [hloop, Server.loop, hbatch]
    exact .accept hfd hr trivial h
  | acceptDone hbatch =>
    simp only [Server.loop, hbatch]
    exact .accepted
  | @dispatch _ c i o events d hbatch hd h =>
    obtain ⟨hrest, d', hd', hdisp⟩ := dispatch_loop h hd
    simp only [Server.loop, hbatch, hrest]
    exact .dispatch hd' hdisp
  | prune hbatch hmono hclock h =>
    simp only [Server.loop, hbatch]
    exact .prune hmono hclock h

/-- With the pool the heap is never full. -/
theorem World.Inv.room {w : World} (hw : w.Inv (some 1024)) : w.heap.heapSize < maxConnection := by
  obtain ⟨p, -, -, hsize, hle⟩ := hw.pool
  have hmax : 1024 < maxConnection := by decide
  omega

theorem Server.Inv.accept {w : World} {fd : ℕ} {r : AcceptResults} {c : Option ConnPtr} (hs : s.Inv)
    (hr : r.Possible s.world)
    (h : connectionAccept { s.world with openFds := insert fd s.world.openFds } fd r = .ok (c, w)) :
    (c = none ∧ w.alloc.live = s.world.alloc.live) ∨
      ∃ c', c = some c' ∧ c' ∉ s.world.alloc.live ∧ w.alloc.live = insert c' s.world.alloc.live := by
  rcases connectionAccept_spec fd (hs.world.setOpenFds (insert fd s.world.openFds)) (hr.setOpenFds _) with
    ⟨-, a, hok, -, hlive, -⟩ | ⟨-, -, -, c', w', hok, -, hnew, hlive, -⟩ | ⟨-, -, -, w', hok, -, hlive, -⟩ | ⟨-, hfull, -⟩
  · cases h.symm.trans hok
    exact .inl ⟨rfl, hlive⟩
  · cases h.symm.trans hok
    exact .inr ⟨c', rfl, hnew, hlive⟩
  · cases h.symm.trans hok
    exact .inl ⟨rfl, hlive⟩
  · exact absurd hs.world.room hfull

theorem Server.Pending.tail {e : Event} {events : List Event} (h : s.Pending) (hbatch : s.batch = some (e :: events)) :
    ({ s with batch := some events } : Server).Pending := by
  obtain ⟨hmasked, honce⟩ := h
  rw [hbatch] at hmasked honce
  refine ⟨fun c i o hmem => hmasked c i o (List.mem_cons_of_mem _ hmem), ?_⟩
  cases e with
  | listen => exact honce
  | conn c i o => exact (List.nodup_cons.mp honce).2

theorem Server.Pending.notMem {c : ConnPtr} {i o : Bool} {events : List Event} (h : s.Pending)
    (hbatch : s.batch = some (.conn c i o :: events)) {c' : ConnPtr} {i' o' : Bool} (hmem : .conn c' i' o' ∈ events) :
    c' ≠ c := by
  have honce := h.once
  rw [hbatch] at honce
  rintro rfl
  exact (List.nodup_cons.mp honce).1 (List.mem_filterMap.mpr ⟨_, hmem, rfl⟩)

theorem next_mem {e : Event} {events : List Event} (hbatch : s.batch = some (e :: events)) : e ∈ s.batch.getD [] := by
  rw [hbatch]
  exact List.mem_cons_self

theorem Server.Inv.live (hs : s.Inv) {c : ConnPtr} {i o : Bool} {events : List Event}
    (hbatch : s.batch = some (.conn c i o :: events)) : c ∈ s.world.alloc.live :=
  hs.loop.batch c i o (next_mem hbatch)

theorem Server.Inv.dispatch_alloc (hs : s.Inv) {c : ConnPtr} {i o : Bool} {events : List Event} {d : Service}
    (hbatch : s.batch = some (.conn c i o :: events)) (hd : d.Possible s.world i o)
    (h : { s with batch := some events }.dispatch timeout c d = .ok s') : s'.world.alloc = s.world.alloc :=
  Lotos.dispatch_alloc (s := { s with batch := some events }) hs.world (hs.live hbatch) h hd

/-- **The step.** -/
theorem Server.Step.inv (hstep : s.Step timeout s') (hs : s.Inv) : s'.Inv := by
  refine ⟨hstep.loop.inv hs.loop fun _ _ _ => hs.world.room, ?_⟩
  cases hstep with
  | wait hbatch h => exact ⟨h.masked, h.once⟩
  | @accept w events fd nextFd r c hbatch hfd hr h =>
    rcases hs.accept hr h with ⟨rfl, -⟩ | ⟨c', rfl, hnew, -⟩
    · exact ⟨hs.pending.masked, hs.pending.once⟩
    · refine ⟨?_, hs.pending.once⟩
      intro c i o hmem
      have hne : c ≠ c' := by
        rintro rfl
        exact hnew (hs.loop.batch c i o hmem)
      have hsame : (s.accepted w nextFd (some c')).conns c = s.conns c := Function.update_of_ne hne _ _
      rw [hsame]
      exact hs.pending.masked c i o hmem
  | acceptDone hbatch => exact hs.pending.tail hbatch
  | @dispatch _ c i o events d hbatch hd h =>
    have htail := hs.pending.tail hbatch
    have hsame : s'.batch = some events := (dispatch_loop h hd).1
    refine ⟨?_, by rw [hsame]; exact htail.once⟩
    intro c' i' o' hmem
    rw [hsame] at hmem
    rw [(dispatch_other h (hs.pending.notMem hbatch hmem)).1]
    exact htail.masked c' i' o' hmem
  | prune hbatch hmono hclock h => exact ⟨fun c i o hmem => absurd hmem List.not_mem_nil, List.nodup_nil⟩

theorem Server.Initial.loop (h : s.Initial) : ∃ blocks size, s.world.alloc = .pool (poolCreate blocks 1024 size) ∧
    s.loop = Loop.start s.world.alloc s.world.heap.lotosConnections s.world.heap.activeTime s.world.heap.heapIdx
      s.world.connFd s.world.openFds s.world.now := by
  obtain ⟨blocks, size, hpool⟩ := h.pool
  obtain ⟨w, conns, last, batch⟩ := s
  obtain ⟨⟨lotosConnections, heapSize, activeTime, heapIdx⟩, alloc, connFd, openFds, epoll, now⟩ := w
  obtain ⟨-, rfl, rfl, -, rfl⟩ := h
  exact ⟨blocks, size, hpool, rfl⟩

theorem Server.Initial.live (h : s.Initial) : s.world.alloc.live = ∅ := by
  obtain ⟨blocks, size, hpool⟩ := h.pool
  rw [hpool]
  rfl

theorem Server.Initial.inv (h : s.Initial) : s.Inv := by
  obtain ⟨blocks, size, hpool, hloop⟩ := h.loop
  refine ⟨?_, ?_, ?_⟩
  · have hvalid : (Allocator.pool (poolCreate blocks 1024 size)).Valid := poolCreate_valid blocks size (by decide)
    rw [hloop, hpool]
    exact Loop.start_inv hvalid rfl _ _ _ _ _ h.clock
  · rw [h.batch]
    exact fun c i o hmem => absurd hmem List.not_mem_nil
  · rw [h.batch]
    exact List.nodup_nil

theorem Server.Reachable.inv (h : s.Reachable timeout) : s.Inv := by
  obtain ⟨s₀, hinit, hrun⟩ := h
  exact Simulation.invariant Server.Inv (fun _ _ h hstep => hstep.inv h) hrun hinit.inv

end Step

end Lotos
