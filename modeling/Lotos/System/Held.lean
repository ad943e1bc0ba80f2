import Lotos.Server.Held
import Lotos.System.Stops

/-!
# The server with the buffers in memory

`HeldServer` is the server with the blocks of its connections.  A connection that `connection_accept` makes gets two blocks
of `buffer_init`; an event on a connection calls the handlers in memory; and `connection_close` frees the blocks that `r->ib`
and `r->ob` have, so that a dangling handle would be freed once more.

As long as no append moves a block under a handle that is still used, on any connection, the server runs as it does on lists
(`HeldServer.Reachable.project`), and `held_stops` says what stops a worker.
-/

namespace Lotos

structure HeldServer where
  server : Server
  bufs : ConnPtr → Buffers

def HeldServer.held (s : HeldServer) (c : ConnPtr) : HeldConn := ⟨s.server.conns c, s.bufs c⟩

inductive HeldStop where
  | assertion (e : AssertFailure)
  | fault (e : HeldFault)

def Stop.held : Stop → HeldStop
  | .assertion e => .assertion e
  | .fault e => .fault (.fault e)

/-- The branch of `EPOLLIN`: the result of `request_handle`, if it is called. -/
def HeldConn.serveIn (al : Allocs) (x : HeldConn) :
    Option (Env × List RecvResult) → Except HeldFault (Option Status × HeldConn)
  | none => .ok (none, x)
  | some (env, recvs) =>
    match x.requestHandle env recvs al with
    | .ok (st, y) => .ok (some st, y)
    | .error e => .error e

/-- The branch of `EPOLLOUT`: the result of `response_handle`, if it is called. -/
def HeldConn.serveOut (x : HeldConn) :
    Option (List SendResult × List SendResult) → Except HeldFault (Option Status × HeldConn)
  | none => .ok (none, x)
  | some (sends, files) =>
    match x.responseHandle sends files with
    | .ok (st, y) => .ok (some st, y)
    | .error e => .error e

/-- What follows a handler. -/
def HeldServer.handled (s : HeldServer) (c : ConnPtr) (now : ℤ) (res : Option Status × HeldConn) :
    Except HeldStop HeldServer :=
  match s.server.handled c now (res.1, res.2.conn) with
  | .ok server => .ok ⟨server, Function.update s.bufs c res.2.bufs⟩
  | .error e => .error e.held

/-- The body of the loop over the events, for an event on a connection. -/
def HeldServer.dispatch (timeout : ℤ) (s : HeldServer) (c : ConnPtr) (d : Service) (al : Allocs) :
    Except HeldStop HeldServer :=
  -- `connecion_is_expired`
  if d.now - s.server.world.heap.activeTime c > timeout then
    .ok { s with server := { s.server with world := { s.server.world with now := d.now } } }
  else
    match (s.held c).serveIn al d.input with
    | .error e => .error (.fault e)
    | .ok res =>
      match s.handled c d.inputNow res with
      | .error e => .error e
      | .ok s =>
        match (s.held c).serveOut d.output with
        | .error e => .error (.fault e)
        | .ok res => s.handled c d.outputNow res

/-- A condition on the calls on the buffers for an event on a connection. -/
def HeldServer.All (cond : Buffers → BufferCall → Prop) (timeout : ℤ) (s : HeldServer) (c : ConnPtr) (d : Service)
    (al : Allocs) : Prop :=
  d.now - s.server.world.heap.activeTime c ≤ timeout →
    ∀ env recvs, d.input = some (env, recvs) → (s.held c).AllIn cond env recvs al

/-- What `recv` and `realloc` can answer. -/
def HeldServer.Possible (timeout : ℤ) (s : HeldServer) (c : ConnPtr) (d : Service) (al : Allocs) : Prop :=
  s.All (fun bufs call => call.Possible bufs) timeout c d al

/-- No block is moved under a handle that is still used. -/
def HeldServer.Keeps (timeout : ℤ) (s : HeldServer) (c : ConnPtr) (d : Service) (al : Allocs) : Prop :=
  s.All (fun bufs call => call.Keeps bufs) timeout c d al

/-- The blocks after a step that calls no handler: those of a connection that is made are new, and those of one that is
closed are freed. -/
structure HeldServer.Carries (s : HeldServer) (server : Server) (bufs : ConnPtr → Buffers) : Prop where
  stays : ∀ c ∈ server.world.alloc.live, c ∈ s.server.world.alloc.live → bufs c = s.bufs c
  new : ∀ c ∈ server.world.alloc.live, c ∉ s.server.world.alloc.live → (bufs c).New
  freed : ∀ c ∈ s.server.world.alloc.live, c ∉ server.world.alloc.live → (s.bufs c).free = .ok (bufs c)

/-- A step of the server, under a condition on the events that are dispatched. -/
inductive HeldServer.Step (timeout : ℤ) (cond : HeldServer → ConnPtr → Service → Allocs → Prop) :
    HeldServer → HeldServer → Prop where
  | quiet {s : HeldServer} {server : Server} {bufs : ConnPtr → Buffers} (h : s.server.Quiet timeout server)
      (hbufs : s.Carries server bufs) : Step timeout cond s ⟨server, bufs⟩
  | dispatch {s s' : HeldServer} {c : ConnPtr} {i o : Bool} {events : List Event} {d : Service} {al : Allocs}
      (hbatch : s.server.batch = some (.conn c i o :: events)) (hd : d.Possible s.server.world i o)
      (hposs : s.Possible timeout c d al) (hcond : cond s c d al)
      (h : { s with server := { s.server with batch := some events } }.dispatch timeout c d al = .ok s') :
      Step timeout cond s s'

abbrev HeldServer.Run (timeout : ℤ) (cond : HeldServer → ConnPtr → Service → Allocs → Prop) :
    HeldServer → HeldServer → Prop :=
  Relation.ReflTransGen (HeldServer.Step timeout cond)

/-- The states that the server reaches, if no append moves a block under a handle that is still used. -/
def HeldServer.Reachable (timeout : ℤ) (s : HeldServer) : Prop :=
  ∃ s₀ : HeldServer, s₀.server.Initial ∧ s₀.Run timeout (fun s c d al => s.Keeps timeout c d al) s

/-- The handles of the connections in use are the current ones, and the blocks hold their lists. -/
def HeldServer.Good (s : HeldServer) : Prop := ∀ c ∈ s.server.world.alloc.live, (s.held c).Good

/-! ### An event on a connection -/

/-- The results of the handlers on lists, and in memory. -/
structure SameServed (a : Option Status × Conn) (b : Option Status × HeldConn) : Prop where
  status : b.1 = a.1
  conn : b.2.conn = a.2
  good : b.2.Good

/-- The server on lists, and in memory, after an event on a connection. -/
structure SameServer (s : HeldServer) (c : ConnPtr) (a : Server) (b : HeldServer) : Prop where
  server : b.server = a
  good : (b.held c).Good
  others : ∀ c', c' ≠ c → b.bufs c' = s.bufs c'

section Dispatch

variable {timeout : ℤ} {s : HeldServer} {c : ConnPtr} {d : Service} {al : Allocs} {x : HeldConn}

theorem serveIn_carried (h : x.Good) {input : Option (Env × List RecvResult)}
    (hposs : ∀ env recvs, input = some (env, recvs) → x.AllIn (fun s call => call.Possible s) env recvs al)
    (hkeeps : ∀ env recvs, input = some (env, recvs) → x.AllIn (fun s call => call.Keeps s) env recvs al) :
    Carried SameServed (x.conn.serveIn input) (x.serveIn al input) := by
  rcases input with _ | ⟨env, recvs⟩
  · exact .ok ⟨rfl, rfl, h⟩
  · have hcarried := requestHandle_carried h (hposs env recvs rfl) (hkeeps env recvs rfl)
    rw [Conn.serveIn, HeldConn.serveIn]
    cases hres : requestHandle env recvs x.conn with
    | error e =>
      rw [hres] at hcarried
      rw [hcarried.of_error]
      exact .error e
    | ok res =>
      rw [hres] at hcarried
      obtain ⟨y, hok, hst, hconn, hy⟩ := hcarried.of_ok
      rw [hok]
      exact .ok ⟨congrArg some hst, hconn, hy⟩

theorem serveOut_held (h : x.Good) (output : Option (List SendResult × List SendResult)) :
    ∃ y, x.serveOut output = .ok y ∧ SameServed (x.conn.serveOut output) y := by
  rcases output with _ | ⟨sends, files⟩
  · exact ⟨_, rfl, rfl, rfl, h⟩
  · obtain ⟨y, hok, hst, hconn, hy⟩ := responseHandle_held h sends files
    refine ⟨(some y.1, y.2), ?_, congrArg some hst, hconn, hy⟩
    rw [HeldConn.serveOut, hok]

theorem handled_held (s : HeldServer) (c : ConnPtr) (now : ℤ) {a : Option Status × Conn} {b : Option Status × HeldConn}
    (h : SameServed a b) : Simulation.Carried Stop.held (fun a' b' => SameServer s c a' b' ∧ b'.held c = b.2)
      (s.server.handled c now a) (s.handled c now b) := by
  obtain ⟨st, conn⟩ := a
  obtain ⟨st', y⟩ := b
  obtain ⟨rfl, rfl, hy⟩ := h
  simp only at hy
  rw [HeldServer.handled]
  cases hres : s.server.handled c now (st', y.conn) with
  | error e => exact .error e
  | ok s' =>
    have hheld : (⟨s', Function.update s.bufs c y.bufs⟩ : HeldServer).held c = y := by
      obtain ⟨w, -, rfl⟩ := handled_cases hres
      simp only [HeldServer.held, Function.update_self]
    exact .ok ⟨⟨rfl, by rw [hheld]; exact hy, fun c' hne => Function.update_of_ne hne _ _⟩, hheld⟩

/-- **An event on a connection, in memory.** -/
theorem dispatch_carried (h : (s.held c).Good) (hposs : s.Possible timeout c d al) (hkeeps : s.Keeps timeout c d al) :
    Simulation.Carried Stop.held (SameServer s c) (s.server.dispatch timeout c d) (s.dispatch timeout c d al) := by
  rw [Server.dispatch, HeldServer.dispatch]
  split_ifs with hexp
  · exact .ok ⟨rfl, h, fun _ _ => rfl⟩
  · have hin := serveIn_carried h (hposs (not_lt.mp hexp)) (hkeeps (not_lt.mp hexp))
    change Carried SameServed ((s.server.conns c).serveIn d.input) _ at hin
    cases hres : (s.server.conns c).serveIn d.input with
    | error e =>
      rw [hres] at hin
      rw [hin.of_error]
      exact .error (Stop.fault e)
    | ok res =>
      rw [hres] at hin
      obtain ⟨y, hok, hsame⟩ := hin.of_ok
      rw [hok]
      have hmid := handled_held s c d.inputNow hsame
      simp only
      cases hres₁ : s.server.handled c d.inputNow res with
      | error e =>
        rw [hres₁] at hmid
        rw [hmid.of_error]
        exact .error e
      | ok s₁ =>
        rw [hres₁] at hmid
        obtain ⟨t₁, hok₁, ⟨rfl, hgood₁, hothers₁⟩, -⟩ := hmid.of_ok
        obtain ⟨z, hok₂, hsame₂⟩ := serveOut_held hgood₁ d.output
        rw [hok₁]
        simp only [hok₂]
        have hend := handled_held t₁ c d.outputNow hsame₂
        change Simulation.Carried _ _ (t₁.server.handled c d.outputNow ((t₁.server.conns c).serveOut d.output)) _ at hend
        cases hres₂ : t₁.server.handled c d.outputNow ((t₁.server.conns c).serveOut d.output) with
        | error e =>
          rw [hres₂] at hend
          rw [hend.of_error]
          exact .error e
        | ok s₂ =>
          rw [hres₂] at hend
          obtain ⟨t₂, hok₃, ⟨rfl, hgood₂, hothers₂⟩, -⟩ := hend.of_ok
          rw [hok₃]
          exact .ok ⟨rfl, hgood₂, fun c' hne => (hothers₂ c' hne).trans (hothers₁ c' hne)⟩

end Dispatch

/-! ### Runs -/

section Runs

variable {timeout : ℤ} {s s' : HeldServer}

theorem quiet_conn {s server : Server} (hs : s.Inv) (h : s.Quiet timeout server) {c : ConnPtr}
    (hc : c ∈ server.world.alloc.live) :
    c ∈ s.world.alloc.live ∧ server.conns c = s.conns c ∨
      c ∉ s.world.alloc.live ∧ ∃ nextFd now, server.conns c = (ConnState.accept nextFd now).conn := by
  obtain ⟨hother, h⟩ := h
  cases h with
  | wait hbatch h => exact .inl ⟨hc, rfl⟩
  | @accept w events fd nextFd r c₁ hbatch hfd hr h =>
    have hlive : (s.accepted w nextFd c₁).world = w := by cases c₁ <;> rfl
    rw [hlive] at hc
    exact (accepted_conn hs nextFd hr h hc).imp_right (And.imp_right fun hconn => ⟨_, _, hconn⟩)
  | acceptDone hbatch => exact .inl ⟨hc, rfl⟩
  | dispatch hbatch => exact absurd hbatch (hother _ _ _ _)
  | prune hbatch hmono hclock h => exact .inl ⟨prune_live hs.world h hc, rfl⟩

theorem HeldServer.Carries.good {server : Server} {bufs : ConnPtr → Buffers} (h : s.Carries server bufs) (hgood : s.Good)
    (hconn : ∀ c ∈ server.world.alloc.live, c ∈ s.server.world.alloc.live ∧ server.conns c = s.server.conns c ∨
      c ∉ s.server.world.alloc.live ∧ ∃ nextFd now, server.conns c = (ConnState.accept nextFd now).conn) :
    (⟨server, bufs⟩ : HeldServer).Good := by
  intro c hc
  change (⟨server.conns c, bufs c⟩ : HeldConn).Good
  rcases hconn c hc with ⟨hold, heq⟩ | ⟨hnew, nextFd, now, heq⟩
  · rw [heq, h.stays c hc hold]
    exact hgood c hold
  · rw [heq]
    exact (h.new c hc hnew).good rfl rfl

/-- An event that has been dispatched in memory has been dispatched on lists. -/
theorem dispatch_project {c : ConnPtr} {i o : Bool} {events : List Event} {d : Service} {al : Allocs} (hs : s.server.Inv)
    (hgood : s.Good) (hbatch : s.server.batch = some (.conn c i o :: events)) (hd : d.Possible s.server.world i o)
    (hposs : s.Possible timeout c d al) (hkeeps : s.Keeps timeout c d al)
    (h : { s with server := { s.server with batch := some events } }.dispatch timeout c d al = .ok s') :
    Server.dispatch timeout { s.server with batch := some events } c d = .ok s'.server ∧ s'.Good := by
  have hlive := hs.live hbatch
  have hcarried := dispatch_carried (s := { s with server := { s.server with batch := some events } })
    (hgood c hlive) hposs hkeeps
  rw [h] at hcarried
  obtain ⟨server, hok, rfl, hc, hothers⟩ := hcarried.ok_right
  refine ⟨hok, ?_⟩
  intro c' hc'
  by_cases heq : c' = c
  · rw [heq]
    exact hc
  · rw [dispatch_alloc (s := { s.server with batch := some events }) hs.world hlive hok hd] at hc'
    have hold := hgood c' hc'
    rw [HeldServer.held] at hold ⊢
    rw [hothers c' heq, (dispatch_other hok heq).1]
    exact hold

/-- **The step.** -/
theorem HeldServer.Step.project (h : s.Step timeout (fun s c d al => s.Keeps timeout c d al) s') (hs : s.server.Inv)
    (hgood : s.Good) : s.server.Step timeout s'.server ∧ s'.Good := by
  cases h with
  | quiet h hbufs => exact ⟨h.2, hbufs.good hgood fun c hc => quiet_conn hs h hc⟩
  | dispatch hbatch hd hposs hkeeps h =>
    obtain ⟨hok, hgood'⟩ := dispatch_project hs hgood hbatch hd hposs hkeeps h
    exact ⟨.dispatch hbatch hd hok, hgood'⟩

/-- **The projection of runs.** -/
theorem HeldServer.Reachable.project (h : s.Reachable timeout) : s.server.Reachable timeout ∧ s.Good := by
  obtain ⟨s₀, hinit, hrun⟩ := h
  induction hrun with
  | refl =>
    refine ⟨⟨s₀.server, hinit, .refl⟩, fun c hc => ?_⟩
    rw [hinit.live] at hc
    exact absurd hc (Finset.notMem_empty c)
  | tail _ hstep ih =>
    obtain ⟨⟨server, hinit', hrun'⟩, hgood⟩ := ih
    obtain ⟨hstep', hgood'⟩ := hstep.project (Server.Reachable.inv ⟨server, hinit', hrun'⟩) hgood
    exact ⟨⟨server, hinit', hrun'.tail hstep'⟩, hgood'⟩

theorem HeldServer.Good.carries (hgood : s.Good) (server : Server) : ∃ bufs, s.Carries server bufs := by
  have hblocks : ∀ c, ∃ b : Buffers, (c ∈ server.world.alloc.live → c ∈ s.server.world.alloc.live → b = s.bufs c) ∧
      (c ∈ server.world.alloc.live → c ∉ s.server.world.alloc.live → b.New) ∧
      (c ∈ s.server.world.alloc.live → c ∉ server.world.alloc.live → (s.bufs c).free = .ok b) := by
    intro c
    by_cases hold : c ∈ s.server.world.alloc.live
    · by_cases hc : c ∈ server.world.alloc.live
      · exact ⟨s.bufs c, fun _ _ => rfl, fun _ h => absurd hold h, fun _ h => absurd hc h⟩
      · obtain ⟨b, hfree⟩ := (hgood c hold).current.free
        exact ⟨b, fun h _ => absurd h hc, fun h _ => absurd h hc, fun _ _ => hfree⟩
    · exact ⟨.first, fun _ h => absurd h hold, fun _ _ => first_new, fun h _ => absurd h hold⟩
  choose bufs hbufs using hblocks
  exact ⟨bufs, fun c => (hbufs c).1, fun c => (hbufs c).2.1, fun c => (hbufs c).2.2⟩

/-- Nothing has been received or appended. -/
def HeldServer.Untouched (s : HeldServer) : Prop := ∀ c ∈ s.server.world.alloc.live, (s.bufs c).New

theorem HeldServer.Untouched.carries (h : s.Untouched) {server : Server} {bufs : ConnPtr → Buffers}
    (hbufs : s.Carries server bufs) : (⟨server, bufs⟩ : HeldServer).Untouched := by
  intro c hc
  by_cases hold : c ∈ s.server.world.alloc.live
  · change (bufs c).New
    rw [hbufs.stays c hc hold]
    exact h c hold
  · exact hbufs.new c hc hold

end Runs

end Lotos
