import Lotos.Lib.Simulation
import Lotos.Loop.Run
import Lotos.Server.Mask

/-!
# The whole server (`main.c`)

`Server` is the event loop with what its connections hold: the heap, the pool and the interest set of `World`, and for each
connection its `Conn` and the last result of its handlers.  The steps are those of `Loop.Step`, but the results of the
handlers are not inputs any more: an event on a connection calls `requestHandle` and `responseHandle` on the `Conn` that the
connection has, so that events on different connections interleave in every way that `epoll_wait` allows.

The build is the one of the Makefile, with `NDEBUG` and with a pool of 1024 connections.
-/

namespace Lotos

structure Server where
  world : World
  /-- the request of a connection, and its event mask -/
  conns : ConnPtr → Conn
  /-- the last result of the handlers of a connection -/
  last : ConnPtr → Option Status
  batch : Option (List Event)

/-- What stops the process. -/
inductive Stop where
  | assertion (e : AssertFailure)
  | fault (e : Fault)

/-- What the calls made for an event on a connection answer: the values of the clock as in `Dispatch`, and the calls on the
socket and the file system that the handlers make. -/
structure Service where
  now : ℤ
  input : Option (Env × List RecvResult)
  inputNow : ℤ
  output : Option (List SendResult × List SendResult)
  outputNow : ℤ

/-- The branch of `EPOLLIN`: the result of `request_handle`, if it is called. -/
def Conn.serveIn (c : Conn) : Option (Env × List RecvResult) → Except Fault (Option Status × Conn)
  | none => .ok (none, c)
  | some (env, recvs) =>
    match requestHandle env recvs c with
    | .ok (st, c') => .ok (some st, c')
    | .error e => .error e

/-- The branch of `EPOLLOUT`: the result of `response_handle`, if it is called. -/
def Conn.serveOut (c : Conn) : Option (List SendResult × List SendResult) → Option Status × Conn
  | none => (none, c)
  | some (sends, files) =>
    match responseHandle sends files c with
    | (st, c') => (some st, c')

/-- What follows a handler: `connecion_set_expired` after `ERROR`, `connecion_set_reactivated` otherwise. -/
def Server.handled (s : Server) (c : ConnPtr) (now : ℤ) : Option Status × Conn → Except Stop Server
  | (st, conn) =>
    match s.world.handled c now st with
    | .ok w => .ok { s with
        world := w
        conns := Function.update s.conns c conn
        last := Function.update s.last c (st.or (s.last c)) }
    | .error e => .error (.assertion e)

/-- The body of the loop over the events, for an event on a connection. -/
def Server.dispatch (timeout : ℤ) (s : Server) (c : ConnPtr) (d : Service) : Except Stop Server :=
  -- `connecion_is_expired`
  if d.now - s.world.heap.activeTime c > timeout then .ok { s with world := { s.world with now := d.now } }
  else
    match (s.conns c).serveIn d.input with
    | .error e => .error (.fault e)
    | .ok res =>
      match s.handled c d.inputNow res with
      | .error e => .error e
      | .ok s => s.handled c d.outputNow ((s.conns c).serveOut d.output)

/-- The connection that `connection_accept` has made: `request_init`, and `EPOLLIN` in the mask. -/
def Server.accepted (s : Server) (w : World) (nextFd : ℕ) : Option ConnPtr → Server
  | none => { s with world := w }
  | some c => { s with
      world := w
      conns := Function.update s.conns c (ConnState.accept nextFd w.now).conn
      last := Function.update s.last c none }

/-- The connection that an event is on. -/
def Event.conn? : Event → Option ConnPtr
  | .listen => none
  | .conn c _ _ => some c

/-- What `epoll_wait` can report: each descriptor once, if it is registered, with bits that are in its mask. -/
structure Server.Reports (s : Server) (events : List Event) : Prop where
  registered : ∀ c i o, .conn c i o ∈ events → c ∈ s.world.epoll
  masked : ∀ c i o, .conn c i o ∈ events → (i = true → (s.conns c).epollIn = true) ∧ (o = true → (s.conns c).epollOut = true)
  once : (events.filterMap Event.conn?).Nodup

/-- The clock does not go back, and a handler is called if its bit is reported. -/
structure Service.Possible (w : World) (input output : Bool) (d : Service) : Prop where
  clock : w.now ≤ d.now ∧ d.now ≤ d.inputNow ∧ d.inputNow ≤ d.outputNow
  input : d.input.isSome = input
  output : d.output.isSome = output

/-- A step of the server. -/
inductive Server.Step (timeout : ℤ) : Server → Server → Prop where
  | wait {s : Server} {events : List Event} (hbatch : s.batch = none) (h : s.Reports events) :
      Step timeout s { s with batch := some events }
  | accept {s : Server} {w : World} {events : List Event} {fd nextFd : ℕ} {r : AcceptResults} {c : Option ConnPtr}
      (hbatch : s.batch = some (.listen :: events)) (hfd : fd ∉ s.world.openFds) (hr : r.Possible s.world)
      (h : connectionAccept { s.world with openFds := insert fd s.world.openFds } fd r = .ok (c, w)) :
      Step timeout s (s.accepted w nextFd c)
  | acceptDone {s : Server} {events : List Event} (hbatch : s.batch = some (.listen :: events)) :
      Step timeout s { s with batch := some events }
  | dispatch {s s' : Server} {c : ConnPtr} {i o : Bool} {events : List Event} {d : Service}
      (hbatch : s.batch = some (.conn c i o :: events)) (hd : d.Possible s.world i o)
      (h : { s with batch := some events }.dispatch timeout c d = .ok s') : Step timeout s s'
  | prune {s : Server} {w : World} {clock : ℕ → ℤ} (hbatch : s.batch = some []) (hmono : Monotone clock)
      (hclock : s.world.now ≤ clock 0) (h : s.world.prune timeout clock = .ok w) :
      Step timeout s { s with world := w, batch := none }

/-- A run of the server. -/
abbrev Server.Run (timeout : ℤ) : Server → Server → Prop := Relation.ReflTransGen (Server.Step timeout)

/-- A step in which no event on a connection is dispatched. -/
def Server.Quiet (timeout : ℤ) (s s' : Server) : Prop :=
  (∀ c i o events, s.batch ≠ some (.conn c i o :: events)) ∧ s.Step timeout s'

/-- The server after `server_setup`: no connection has been made; what the memory for them holds does not matter. -/
structure Server.Initial (s : Server) : Prop where
  pool : ∃ blocks size, s.world.alloc = .pool (poolCreate blocks 1024 size)
  heap : s.world.heap.heapSize = 0
  epoll : s.world.epoll = ∅
  clock : 0 ≤ s.world.now
  batch : s.batch = none

/-- The states that the server reaches. -/
def Server.Reachable (timeout : ℤ) (s : Server) : Prop := ∃ s₀ : Server, s₀.Initial ∧ s₀.Run timeout s

end Lotos
