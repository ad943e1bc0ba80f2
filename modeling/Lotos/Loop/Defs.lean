import Lotos.Heap.Invariant
import Lotos.Loop.Pool

/-!
# The connections in the event loop (`connection.c`, `server.c`, `main.c`)

`World` is what the event loop keeps of its connections: the heap, what they are allocated from, their descriptors, and those
that are registered with `epoll`.  `connectionAccept`, `World.dispatch` and `World.prune` are the calls of the loop, with
what the calls they make answer: `malloc` and `buffer_init`, `epoll_ctl`, `time`, and the handlers of the request and the
response.

`Loop` adds the place in the loop: before `epoll_wait`, or in a batch of events with those that are still to be processed.
The build is one with `NDEBUG`.
-/

namespace Lotos

/-! ### Allocating a connection -/

/-- What connections are allocated from: `connection_pool`, in the build with `USE_MEM_POOL`, or `malloc`, with the blocks
that are in use. -/
inductive Allocator where
  | pool (p : MemPool)
  | malloc (live : Finset ConnPtr)

/-- The blocks in use. -/
def Allocator.live : Allocator → Finset ConnPtr
  | .pool p => p.live
  | .malloc live => live

/-- `pool_alloc(&connection_pool)`, or `malloc(sizeof(connection_t))` with its result. -/
def Allocator.alloc (result : Option ConnPtr) : Allocator → Option ConnPtr × Allocator
  | .pool p => ((poolAlloc p).1, .pool (poolAlloc p).2)
  | .malloc live =>
    match result with
    | some c => (some c, .malloc (insert c live))
    | none => (none, .malloc live)

/-- `pool_free(&connection_pool, c)`, or `free(c)` -/
def Allocator.free (c : ConnPtr) : Allocator → Allocator
  | .pool p => .pool (poolFree p c)
  | .malloc live => .malloc (live.erase c)

/-- The first word of the block is written. -/
def Allocator.write (c : ConnPtr) (word : Option ConnPtr) : Allocator → Allocator
  | .pool p => .pool (p.write c word)
  | .malloc live => .malloc live

/-- What the calls of `connection_accept` answer. -/
structure AcceptResults where
  /-- `malloc(sizeof(connection_t))`, in the build without the pool -/
  malloc : Option ConnPtr
  /-- the two calls of `buffer_init` -/
  ib : Bool
  ob : Bool
  /-- `time(NULL)` -/
  now : ℤ
  /-- the first word of the block, once `fd` is in it -/
  word : Option ConnPtr
  /-- `lotos_epoll_add` -/
  epollAdd : Bool

/-- `connection_init` -/
def connectionInit (a : Allocator) (r : AcceptResults) : Option ConnPtr × Allocator :=
  match a.alloc r.malloc with
  | (some c, a') => if r.ib && r.ob then (some c, a') else (none, a'.free c)
  | (none, a') => (none, a')

/-! ### The calls of the loop -/

structure World where
  heap : Heap
  alloc : Allocator
  /-- the member `fd` -/
  connFd : ConnPtr → ℕ
  /-- the sockets that are open; the files of the requests are not among them -/
  openFds : Finset ℕ
  /-- the connections registered with `epoll` -/
  epoll : Finset ConnPtr
  /-- the last value of the clock -/
  now : ℤ

/-- `connection_close`, without `connection_unregister`. -/
def World.release (w : World) (c : ConnPtr) : World :=
  { w with
    epoll := w.epoll.erase c
    openFds := w.openFds.erase (w.connFd c)
    alloc := w.alloc.free c }

/-- `connection_close`, of a connection that is not `NULL`. -/
def World.close (w : World) (c : ConnPtr) : Except AssertFailure World :=
  match connectionClose w.heap c with
  | .ok h => .ok ({ w with heap := h }.release c)
  | .error e => .error e

/-- The connection as `connection_accept` fills it in. -/
def World.fill (w : World) (alloc : Allocator) (c : ConnPtr) (fd : ℕ) (r : AcceptResults) : World :=
  { w with
    alloc := alloc.write c r.word
    connFd := Function.update w.connFd c fd
    heap := { w.heap with activeTime := Function.update w.heap.activeTime c r.now }
    now := r.now }

/-- The end of `connection_accept`: the connection is registered, in the heap and with `epoll`. -/
def World.enter (w : World) (c : ConnPtr) (r : AcceptResults) : Except AssertFailure (Option ConnPtr × World) :=
  match connectionRegister w.heap c with
  | .ok (.ok, h) =>
    if r.epollAdd then .ok (some c, { w with heap := h, epoll := insert c w.epoll })
    else ({ w with heap := h }.close c).map fun w => (none, w)
  | .ok (_, h) => ({ w with heap := h }.close c).map fun w => (none, w)
  | .error e => .error e

/-- `connection_accept`; the result is `none` for `NULL`. -/
def connectionAccept (w : World) (fd : ℕ) (r : AcceptResults) : Except AssertFailure (Option ConnPtr × World) :=
  match connectionInit w.alloc r with
  -- `connection_close(NULL)` does nothing
  | (none, alloc) => .ok (none, { w with alloc := alloc })
  | (some c, alloc) => (w.fill alloc c fd r).enter c r

/-- The branches of the loop for an event on a connection: the results of the handlers that are called, and the values of the
clock read by `connecion_is_expired` and after each of the handlers. -/
structure Dispatch where
  now : ℤ
  input : Option Status
  inputNow : ℤ
  output : Option Status
  outputNow : ℤ

/-- `connecion_set_expired` after `ERROR`, `connecion_set_reactivated` otherwise. -/
def World.handled (w : World) (c : ConnPtr) (now : ℤ) : Option Status → Except AssertFailure World
  | none => .ok { w with now := now }
  | some st =>
    match if st = .error then connecionSetExpired w.heap c else connecionSetReactivated w.heap now c with
    | .ok h => .ok { w with heap := h, now := now }
    | .error e => .error e

/-- The body of the loop over the events, for an event on a connection. -/
def World.dispatch (timeout : ℤ) (w : World) (c : ConnPtr) (d : Dispatch) : Except AssertFailure World :=
  -- `connecion_is_expired`
  if d.now - w.heap.activeTime c > timeout then .ok { w with now := d.now }
  else
    match w.handled c d.inputNow d.input with
    | .ok w => w.handled c d.outputNow d.output
    | .error e => .error e

/-- `connection_prune`: the heap is `connectionPrune`, and the rest of `connection_close` is done for each connection that is
closed. -/
def World.prune (timeout : ℤ) (clock : ℕ → ℤ) (w : World) : Except AssertFailure World :=
  match connectionPrune timeout clock w.heap with
  | .ok (closed, h) => .ok (closed.foldl World.release { w with heap := h, now := clock closed.length })
  | .error e => .error e

/-! ### The loop -/

/-- An event of a batch: on the listening socket, or on a connection with the bits it reports. -/
inductive Event where
  | listen
  | conn (c : ConnPtr) (input output : Bool)

/-- The loop: `batch` is `none` before `epoll_wait`, and otherwise the events still to be processed. -/
structure Loop where
  world : World
  batch : Option (List Event)

/-- What the calls of `connection_accept` can answer: the clock does not go back, and `malloc` gives a block that is not in
use. -/
structure AcceptResults.Possible (w : World) (r : AcceptResults) : Prop where
  clock : w.now ≤ r.now
  fresh : ∀ c, r.malloc = some c → c ∉ w.alloc.live

/-- The clock does not go back, and a handler is called if its bit is reported. -/
structure Dispatch.Possible (w : World) (input output : Bool) (d : Dispatch) : Prop where
  clock : w.now ≤ d.now ∧ d.now ≤ d.inputNow ∧ d.inputNow ≤ d.outputNow
  input : d.input.isSome = input
  output : d.output.isSome = output

/-- A step of the loop; `cond` is a condition on the calls of `connection_accept`. -/
inductive Loop.Step (timeout : ℤ) (cond : World → AcceptResults → Prop) : Loop → Loop → Prop where
  /-- `epoll_wait` reports descriptors that are registered -/
  | wait {w : World} {events : List Event} (h : ∀ c i o, .conn c i o ∈ events → c ∈ w.epoll) :
      Step timeout cond ⟨w, none⟩ ⟨w, some events⟩
  /-- the loop of `server_accept`: `accept` returns a new descriptor -/
  | accept {w w' : World} {events : List Event} {fd : ℕ} {r : AcceptResults} {c : Option ConnPtr} (hfd : fd ∉ w.openFds)
      (hr : r.Possible w) (hcond : cond w r)
      (h : connectionAccept { w with openFds := insert fd w.openFds } fd r = .ok (c, w')) :
      Step timeout cond ⟨w, some (.listen :: events)⟩ ⟨w', some (.listen :: events)⟩
  /-- there is nothing more to accept -/
  | accepted {w : World} {events : List Event} : Step timeout cond ⟨w, some (.listen :: events)⟩ ⟨w, some events⟩
  | dispatch {w w' : World} {c : ConnPtr} {i o : Bool} {events : List Event} {d : Dispatch} (hd : d.Possible w i o)
      (h : w.dispatch timeout c d = .ok w') : Step timeout cond ⟨w, some (.conn c i o :: events)⟩ ⟨w', some events⟩
  | prune {w w' : World} {clock : ℕ → ℤ} (hmono : Monotone clock) (hclock : w.now ≤ clock 0)
      (h : w.prune timeout clock = .ok w') : Step timeout cond ⟨w, some []⟩ ⟨w', none⟩

/-- A run of the loop. -/
abbrev Loop.Run (timeout : ℤ) (cond : World → AcceptResults → Prop) : Loop → Loop → Prop :=
  Relation.ReflTransGen (Loop.Step timeout cond)

/-- The loop after `server_setup`; what the array and the memory of connections hold does not matter. -/
def Loop.start (a : Allocator) (lotosConnections : ℕ → ConnPtr) (activeTime : ConnPtr → ℤ) (heapIdx : ConnPtr → ℕ)
    (connFd : ConnPtr → ℕ) (openFds : Finset ℕ) (now : ℤ) : Loop :=
  ⟨⟨Heap.empty lotosConnections activeTime heapIdx, a, connFd, openFds, ∅, now⟩, none⟩

end Lotos
