import Lotos.System.Timely

/-!
# The sockets and `epoll` (`lotos_epoll.h`)

Connections are registered with `EPOLLET`: `epoll_wait` reports a descriptor that is on the ready list, and takes it off the
list.  The kernel puts it on the list again when something new happens that is in the mask, and when `epoll_ctl` is called
and finds something there already (`man 7 epoll`).  `Socket` is what the kernel has of a connection, and `Net` is the server
with the sockets of its connections.

`Net.Step` is `Server.Step` with answers that the sockets can give: `recv` answers with the bytes that have arrived, with
`EAGAIN` when there are no more, and with `0` when the client has closed; `send` and `sendfile` answer with `EAGAIN` when
there is no room.  In between, bytes arrive, clients close, and room becomes free.  `epoll_ctl` succeeds.
-/

namespace Lotos

/-- The kernel's side of a connection. -/
structure Socket where
  /-- the bytes that have arrived and have not been read -/
  rx : List Byte
  /-- the client has closed, and nothing follows `rx` -/
  eof : Bool
  /-- there is room for more to be sent -/
  writable : Bool
  /-- the descriptor is on the ready list -/
  ready : Bool

/-- `recv` would not answer `EAGAIN`. -/
def Socket.readable (k : Socket) : Bool := !k.rx.isEmpty || k.eof

/-- The bits `EPOLLIN` and `EPOLLOUT` of `event.events`. -/
structure Mask where
  epollIn : Bool
  epollOut : Bool

def Conn.mask (c : Conn) : Mask := ⟨c.epollIn, c.epollOut⟩

/-- Something that is in the mask is there. -/
def Socket.poll (k : Socket) (m : Mask) : Bool := m.epollIn && k.readable || m.epollOut && k.writable

/-- `epoll_ctl` with `EPOLL_CTL_ADD` or `EPOLL_CTL_MOD` -/
def epollCtl (m : Mask) (k : Socket) : Socket := { k with ready := k.ready || k.poll m }

/-! ### The mask -/

/-- The mask is changed, unless the bit is as it is to be already. -/
def changeMask (already : Bool) (m : Mask) (x : Mask × Socket) : Mask × Socket := if already then x else (m, epollCtl m x.2)

/-- `connection_enable_in` -/
def connectionEnableIn (x : Mask × Socket) : Mask × Socket := changeMask x.1.epollIn { x.1 with epollIn := true } x

/-- `connection_disable_in` -/
def connectionDisableIn (x : Mask × Socket) : Mask × Socket := changeMask (!x.1.epollIn) { x.1 with epollIn := false } x

/-- `connection_enable_out` -/
def connectionEnableOut (x : Mask × Socket) : Mask × Socket := changeMask x.1.epollOut { x.1 with epollOut := true } x

/-- `connection_disable_out` -/
def connectionDisableOut (x : Mask × Socket) : Mask × Socket := changeMask (!x.1.epollOut) { x.1 with epollOut := false } x

/-- A call of one of the four. -/
inductive MaskCall : Mask × Socket → Mask × Socket → Prop where
  | enableIn (x) : MaskCall x (connectionEnableIn x)
  | disableIn (x) : MaskCall x (connectionDisableIn x)
  | enableOut (x) : MaskCall x (connectionEnableOut x)
  | disableOut (x) : MaskCall x (connectionDisableOut x)

/-- The calls that a handler makes; where they lead is the mask that the handler leaves. -/
abbrev MaskCalls : Mask × Socket → Mask × Socket → Prop := Relation.ReflTransGen MaskCall

/-- The calls in `request_handle` and `response_handle` lead from mask to mask as the handlers have it. -/
theorem maskCalls_conn (c : Conn) (k : Socket) :
    (connectionEnableOut (connectionDisableIn (c.mask, k))).1 = c.turnOut.mask ∧
      (connectionDisableOut (c.mask, k)).1 = c.disableOut.mask ∧
      (connectionEnableIn (connectionDisableOut (c.mask, k))).1 = c.turnIn.mask := by
  obtain ⟨req, epollIn, epollOut, nextFd, ghost⟩ := c
  cases epollIn <;> cases epollOut <;> exact ⟨rfl, rfl, rfl⟩

/-! ### What a socket answers -/

/-- The answers of `recv`, up to the one that ends the loop of `request_recv`, and what the socket is left with. -/
inductive Recvs : Socket → List RecvResult → Socket → Prop where
  | data {k k' : Socket} {bs more : List Byte} {rest : List RecvResult} (hne : bs ≠ []) (hle : bs.length ≤ bufsiz)
      (hrx : k.rx = bs ++ more) (h : Recvs { k with rx := more } rest k') : Recvs k (.data bs :: rest) k'
  | again {k : Socket} (h : k.readable = false) : Recvs k [.again] k
  | closed {k : Socket} (hrx : k.rx = []) (heof : k.eof = true) : Recvs k [.data []] k
  | error {k : Socket} : Recvs k [.error] k

/-- The socket before and after the branch of `EPOLLIN`. -/
def ServesIn (before after : Mask) (k k' : Socket) : Option (Env × List RecvResult) → Prop
  | none => k' = k
  | some (_, recvs) => ∃ k₁, Recvs k recvs k₁ ∧ MaskCalls (before, k₁) (after, k')

/-- The socket before and after the branch of `EPOLLOUT`: after `EAGAIN` there is no room. -/
def ServesOut (before after : Mask) (k k' : Socket) : Option Status → Prop
  | none => k' = k
  | some st => ∃ room, (st = .again → room = false) ∧ MaskCalls (before, { k with writable := room }) (after, k')

/-! ### The server and its sockets -/

structure Net where
  server : Server
  socks : ConnPtr → Socket

/-- What happens to a socket from outside. -/
inductive Socket.Peer (m : Mask) : Socket → Socket → Prop where
  /-- bytes arrive -/
  | arrive {k : Socket} (bs : List Byte) (h : k.eof = false) :
      Peer m k { k with rx := k.rx ++ bs, ready := k.ready || m.epollIn }
  /-- the client closes -/
  | shut {k : Socket} : Peer m k { k with eof := true, ready := k.ready || m.epollIn }
  /-- room becomes free -/
  | room {k : Socket} : Peer m k { k with writable := true, ready := k.ready || m.epollOut }
  /-- an error condition, or an event that is reported once more -/
  | spurious {k : Socket} : Peer m k { k with ready := true }

/-- What `epoll_wait` reports, and takes off the ready list; a descriptor of which nothing is left to report goes too. -/
structure Net.Waits (n : Net) (events : List Event) (socks : ConnPtr → Socket) : Prop where
  reports : n.server.Reports events
  ready : ∀ c i o, .conn c i o ∈ events → (n.socks c).ready = true ∧
    i = ((n.server.conns c).epollIn && (n.socks c).readable) ∧ o = ((n.server.conns c).epollOut && (n.socks c).writable)
  taken : ∀ c, socks c = n.socks c ∨ socks c = { n.socks c with ready := false } ∧
    (c ∈ events.filterMap Event.conn? ∨ (n.socks c).poll (n.server.conns c).mask = false)

/-- `lotos_epoll_add` in `connection_accept`, for the socket of the new connection. -/
def Net.added (n : Net) (k : Socket) : Option ConnPtr → ConnPtr → Socket
  | some c => Function.update n.socks c (epollCtl ⟨true, false⟩ k)
  | none => n.socks

/-- A connection that is served: the answers to its calls, and its state between the two branches. -/
structure Serving where
  ptr : ConnPtr
  service : Service
  conn : Conn

/-- A step of the server with its sockets, and the connection that it serves. -/
inductive Net.Step (timeout : ℤ) : Option Serving → Net → Net → Prop where
  | peer {n : Net} {c : ConnPtr} {k : Socket} (h : Socket.Peer (n.server.conns c).mask (n.socks c) k) :
      Step timeout none n { n with socks := Function.update n.socks c k }
  | wait {n : Net} {events : List Event} {socks : ConnPtr → Socket} (hbatch : n.server.batch = none)
      (h : n.Waits events socks) :
      Step timeout none n ⟨{ n.server with batch := some events }, socks⟩
  | accept {n : Net} {w : World} {events : List Event} {fd nextFd : ℕ} {r : AcceptResults} {o : Option ConnPtr} {k : Socket}
      (hbatch : n.server.batch = some (.listen :: events)) (hfd : fd ∉ n.server.world.openFds)
      (hr : r.Possible n.server.world)
      (h : connectionAccept { n.server.world with openFds := insert fd n.server.world.openFds } fd r = .ok (o, w)) :
      Step timeout none n ⟨n.server.accepted w nextFd o, n.added k o⟩
  | acceptDone {n : Net} {events : List Event} (hbatch : n.server.batch = some (.listen :: events)) :
      Step timeout none n { n with server := { n.server with batch := some events } }
  | skip {n : Net} {s : Server} {c : ConnPtr} {i o : Bool} {events : List Event} {d : Service}
      (hbatch : n.server.batch = some (.conn c i o :: events)) (hd : d.Possible n.server.world i o)
      (hexp : d.now - n.server.world.heap.activeTime c > timeout)
      (h : { n.server with batch := some events }.dispatch timeout c d = .ok s) : Step timeout none n { n with server := s }
  | serve {n : Net} {s : Server} {c : ConnPtr} {i o : Bool} {events : List Event} {d : Service} {k k' : Socket}
      (hbatch : n.server.batch = some (.conn c i o :: events)) (hd : d.Possible n.server.world i o)
      (hexp : d.now - n.server.world.heap.activeTime c ≤ timeout)
      (h : Served { n.server with batch := some events } s c d)
      (hin : ServesIn (n.server.conns c).mask h.conn.mask (n.socks c) k d.input)
      (hout : ServesOut h.conn.mask h.conn'.mask k k' h.st') :
      Step timeout (some ⟨c, d, h.conn⟩) n ⟨s, Function.update n.socks c k'⟩
  | prune {n : Net} {w : World} {clock : ℕ → ℤ} (hbatch : n.server.batch = some []) (hmono : Monotone clock)
      (hclock : n.server.world.now ≤ clock 0) (h : n.server.world.prune timeout clock = .ok w) :
      Step timeout none n { n with server := { n.server with world := w, batch := none } }

/-- A run of the server with its sockets. -/
abbrev Net.Run (timeout : ℤ) : Net → Net → Prop := Relation.ReflTransGen fun n n' => ∃ t, Net.Step timeout t n n'

/-- Without the sockets, the server runs. -/
theorem net_simulates (timeout : ℤ) :
    Simulation.Simulates (fun (n : Net) s => n.server = s) (fun n n' => ∃ t, Net.Step timeout t n n')
      (Server.Step timeout) := by
  rintro n n' s rfl ⟨t, hstep⟩
  cases hstep with
  | peer h => exact ⟨_, .refl, rfl⟩
  | wait hbatch h => exact ⟨_, .single (.wait hbatch h.reports), rfl⟩
  | accept hbatch hfd hr h => exact ⟨_, .single (.accept hbatch hfd hr h), rfl⟩
  | acceptDone hbatch => exact ⟨_, .single (.acceptDone hbatch), rfl⟩
  | skip hbatch hd hexp h => exact ⟨_, .single (.dispatch hbatch hd h), rfl⟩
  | serve hbatch hd hexp h hin hout => exact ⟨_, .single (.dispatch hbatch hd (h.dispatch hexp)), rfl⟩
  | prune hbatch hmono hclock h => exact ⟨_, .single (.prune hbatch hmono hclock h), rfl⟩

theorem Net.Step.inv {timeout : ℤ} {t : Option Serving} {n n' : Net} (h : Net.Step timeout t n n') (hs : n.server.Inv) :
    n'.server.Inv := by
  obtain ⟨s, hrun, hs'⟩ := net_simulates timeout rfl ⟨t, h⟩
  rw [hs']
  exact Simulation.invariant Server.Inv (fun _ _ h hstep => hstep.inv h) hrun hs

end Lotos
