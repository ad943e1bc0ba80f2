import Lotos.System.Clients
import Lotos.System.Held

/-!
# The clients of the server, with the buffers in memory

`HeldNet` is the server with its sockets and with the blocks of its connections.  As long as no append moves a block under a
handle that is still used, on any connection, it runs as `Net` does (`HeldNet.Step.project`), and so `held_clients` has for a
patient client what `System/Clients` has on lists, whatever the other clients do besides.
-/

namespace Lotos

structure HeldNet where
  net : Net
  bufs : ConnPtr → Buffers

def HeldNet.server (n : HeldNet) : HeldServer := ⟨n.net.server, n.bufs⟩

/-- A step of the server with its sockets, under a condition on the events that are dispatched. -/
inductive HeldNet.Step (timeout : ℤ) (cond : HeldServer → ConnPtr → Service → Allocs → Prop) :
    Option Serving → HeldNet → HeldNet → Prop where
  | quiet {n : HeldNet} {net : Net} {bufs : ConnPtr → Buffers} (h : Net.Step timeout none n.net net)
      (hbufs : n.server.Carries net.server bufs) : Step timeout cond none n ⟨net, bufs⟩
  | serve {n : HeldNet} {s : HeldServer} {c : ConnPtr} {i o : Bool} {events : List Event} {d : Service} {al : Allocs}
      {k k' : Socket} {st st' : Option Status} {x x' : HeldConn}
      (hbatch : n.net.server.batch = some (.conn c i o :: events)) (hd : d.Possible n.net.server.world i o)
      (hexp : d.now - n.net.server.world.heap.activeTime c ≤ timeout)
      (hposs : n.server.Possible timeout c d al) (hcond : cond n.server c d al)
      (hserveIn : (n.server.held c).serveIn al d.input = .ok (st, x)) (hserveOut : x.serveOut d.output = .ok (st', x'))
      (h : HeldServer.dispatch timeout ⟨{ n.net.server with batch := some events }, n.bufs⟩ c d al = .ok s)
      (hin : ServesIn (n.net.server.conns c).mask x.conn.mask (n.net.socks c) k d.input)
      (hout : ServesOut x.conn.mask x'.conn.mask k k' st') :
      Step timeout cond (some ⟨c, d, x.conn⟩) n ⟨⟨s.server, Function.update n.net.socks c k'⟩, s.bufs⟩

/-- A step in which no append moves a block under a handle that is still used. -/
abbrev HeldNet.Keeps (timeout : ℤ) : Option Serving → HeldNet → HeldNet → Prop :=
  HeldNet.Step timeout fun s c d al => s.Keeps timeout c d al

abbrev HeldNet.Run (timeout : ℤ) : HeldNet → HeldNet → Prop :=
  Relation.ReflTransGen fun n n' => ∃ t, HeldNet.Keeps timeout t n n'

section Project

variable {timeout : ℤ} {t : Option Serving} {n n' : HeldNet} {c : ConnPtr}

theorem none_conn {n n' : Net} (hs : n.server.Inv) (h : Net.Step timeout none n n') (hc : c ∈ n'.server.world.alloc.live) :
    c ∈ n.server.world.alloc.live ∧ n'.server.conns c = n.server.conns c ∨
      c ∉ n.server.world.alloc.live ∧ ∃ nextFd now, n'.server.conns c = (ConnState.accept nextFd now).conn := by
  cases h with
  | peer h => exact .inl ⟨hc, rfl⟩
  | wait hbatch h => exact .inl ⟨hc, rfl⟩
  | @accept _ w events fd nextFd r c₁ k hbatch hfd hr h =>
    have hlive : (n.server.accepted w nextFd c₁).world = w := by cases c₁ <;> rfl
    rw [hlive] at hc
    exact (accepted_conn hs nextFd hr h hc).imp_right (And.imp_right fun hconn => ⟨_, _, hconn⟩)
  | acceptDone hbatch => exact .inl ⟨hc, rfl⟩
  | skip hbatch hd hexp h =>
    rcases dispatch_cases h with ⟨-, rfl⟩ | ⟨hle, -⟩
    · exact .inl ⟨hc, rfl⟩
    · exact absurd hexp (not_lt.mpr hle)
  | prune hbatch hmono hclock h => exact .inl ⟨prune_live hs.world h hc, rfl⟩

/-- **The step.** -/
theorem HeldNet.Step.project (h : HeldNet.Keeps timeout t n n') (hs : n.net.server.Inv) (hgood : n.server.Good) :
    Net.Step timeout t n.net n'.net ∧ n'.server.Good := by
  cases h with
  | quiet h hbufs => exact ⟨h, hbufs.good hgood fun c hc => none_conn hs h hc⟩
  | @serve _ s c i o events d al k k' st st' x x' hbatch hd hexp hposs hkeeps hserveIn hserveOut h hin hout =>
    obtain ⟨hok, hgood'⟩ := dispatch_project (s := n.server) hs hgood hbatch hd hposs hkeeps h
    refine ⟨?_, hgood'⟩
    -- the handlers on lists have the results of those in memory
    have hcarried := serveIn_carried (hgood c (hs.live hbatch)) (hposs hexp) (hkeeps hexp)
    rw [hserveIn] at hcarried
    obtain ⟨⟨st₁, mid⟩, hlists, rfl, rfl, hx⟩ := hcarried.ok_right
    obtain ⟨y, hy, hsame⟩ := serveOut_held hx d.output
    obtain rfl : (st', x') = y := Except.ok.inj (hserveOut.symm.trans hy)
    rcases dispatch_cases hok with ⟨hgt, -⟩ | ⟨-, ⟨hserved⟩⟩
    · exact absurd hexp (not_le.mpr hgt)
    · obtain ⟨-, hmid⟩ := Prod.mk.inj (Except.ok.inj (hserved.serveIn.symm.trans hlists))
      have hend := hserved.serveOut
      rw [hmid] at hend
      obtain ⟨hst, hconn⟩ := Prod.mk.inj (hend.symm.trans (Prod.ext hsame.status.symm hsame.conn.symm))
      change Net.Step timeout (some ⟨c, d, x.conn⟩) _ _
      rw [← hmid]
      refine .serve (k := k) hbatch hd hexp hserved ?_ ?_
      · rw [hmid]
        exact hin
      · rw [hmid, hconn, hst]
        exact hout

/-- **The projection of runs.** -/
theorem HeldNet.Run.project {n₀ : HeldNet} (h₀ : n₀.net.server.Initial) (hrun : n₀.Run timeout n) :
    n₀.net.Run timeout n.net ∧ n.net.server.Inv ∧ n.server.Good := by
  induction hrun with
  | refl =>
    refine ⟨.refl, h₀.inv, fun c hc => ?_⟩
    change c ∈ n₀.net.server.world.alloc.live at hc
    rw [h₀.live] at hc
    exact absurd hc (Finset.notMem_empty c)
  | tail _ hstep ih =>
    obtain ⟨hrun, hs, hgood⟩ := ih
    obtain ⟨t, hstep⟩ := hstep
    obtain ⟨hstep', hgood'⟩ := hstep.project hs hgood
    exact ⟨hrun.tail ⟨t, hstep'⟩, hstep'.inv hs, hgood'⟩

end Project

/-! ### One request -/

/-- The server before its first connection. -/
def HeldNet.first : HeldNet := ⟨.first, fun _ => .first⟩

/-- The first connection at time 100, in a run in which no append has moved a block. -/
structure HeldNet.FirstAt (n : HeldNet) (events : Option (List Event)) (conn : Conn) (k : Socket) : Prop where
  run : HeldNet.first.Run 10 n
  net : n.net.FirstAt events conn k

section FirstAt

variable {env : Env} {ps : List (PageRequest env)} {n : HeldNet} {events events' : Option (List Event)}
  {conn mid conn' : Conn} {k k₁ k' : Socket} {l l' : Log} {st st' : Option Status} {d : Service}

theorem HeldNet.FirstAt.good (h : n.FirstAt events conn k) : n.server.Good := (h.run.project first_initial).2.2

theorem HeldNet.FirstAt.quiet (h : n.FirstAt events conn k) {net : Net} (hnet : net.FirstAt events' conn k')
    (hstep : Net.Step 10 none n.net net) : ∃ n' : HeldNet, n'.FirstAt events' conn k' ∧ n'.net = net ∧
      n'.bufs 4096 = n.bufs 4096 ∧ HeldNet.Keeps 10 none n n' := by
  obtain ⟨bufs, hbufs⟩ := h.good.carries net.server
  have hkeeps : HeldNet.Keeps 10 none n ⟨net, bufs⟩ := .quiet hstep hbufs
  exact ⟨⟨net, bufs⟩, ⟨h.run.tail ⟨_, hkeeps⟩, hnet⟩, rfl, hbufs.stays 4096 hnet.mem h.net.mem, hkeeps⟩

end FirstAt

end Lotos
