import Lotos.System.Epoll

/-!
# No wake-up is lost

With `EPOLLET` a handler that left something unread, or stopped before the socket was full, would not be called again.  Along
every run of the server, whatever arrives between the steps: what the mask of a connection asks for and the socket has is on
the ready list, or in an event that is still to be processed, or the connection is about to be closed (`Net.Awake`).  The
reason is different for each way in which a handler ends:

* `request_recv` reads until `EAGAIN`, so that nothing is left to read;
* `response_send` and `response_handle_send_file` send until `EAGAIN`, so that there is no room left;
* where a handler ends before that, it changes the mask, and `epoll_ctl` looks at the socket again, or it answers `ERROR`.
-/

namespace Lotos

/-! ### The calls on one socket -/

/-- What is there is on the ready list. -/
def Armed (x : Mask × Socket) : Prop := x.2.poll x.1 = true → x.2.ready = true

theorem epollCtl_armed (m : Mask) (k : Socket) : Armed (m, epollCtl m k) := by
  intro h
  exact Bool.or_eq_true_iff.mpr (.inr h)

/-- A call changes nothing, or it calls `epoll_ctl` last. -/
theorem changeMask_cases (already : Bool) (m : Mask) (x : Mask × Socket) :
    changeMask already m x = x ∨ Armed (changeMask already m x) := by
  unfold changeMask
  split_ifs
  · exact .inl rfl
  · exact .inr (epollCtl_armed _ _)

theorem maskCall_cases {x y : Mask × Socket} (h : MaskCall x y) : y = x ∨ Armed y := by
  cases h <;> exact changeMask_cases _ _ _

theorem maskCalls_cases {x y : Mask × Socket} (h : MaskCalls x y) : y = x ∨ Armed y := by
  induction h with
  | refl => exact .inl rfl
  | tail _ hcall ih =>
    rcases maskCall_cases hcall with rfl | harmed
    · exact ih
    · exact .inr harmed

theorem MaskCalls.armed {x y : Mask × Socket} (h : MaskCalls x y) (hx : Armed x ∨ y.1 ≠ x.1) : Armed y := by
  rcases maskCalls_cases h with rfl | harmed
  · exact hx.resolve_right fun hne => hne rfl
  · exact harmed

/-- `request_recv` that ends by `EAGAIN` has read all there is. -/
theorem Recvs.drained {k k' : Socket} {recvs : List RecvResult} (h : Recvs k recvs k') (hst : recvStatus recvs = .again) :
    k'.readable = false := by
  induction h with
  | data hne hle hrx h ih =>
    rw [recvStatus, if_neg (by rw [List.length_eq_zero_iff]; exact hne)] at hst
    exact ih hst
  | again h => exact h
  | closed => cases hst
  | error => cases hst

/-! ### How the handlers end -/

section Ends

variable {env : Env} {c : Conn}

theorem requestHandle_error {recvs : List RecvResult} {res : Status × Conn} (h : requestHandle env recvs c = .ok res)
    (hst : recvStatus recvs ≠ .again) : res.1 = .error := by
  rw [requestHandle_eq, if_neg hst] at h
  rw [← Except.ok.inj h]

theorem responseSend_status (sends : List SendResult) (c : Conn) : (responseSend c sends).1 ≠ .crlfLine := by
  induction sends generalizing c with
  | nil => simp [responseSend]
  | cons r rest ih =>
    cases r with
    | sent k =>
      simp only [responseSend]
      split_ifs
      · simp
      · exact ih _
    | again => simp [responseSend]
    | error => simp [responseSend]

theorem responseHandleSendFile_status (files : List SendResult) (c : Conn) :
    (responseHandleSendFile c files).1 ≠ .crlfLine := by
  induction files generalizing c with
  | nil => simp [responseHandleSendFile]
  | cons r rest ih =>
    cases r with
    | sent k =>
      simp only [responseHandleSendFile]
      split_ifs
      · simp
      · exact ih _
    | again => simp [responseHandleSendFile]
    | error => simp [responseHandleSendFile]

theorem resHandler_status (sends files : List SendResult) (c : Conn) (hd : ResHandler) :
    (hd.call sends files c).1 ≠ .crlfLine := by
  cases hd with
  | sendBuffer =>
    have hsend := responseSend_status sends c
    simp only [ResHandler.call, responseHandleSendBuffer]
    split
    · split_ifs <;> simp
    · rename_i heq
      rw [heq] at hsend
      exact hsend
  | sendFile => exact responseHandleSendFile_status files c

theorem responseLoop_status (sends files : List SendResult) (c : Conn) : (responseLoop sends files c).1 ≠ .crlfLine := by
  induction hn : c.req.resHandler.rank using Nat.strong_induction_on generalizing c with
  | _ n ih =>
    have hcall := resHandler_status sends files c c.req.resHandler
    rcases hres : c.req.resHandler.call sends files c with ⟨st, c'⟩
    rw [hres] at hcall
    by_cases hst : st = .ok
    · subst hst
      by_cases hdone : c'.req.par.responseDone = true
      · rw [responseLoop_stop hres (.inr hdone)]
        exact hcall
      · rw [responseLoop_next hres (by simpa using hdone)]
        exact ih _ (hn ▸ resHandler_rank hres hdone) c' rfl
    · rw [responseLoop_stop hres (.inl hst)]
      exact hcall

theorem LoopEnd.done {res : Status × Conn} (h : LoopEnd c res) (hst : res.1 = .ok) : res.2.req.par.responseDone = true := by
  cases h with
  | buffer _ hne => exact absurd hst hne
  | noFile => rfl
  | doneBefore _ _ hdone hf => exact hf.responseDone.trans hdone
  | file _ hne => exact absurd hst hne
  | endOfFile => rfl

/-- **How `response_handle` ends**: by `ERROR`, by `EAGAIN` with the mask as it was, or with the mask turned to `EPOLLIN`. -/
theorem responseHandle_ends (sends files : List SendResult) (c : Conn) (hout : c.epollOut = true) :
    (responseHandle sends files c).1 = .error ∨
      (responseHandle sends files c).1 = .again ∨ (responseHandle sends files c).2.mask ≠ c.mask := by
  have hloop := responseLoop_cases sends files c
  have hstatus := responseLoop_status sends files c
  rcases responseHandle_cases sends files c with ⟨-, -, heq⟩ | ⟨-, -, heq⟩ | ⟨hnot, heq⟩ <;> rw [heq]
  · refine .inr (.inr ?_)
    intro hmask
    have hbit : false = c.epollOut := congrArg Mask.epollOut hmask
    rw [hout] at hbit
    cases hbit
  · exact .inl rfl
  · cases hst : (responseLoop sends files c).1 with
    | error => exact .inl rfl
    | again => exact .inr (.inl rfl)
    | ok =>
      have hdone := hloop.done hst
      rw [hnot] at hdone
      cases hdone
    | crlfLine => exact absurd hst hstatus

end Ends

/-! ### The invariant -/

/-- What the mask of a connection asks for and the socket has is on the ready list, or in an event still to be processed. -/
structure Net.Covered (n : Net) (c : ConnPtr) : Prop where
  input : (n.server.conns c).epollIn = true → (n.socks c).readable = true →
    (n.socks c).ready = true ∨ ∃ o, .conn c true o ∈ n.server.batch.getD []
  output : (n.server.conns c).epollOut = true → (n.socks c).writable = true →
    (n.socks c).ready = true ∨ ∃ i, .conn c i true ∈ n.server.batch.getD []

/-- The connection will be closed at the end of the batch. -/
structure Net.Overdue (timeout : ℤ) (n : Net) (c : ConnPtr) : Prop where
  batch : n.server.batch ≠ none
  noEvent : ∀ i o, .conn c i o ∉ n.server.batch.getD []
  due : timeout ≤ n.server.world.now - n.server.world.heap.activeTime c

/-- No connection is forgotten. -/
def Net.Awake (timeout : ℤ) (n : Net) : Prop := ∀ c ∈ n.server.world.alloc.live, n.Covered c ∨ n.Overdue timeout c

section Invariant

variable {timeout : ℤ} {n n' : Net} {c : ConnPtr}

/-- With what is there on the ready list, nothing has to be in an event. -/
theorem Net.Covered.of_armed (h : Armed ((n.server.conns c).mask, n.socks c)) : n.Covered c := by
  refine ⟨fun hin hread => .inl (h ?_), fun hout hwrite => .inl (h ?_)⟩
  · exact Bool.or_eq_true_iff.mpr (.inl (Bool.and_eq_true_iff.mpr ⟨hin, hread⟩))
  · exact Bool.or_eq_true_iff.mpr (.inr (Bool.and_eq_true_iff.mpr ⟨hout, hwrite⟩))

theorem Net.Covered.frame (h : n.Covered c) (hconn : n'.server.conns c = n.server.conns c) (hsock : n'.socks c = n.socks c)
    (hevents : ∀ i o, (i = true ∨ o = true) → .conn c i o ∈ n.server.batch.getD [] → .conn c i o ∈ n'.server.batch.getD []) :
    n'.Covered c := by
  refine ⟨?_, ?_⟩ <;> rw [hconn, hsock]
  · intro hin hread
    exact (h.input hin hread).imp_right fun h => h.imp fun o hmem => hevents true o (.inl rfl) hmem
  · intro hout hwrite
    exact (h.output hout hwrite).imp_right fun h => h.imp fun i hmem => hevents i true (.inr rfl) hmem

theorem Net.Overdue.frame (h : n.Overdue timeout c) (hbatch : n'.server.batch ≠ none)
    (hevents : ∀ i o, .conn c i o ∈ n'.server.batch.getD [] → .conn c i o ∈ n.server.batch.getD [])
    (hnow : n.server.world.now ≤ n'.server.world.now)
    (htime : n'.server.world.heap.activeTime c = n.server.world.heap.activeTime c) : n'.Overdue timeout c := by
  refine ⟨hbatch, fun i o hmem => h.noEvent i o (hevents i o hmem), ?_⟩
  rw [htime]
  have := h.due
  omega

theorem Net.Covered.peer {k : Socket} (h : n.Covered c) (hpeer : Socket.Peer (n.server.conns c).mask (n.socks c) k) :
    ({ n with socks := Function.update n.socks c k } : Net).Covered c := by
  have hready : ∀ b : Bool, (n.socks c).ready = true → ((n.socks c).ready || b) = true := by
    intro b hb
    rw [hb, Bool.true_or]
  refine ⟨?_, ?_⟩ <;> simp only [Function.update_self]
  · intro hin hread
    cases hpeer with
    | arrive bs heof => exact .inl (Bool.or_eq_true_iff.mpr (.inr hin))
    | shut => exact .inl (Bool.or_eq_true_iff.mpr (.inr hin))
    | room => exact (h.input hin hread).imp_left (hready _)
    | spurious => exact .inl rfl
  · intro hout hwrite
    cases hpeer with
    | arrive bs heof => exact (h.output hout hwrite).imp_left (hready _)
    | shut => exact (h.output hout hwrite).imp_left (hready _)
    | room => exact .inl (Bool.or_eq_true_iff.mpr (.inr hout))
    | spurious => exact .inl rfl

theorem Net.Covered.wait {events : List Event} {socks : ConnPtr → Socket} (h : n.Covered c) (hbatch : n.server.batch = none)
    (hwait : n.Waits events socks) : (⟨{ n.server with batch := some events }, socks⟩ : Net).Covered c := by
  have hin := h.input
  have hout := h.output
  simp only [hbatch, Option.getD_none, List.not_mem_nil, exists_false, or_false] at hin hout
  rcases hwait.taken c with hsame | ⟨htaken, hmem | hpoll⟩
  · refine ⟨?_, ?_⟩ <;> simp only [hsame]
    · exact fun hi hread => .inl (hin hi hread)
    · exact fun ho hwrite => .inl (hout ho hwrite)
  · obtain ⟨e, he, hc⟩ := List.mem_filterMap.mp hmem
    cases e with
    | listen => cases hc
    | conn c' i o =>
      cases hc
      obtain ⟨-, hi, ho⟩ := hwait.ready c i o he
      refine ⟨?_, ?_⟩ <;> simp only [htaken]
      · intro hbit hread
        rw [show i = true by rw [hi, hbit]; exact hread] at he
        exact .inr ⟨o, he⟩
      · intro hbit hwrite
        rw [show o = true by rw [ho, hbit]; exact hwrite] at he
        exact .inr ⟨i, he⟩
  · refine .of_armed ?_
    change Armed ((n.server.conns c).mask, socks c)
    rw [htaken]
    intro h
    cases hpoll.symm.trans h

/-- What a handler that has been called leaves on the socket, or it has answered `ERROR`. -/
theorem servesIn_armed {before : Conn} {conn : Conn} {input : Option (Env × List RecvResult)} {st : Option Status}
    {k k' : Socket} (hout : before.epollOut = false) (hconn : before.serveIn input = .ok (st, conn))
    (h : ServesIn before.mask conn.mask k k' input) (hinput : input.isSome = true) :
    st = some .error ∨ Armed (conn.mask, k') := by
  rcases input with _ | ⟨env, recvs⟩
  · cases hinput
  obtain ⟨k₁, hrecvs, hcalls⟩ := h
  simp only [Conn.serveIn] at hconn
  split at hconn
  · rename_i st' c' hres
    obtain ⟨rfl, rfl⟩ := Prod.mk.inj (Except.ok.inj hconn)
    by_cases hst : recvStatus recvs = .again
    · refine .inr (hcalls.armed (.inl ?_))
      intro hpoll
      simp only [Socket.poll, Conn.mask, hrecvs.drained hst, hout, Bool.and_false, Bool.false_and, Bool.or_false] at hpoll
      cases hpoll
    · exact .inl (congrArg some (requestHandle_error hres hst))
  · cases hconn

theorem servesOut_armed {before : Conn} {conn : Conn} {output : Option (List SendResult × List SendResult)}
    {st : Option Status}
    {k k' : Socket} (hin : before.epollIn = false) (hbit : before.epollOut = true)
    (hconn : before.serveOut output = (st, conn))
    (h : ServesOut before.mask conn.mask k k' st) (houtput : output.isSome = true) :
    st = some .error ∨ Armed (conn.mask, k') := by
  rcases output with _ | ⟨sends, files⟩
  · cases houtput
  obtain ⟨rfl, rfl⟩ := Prod.mk.inj hconn
  obtain ⟨room, hroom, hcalls⟩ := h
  rcases responseHandle_ends sends files before hbit with hst | hst | hmask
  · exact .inl (congrArg some hst)
  · refine .inr (hcalls.armed (.inl ?_))
    intro hpoll
    simp only [Socket.poll, Conn.mask, hin, hroom hst, Bool.and_false, Bool.false_and, Bool.or_false] at hpoll
    cases hpoll
  · exact .inr (hcalls.armed (.inr hmask))

/-- **An event that is served**: the connection has failed, or its socket is left armed, or no handler was called. -/
theorem serve_armed {s : Server} {i o : Bool} {events : List Event} {d : Service} {k k' : Socket}
    (hd : d.Possible n.server.world i o)
    (hmasked : (i = true → (n.server.conns c).epollIn = true) ∧ (o = true → (n.server.conns c).epollOut = true))
    (hone : (n.server.conns c).epollOut = !(n.server.conns c).epollIn)
    (h : Served { n.server with batch := some events } s c d)
    (hin : ServesIn (n.server.conns c).mask h.conn.mask (n.socks c) k d.input)
    (hout : ServesOut h.conn.mask h.conn'.mask k k' h.st') :
    s.last c = some .error ∨ Armed ((s.conns c).mask, k') ∨
      i = false ∧ o = false ∧ k' = n.socks c ∧ s.conns c = n.server.conns c := by
  have hserveIn := h.serveIn
  have hserveOut := h.serveOut
  have hsomeIn := hd.input
  have hsomeOut := hd.output
  rw [h.conns, h.last, Function.update_self, Function.update_self]
  cases i with
  | true =>
    have hbit := hmasked.1 rfl
    -- the mask has one bit, so that `response_handle` is not called
    rw [hbit] at hone
    have ho : o = false := by
      cases o with
      | false => rfl
      | true => cases hone.symm.trans (hmasked.2 rfl)
    rw [ho, Option.isSome_eq_false_iff, Option.isNone_iff_eq_none] at hsomeOut
    rw [hsomeOut] at hserveOut
    obtain ⟨hst', hconn'⟩ := Prod.mk.inj hserveOut
    rw [← hst'] at hout
    rw [← hst', ← hconn', show k' = k from hout]
    rcases servesIn_armed hone hserveIn hin hsomeIn with hst | harmed
    · rw [hst]
      exact .inl rfl
    · exact .inr (.inl harmed)
  | false =>
    rw [Option.isSome_eq_false_iff, Option.isNone_iff_eq_none] at hsomeIn
    rw [hsomeIn] at hserveIn hin
    obtain ⟨hst, hconn⟩ := Prod.mk.inj (Except.ok.inj hserveIn)
    change n.server.conns c = h.conn at hconn
    rw [← hconn] at hserveOut hout
    rw [show k = n.socks c from hin] at hout
    cases o with
    | true =>
      have hbit := hmasked.2 rfl
      have hinBit : (n.server.conns c).epollIn = false := by
        rw [hbit] at hone
        simpa using hone
      rcases servesOut_armed hinBit hbit hserveOut hout hsomeOut with hst' | harmed
      · rw [hst']
        exact .inl rfl
      · exact .inr (.inl harmed)
    | false =>
      rw [Option.isSome_eq_false_iff, Option.isNone_iff_eq_none] at hsomeOut
      rw [hsomeOut] at hserveOut
      obtain ⟨hst', hconn'⟩ := Prod.mk.inj hserveOut
      rw [← hst'] at hout
      exact .inr (.inr ⟨rfl, rfl, hout, hconn'.symm⟩)

/-! ### Runs -/

/-- The server started when the clock had passed the timeout, and has run. -/
def Server.Started (timeout : ℤ) (s : Server) : Prop :=
  ∃ s₀ : Server, s₀.Initial ∧ timeout ≤ s₀.world.now ∧ s₀.Run timeout s

theorem Server.Started.timely {s : Server} (h : s.Started timeout) : s.Timely timeout := by
  obtain ⟨s₀, hinit, hclock, hrun⟩ := h
  exact timely_of_run hinit hclock hrun

theorem Server.Started.reachable {s : Server} (h : s.Started timeout) : s.Reachable timeout := by
  obtain ⟨s₀, hinit, -, hrun⟩ := h
  exact ⟨s₀, hinit, hrun⟩

theorem Server.Started.step {s s' : Server} (h : s.Started timeout) (hstep : s.Run timeout s') : s'.Started timeout := by
  obtain ⟨s₀, hinit, hclock, hrun⟩ := h
  exact ⟨s₀, hinit, hclock, hrun.trans hstep⟩

theorem Net.Awake.accept {w : World} {fd nextFd : ℕ} {r : AcceptResults} {o : Option ConnPtr} {k : Socket}
    (h : n.Awake timeout) (hinv : n.server.Inv) (hr : r.Possible n.server.world)
    (hok : connectionAccept { n.server.world with openFds := insert fd n.server.world.openFds } fd r = .ok (o, w)) :
    (⟨n.server.accepted w nextFd o, n.added k o⟩ : Net).Awake timeout := by
  obtain ⟨hnow, hsame⟩ := accept_frame hinv hr hok
  rcases hinv.accept hr hok with ⟨rfl, hlive⟩ | ⟨c', rfl, -, hlive⟩
  · intro c hc
    have hc : c ∈ n.server.world.alloc.live := hlive ▸ hc
    refine (h c hc).imp (fun h => h.frame rfl rfl fun _ _ _ hmem => hmem) fun h => ?_
    exact h.frame h.batch (fun _ _ hmem => hmem) hnow (hsame c hc).1
  · intro c hc
    by_cases hcc : c = c'
    · subst hcc
      refine .inl (.of_armed ?_)
      simp only [Net.added, Function.update_self, (accepted_self n.server w nextFd c).1]
      exact epollCtl_armed _ k
    · have hc : c ∈ n.server.world.alloc.live := by
        refine Finset.mem_of_mem_insert_of_ne ?_ hcc
        rw [← hlive]
        exact hc
      have hconn : (n.server.accepted w nextFd (some c')).conns c = n.server.conns c := Function.update_of_ne hcc _ _
      refine (h c hc).imp (fun h => h.frame hconn (Function.update_of_ne hcc _ _) fun _ _ _ hmem => hmem) fun h => ?_
      exact h.frame h.batch (fun _ _ hmem => hmem) hnow (hsame c hc).1

theorem served_finished {s s' : Server} {i o : Bool} {d : Service} (hd : d.Possible s.world i o) (h : Served s s' c d)
    (hi : i = false) (hfin : (s.conns c).Finished) (hlast : s.last c = some .error) : s'.last c = some .error := by
  have hserveIn := h.serveIn
  have hserveOut := h.serveOut
  have hnone := hd.input
  rw [hi, Option.isSome_eq_false_iff, Option.isNone_iff_eq_none] at hnone
  rw [hnone] at hserveIn
  obtain ⟨hst, hconn⟩ := Prod.mk.inj (Except.ok.inj hserveIn)
  rw [h.last, Function.update_self, ← hst]
  rw [← hconn] at hserveOut
  rcases hout : d.output with _ | ⟨sends, files⟩ <;> rw [hout] at hserveOut
  · obtain ⟨hst', -⟩ := Prod.mk.inj hserveOut
    rw [← hst']
    exact hlast
  · have hst' : some (responseHandle sends files (s.conns c)).1 = h.st' := congrArg Prod.fst hserveOut
    rw [← hst', (responseHandle_finished hfin).2]
    rfl

theorem Server.Reachable.phase {s : Server} (h : s.Reachable timeout) (hc : c ∈ s.world.alloc.live) :
    (s.conns c).Reading ∨ (s.conns c).Sending ∨ (s.conns c).Finished ∧ s.last c = some .error := by
  obtain ⟨nextFd, now, cs, hrun, hof⟩ := h.conn hc
  have hphase := run_phase hrun
  rw [ConnState.Phase, hof.conn, hof.lastResult] at hphase
  exact hphase

theorem Net.Awake.serve {s : Server} {i o : Bool} {events : List Event} {d : Service} {k k' : Socket}
    (hawake : n.Awake timeout) (hreach : n.server.Started timeout) (hbatch : n.server.batch = some (.conn c i o :: events))
    (hd : d.Possible n.server.world i o) (hexp : d.now - n.server.world.heap.activeTime c ≤ timeout)
    (h : Served { n.server with batch := some events } s c d)
    (hin : ServesIn (n.server.conns c).mask h.conn.mask (n.socks c) k d.input)
    (hout : ServesOut h.conn.mask h.conn'.mask k k' h.st') :
    (⟨s, Function.update n.socks c k'⟩ : Net).Awake timeout := by
  have hinv := hreach.reachable.inv
  have hdisp := h.dispatch hexp
  have hrest : s.batch = some events := (dispatch_loop hdisp hd).1
  have hlive := hinv.live hbatch
  have halloc : s.world.alloc = n.server.world.alloc := hinv.dispatch_alloc hbatch hd hdisp
  have htimely : s.Timely timeout := (hreach.step (.single (.dispatch hbatch hd hdisp))).timely
  have hmasked := hinv.pending.masked c i o (next_mem hbatch)
  obtain ⟨-, -, -, hnow, htime⟩ := h.frame
  intro c' hc'
  change c' ∈ s.world.alloc.live at hc'
  by_cases hcc : c' = c
  · subst hcc
    -- a connection that has failed is closed at the end of the batch
    have hfailed (hlast : s.last c' = some .error) : (⟨s, Function.update n.socks c' k'⟩ : Net).Overdue timeout c' := by
      refine ⟨?_, ?_, ?_⟩
      · change s.batch ≠ none
        rw [hrest]
        rintro ⟨⟩
      · intro i' o' hmem'
        change Event.conn c' i' o' ∈ s.batch.getD [] at hmem'
        rw [hrest] at hmem'
        exact hinv.pending.notMem hbatch hmem' rfl
      · change timeout ≤ s.world.now - s.world.heap.activeTime c'
        rw [htimely.failed c' hc' hlast, sub_zero]
        exact htimely.clock
    have hserved : s.last c' = some .error ∨ Armed ((s.conns c').mask, k') ∨
        i = false ∧ o = false ∧ k' = n.socks c' ∧ s.conns c' = n.server.conns c' := by
      rcases hreach.reachable.phase hlive with hread | hsend | ⟨hfin, hlast⟩
      · exact serve_armed hd hmasked (by rw [hread.epollIn, hread.epollOut]; rfl) h hin hout
      · exact serve_armed hd hmasked (by rw [hsend.epollIn, hsend.epollOut]; rfl) h hin hout
      · have hi : i = false := by
          cases i with
          | false => rfl
          | true => cases hfin.epollIn.symm.trans (hmasked.1 rfl)
        exact .inl (served_finished (s := { n.server with batch := some events }) hd h hi hfin hlast)
    rcases hserved with hlast | harmed | ⟨rfl, rfl, hsock, hconn⟩
    · exact .inr (hfailed hlast)
    · refine .inl (.of_armed ?_)
      simp only [Function.update_self]
      exact harmed
    · rcases hawake c' hlive with hcov | hover
      · refine .inl (hcov.frame hconn ((Function.update_self _ _ _).trans hsock) ?_)
        intro i' o' hbit hmem'
        rw [hbatch] at hmem'
        change Event.conn c' i' o' ∈ s.batch.getD []
        rw [hrest]
        rcases List.mem_cons.mp hmem' with heq | hmem'
        · cases heq
          rcases hbit with hbit | hbit <;> cases hbit
        · exact hmem'
      · exact absurd (next_mem hbatch) (hover.noEvent _ _)
  · obtain ⟨hconn, -⟩ := dispatch_other hdisp hcc
    have hsock : Function.update n.socks c k' c' = n.socks c' := Function.update_of_ne hcc _ _
    rw [halloc] at hc'
    refine (hawake c' hc').imp (fun hcov => hcov.frame hconn hsock ?_) fun hover => hover.frame ?_ ?_ ?_ ?_
    · intro i' o' _ hmem'
      rw [hbatch] at hmem'
      change Event.conn c' i' o' ∈ s.batch.getD []
      rw [hrest]
      refine (List.mem_cons.mp hmem').resolve_left ?_
      intro heq
      cases heq
      exact hcc rfl
    · change s.batch ≠ none
      rw [hrest]
      rintro ⟨⟩
    · intro i' o' hmem'
      change Event.conn c' i' o' ∈ s.batch.getD [] at hmem'
      rw [hrest] at hmem'
      rw [hbatch]
      exact List.mem_cons_of_mem _ hmem'
    · change n.server.world.now ≤ s.world.now
      rw [hnow]
      exact hd.clock.1.trans (hd.clock.2.1.trans hd.clock.2.2)
    · change s.world.heap.activeTime c' = n.server.world.heap.activeTime c'
      rw [htime, timeAfter_of_ne hcc, timeAfter_of_ne hcc]

/-- **The step.** -/
theorem step_awake {t : Option Serving} (hawake : n.Awake timeout) (hreach : n.server.Started timeout)
    (hstep : Net.Step timeout t n n') :
    n'.Awake timeout := by
  cases hstep with
  | @peer _ c' k h =>
    intro c hc
    refine (hawake c hc).imp (fun hcov => ?_) fun hover => ⟨hover.batch, hover.noEvent, hover.due⟩
    by_cases hcc : c = c'
    · subst hcc
      exact hcov.peer h
    · exact hcov.frame rfl (Function.update_of_ne hcc _ _) fun _ _ _ hmem => hmem
  | wait hbatch h =>
    intro c hc
    rcases hawake c hc with hcov | hover
    · exact .inl (hcov.wait hbatch h)
    · exact absurd hbatch hover.batch
  | accept hbatch hfd hr h => exact hawake.accept hreach.reachable.inv hr h
  | @acceptDone _ events hbatch =>
    intro c hc
    refine (hawake c hc).imp (fun hcov => hcov.frame rfl rfl ?_) fun hover => hover.frame ?_ ?_ le_rfl rfl
    · intro i o _ hmem
      rw [hbatch] at hmem
      exact (List.mem_cons.mp hmem).resolve_left (by rintro ⟨⟩)
    · rintro ⟨⟩
    · intro i o hmem
      rw [hbatch]
      exact List.mem_cons_of_mem _ hmem
  | @skip _ s c' i o events d hbatch hd hexp h =>
    rcases dispatch_cases h with ⟨-, rfl⟩ | ⟨hle, -⟩
    · intro c hc
      by_cases hcc : c = c'
      · -- the connection has expired: `connection_prune` closes it
        subst hcc
        refine .inr ⟨?_, ?_, hexp.le⟩
        · rintro ⟨⟩
        · intro i' o' hmem
          exact hreach.reachable.inv.pending.notMem hbatch hmem rfl
      · refine (hawake c hc).imp (fun hcov => hcov.frame rfl rfl ?_) fun hover => hover.frame ?_ ?_ hd.clock.1 rfl
        · intro i' o' _ hmem
          rw [hbatch] at hmem
          refine (List.mem_cons.mp hmem).resolve_left ?_
          intro heq
          cases heq
          exact hcc rfl
        · rintro ⟨⟩
        · intro i' o' hmem
          rw [hbatch]
          exact List.mem_cons_of_mem _ hmem
    · exact absurd hexp (not_lt.mpr hle)
  | serve hbatch hd hexp h hin hout => exact hawake.serve hreach hbatch hd hexp h hin hout
  | @prune _ w clock hbatch hmono hclock h =>
    obtain ⟨closed, -, -, hlive, -, -, -, -, -, -, hyoung⟩ := prune_frame hreach.reachable.inv.world h
    intro c hc
    change c ∈ w.alloc.live at hc
    have hyoung := hyoung c hc
    rw [hlive, Finset.mem_sdiff] at hc
    rcases hawake c hc.1 with hcov | hover
    · refine .inl (hcov.frame rfl rfl ?_)
      intro i o _ hmem
      rw [hbatch] at hmem
      exact hmem
    · have hdue := hover.due
      have hlater : n.server.world.now ≤ clock closed.length := hclock.trans (hmono (Nat.zero_le _))
      omega

theorem run_step_awake (h : n.server.Started timeout ∧ n.Awake timeout) (hstep : ∃ t, Net.Step timeout t n n') :
    n'.server.Started timeout ∧ n'.Awake timeout := by
  obtain ⟨s, hrun, hs⟩ := net_simulates timeout rfl hstep
  rw [← hs] at hrun
  obtain ⟨t, hstep⟩ := hstep
  exact ⟨h.1.step hrun, step_awake h.2 h.1 hstep⟩

theorem awake_of_run {n₀ : Net} (h₀ : n₀.server.Initial) (hclock : timeout ≤ n₀.server.world.now) (hrun : n₀.Run timeout n) :
    n.server.Started timeout ∧ n.Awake timeout := by
  refine Simulation.invariant (fun n : Net => n.server.Started timeout ∧ n.Awake timeout)
    (fun _ _ h hstep => run_step_awake h hstep) hrun ⟨⟨n₀.server, h₀, hclock, .refl⟩, ?_⟩
  intro c hc
  rw [h₀.live] at hc
  exact absurd hc (Finset.notMem_empty c)

/-- When `epoll_wait` is called, a connection that is not on the ready list waits for its client. -/
theorem Net.Awake.waits (hawake : n.Awake timeout) (hstarted : n.server.Started timeout) (hbatch : n.server.batch = none)
    (hc : c ∈ n.server.world.alloc.live) : (n.socks c).ready = true ∨
      (n.server.conns c).Reading ∧ (n.socks c).rx = [] ∧ (n.socks c).eof = false ∨
      (n.server.conns c).Sending ∧ (n.socks c).writable = false := by
  have hcov : n.Covered c := (hawake c hc).resolve_right fun hover => hover.batch hbatch
  by_cases hready : (n.socks c).ready = true
  · exact .inl hready
  have hnone : ∀ e : Event, e ∉ n.server.batch.getD [] := by
    rw [hbatch]
    exact fun e => List.not_mem_nil
  rcases (hstarted.timely.phase hstarted.reachable hbatch hc).2 with hread | hsend
  · refine .inr (.inl ⟨hread, ?_⟩)
    have hnot : (n.socks c).readable ≠ true := by
      intro hreadable
      rcases hcov.input hread.epollIn hreadable with h | ⟨o, h⟩
      · exact hready h
      · exact hnone _ h
    simpa [Socket.readable] using hnot
  · refine .inr (.inr ⟨hsend, ?_⟩)
    have hnot : (n.socks c).writable ≠ true := by
      intro hwritable
      rcases hcov.output hsend.epollOut hwritable with h | ⟨i, h⟩
      · exact hready h
      · exact hnone _ h
    simpa using hnot

/-- **No wake-up is lost.**  If the clock has passed the timeout when the server starts, then along every run of the server
with its sockets, what the mask of a connection asks for and the socket has is on the ready list, or in an event that is
still to be processed, or the connection is closed at the end of the batch.  So when `epoll_wait` is called, a connection
that is not on the ready list waits for its client: it is reading a request and has read all that has arrived, or it is
sending a response and there is no room. -/
theorem run_awake (timeout : ℤ) (n₀ n : Net) (h₀ : n₀.server.Initial) (hclock : timeout ≤ n₀.server.world.now)
    (hrun : n₀.Run timeout n) :
    (∀ c, n.server.world.heap.Holds c → n.Covered c ∨ n.Overdue timeout c) ∧
    (n.server.batch = none → ∀ c, n.server.world.heap.Holds c → (n.socks c).ready = true ∨
      (n.server.conns c).Reading ∧ (n.socks c).rx = [] ∧ (n.socks c).eof = false ∨
      (n.server.conns c).Sending ∧ (n.socks c).writable = false) := by
  obtain ⟨hstarted, hawake⟩ := awake_of_run h₀ hclock hrun
  have hholds := hstarted.reachable.inv.world.valid.holds
  exact ⟨fun c hc => hawake c ((hholds c).mpr hc), fun hbatch c hc => hawake.waits hstarted hbatch ((hholds c).mpr hc)⟩

/-! ### The first connection -/

/-- The server before its first connection. -/
def Net.first : Net := ⟨Server.first, fun _ => ⟨[], false, true, false⟩⟩

/-- The first connection at time 100: the events that are left, its state and its socket. -/
structure Net.FirstAt (n : Net) (events : Option (List Event)) (conn : Conn) (k : Socket) : Prop where
  run : Net.first.Run 10 n
  batch : n.server.batch = events
  live : n.server.world.alloc.live = {4096}
  epoll : n.server.world.epoll = {4096}
  time : n.server.world.heap.activeTime 4096 = 100
  now : n.server.world.now = 100
  conn : n.server.conns 4096 = conn
  sock : n.socks 4096 = k

theorem first_inv (hrun : Net.first.Run 10 n) : n.server.Inv := by
  obtain ⟨s, hrun, hs⟩ := (net_simulates 10).run hrun rfl
  rw [hs]
  exact Server.Reachable.inv ⟨Server.first, first_initial, hrun⟩

theorem serve_total {timeout : ℤ} {i o : Bool} {events : List Event} {d : Service} {st st' : Option Status}
    {conn conn' : Conn} {k k' : Socket} (hinv : n.server.Inv) (hlive : c ∈ n.server.world.alloc.live)
    (hbatch : n.server.batch = some (.conn c i o :: events)) (hd : d.Possible n.server.world i o)
    (hexp : d.now - n.server.world.heap.activeTime c ≤ timeout)
    (hserveIn : (n.server.conns c).serveIn d.input = .ok (st, conn))
    (hserveOut : conn.serveOut d.output = (st', conn'))
    (hin : ServesIn (n.server.conns c).mask conn.mask (n.socks c) k d.input)
    (hout : ServesOut conn.mask conn'.mask k k' st') :
    ∃ (s : Server) (h : Served { n.server with batch := some events } s c d), h.st = st ∧ h.st' = st' ∧
      s.batch = some events ∧ s.conns c = conn' ∧ s.world.alloc = n.server.world.alloc ∧
      Net.Step timeout (some ⟨c, d, conn⟩) n ⟨s, Function.update n.socks c k'⟩ := by
  obtain ⟨w₁, hok₁, hw₁, halloc₁, hnow₁⟩ := handled_inv hinv.world hlive (hd.clock.1.trans hd.clock.2.1) st
  obtain ⟨w₂, hok₂, -, halloc₂, -⟩ := handled_inv hw₁ (by rwa [halloc₁]) (hnow₁.trans_le hd.clock.2.2) st'
  refine ⟨_, ⟨st, conn, st', conn', w₁, w₂, hserveIn, hok₁, hserveOut, hok₂, rfl⟩, rfl, rfl, rfl, Function.update_self _ _ _,
    halloc₂.trans halloc₁, ?_⟩
  exact .serve hbatch hd hexp ⟨st, conn, st', conn', w₁, w₂, hserveIn, hok₁, hserveOut, hok₂, rfl⟩ hin hout

theorem timeAfter_self {time : ConnPtr → ℤ} {now : ℤ} {st : Option Status} (htime : time c = now) (hst : st ≠ some .error) :
    timeAfter time c now st c = now := by
  cases st with
  | none => exact htime
  | some st => exact (Function.update_self _ _ _).trans (if_neg fun h => hst (congrArg some h))

section FirstAt

variable {events : Option (List Event)} {conn mid conn' : Conn} {k k₁ k' : Socket} {st st' : Option Status} {d : Service}

theorem Net.FirstAt.inv (h : n.FirstAt events conn k) : n.server.Inv := first_inv h.run

theorem Net.FirstAt.mem (h : n.FirstAt events conn k) : 4096 ∈ n.server.world.alloc.live := by
  rw [h.live]
  exact Finset.mem_singleton_self _

theorem Net.FirstAt.holds (h : n.FirstAt events conn k) : n.server.world.heap.Holds 4096 := live_holds h.inv h.live

theorem Net.FirstAt.arrives (h : n.FirstAt events conn k) (heof : k.eof = false) (bs : List Byte) : ∃ n' : Net,
    n'.FirstAt events conn { k with rx := k.rx ++ bs, ready := k.ready || conn.epollIn } ∧ Net.Step 10 none n n' := by
  let k' : Socket := { k with rx := k.rx ++ bs, ready := k.ready || conn.epollIn }
  have hpeer : Net.Step 10 none n { n with socks := Function.update n.socks 4096 k' } := by
    refine .peer ?_
    rw [h.sock, h.conn]
    exact .arrive bs heof
  exact ⟨_, ⟨h.run.tail ⟨_, hpeer⟩, h.batch, h.live, h.epoll, h.time, h.now, h.conn,
    Function.update_self (4096 : ConnPtr) k' n.socks⟩, hpeer⟩

theorem Net.FirstAt.reports (h : n.FirstAt none conn k) (hready : k.ready = true) : ∃ n' : Net,
    n'.FirstAt (some [.conn 4096 (conn.epollIn && k.readable) (conn.epollOut && k.writable)]) conn
      { k with ready := false } ∧ Net.Step 10 none n n' := by
  have hsock : Function.update n.socks 4096 { k with ready := false } 4096 = { k with ready := false } :=
    Function.update_self (4096 : ConnPtr) ({ k with ready := false } : Socket) n.socks
  let events : List Event := [.conn 4096 (conn.epollIn && k.readable) (conn.epollOut && k.writable)]
  have hwait : Net.Step 10 none n
      ⟨{ n.server with batch := some events }, Function.update n.socks 4096 { k with ready := false }⟩ := by
    refine .wait h.batch ⟨⟨?_, ?_, List.nodup_singleton _⟩, ?_, ?_⟩
    · intro c i o hmem
      cases List.mem_singleton.mp hmem
      rw [h.epoll]
      exact Finset.mem_singleton_self _
    · intro c i o hmem
      cases List.mem_singleton.mp hmem
      rw [h.conn]
      exact ⟨fun hb => (Bool.and_eq_true_iff.mp hb).1, fun hb => (Bool.and_eq_true_iff.mp hb).1⟩
    · intro c i o hmem
      cases List.mem_singleton.mp hmem
      rw [h.conn, h.sock]
      exact ⟨hready, rfl, rfl⟩
    · intro c
      by_cases hc : c = 4096
      · subst hc
        rw [h.sock]
        exact .inr ⟨hsock, .inl (List.mem_singleton_self _)⟩
      · exact .inl (Function.update_of_ne hc _ _)
  exact ⟨_, ⟨h.run.tail ⟨_, hwait⟩, rfl, h.live, h.epoll, h.time, h.now, h.conn, hsock⟩, hwait⟩

theorem Net.FirstAt.serves {i o : Bool} (h : n.FirstAt (some [.conn 4096 i o]) conn k)
    (hclock : d.now = 100 ∧ d.inputNow = 100 ∧ d.outputNow = 100) (hbits : d.input.isSome = i ∧ d.output.isSome = o)
    (hserveIn : conn.serveIn d.input = .ok (st, mid)) (hserveOut : mid.serveOut d.output = (st', conn'))
    (hne : st ≠ some .error ∧ st' ≠ some .error) (hin : ServesIn conn.mask mid.mask k k₁ d.input)
    (hout : ServesOut mid.mask conn'.mask k₁ k' st') :
    ∃ n' : Net, n'.FirstAt (some []) conn' k' ∧ Net.Step 10 (some ⟨4096, d, mid⟩) n n' := by
  have hd : d.Possible n.server.world i o := by
    refine ⟨?_, hbits.1, hbits.2⟩
    rw [h.now]
    omega
  have hexp : d.now - n.server.world.heap.activeTime 4096 ≤ 10 := by
    rw [h.time]
    omega
  rw [← h.conn] at hserveIn hin
  rw [← h.sock] at hin
  obtain ⟨s, hserved, rfl, rfl, hbatch, hconn, halloc, hserve⟩ :=
    serve_total h.inv h.mem h.batch hd hexp hserveIn hserveOut hin hout
  obtain ⟨-, -, hepoll, hnow, htime⟩ := hserved.frame
  refine ⟨_, ⟨h.run.tail ⟨_, hserve⟩, hbatch, ?_, hepoll.trans h.epoll, ?_, hnow.trans hclock.2.2, hconn, ?_⟩, hserve⟩
  · exact (congrArg Allocator.live halloc).trans h.live
  · change s.world.heap.activeTime 4096 = 100
    rw [htime, hclock.2.1, hclock.2.2]
    exact timeAfter_self (timeAfter_self h.time hne.1) hne.2
  · exact Function.update_self (4096 : ConnPtr) k' n.socks

theorem Net.FirstAt.prunes (h : n.FirstAt (some []) conn k) : ∃ n' : Net, n'.FirstAt none conn k ∧
    Net.Step 10 none n n' := by
  obtain ⟨w, hprune, -⟩ := prune_inv 10 h.inv.world (show Monotone fun _ => 100 from fun _ _ _ => le_rfl) h.now.le
  obtain ⟨closed, hsub, -, hlive, -, -, hepoll, htime, hnow, hdue, -⟩ := prune_frame h.inv.world hprune
  have hnone : closed = [] := by
    cases closed with
    | nil => rfl
    | cons c closed =>
      have hdue := hdue 0 c rfl
      have hc := hsub c List.mem_cons_self
      rw [h.live, Finset.mem_singleton] at hc
      rw [hc, h.time] at hdue
      omega
  subst hnone
  rw [List.toFinset_nil, Finset.sdiff_empty] at hlive hepoll
  have hend : Net.Step 10 none n ⟨{ n.server with world := w, batch := none }, n.socks⟩ :=
    .prune h.batch (fun _ _ _ => le_rfl) h.now.le hprune
  refine ⟨_, ⟨h.run.tail ⟨_, hend⟩, rfl, hlive.trans h.live, hepoll.trans h.epoll, ?_, hnow, h.conn, h.sock⟩, hend⟩
  change w.heap.activeTime 4096 = 100
  rw [htime]
  exact h.time

end FirstAt

/-- The first connection has been accepted, and nothing has arrived. -/
theorem first_waits_at : ∃ n : Net, Relation.ReflTransGen (Net.Step 10 none) Net.first n ∧
    n.FirstAt none (ConnState.accept 7 100).conn ⟨[], false, true, false⟩ := by
  obtain ⟨w, haccept, -, hw, w', hprune, hlive, hepoll, htime, hnow⟩ := first_accept_ok
  have hwait : Net.Step 10 none Net.first ⟨{ Server.first with batch := some [.listen] }, Net.first.socks⟩ := by
    refine .wait rfl ⟨⟨?_, ?_, List.nodup_nil⟩, ?_,
      fun c => .inl rfl⟩ <;> intro c i o hmem <;> cases List.mem_singleton.mp hmem
  have hok : Net.Step 10 none ⟨{ Server.first with batch := some [.listen] }, Net.first.socks⟩
      ⟨({ Server.first with batch := some [.listen] } : Server).accepted w 7 (some 4096),
        Net.first.added ⟨[], false, true, false⟩ (some 4096)⟩ :=
    .accept rfl (show 5 ∉ _ by decide) ⟨le_rfl, by rintro c ⟨⟩⟩ haccept
  have hdone : Net.Step 10 none _ _ :=
    .acceptDone (n := ⟨({ Server.first with batch := some [.listen] } : Server).accepted w 7 (some 4096),
      Net.first.added ⟨[], false, true, false⟩ (some 4096)⟩) rfl
  have hend : Net.Step 10 none _ _ := .prune (n := ⟨{ ({ Server.first with batch := some [.listen] } : Server).accepted w 7
    (some 4096) with batch := some [] }, Net.first.added ⟨[], false, true, false⟩ (some 4096)⟩) rfl (fun _ _ _ => le_rfl)
      hw.le hprune
  have hrun := (((Relation.ReflTransGen.single hwait).tail hok).tail hdone).tail hend
  refine ⟨_, hrun, hrun.lift id fun _ _ h => ⟨_, h⟩, rfl, hlive, hepoll, htime, hnow, ?_, ?_⟩
  · exact (accepted_self { Server.first with batch := some [.listen] } w 7 4096).1
  · exact Function.update_self (4096 : ConnPtr) (epollCtl ⟨true, false⟩ ⟨[], false, true, false⟩) Net.first.socks

/-- The rest of a request line arrives when its beginning has been read, and the batch has not ended. -/
theorem run_awake_first : ∃ n : Net, Net.first.Run 10 n ∧ n.server.batch = none ∧ (n.socks 4096).rx = str "HTTP/1.1\r\n" ∧
    n.server.world.heap.Holds 4096 ∧ ((n.socks 4096).ready = true ∨
      (n.server.conns 4096).Reading ∧ (n.socks 4096).rx = [] ∧ (n.socks 4096).eof = false ∨
      (n.server.conns 4096).Sending ∧ (n.socks 4096).writable = false) := by
  obtain ⟨n, -, h⟩ := first_waits_at
  let recvs : List RecvResult := [.data (str "GET / "), .again]
  obtain ⟨n₁, h₁, -⟩ := h.arrives rfl (str "GET / ")
  obtain ⟨n₂, h₂, -⟩ := h₁.reports rfl
  obtain ⟨⟨st, c⟩, hhandle, hobs⟩ := observe_ok (fun res : Status × Conn => decide (res.1 = .again ∧ res.2.epollIn = true ∧
      res.2.epollOut = false)) (x := requestHandle (.page []) recvs (ConnState.accept 7 100).conn) (b := true)
        (by decide +kernel)
  obtain ⟨rfl, hin, hout⟩ := of_decide_eq_true hobs
  have hmask : c.mask = ⟨true, false⟩ := congrArg₂ Mask.mk hin hout
  have hrecvs : ServesIn ⟨true, false⟩ c.mask ⟨str "GET / ", false, true, false⟩ ⟨[], false, true, false⟩
      (some (.page [], recvs)) := by
    rw [hmask]
    exact ⟨_, .data (by decide) (by decide) (List.append_nil _).symm (.again rfl), .refl⟩
  obtain ⟨n₃, h₃, -⟩ := h₂.serves (d := ⟨100, some (.page [], recvs), 100, none, 100⟩) ⟨rfl, rfl, rfl⟩ ⟨by decide, by decide⟩
    (by rw [Conn.serveIn, hhandle]) rfl ⟨by rintro ⟨⟩, by rintro ⟨⟩⟩ hrecvs rfl
  obtain ⟨n₄, h₄, -⟩ := h₃.arrives rfl (str "HTTP/1.1\r\n")
  obtain ⟨n', h', -⟩ := h₄.prunes
  have hrx : (n'.socks 4096).rx = str "HTTP/1.1\r\n" := congrArg Socket.rx h'.sock
  have hawake := (run_awake 10 Net.first n' first_initial (by decide) h'.run).2 h'.batch 4096 h'.holds
  exact ⟨n', h'.run, h'.batch, hrx, h'.holds, hawake⟩

end Invariant

end Lotos
