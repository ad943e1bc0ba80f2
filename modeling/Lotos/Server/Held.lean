import Lotos.Buffer.Calls
import Lotos.Lib.Simulation
import Lotos.Request.Helpers
import Lotos.Request.Send
import Lotos.Server.Defs

/-!
# A connection with its buffers in memory

The handlers work on `Conn`, where a buffer is a list of bytes.  `HeldConn` also has the blocks: what `recv` delivers is
appended to the block at `r->ib`, of which `request_recv` keeps the old address, the handlers read that block and write to
it, the functions `response_append_*` append to the block at `r->ob`, and `response_send` reads it.  A call with an address
at which there is no block any more is a fault.  The addresses of different connections have nothing to do with each other:
`malloc` and `realloc` return no address that is in use.

If no append moves a block under a handle that is still used (`BufferCall.Keeps`), a step in memory is the step on lists
(`apply_carried`), and a run is one (`HeldState.Run.project`).
-/

namespace Lotos

structure HeldConn where
  /-- `ib` and `ob` in it are what the blocks have shown last -/
  conn : Conn
  bufs : Buffers

/-- What stops the process. -/
inductive HeldFault where
  | fault (e : Fault)
  | buffer (e : BufferFault)
  deriving DecidableEq, Repr

/-- The answers of `realloc`, should it be called: for every chunk, and for the appends of every function. -/
structure Allocs where
  input : List Realloc
  output : List (List Realloc)

/-- The blocks are looked at. -/
def HeldConn.sync (x : HeldConn) : HeldConn :=
  { x with conn := x.conn.mapReq fun r => { r with ib := x.bufs.ibBytes.getD [], ob := x.bufs.obBytes.getD [] } }

/-- `request_recv` -/
def HeldConn.requestRecv (recvs : List RecvResult) (ras : List Realloc) (x : HeldConn) : Except BufferFault HeldConn :=
  match x.bufs.applyAll (recvCalls recvs ras) with
  | .error e => .error e
  | .ok bufs => .ok (HeldConn.sync ⟨(Lotos.requestRecv x.conn recvs).2, bufs⟩)

/-- The loop of `request_handle`. -/
def HeldConn.handlerLoop (env : Env) (rass : List (List Realloc)) (x : HeldConn) : Except HeldFault (Status × HeldConn) :=
  match x.bufs.ibBytes with
  | none => .error (.buffer .dangling)
  | some _ =>
    match Lotos.handlerLoop env x.conn with
    | .error e => .error (.fault e)
    | .ok (st, c) =>
      match x.bufs.applyAll (helperCalls (loopHelpers env x.conn) rass) with
      | .error e => .error (.buffer e)
      | .ok bufs => .ok (st, HeldConn.sync ⟨c, bufs.rewriteIb c.req.ib⟩)

/-- `request_handle` -/
def HeldConn.requestHandle (env : Env) (recvs : List RecvResult) (al : Allocs) (x : HeldConn) :
    Except HeldFault (Status × HeldConn) :=
  match x.requestRecv recvs al.input with
  | .error e => .error (.buffer e)
  | .ok x => if recvStatus recvs = .again then x.handlerLoop env al.output else .ok (.error, x)

/-- The calls on the buffers in `response_handle`: `buffer_clear` when all of `ob` has been sent, and `request_reset`. -/
def Conn.responseCalls (sends files : List SendResult) (c : Conn) : List BufferCall :=
  let c' := (responseLoop sends files c).2
  (if c.req.resHandler = .sendBuffer ∧ (responseSend c sends).1 = .ok then [.clearOb] else []) ++
    if c'.req.par.responseDone = true ∧ c'.req.par.keepAlive = true then [.reset] else []

/-- `response_handle` -/
def HeldConn.responseHandle (sends files : List SendResult) (x : HeldConn) : Except HeldFault (Status × HeldConn) :=
  let c := x.sync.conn
  -- `response_send` reads the block
  if c.req.resHandler = .sendBuffer ∧ x.bufs.obBytes = none then .error (.buffer .dangling)
  else
    match x.bufs.applyAll (c.responseCalls sends files) with
    | .error e => .error (.buffer e)
    | .ok bufs =>
      match Lotos.responseHandle sends files c with
      | (st, c') => .ok (st, HeldConn.sync ⟨c', bufs⟩)

/-- A condition on the calls in `request_handle`, each in the state in which it is made. -/
def HeldConn.AllIn (cond : Buffers → BufferCall → Prop) (env : Env) (recvs : List RecvResult) (al : Allocs)
    (x : HeldConn) : Prop :=
  x.bufs.All cond (recvCalls recvs al.input) ∧
    (recvStatus recvs = .again → ∀ y, x.requestRecv recvs al.input = .ok y →
      y.bufs.All cond (helperCalls (loopHelpers env y.conn) al.output))

/-- The handles are the current ones, and the blocks hold the lists of the connection. -/
structure HeldConn.Good (x : HeldConn) : Prop where
  current : x.bufs.Current
  input : x.bufs.received = x.conn.req.ib
  output : x.bufs.appended = x.conn.req.ob

/-- What a result on lists has come to in memory: the same fault, or a related result. -/
abbrev Carried {α β : Type} (R : α → β → Prop) : Except Fault α → Except HeldFault β → Prop :=
  Simulation.Carried HeldFault.fault R

/-- The result of a handler on lists, and in memory. -/
structure SameResult (a : Status × Conn) (b : Status × HeldConn) : Prop where
  status : b.1 = a.1
  conn : b.2.conn = a.2
  good : b.2.Good

section Handlers

variable {x : HeldConn} {env : Env} {recvs : List RecvResult} {al : Allocs} {sends files : List SendResult}

theorem HeldConn.Good.sync (h : x.Good) : x.sync = x := by
  obtain ⟨conn, bufs⟩ := x
  rw [HeldConn.sync, h.current.ibBytes, h.current.obBytes]
  simp only [Option.getD_some]
  rw [h.input, h.output]
  rfl

theorem HeldConn.Good.next {c : Conn} {bufs : Buffers} (hcur : bufs.Current)
    (hcontent : bufs.content = (c.req.ib, c.req.ob)) :
    HeldConn.sync ⟨c, bufs⟩ = ⟨c, bufs⟩ ∧ (⟨c, bufs⟩ : HeldConn).Good := by
  obtain ⟨hin, hout⟩ := Prod.mk.inj hcontent
  have hgood : (⟨c, bufs⟩ : HeldConn).Good := ⟨hcur, hin, hout⟩
  exact ⟨hgood.sync, hgood⟩

theorem HeldConn.Good.content (h : x.Good) : x.bufs.content = (x.conn.req.ib, x.conn.req.ob) := Prod.ext h.input h.output

theorem requestRecv_held (h : x.Good) {ras : List Realloc}
    (hposs : x.bufs.All (fun s call => call.Possible s) (recvCalls recvs ras))
    (hkeeps : x.bufs.All (fun s call => call.Keeps s) (recvCalls recvs ras)) :
    ∃ y, x.requestRecv recvs ras = .ok y ∧ x.bufs.applyAll (recvCalls recvs ras) = .ok y.bufs ∧
      y.conn = x.conn.receive (recvBytes recvs) ∧ y.Good := by
  obtain ⟨bufs, hok, hcur⟩ := applyAll_current h.current hposs hkeeps
  have hcontent := applyAll_content hok
  rw [recvCalls_effect, h.content] at hcontent
  obtain ⟨hsync, hgood⟩ := HeldConn.Good.next (c := x.conn.receive (recvBytes recvs)) hcur hcontent
  refine ⟨⟨x.conn.receive (recvBytes recvs), bufs⟩, ?_, hok, rfl, hgood⟩
  rw [HeldConn.requestRecv, hok, requestRecv_eq]
  exact congrArg Except.ok hsync

theorem handlerLoop_held (h : x.Good) {rass : List (List Realloc)}
    (hposs : x.bufs.All (fun s call => call.Possible s) (helperCalls (loopHelpers env x.conn) rass))
    (hkeeps : x.bufs.All (fun s call => call.Keeps s) (helperCalls (loopHelpers env x.conn) rass)) :
    Carried SameResult (handlerLoop env x.conn) (x.handlerLoop env rass) := by
  rw [HeldConn.handlerLoop, h.current.ibBytes]
  cases hloop : handlerLoop env x.conn with
  | error e => exact .error e
  | ok res =>
    obtain ⟨st, c⟩ := res
    obtain ⟨bufs, hok, hcur⟩ := applyAll_current h.current hposs hkeeps
    have hcontent := applyAll_content hok
    rw [helperCalls_effect, h.content] at hcontent
    obtain ⟨hin, hout⟩ := Prod.mk.inj hcontent
    have hlen : c.req.ib.length = bufs.received.length := (handlerLoop_length hloop).trans (congrArg List.length hin).symm
    obtain ⟨hsync, hgood⟩ := HeldConn.Good.next (c := c) (hcur.rewriteIb hlen)
      (Prod.ext rfl (hout.trans (handlerLoop_helpers hloop).symm))
    simp only [hok]
    rw [hsync]
    exact .ok ⟨rfl, rfl, hgood⟩

/-- **`request_handle` in memory.** -/
theorem requestHandle_carried (h : x.Good) (hposs : x.AllIn (fun s call => call.Possible s) env recvs al)
    (hkeeps : x.AllIn (fun s call => call.Keeps s) env recvs al) :
    Carried SameResult (requestHandle env recvs x.conn) (x.requestHandle env recvs al) := by
  obtain ⟨y, hok, -, hconn, hy⟩ := requestRecv_held h hposs.1 hkeeps.1
  rw [requestHandle_eq, HeldConn.requestHandle, hok, ← hconn]
  simp only
  by_cases hst : recvStatus recvs = .again
  · rw [if_pos hst, if_pos hst]
    exact handlerLoop_held hy (hposs.2 hst y hok) (hkeeps.2 hst y hok)
  · rw [if_neg hst, if_neg hst]
    exact .ok ⟨rfl, rfl, hy⟩

/-- What fits moves no block, whatever `realloc` would answer. -/
theorem HeldConn.Good.keeps (h : x.Good) (hposs : x.AllIn (fun s call => call.Possible s) env recvs al) {n m : ℕ}
    (hroom : x.bufs.Room n m) (hlen : (recvBytes recvs).length ≤ n)
    (hout : recvStatus recvs = .again → (appendedBy (loopHelpers env (x.conn.receive (recvBytes recvs)))).length < m) :
    x.AllIn (fun s call => call.Keeps s) env recvs al := by
  obtain ⟨hrecv, hroom'⟩ := recvCalls_room h.current hroom hposs.1 hlen
  refine ⟨hrecv, fun hst y hok => ?_⟩
  obtain ⟨y', hok', hbufs, hconn, hy⟩ := requestRecv_held h hposs.1 hrecv
  obtain rfl := Except.ok.inj (hok'.symm.trans hok)
  refine (helperCalls_room hy.current (hroom' _ hbufs) (hposs.2 hst _ hok) ?_).1
  rw [hconn]
  exact hout hst

theorem HeldConn.Good.room (h : x.Good) (hposs : x.AllIn (fun s call => call.Possible s) env recvs al) {n m : ℕ}
    (hroom : x.bufs.Room n m) (hlen : (recvBytes recvs).length ≤ n) (hst : recvStatus recvs = .again)
    (hout : (appendedBy (loopHelpers env (x.conn.receive (recvBytes recvs)))).length < m) {st : Status} {y : HeldConn}
    (hok : x.requestHandle env recvs al = .ok (st, y)) : y.bufs.Room (n - (recvBytes recvs).length)
      (m - (appendedBy (loopHelpers env (x.conn.receive (recvBytes recvs)))).length) := by
  obtain ⟨hrecv, hroom'⟩ := recvCalls_room h.current hroom hposs.1 hlen
  obtain ⟨z, hrecv', hbufs, hconn, hz⟩ := requestRecv_held h hposs.1 hrecv
  rw [← hconn] at hout ⊢
  obtain ⟨hkeeps, hend⟩ := helperCalls_room hz.current (hroom' _ hbufs) (hposs.2 hst z hrecv') hout
  obtain ⟨bufs, hall, hcur⟩ := applyAll_current hz.current (hposs.2 hst z hrecv') hkeeps
  rw [HeldConn.requestHandle, hrecv'] at hok
  simp only [if_pos hst] at hok
  rw [HeldConn.handlerLoop, hz.current.ibBytes] at hok
  simp only at hok
  split at hok
  · cases hok
  · rw [hall] at hok
    obtain ⟨-, rfl⟩ := Prod.mk.inj (Except.ok.inj hok)
    exact (hend _ hall).rewriteIb _ hcur

theorem possible_null (h : (recvBytes recvs).length ≤ bufsiz) :
    x.AllIn (fun s call => call.Possible s) env recvs ⟨[], []⟩ := by
  have hrecv : ∀ (recvs : List RecvResult) (s : Buffers), (recvBytes recvs).length ≤ bufsiz →
      s.All (fun s call => call.Possible s) (recvCalls recvs []) := by
    intro recvs
    induction recvs with
    | nil => exact fun _ _ => trivial
    | cons r rest ih =>
      intro s h
      cases r with
      | data bs =>
        rw [recvCalls]
        rw [recvBytes] at h
        split_ifs at h ⊢ with hnil
        · trivial
        · rw [List.length_append] at h
          refine ⟨⟨Nat.pos_of_ne_zero hnil, ?_, Realloc.null_possible _ _⟩, fun s' _ => ih s' ?_⟩ <;> omega
      | _ => trivial
  have hhelpers : ∀ (fs : List Helper) (s : Buffers), s.All (fun s call => call.Possible s) (helperCalls fs []) := by
    intro fs
    induction fs with
    | nil => exact fun _ => trivial
    | cons f fs ih => exact fun s => ⟨fun _ _ _ hra => absurd hra List.not_mem_nil, fun s' _ => ih s'⟩
  exact ⟨hrecv recvs x.bufs h, fun _ y _ => hhelpers _ y.bufs⟩

theorem responseSend_ob (sends : List SendResult) (c : Conn) :
    (responseSend c sends).2.req.ob = if (responseSend c sends).1 = .ok then [] else c.req.ob := by
  induction sends generalizing c with
  | nil => rfl
  | cons r rest ih =>
    cases r with
    | sent k =>
      simp only [responseSend]
      by_cases hnil : (List.take k (List.drop c.req.par.bufferSent c.req.ob)).length = 0
      · rw [if_pos hnil]
        rfl
      · rw [if_neg hnil]
        exact ih _
    | _ => rfl

theorem responseHandleSendFile_ob (files : List SendResult) (c : Conn) :
    (responseHandleSendFile c files).2.req.ob = c.req.ob := by
  induction files generalizing c with
  | nil => rfl
  | cons r rest ih =>
    cases r with
    | sent k =>
      simp only [responseHandleSendFile]
      split_ifs
      · rfl
      · exact ih _
    | _ => rfl

theorem responseLoop_sendFile (sends files : List SendResult) {c : Conn} (h : c.req.resHandler = .sendFile) :
    responseLoop sends files c = responseHandleSendFile c files := by
  have hcall : c.req.resHandler.call sends files c = responseHandleSendFile c files := by rw [h]; rfl
  rcases hres : responseHandleSendFile c files with ⟨st, c'⟩
  refine responseLoop_stop (hcall.trans hres) ?_
  by_cases hst : st = .ok
  · subst hst
    exact .inr (responseHandleSendFile_done hres)
  · exact .inl hst

theorem responseLoop_ob (sends files : List SendResult) (c : Conn) : (responseLoop sends files c).2.req.ob =
    if c.req.resHandler = .sendBuffer ∧ (responseSend c sends).1 = .ok then [] else c.req.ob := by
  cases hh : c.req.resHandler with
  | sendFile =>
    rw [responseLoop_sendFile sends files hh, responseHandleSendFile_ob, if_neg (by rintro ⟨⟨⟩, -⟩)]
  | sendBuffer =>
    have hob := responseSend_ob sends c
    have hcall : c.req.resHandler.call sends files c = responseHandleSendBuffer c sends := by rw [hh]; rfl
    rcases hsend : responseSend c sends with ⟨st, c₁⟩
    rw [hsend] at hob
    simp only [true_and]
    rw [← hob]
    by_cases hst : st = .ok
    · subst hst
      by_cases hfd : c₁.req.resourceFd = none
      · have hbuf : responseHandleSendBuffer c sends = (.ok, c₁.setDone.disableOut) := by
          rw [responseHandleSendBuffer, hsend]
          simp only [hfd, ne_eq, not_true_eq_false, if_false]
          rfl
        rw [responseLoop_stop (hcall.trans hbuf) (.inr rfl)]
        rfl
      · have hbuf : responseHandleSendBuffer c sends = (.ok, c₁.mapReq fun r => { r with resHandler := .sendFile }) := by
          rw [responseHandleSendBuffer, hsend]
          simp only [hfd, ne_eq, not_false_eq_true, if_true]
        cases hdone : c₁.req.par.responseDone with
        | true =>
          rw [responseLoop_stop (hcall.trans hbuf) (.inr hdone)]
          rfl
        | false =>
          rw [responseLoop_next (hcall.trans hbuf) hdone, responseLoop_sendFile sends files rfl, responseHandleSendFile_ob]
          rfl
    · have hbuf : responseHandleSendBuffer c sends = (st, c₁) := by
        rw [responseHandleSendBuffer, hsend]
        split
        · rename_i heq
          exact absurd (Prod.ext_iff.mp heq).1 hst
        · rename_i heq
          exact heq.symm
      rw [responseLoop_stop (hcall.trans hbuf) (.inl hst)]

theorem responseCalls_free (sends files : List SendResult) (c : Conn) {cond : Buffers → BufferCall → Prop}
    (hclear : ∀ s, cond s .clearOb) (hreset : ∀ s, cond s .reset) (s : Buffers) :
    s.All cond (c.responseCalls sends files) := by
  unfold Conn.responseCalls
  simp only
  split_ifs <;> simp only [List.append_nil, List.nil_append, List.cons_append, Buffers.All, hclear, hreset, true_and,
    implies_true]

theorem responseCalls_effect (sends files : List SendResult) (c : Conn) :
    (c.responseCalls sends files).foldl BufferCall.effect (c.req.ib, c.req.ob) =
      ((responseHandle sends files c).2.req.ib, (responseHandle sends files c).2.req.ob) := by
  have hib : (responseLoop sends files c).2.req.ib = c.req.ib := by
    obtain ⟨c₁, hf, heq | heq | ⟨fd, heq⟩⟩ := (responseLoop_cases sends files c).shape <;> rw [heq]
    all_goals
      change c₁.req.ib = c.req.ib
      rw [hf.req]
  have hloop : (if c.req.resHandler = .sendBuffer ∧ (responseSend c sends).1 = .ok then [BufferCall.clearOb] else []).foldl
      BufferCall.effect (c.req.ib, c.req.ob) =
        ((responseLoop sends files c).2.req.ib, (responseLoop sends files c).2.req.ob) := by
    rw [responseLoop_ob, hib]
    split_ifs <;> rfl
  rw [Conn.responseCalls, List.foldl_append, hloop]
  rcases responseHandle_cases sends files c with ⟨hdone, hkeep, heq⟩ | ⟨-, hkeep, heq⟩ | ⟨hdone, heq⟩ <;> rw [heq]
  · rw [if_pos ⟨hdone, hkeep⟩]
    rfl
  · rw [if_neg (by rw [hkeep]; rintro ⟨-, ⟨⟩⟩)]
    rfl
  · rw [if_neg (by rw [hdone]; rintro ⟨⟨⟩, -⟩)]
    rfl

/-- **`response_handle` in memory**: it runs into no fault. -/
theorem responseHandle_held (h : x.Good) (sends files : List SendResult) :
    ∃ y, x.responseHandle sends files = .ok y ∧ SameResult (responseHandle sends files x.conn) y := by
  have hread : ¬ (x.conn.req.resHandler = .sendBuffer ∧ x.bufs.obBytes = none) := by
    rw [h.current.obBytes]
    rintro ⟨-, ⟨⟩⟩
  have hfree := fun cond hclear hreset => @responseCalls_free sends files x.conn cond hclear hreset x.bufs
  obtain ⟨bufs, hok, hcur⟩ := applyAll_current h.current (hfree _ (fun _ => trivial) fun _ => trivial)
    (hfree _ (fun _ => trivial) fun _ => trivial)
  have hcontent := applyAll_content hok
  rw [h.content, responseCalls_effect] at hcontent
  obtain ⟨hsync, hgood⟩ := HeldConn.Good.next hcur hcontent
  rw [HeldConn.responseHandle, h.sync]
  simp only [if_neg hread, hok]
  rcases hres : responseHandle sends files x.conn with ⟨st, c'⟩
  rw [hres] at hsync hgood
  exact ⟨_, rfl, rfl, congrArg HeldConn.conn hsync, by rw [hsync]; exact hgood⟩

end Handlers

/-! ### Runs -/

structure HeldState where
  state : ConnState
  bufs : Buffers

def HeldState.held (s : HeldState) : HeldConn := ⟨s.state.conn, s.bufs⟩

/-- The two blocks of `buffer_init` that `request_init` has got, with anything in them. -/
def Buffers.New (bufs : Buffers) : Prop :=
  ∃ ib ob more more', ob ≠ ib ∧ bufs = .init ib ob (mallocMem more) (mallocMem more')

/-- The connection that `connection_accept` has made. -/
def HeldState.accept (nextFd : ℕ) (now : ℤ) (bufs : Buffers) : HeldState := ⟨.accept nextFd now, bufs⟩

def HeldState.finish (s : HeldState) (now : ℤ) (res : Status × HeldConn) : HeldState :=
  ⟨s.state.finish now (res.1, res.2.conn), res.2.bufs⟩

/-- The branch of `EPOLLIN`. -/
def HeldState.input (s : HeldState) (now : ℤ) (env : Env) (recvs : List RecvResult) (al : Allocs) :
    Except HeldFault HeldState :=
  match s.held.requestHandle env recvs al with
  | .ok res => .ok (s.finish now res)
  | .error e => .error e

/-- The branch of `EPOLLOUT`. -/
def HeldState.output (s : HeldState) (now : ℤ) (sends files : List SendResult) : Except HeldFault HeldState :=
  match s.held.responseHandle sends files with
  | .ok res => .ok (s.finish now res)
  | .error e => .error e

/-- The body of the loop over the events, for an event on this connection, and `connection_close`. -/
def HeldState.apply (timeout : ℤ) (s : HeldState) (al : Allocs) : Action → Except HeldFault HeldState
  | .event now input output =>
    if now - s.state.activeTime > timeout then .ok s
    else
      match input with
      | some (env, recvs) =>
        match s.input now env recvs al, output with
        | .ok s', some (sends, files) => s'.output now sends files
        | res, _ => res
      | none =>
        match output with
        | some (sends, files) => s.output now sends files
        | none => .ok s
  | .close _ =>
    match s.bufs.free with
    | .error e => .error (.buffer e)
    | .ok bufs => .ok ⟨{ s.state with closed := true }, bufs⟩

/-- A condition on the calls on the buffers that an action makes. -/
def HeldState.All (cond : Buffers → BufferCall → Prop) (timeout : ℤ) (s : HeldState) (al : Allocs) : Action → Prop
  | .event now (some (env, recvs)) _ => now - s.state.activeTime ≤ timeout → s.held.AllIn cond env recvs al
  | _ => True

/-- What `recv` and `realloc` can answer. -/
def HeldState.Possible (timeout : ℤ) (s : HeldState) (al : Allocs) (a : Action) : Prop :=
  s.All (fun bufs call => call.Possible bufs) timeout al a

/-- No block is moved under a handle that is still used. -/
def HeldState.Keeps (timeout : ℤ) (s : HeldState) (al : Allocs) (a : Action) : Prop :=
  s.All (fun bufs call => call.Keeps bufs) timeout al a

/-- Until it is closed, the handles are the current ones, and the blocks hold the lists of the connection. -/
def HeldState.Good (s : HeldState) : Prop := s.state.closed = false → s.held.Good

/-- A state on lists, and in memory. -/
structure SameState (a : ConnState) (s : HeldState) : Prop where
  state : s.state = a
  good : s.Good

/-- A step in memory, under a condition. -/
def HeldState.Step (timeout : ℤ) (cond : HeldState → Allocs → Action → Prop) (s s' : HeldState) : Prop :=
  ∃ a al, a.Enabled timeout s.state ∧ s.Possible timeout al a ∧ cond s al a ∧ s.apply timeout al a = .ok s'

abbrev HeldState.Run (timeout : ℤ) (cond : HeldState → Allocs → Action → Prop) : HeldState → HeldState → Prop :=
  Relation.ReflTransGen (HeldState.Step timeout cond)

section Runs

variable {timeout : ℤ} {s : HeldState} {a : Action} {al : Allocs}

theorem Buffers.New.good {bufs : Buffers} (h : bufs.New) {c : Conn} (hib : c.req.ib = []) (hob : c.req.ob = []) :
    (⟨c, bufs⟩ : HeldConn).Good := by
  obtain ⟨ib, ob, more, more', hne, rfl⟩ := h
  exact ⟨init_current hne (mallocMem_length more) (mallocMem_length more'), hib.symm, hob.symm⟩

theorem Buffers.New.room {bufs : Buffers} (h : bufs.New) : bufs.Room bufsiz bufsiz := by
  obtain ⟨ib, ob, more, more', hne, rfl⟩ := h
  exact init_room hne

theorem accept_good (nextFd : ℕ) (now : ℤ) {bufs : Buffers} (h : bufs.New) : (HeldState.accept nextFd now bufs).Good :=
  fun _ => h.good rfl rfl

theorem finish_same {now : ℤ} {res : Status × Conn} {res' : Status × HeldConn} (h : SameResult res res') :
    SameState (s.state.finish now res) (s.finish now res') := by
  obtain ⟨st, c⟩ := res
  obtain ⟨st', conn, bufs⟩ := res'
  obtain ⟨rfl, rfl, hgood⟩ := h
  exact ⟨rfl, fun _ => hgood⟩

theorem output_same {st : ConnState} (h : SameState st s) (hopen : st.closed = false) (now : ℤ)
    (sends files : List SendResult) :
    ∃ s', s.output now sends files = .ok s' ∧ SameState (st.output now sends files) s' := by
  obtain ⟨rfl, hgood⟩ := h
  obtain ⟨y, hok, hsame⟩ := responseHandle_held (hgood hopen) sends files
  refine ⟨s.finish now y, ?_, finish_same hsame⟩
  rw [HeldState.output, hok]

theorem input_carried (h : s.held.Good) (now : ℤ) {env : Env} {recvs : List RecvResult}
    (hposs : s.held.AllIn (fun s call => call.Possible s) env recvs al)
    (hkeeps : s.held.AllIn (fun s call => call.Keeps s) env recvs al) :
    Carried SameState (s.state.input now env recvs) (s.input now env recvs al) := by
  have hcarried := requestHandle_carried h hposs hkeeps
  change Carried SameResult (requestHandle env recvs s.state.conn) _ at hcarried
  rw [ConnState.input, HeldState.input]
  cases hres : requestHandle env recvs s.state.conn with
  | error e =>
    rw [hres] at hcarried
    rw [hcarried.of_error]
    exact .error e
  | ok res =>
    rw [hres] at hcarried
    obtain ⟨y, hy, hsame⟩ := hcarried.of_ok
    rw [hy]
    exact .ok (finish_same hsame)

/-- **The step.**  An action whose appends move no block under a handle does in memory what it does on lists. -/
theorem apply_carried (h : s.Good) (hen : a.Enabled timeout s.state) (hposs : s.Possible timeout al a)
    (hkeeps : s.Keeps timeout al a) : Carried SameState (s.state.apply timeout a) (s.apply timeout al a) := by
  cases a with
  | close now =>
    obtain ⟨bufs, hfree⟩ := (h hen.1).current.free
    change s.bufs.free = _ at hfree
    rw [HeldState.apply, hfree]
    exact .ok ⟨rfl, by rintro ⟨⟩⟩
  | event now input output =>
    have hgood := h hen.1
    simp only [ConnState.apply, HeldState.apply]
    split_ifs with hexp
    · exact .ok ⟨rfl, h⟩
    rcases input with _ | ⟨env, recvs⟩
    · rcases output with _ | ⟨sends, files⟩
      · exact .ok ⟨rfl, h⟩
      · obtain ⟨s', hok, hsame⟩ := output_same ⟨rfl, h⟩ hen.1 now sends files
        simp only [hok]
        exact .ok hsame
    · have hcarried := input_carried hgood now (hposs (not_lt.mp hexp)) (hkeeps (not_lt.mp hexp))
      cases hin : s.state.input now env recvs with
      | error e =>
        rw [hin] at hcarried
        simp only [hin, hcarried.of_error]
        exact .error e
      | ok st =>
        rw [hin] at hcarried
        obtain ⟨s₁, hin', hsame⟩ := hcarried.of_ok
        rcases output with _ | ⟨sends, files⟩
        · simp only [hin, hin']
          exact .ok hsame
        · have hopen : st.closed = false := by
            unfold ConnState.input at hin
            split at hin
            · rw [← Except.ok.inj hin]
              exact hen.1
            · cases hin
          obtain ⟨s', hok, hsame'⟩ := output_same hsame hopen now sends files
          simp only [hin, hin', hok]
          exact .ok hsame'

/-- What has been done in memory has been done on lists. -/
theorem HeldState.Good.project (h : s.Good) (hen : a.Enabled timeout s.state) (hposs : s.Possible timeout al a)
    (hkeeps : s.Keeps timeout al a) {s' : HeldState} (happly : s.apply timeout al a = .ok s') :
    s.state.apply timeout a = .ok s'.state ∧ s'.Good := by
  have hcarried := apply_carried h hen hposs hkeeps
  rw [happly] at hcarried
  obtain ⟨st, hst, rfl, hgood⟩ := hcarried.ok_right
  exact ⟨hst, hgood⟩

theorem HeldState.Good.lift (h : s.Good) (hen : a.Enabled timeout s.state) (hposs : s.Possible timeout al a)
    (hkeeps : s.Keeps timeout al a) {st : ConnState} (happly : s.state.apply timeout a = .ok st) :
    ∃ bufs, s.apply timeout al a = .ok ⟨st, bufs⟩ ∧ (⟨st, bufs⟩ : HeldState).Good := by
  have hcarried := apply_carried h hen hposs hkeeps
  rw [happly] at hcarried
  obtain ⟨⟨_, bufs⟩, hok, rfl, hgood⟩ := hcarried.of_ok
  exact ⟨bufs, hok, hgood⟩

/-- **The projection of runs.** -/
theorem HeldState.Run.project {nextFd : ℕ} {now : ℤ} {bufs : Buffers} (hbufs : bufs.New)
    (hrun : HeldState.Run timeout (fun s al a => s.Keeps timeout al a) (.accept nextFd now bufs) s) :
    Lotos.Run timeout anyStep (.accept nextFd now) s.state ∧ s.Good := by
  induction hrun with
  | refl => exact ⟨.refl, accept_good nextFd now hbufs⟩
  | tail _ hstep ih =>
    obtain ⟨hrun, hgood⟩ := ih
    obtain ⟨a, al, hen, hposs, hkeeps, happly⟩ := hstep
    obtain ⟨happly', hgood'⟩ := hgood.project hen hposs hkeeps happly
    exact ⟨hrun.tail ⟨a, hen, trivial, happly'⟩, hgood'⟩

/-- An event of `EPOLLIN` whose bytes and responses fit. -/
theorem HeldState.Good.fits (h : s.Good) (timeout now : ℤ) (env : Env) (recvs : List RecvResult)
    (output : Option (List SendResult × List SendResult)) (hopen : s.state.closed = false) {n m : ℕ}
    (hroom : s.bufs.Room n m) (hbatch : (recvBytes recvs).length ≤ bufsiz) (hlen : (recvBytes recvs).length ≤ n)
    (hout : (appendedBy (loopHelpers env (s.state.conn.receive (recvBytes recvs)))).length < m) :
    s.Possible timeout ⟨[], []⟩ (.event now (some (env, recvs)) output) ∧
      s.Keeps timeout ⟨[], []⟩ (.event now (some (env, recvs)) output) :=
  ⟨fun _ => possible_null hbatch, fun _ => (h hopen).keeps (possible_null hbatch) hroom hlen fun _ => hout⟩

end Runs

/-- The blocks at the addresses 1 and 2. -/
def Buffers.first : Buffers := .init 1 2 (mallocMem fun _ => 0) (mallocMem fun _ => 0)

theorem first_new : Buffers.first.New := ⟨1, 2, fun _ => 0, fun _ => 0, by decide, rfl⟩

end Lotos
