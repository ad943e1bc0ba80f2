import Lotos.Request.Accept

/-!
# The handlers on the memory of the buffers

`buffer_clear` leaves the bytes of earlier requests in memory, and several functions read on past `ib->len`: the loop that
looks for the end of the path, `atoi`, `strncasecmp`, and whatever takes a string.  Here `ib` is the whole memory of the
input buffer, and `len` is `ib->len`.  The parsers stop at `len`; everything else is the functions of `Request.Defs`, on all
of the memory.

`RawConn` adds the memory of the output buffer.  Both buffers have the capacity they were made with; `outgrown` is where
`buffer_cat` would have to call `realloc`.
-/

namespace Lotos

/-! ### The handlers, up to `len` -/

/-- `parse_request_line`, on the memory of the buffer. -/
def parseRequestLineIn (mem : List Byte) (len : ℕ) (ar : ParseArchive) : Status × ParseArchive :=
  rlFinish (mem.take len) (Scan.run (rlStep mem) ar.nextParsePos ((mem.take len).drop ar.nextParsePos) ar)

/-- `request_handle_request_line` -/
def requestLineIn (env : Env) (len : ℕ) (c : Conn) : Except Fault (Status × Conn) :=
  match parseRequestLineIn c.req.ib len c.req.par with
  | (.again, ar) => .ok (.again, c.mapPar fun _ => ar)
  | (.ok, ar) =>
    if ar.version.httpMajor > 1 ∨ ar.version.httpMinor > 1 then
      .ok (responseAssembleErrBuffer env (c.mapPar fun _ => ar) 505)
    else requestHandlePath env (c.mapPar fun _ => ar).acceptVersion
  | (_, ar) => .ok (responseAssembleErrBuffer env (c.mapPar fun _ => ar) 400)

/-- `request_handle_headers` -/
def headersIn (env : Env) (len : ℕ) (c : Conn) : Status × Conn :=
  match _h : parseHeaderLine (c.req.ib.take len) c.req.par with
  | (.again, ar) => (.again, c.mapPar fun _ => ar)
  | (.error, ar) => responseAssembleErrBuffer env (c.mapPar fun _ => ar) 400
  | (.crlfLine, ar) => (.ok, (c.mapPar fun _ => ar).setHandler (some .body))
  | (.ok, ar) =>
    match _hh : handleHeader env (c.mapPar fun _ => ar) with
    | (.ok, c') => headersIn env len c'
    | (_, c') => (.ok, c')
termination_by len - c.req.par.nextParsePos
decreasing_by
  have hnext := parseHeaderLine_done_pos _h (.inl rfl)
  have hpos := handleHeader_pos env (c.mapPar fun _ => ar)
  rw [_hh] at hpos
  simp only [mapPar_ib, mapPar_par] at hpos
  rw [List.length_take] at hnext
  omega

/-- `request_handle_body` -/
def bodyIn (env : Env) (len : ℕ) (c : Conn) : Status × Conn :=
  match c.req.par.transferEncoding with
  | .identity =>
    match parseHeaderBodyIdentity (c.req.ib.take len) c.req.par with
    | (.again, ar) => (.again, c.mapPar fun _ => ar)
    | (.ok, ar) => (.ok, responseAssembleBuffer env (((c.mapPar fun _ => ar).turnOut).setHandler none))
    | (_, ar) => responseAssembleErrBuffer env (c.mapPar fun _ => ar) 501
  | _ => responseAssembleErrBuffer env c 501

/-- The call `r->req_handler(r)`. -/
def ReqHandler.callIn (env : Env) (len : ℕ) (c : Conn) : ReqHandler → Except Fault (Status × Conn)
  | .requestLine => requestLineIn env len c
  | .headers => .ok (headersIn env len c)
  | .body => .ok (bodyIn env len c)

section Headers

variable {env : Env} {len : ℕ} {c : Conn} {ar : ParseArchive}

theorem headersIn_again (h : parseHeaderLine (c.req.ib.take len) c.req.par = (.again, ar)) :
    headersIn env len c = (.again, c.mapPar fun _ => ar) := by
  rw [headersIn, h]

theorem headersIn_error (h : parseHeaderLine (c.req.ib.take len) c.req.par = (.error, ar)) :
    headersIn env len c = responseAssembleErrBuffer env (c.mapPar fun _ => ar) 400 := by
  rw [headersIn, h]

theorem headersIn_crlfLine (h : parseHeaderLine (c.req.ib.take len) c.req.par = (.crlfLine, ar)) :
    headersIn env len c = (.ok, (c.mapPar fun _ => ar).setHandler (some .body)) := by
  rw [headersIn, h]

theorem headersIn_ok (h : parseHeaderLine (c.req.ib.take len) c.req.par = (.ok, ar)) :
    headersIn env len c = headersIn env len (handleHeader env (c.mapPar fun _ => ar)).2 := by
  have hh : handleHeader env (c.mapPar fun _ => ar) = (.ok, (handleHeader env (c.mapPar fun _ => ar)).2) :=
    Prod.ext (handleHeader_status env _) rfl
  rw [headersIn, h]
  simp only
  split
  · rename_i heq
    rw [heq]
  · rename_i hne heq
    rw [hh] at heq
    exact absurd (Prod.ext_iff.mp heq).1.symm hne

theorem headersIn_handler (h : (headersIn env len c).1 = .ok) :
    (headersIn env len c).2.req.reqHandler = none ∨ (headersIn env len c).2.req.reqHandler = some .body := by
  induction hn : len - c.req.par.nextParsePos using Nat.strong_induction_on generalizing c with
  | _ n ih =>
    rcases hp : parseHeaderLine (c.req.ib.take len) c.req.par with ⟨_ | _ | _ | _, ar⟩
    · have hnext := parseHeaderLine_done_pos hp (.inl rfl)
      have hpos := handleHeader_pos env (c.mapPar fun _ => ar)
      simp only [mapPar_ib, mapPar_par] at hpos
      rw [List.length_take] at hnext
      rw [headersIn_ok hp] at h ⊢
      exact ih _ (by omega) h rfl
    · rw [headersIn_again hp] at h
      cases h
    · rw [headersIn_crlfLine hp]
      exact .inr rfl
    · rw [headersIn_error hp]
      exact .inl (assembleErr_handler _ _ _)

end Headers

theorem requestHandlePath_handler {env : Env} {c : Conn} {res : Status × Conn} (h : requestHandlePath env c = .ok res) :
    res.2.req.reqHandler = none ∨ res.2.req.reqHandler = some .headers := by
  unfold requestHandlePath at h
  split at h
  · split at h
    · cases h
    · simp only at h
      split at h
      · cases h
        exact .inl (assembleErr_handler _ _ _)
      · cases h
        exact .inr (openResource_handler _ _)
  · cases h

theorem callIn_rank {env : Env} {len : ℕ} {c c' : Conn} {hd : ReqHandler} (h : hd.callIn env len c = .ok (.ok, c')) :
    handlerRank c'.req.reqHandler < handlerRank (some hd) := by
  cases hd with
  | requestLine =>
    have hhandler : c'.req.reqHandler = none ∨ c'.req.reqHandler = some .headers := by
      simp only [ReqHandler.callIn, requestLineIn] at h
      split at h
      · cases h
      · split_ifs at h
        · cases h
          exact .inl (assembleErr_handler _ _ _)
        · exact requestHandlePath_handler h
      · cases h
        exact .inl (assembleErr_handler _ _ _)
    rcases hhandler with hnone | hsome
    · rw [hnone]
      decide
    · rw [hsome]
      decide
  | headers =>
    have heq : headersIn env len c = (.ok, c') := Except.ok.inj h
    have hhandler := @headersIn_handler env len c (by rw [heq])
    rw [heq] at hhandler
    rcases hhandler with hnone | hsome
    · rw [hnone]
      decide
    · rw [hsome]
      decide
  | body =>
    have hhandler : c'.req.reqHandler = none := by
      simp only [ReqHandler.callIn, bodyIn] at h
      repeat' split at h
      all_goals cases h
      · rfl
      all_goals exact assembleErr_handler _ _ _
    rw [hhandler]
    decide

/-- The loop of `request_handle`. -/
def loopIn (env : Env) (len : ℕ) (c : Conn) : Except Fault (Status × Conn) :=
  match _hhd : c.req.reqHandler with
  | none => .error .nullHandler
  | some hd =>
    match _hcall : hd.callIn env len c with
    | .error e => .error e
    | .ok (.ok, c') => if c'.req.reqHandler ≠ none then loopIn env len c' else .ok (.ok, c')
    | .ok (st, c') => .ok (st, c')
termination_by handlerRank c.req.reqHandler
decreasing_by
  rw [_hhd]
  exact callIn_rank _hcall

/-! ### A connection with its memory -/

inductive RawFault where
  | fault (e : Fault)
  /-- a buffer is too small -/
  | outgrown
  deriving DecidableEq, Repr

structure RawConn where
  /-- `ib` is the whole memory of the input buffer, `ob` is what the output buffer holds -/
  conn : Conn
  /-- `ib->len` -/
  len : ℕ
  /-- the whole memory of the output buffer -/
  obMem : List Byte

/-- `buffer_cat(r->ib, bs)`, without `realloc` -/
def RawConn.receive (m : RawConn) (bs : List Byte) : Except RawFault RawConn :=
  if m.len + bs.length < m.conn.req.ib.length then
    .ok { m with
      conn := (m.conn.mapReq fun r => { r with ib := overwrite r.ib m.len (bs ++ [NUL]) }).mapGhost fun g =>
        { g with received := g.received ++ bs }
      len := m.len + bs.length }
  else .error .outgrown

/-- `request_recv` -/
def RawConn.recv (m : RawConn) : List RecvResult → Except RawFault (Status × RawConn)
  | [] => .ok (.again, m)
  | .data bs :: rest =>
    if bs.length = 0 then .ok (.ok, m)
    else
      match m.receive bs with
      | .ok m => m.recv rest
      | .error e => .error e
  | .again :: _ => .ok (.again, m)
  | .error :: _ => .ok (.error, m)

/-- The connection that the handlers leave; what they have appended to `ob` is in its memory, with a `NUL` after it. -/
def RawConn.put (m : RawConn) (c : Conn) : Except RawFault RawConn :=
  if c.req.ob.length < m.obMem.length then
    .ok { m with
      conn := c
      obMem := if c.req.ob.length = m.conn.req.ob.length then m.obMem else overwrite m.obMem 0 (c.req.ob ++ [NUL]) }
  else .error .outgrown

/-- `request_handle` -/
def RawConn.handle (env : Env) (recvs : List RecvResult) (m : RawConn) : Except RawFault (Status × RawConn) :=
  match m.recv recvs with
  | .error e => .error e
  | .ok (.again, m') =>
    match loopIn env m'.len m'.conn with
    | .error e => .error (.fault e)
    | .ok (st, c) => (m'.put c).map fun m => (st, m)
  | .ok (_, m') => .ok (.error, m')

/-- The calls of `request_handle` for a list of batches, with what each of them answers. -/
def RawConn.handleAll (m : RawConn) : List (Env × List RecvResult) → Except RawFault (List Status × RawConn)
  | [] => .ok ([], m)
  | (env, recvs) :: rest =>
    match m.handle env recvs with
    | .error e => .error e
    | .ok (st, m') => (m'.handleAll rest).map fun res => (st :: res.1, res.2)

/-- `request_init`, and `EPOLLIN` in the mask: the memory that `malloc` has returned, with a `NUL` at its beginning. -/
def RawConn.init (nextFd : ℕ) (ibMem obMem : List Byte) : RawConn where
  conn := ⟨{ Request.fresh with ib := ibMem.set 0 NUL }, true, false, nextFd, ⟨[], [], false, 0, [], [], []⟩⟩
  len := 0
  obMem := obMem.set 0 NUL

/-- `request_reset`, and `EPOLLIN` in the mask: the memory is as it was. -/
def RawConn.reset (m : RawConn) : RawConn where
  conn := (requestReset m.conn).turnIn.mapReq fun r => { r with ib := m.conn.req.ib }
  len := 0
  obMem := m.obMem

end Lotos
