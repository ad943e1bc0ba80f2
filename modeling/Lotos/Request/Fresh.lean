import Lotos.Request.Reuse

/-!
# A connection that is used again

A connection in memory does what its content does (`handleAll_content`), as long as the buffers need not grow; and of the
content only the core matters (`Request.History`).  After `request_reset` the content is that of a new connection.  So
neither the bytes that earlier requests have left in the buffers nor anything else of the past makes a difference
(`reset_like_init`).
-/

namespace Lotos

/-! ### A connection of which the buffers do not grow -/

/-- `request_recv`, into a buffer of `cap` bytes -/
def Conn.recvWithin (cap : ℕ) (c : Conn) : List RecvResult → Except RawFault (Status × Conn)
  | [] => .ok (.again, c)
  | .data bs :: rest =>
    if bs.length = 0 then .ok (.ok, c)
    else if c.req.ib.length + bs.length < cap then (c.receive bs).recvWithin cap rest
    else .error .outgrown
  | .again :: _ => .ok (.again, c)
  | .error :: _ => .ok (.error, c)

/-- What follows `request_recv` in `request_handle`. -/
def Conn.goOnWithin (cap : ℕ) (env : Env) : Status × Conn → Except RawFault (Status × Conn)
  | (.again, c) =>
    match handlerLoop env c with
    | .error e => .error (.fault e)
    | .ok (st, c') => if c'.req.ob.length < cap then .ok (st, c') else .error .outgrown
  | (_, c) => .ok (.error, c)

/-- `request_handle`, with buffers of `cap` bytes -/
def Conn.handleWithin (cap : ℕ) (env : Env) (recvs : List RecvResult) (c : Conn) : Except RawFault (Status × Conn) :=
  (c.recvWithin cap recvs).bind (Conn.goOnWithin cap env)

def Conn.handleAllWithin (cap : ℕ) (c : Conn) : List (Env × List RecvResult) → Except RawFault (List Status × Conn)
  | [] => .ok ([], c)
  | (env, recvs) :: rest =>
    (c.handleWithin cap env recvs).bind fun res => (res.2.handleAllWithin cap rest).map fun res' => (res.1 :: res'.1, res'.2)

section Within

variable {cap : ℕ} {env : Env} {recvs : List RecvResult} {c c' : Conn}

theorem recvWithin_ok {st : Status} (h : c.recvWithin cap recvs = .ok (st, c')) : requestRecv c recvs = (st, c') := by
  induction recvs generalizing c with
  | nil => exact Except.ok.inj h
  | cons r rest ih =>
    cases r with
    | data bs =>
      simp only [Conn.recvWithin] at h
      simp only [requestRecv]
      split_ifs at h ⊢
      · exact Except.ok.inj h
      · exact ih h
    | again => exact Except.ok.inj h
    | error => exact Except.ok.inj h

/-- Within the capacity of the buffers it is `request_handle`. -/
theorem handleWithin_ok {st : Status} (h : c.handleWithin cap env recvs = .ok (st, c')) :
    requestHandle env recvs c = .ok (st, c') := by
  unfold Conn.handleWithin at h
  unfold requestHandle
  cases hrecv : c.recvWithin cap recvs with
  | error e =>
    rw [hrecv] at h
    cases h
  | ok res =>
    obtain ⟨st₁, c₁⟩ := res
    rw [hrecv] at h
    change Conn.goOnWithin cap env (st₁, c₁) = .ok (st, c') at h
    rw [recvWithin_ok hrecv]
    cases st₁ with
    | again =>
      simp only [Conn.goOnWithin] at h ⊢
      split at h
      · cases h
      · rename_i st₂ c₂ hloop
        split_ifs at h
        rw [hloop]
        exact congrArg Except.ok (Except.ok.inj h)
    | _ => exact congrArg Except.ok (Except.ok.inj h)

/-! The past makes no difference. -/

theorem core_recvWithin (h : c.core = c'.core) :
    (c.recvWithin cap recvs).map coreRes = (c'.recvWithin cap recvs).map coreRes := by
  induction recvs generalizing c c' with
  | nil => exact congrArg (fun c => Except.ok (Status.again, c)) h
  | cons r rest ih =>
    cases r with
    | data bs =>
      simp only [Conn.recvWithin]
      rw [← core_ib h]
      split_ifs
      · exact congrArg (fun c => Except.ok (Status.ok, c)) h
      · exact ih (core_receive h bs)
      · rfl
    | again => exact congrArg (fun c => Except.ok (Status.again, c)) h
    | error => exact congrArg (fun c => Except.ok (Status.error, c)) h

theorem core_handleWithin (h : c.core = c'.core) :
    (c.handleWithin cap env recvs).map coreRes = (c'.handleWithin cap env recvs).map coreRes := by
  refine map_bind_congr (core_recvWithin h) ?_
  rintro ⟨st, c₁⟩ ⟨st', c₁'⟩ - hres
  obtain ⟨rfl, hcore⟩ := Prod.mk.inj hres
  cases st with
  | again =>
    simp only [Conn.goOnWithin]
    rcases map_eq_cases (@handlerLoop_core env _ _ hcore) with ⟨e, hl, hl'⟩ | ⟨res, res', hl, hl', hres⟩ <;> rw [hl, hl']
    have hob := core_ob (congrArg Prod.snd hres)
    simp only
    rw [hob]
    split_ifs
    · exact congrArg Except.ok hres
    · rfl
  | _ => exact congrArg (fun c => Except.ok (Status.error, c)) hcore

theorem core_handleAllWithin {batches : List (Env × List RecvResult)} (h : c.core = c'.core) :
    (c.handleAllWithin cap batches).map (fun res => (res.1, res.2.core)) =
      (c'.handleAllWithin cap batches).map (fun res => (res.1, res.2.core)) := by
  induction batches generalizing c c' with
  | nil => exact congrArg (fun c => Except.ok ([], c)) h
  | cons batch rest ih =>
    refine map_bind_congr (core_handleWithin h) ?_
    rintro ⟨st, c₁⟩ ⟨st', c₁'⟩ - hres
    obtain ⟨rfl, hcore⟩ := Prod.mk.inj hres
    simp only
    rcases map_eq_cases (ih hcore) with ⟨e, hl, hl'⟩ | ⟨res, res', hl, hl', hres⟩ <;> rw [hl, hl']
    obtain ⟨hst, hc⟩ := Prod.mk.inj hres
    change Except.ok (st :: res.1, res.2.core) = Except.ok (st :: res'.1, res'.2.core)
    rw [hst, hc]

end Within

/-! ### The content of the memory -/

/-- The connection as its handlers see it, with the bytes before `len` for its input. -/
def RawConn.content (m : RawConn) : Conn := m.conn.mapReq fun r => { r with ib := r.ib.take m.len }

/-- The memory of a connection with buffers of `cap` bytes. -/
structure RawConn.Valid (cap : ℕ) (m : RawConn) : Prop where
  ib : m.conn.req.ib.length = cap
  obMem : m.obMem.length = cap
  len : m.len < cap
  closed : m.content.Closed (m.conn.req.ib.drop m.len)
  stage : m.content.Stage
  headers : ∀ slot, (m.conn.req.par.reqHeaders slot).InBounds m.len
  ob : m.obMem.take m.conn.req.ob.length = m.conn.req.ob

section Content

variable {cap : ℕ} {env : Env} {recvs : List RecvResult} {m m' : RawConn}

theorem content_extend (m : RawConn) : m.conn = m.content.extend (m.conn.req.ib.drop m.len) := by
  simp only [RawConn.content, Conn.extend, Conn.mapReq, List.take_append_drop]

theorem RawConn.Valid.content_length (h : m.Valid cap) : m.content.req.ib.length = m.len :=
  List.length_take_of_le (by rw [h.ib]; exact h.len.le)

/-- Bytes are received, and a `NUL` is written after them. -/
theorem receive_content (h : m.Valid cap) {bs : List Byte} (hroom : m.len + bs.length < cap) :
    ∃ m', m.receive bs = .ok m' ∧ m'.content = m.content.receive bs ∧ m'.Valid cap := by
  have hle : m.len ≤ m.conn.req.ib.length := by
    rw [h.ib]
    exact h.len.le
  have hmem := @overwrite_concat m.conn.req.ib m.len bs NUL
  have hlen : (m.conn.req.ib.take m.len ++ bs).length = m.len + bs.length := by
    rw [List.length_append, List.length_take_of_le hle]
  refine ⟨_, if_pos (by rw [h.ib]; exact hroom), ?_, ?_⟩
  · simp only [RawConn.content, Conn.receive, Conn.mapReq, Conn.mapGhost, hmem]
    rw [List.take_left' hlen]
  · refine ⟨?_, h.obMem, hroom, ?_, ?_, ?_, h.ob⟩
    · change (overwrite m.conn.req.ib m.len (bs ++ [NUL])).length = cap
      rw [overwrite_length, h.ib]
      rw [h.ib, List.length_append, List.length_singleton]
      omega
    · intro _
      refine ⟨m.conn.req.ib.drop (m.len + bs.length + 1), ?_⟩
      change (overwrite m.conn.req.ib m.len (bs ++ [NUL])).drop (m.len + bs.length) = _
      rw [hmem, List.drop_left' hlen]
    · have hcontent := h.stage.receive bs
      simp only [RawConn.content, Conn.receive, Conn.mapReq, Conn.mapGhost] at hcontent ⊢
      rw [hmem, List.take_left' hlen]
      exact hcontent
    · intro slot
      exact (h.headers slot).mono (Nat.le_add_right _ _)

/-- The result of a call, with the content for the memory. -/
def contentRes (res : Status × RawConn) : Status × Conn := (res.1, res.2.content)

theorem recv_content (h : m.Valid cap) :
    (m.recv recvs).map contentRes = m.content.recvWithin cap recvs ∧ ∀ res, m.recv recvs = .ok res → res.2.Valid cap := by
  have hstop : ∀ st : Status, ∀ res : Status × RawConn, Except.ok (st, m) = (.ok res : Except RawFault _) →
    res.2.Valid cap := by
    rintro st _ ⟨⟩
    exact h
  induction recvs generalizing m with
  | nil => exact ⟨rfl, hstop .again⟩
  | cons r rest ih =>
    cases r with
    | data bs =>
      simp only [RawConn.recv, Conn.recvWithin]
      rw [h.content_length]
      by_cases hnone : bs.length = 0
      · rw [if_pos hnone, if_pos hnone]
        exact ⟨rfl, hstop .ok⟩
      · rw [if_neg hnone, if_neg hnone]
        by_cases hroom : m.len + bs.length < cap
        · obtain ⟨m', hreceive, hcontent, hm'⟩ := receive_content h hroom
          rw [if_pos hroom, hreceive, ← hcontent]
          refine ih hm' ?_
          rintro st _ ⟨⟩
          exact hm'
        · have hfull : m.receive bs = .error .outgrown := if_neg (by rw [h.ib]; exact hroom)
          rw [if_neg hroom, hfull]
          refine ⟨rfl, ?_⟩
          rintro _ ⟨⟩
    | again => exact ⟨rfl, hstop .again⟩
    | error => exact ⟨rfl, hstop .error⟩

theorem put_content (h : m.Valid cap) {c : Conn} {stale : List Byte} (hconn : m.conn = m.content.extend stale)
    (hclosed : m.content.Closed stale) (hc : c.Stage) (hlen : c.req.ib.length = m.content.req.ib.length)
    (hwritten : c.Written m.conn.req.ob) (hfit : c.req.ob.length < cap) :
    ∃ m', m.put (c.extend stale) = .ok m' ∧ m'.content = c ∧ m'.Valid cap := by
  have hlen' : c.req.ib.length = m.len := hlen.trans h.content_length
  have hcontent : ∀ obMem, ({ m with conn := c.extend stale, obMem := obMem } : RawConn).content = c := by
    intro obMem
    simp only [RawConn.content, Conn.extend, Conn.mapReq]
    rw [List.take_left' hlen']
  refine ⟨_, if_pos (by rw [h.obMem]; exact hfit), hcontent _, ?_, ?_, h.len, ?_, ?_, ?_, ?_⟩
  · have hib := h.ib
    rw [hconn, extend_ib, List.length_append, ← hlen] at hib
    change (c.req.ib ++ stale).length = cap
    rw [List.length_append]
    exact hib
  · change (if _ then m.obMem else overwrite m.obMem 0 (c.req.ob ++ [NUL])).length = cap
    split_ifs
    · exact h.obMem
    · rw [overwrite_length, h.obMem]
      rw [h.obMem, List.length_append, List.length_singleton]
      omega
  · rw [hcontent]
    intro hne
    change ∃ stale', (c.req.ib ++ stale).drop m.len = _
    rw [List.drop_left' hlen']
    refine hclosed fun hnil => hne ?_
    rw [hnil] at hlen
    exact List.length_eq_zero_iff.mp hlen
  · rw [hcontent]
    exact hc
  · intro slot
    rw [← hlen']
    exact hwritten.headers slot
  · change (if c.req.ob.length = m.conn.req.ob.length then m.obMem else overwrite m.obMem 0 (c.req.ob ++ [NUL])).take
      c.req.ob.length = c.req.ob
    split_ifs with hsame
    · -- nothing has been appended
      have heq : m.conn.req.ob = c.req.ob := hwritten.ob.eq_of_length hsame.symm
      rw [← heq]
      exact h.ob
    · have hmem := @overwrite_concat m.obMem 0 c.req.ob NUL
      rw [hmem, List.take_zero, List.nil_append, List.take_left' rfl]

section Call

variable {m₁ : RawConn} (hr : m.recv recvs = .ok (.again, m₁))

include hr

theorem handle_fault {e : Fault} (hl : loopIn env m₁.len m₁.conn = .error e) : m.handle env recvs = .error (.fault e) := by
  simp only [RawConn.handle, hr, hl]

theorem handle_put {st : Status} {c : Conn} (hl : loopIn env m₁.len m₁.conn = .ok (st, c)) :
    m.handle env recvs = (m₁.put c).map fun m => (st, m) := by
  simp only [RawConn.handle, hr, hl]

theorem goOn_content (h : m₁.Valid cap) :
    (m.handle env recvs).map contentRes = Conn.goOnWithin cap env (.again, m₁.content) ∧
      ∀ res, m.handle env recvs = .ok res → res.2.Valid cap := by
  obtain ⟨hloop, hstage⟩ := @loopIn_extend env m₁.content h.stage _ h.closed
  rw [← content_extend, h.content_length] at hloop
  simp only [Conn.goOnWithin]
  cases hl : handlerLoop env m₁.content with
  | error e =>
    rw [hl] at hloop
    rw [handle_fault hr hloop]
    refine ⟨rfl, ?_⟩
    rintro _ ⟨⟩
  | ok res =>
    obtain ⟨st, c⟩ := res
    obtain ⟨hc, hlen⟩ := hstage _ hl
    have hwritten₁ : m₁.content.Written m₁.conn.req.ob := by
      refine ⟨?_, List.prefix_rfl⟩
      intro slot
      rw [h.content_length]
      exact h.headers slot
    have hwritten := handlerLoop_written h.stage hwritten₁ hl
    rw [hl] at hloop
    rw [handle_put hr hloop]
    by_cases hfit : c.req.ob.length < cap
    · obtain ⟨m₂, hput, hcontent, hm₂⟩ := put_content h (content_extend m₁) h.closed hc hlen hwritten hfit
      simp only
      rw [hput, if_pos hfit]
      refine ⟨congrArg (fun c => Except.ok (st, c)) hcontent, ?_⟩
      rintro _ ⟨⟩
      exact hm₂
    · have hfull : m₁.put (c.extend (m₁.conn.req.ib.drop m₁.len)) = .error .outgrown := if_neg (by rw [h.obMem]; exact hfit)
      simp only
      rw [hfull, if_neg hfit]
      refine ⟨rfl, ?_⟩
      rintro _ ⟨⟩

end Call

/-- **One call.**  `request_handle` on the memory is `request_handle` on the content. -/
theorem handle_content (h : m.Valid cap) :
    (m.handle env recvs).map contentRes = m.content.handleWithin cap env recvs ∧
      ∀ res, m.handle env recvs = .ok res → res.2.Valid cap := by
  obtain ⟨hrecv, hvalid⟩ := @recv_content cap recvs m h
  unfold Conn.handleWithin
  rw [← hrecv]
  cases hr : m.recv recvs with
  | error e =>
    have hhandle : m.handle env recvs = .error e := by simp only [RawConn.handle, hr]
    rw [hhandle]
    refine ⟨rfl, ?_⟩
    rintro _ ⟨⟩
  | ok res =>
    obtain ⟨st, m₁⟩ := res
    have h₁ : m₁.Valid cap := hvalid _ hr
    by_cases hst : st = .again
    · subst hst
      exact goOn_content hr h₁
    · have hhandle : m.handle env recvs = .ok (.error, m₁) := by
        simp only [RawConn.handle, hr]
      have hgo : Conn.goOnWithin cap env (st, m₁.content) = .ok (.error, m₁.content) := by
        cases st <;> first | rfl | exact absurd rfl hst
      rw [hhandle]
      refine ⟨hgo.symm, ?_⟩
      rintro _ ⟨⟩
      exact h₁

/-- **A list of batches** on the memory and on the content. -/
theorem handleAll_content {batches : List (Env × List RecvResult)} (h : m.Valid cap) :
    (m.handleAll batches).map (fun res => (res.1, res.2.content)) = m.content.handleAllWithin cap batches ∧
      ∀ res, m.handleAll batches = .ok res → res.2.Valid cap := by
  induction batches generalizing m with
  | nil =>
    refine ⟨rfl, ?_⟩
    rintro _ ⟨⟩
    exact h
  | cons batch rest ih =>
    obtain ⟨env, recvs⟩ := batch
    obtain ⟨hhandle, hvalid⟩ := @handle_content cap env recvs m h
    simp only [RawConn.handleAll, Conn.handleAllWithin]
    rw [← hhandle]
    cases hh : m.handle env recvs with
    | error e =>
      refine ⟨rfl, ?_⟩
      rintro _ ⟨⟩
    | ok res =>
      obtain ⟨st, m₁⟩ := res
      obtain ⟨hall, hvalid₁⟩ := ih (hvalid _ hh)
      change ((m₁.handleAll rest).map fun res => (st :: res.1, res.2)).map _ =
        (m₁.content.handleAllWithin cap rest).map (fun res => (st :: res.1, res.2)) ∧
          ∀ res, ((m₁.handleAll rest).map fun res => (st :: res.1, res.2)) = .ok res → _
      rw [← hall]
      cases ha : m₁.handleAll rest with
      | error e =>
        refine ⟨rfl, ?_⟩
        rintro _ ⟨⟩
      | ok res =>
        refine ⟨rfl, ?_⟩
        rintro _ ⟨⟩
        exact hvalid₁ res ha

end Content

/-! ### After a reset -/

section Reset

variable {cap : ℕ}

theorem blank_valid {m : RawConn} (hib : m.conn.req.ib.length = cap) (hob : m.obMem.length = cap) (hcap : 0 < cap)
    (hlen : m.len = 0) (hreq : m.content.req = .fresh) (hreceived : m.content.ghost.received = []) : m.Valid cap := by
  have hpar : m.conn.req.par = parseArchiveInit := congrArg Request.par hreq
  have hempty : m.conn.req.ob = [] := congrArg Request.ob hreq
  have hline : m.content.AtLine := fresh_atLine hreq hreceived
  refine ⟨hib, hob, by rw [hlen]; exact hcap, ?_, ?_, ?_, ?_⟩
  · intro hne
    refine absurd ?_ hne
    rw [hreq]
    rfl
  · rw [Conn.Stage, hline.handler]
    exact hline
  · intro slot
    rw [hpar]
    rintro _ ⟨⟩
  · rw [hempty]
    rfl

theorem reset_valid {m : RawConn} (hib : m.conn.req.ib.length = cap) (hob : m.obMem.length = cap) (hcap : 0 < cap) :
    m.reset.Valid cap := blank_valid hib hob hcap rfl rfl rfl

theorem init_valid (nextFd : ℕ) {ibMem obMem : List Byte} (hib : ibMem.length = cap) (hob : obMem.length = cap)
    (hcap : 0 < cap) : (RawConn.init nextFd ibMem obMem).Valid cap := by
  refine blank_valid ?_ ?_ hcap rfl rfl rfl
  · exact List.length_set.trans hib
  · exact List.length_set.trans hob

/-- What `request_handle` has computed, as it is in memory. -/
structure Outcome where
  statusCode : ℕ
  keepAlive : Bool
  /-- the spans of the headers, with their bytes -/
  reqHeaders : HeaderSlot → Ssstr × List Byte
  ob : List Byte

def RawConn.outcome (m : RawConn) : Outcome where
  statusCode := m.conn.req.statusCode
  keepAlive := m.conn.req.par.keepAlive
  reqHeaders slot := (m.conn.req.par.reqHeaders slot, (m.conn.req.par.reqHeaders slot).bytes m.conn.req.ib)
  ob := m.obMem.take m.conn.req.ob.length

/-- What `request_handle` has computed, of the content. -/
def Conn.outcome (c : Conn) : Outcome where
  statusCode := c.req.statusCode
  keepAlive := c.req.par.keepAlive
  reqHeaders slot := (c.req.par.reqHeaders slot, (c.req.par.reqHeaders slot).bytes c.req.ib)
  ob := c.req.ob

theorem outcome_content {m : RawConn} (h : m.Valid cap) : m.outcome = m.content.outcome := by
  have hbytes : ∀ slot, (m.conn.req.par.reqHeaders slot).bytes m.conn.req.ib =
      (m.conn.req.par.reqHeaders slot).bytes m.content.req.ib := by
    intro slot
    have hin := h.headers slot
    rw [← h.content_length] at hin
    rw [← bytes_append (m.conn.req.ib.drop m.len) hin, ← extend_ib, ← content_extend]
  simp only [RawConn.outcome, hbytes, h.ob]
  rfl

theorem core_outcome {c c' : Conn} (h : c.core = c'.core) : c.outcome = c'.outcome :=
  core_congr Conn.outcome (fun _ => rfl) h

/-- **A kept-alive connection behaves like a fresh one.**  After `request_reset`, whatever has happened on the connection and
whatever is in its buffers, every list of batches has the same outcome as after `request_init`, whatever is in the memory
that `malloc` has returned: the same fault, or a buffer that would have to grow in both, or the same results of
`request_handle`, status code, `keep_alive`, headers and bytes in `ob`. -/
theorem reset_like_init {m : RawConn} (hib : m.conn.req.ib.length = bufsiz + 1) (hob : m.obMem.length = bufsiz + 1)
    (nextFd : ℕ) {ibMem obMem : List Byte} (hibMem : ibMem.length = bufsiz + 1) (hobMem : obMem.length = bufsiz + 1)
    (batches : List (Env × List RecvResult)) :
    (m.reset.handleAll batches).map (fun res => (res.1, res.2.outcome)) =
      ((RawConn.init nextFd ibMem obMem).handleAll batches).map fun res => (res.1, res.2.outcome) := by
  have hcore : m.reset.content.core = (RawConn.init nextFd ibMem obMem).content.core := rfl
  obtain ⟨hreset, hvalid⟩ := @handleAll_content _ _ batches (reset_valid hib hob (Nat.succ_pos _))
  obtain ⟨hinit, hvalid'⟩ := @handleAll_content _ _ batches (init_valid nextFd hibMem hobMem (Nat.succ_pos _))
  have hsame := @core_handleAllWithin (bufsiz + 1) _ _ batches hcore
  rw [← hreset, ← hinit] at hsame
  rcases map_eq_cases hsame with ⟨e, hl, hl'⟩ | ⟨res, res', hl, hl', hres⟩
  · rw [map_error_iff.mp hl, map_error_iff.mp hl']
  · obtain ⟨r, hr, rfl⟩ := map_ok_iff.mp hl
    obtain ⟨r', hr', rfl⟩ := map_ok_iff.mp hl'
    obtain ⟨hst, hc⟩ := Prod.mk.inj hres
    have hout : r.2.outcome = r'.2.outcome := by
      rw [outcome_content (hvalid r hr), outcome_content (hvalid' r' hr')]
      exact core_outcome hc
    rw [hr, hr']
    exact congrArg Except.ok (Prod.ext hst hout)

/-- A request after others have filled the buffers. -/
theorem reset_like_init_stale :
    ((RawConn.init 4 (List.replicate (bufsiz + 1) 0x61) (List.replicate (bufsiz + 1) 0x61)).reset.handleAll
        [(⟨fun _ => none, [], ⟨[], [], []⟩⟩, [.data (str "GET / HTTP/1.1\r\n")])]).map (fun res => (res.1, res.2.outcome)) =
      ((RawConn.init 7 (List.replicate (bufsiz + 1) 0) (List.replicate (bufsiz + 1) 0)).handleAll
        [(⟨fun _ => none, [], ⟨[], [], []⟩⟩, [.data (str "GET / HTTP/1.1\r\n")])]).map
          fun res => (res.1, res.2.outcome) := by
  have hset : ((List.replicate (bufsiz + 1) (0x61 : Byte)).set 0 NUL).length = bufsiz + 1 :=
    List.length_set.trans List.length_replicate
  exact reset_like_init hset hset 7 List.length_replicate List.length_replicate _

end Reset

end Lotos
