import Lotos.Response.Page
import Lotos.Server.Persistent

/-!
# A dialogue

A client sends valid requests on a connection, each of them when it has read the responses to the ones before, and reads what
the server sends.  `run_dialogue` is about all of it: however the bytes are cut on both sides, the client reads the responses
to its requests, each once and in order, and it has read all of them when the server waits for the next request.

The server's side are the runs of `Exchange`; `Dialogue.sent` are the bytes that `send` and `sendfile` have taken.  While a
response is sent, they are the responses before it and the part of it that is on the wire (`Dialogue.Between`).
-/

namespace Lotos

/-! ### The dialogue -/

/-- A connection, with the bytes that it has sent. -/
structure Dialogue extends Exchange where
  sent : List Byte

def Dialogue.start (nextFd : ℕ) (now : ℤ) : Dialogue := ⟨.start nextFd now, []⟩

/-- The bytes that `send` and `sendfile` take in a call of `response_handle`. -/
def Conn.handed (sends files : List SendResult) (c : Conn) : List Byte :=
  (responseLoop sends files c).2.ghost.wire.drop c.ghost.wire.length

/-- The bytes that a step sends. -/
def Action.handed (timeout : ℤ) (s : ConnState) : Action → List Byte
  | .event now input (some (sends, files)) =>
    if now - s.activeTime > timeout then []
    else
      match input with
      | none => s.conn.handed sends files
      | some (env, recvs) =>
        match requestHandle env recvs s.conn with
        | .ok res => res.2.handed sends files
        | .error _ => []
  | _ => []

/-- A step of the event loop on the connection. -/
def Dialogue.Step (timeout : ℤ) (cond : Dialogue → Action → Prop) (s s' : Dialogue) : Prop :=
  ∃ a : Action, a.Enabled timeout s.state ∧ cond s a ∧ s.state.apply timeout a = .ok s'.state ∧
    s'.read = s.read ++ a.batch timeout s.state ∧ s'.out = s.out ++ replies s.state.conn s'.state.conn ∧
    s'.sent = s.sent ++ a.handed timeout s.state

abbrev Dialogue.Run (timeout : ℤ) (cond : Dialogue → Action → Prop) : Dialogue → Dialogue → Prop :=
  Relation.ReflTransGen (Dialogue.Step timeout cond)

/-- What the client is to read. -/
def pageMessages {env : Env} {date : List Byte} (hdate : CR ∉ date) (ps : List (PageRequest env)) :
    List (Framing.Message CR announced) := ps.map fun p => (p.response hdate).message

section Wire

variable {c : Conn} {whole : List Byte} {sends files : List SendResult}

theorem responseSend_wire (c : Conn) (sends : List SendResult) : c.ghost.wire <+: (responseSend c sends).2.ghost.wire := by
  induction sends generalizing c with
  | nil => exact List.prefix_refl _
  | cons r rest ih =>
    cases r with
    | sent k =>
      simp only [responseSend]
      split_ifs
      · exact List.prefix_refl _
      · exact (List.prefix_append _ _).trans (ih (c.sentBuffer _))
    | again => exact List.prefix_refl _
    | error => exact List.prefix_refl _

theorem responseHandleSendFile_wire (c : Conn) (files : List SendResult) :
    c.ghost.wire <+: (responseHandleSendFile c files).2.ghost.wire := by
  induction files generalizing c with
  | nil => exact List.prefix_refl _
  | cons r rest ih =>
    cases r with
    | sent k =>
      simp only [responseHandleSendFile]
      split_ifs
      · exact List.prefix_refl _
      · exact (List.prefix_append _ _).trans (ih (c.sentFile _))
    | again => exact List.prefix_refl _
    | error => exact List.prefix_refl _

theorem call_wire (sends files : List SendResult) (c : Conn) (h : ResHandler) :
    c.ghost.wire <+: (h.call sends files c).2.ghost.wire := by
  cases h with
  | sendFile => exact responseHandleSendFile_wire c files
  | sendBuffer =>
    have hsend := responseSend_wire c sends
    simp only [ResHandler.call, responseHandleSendBuffer]
    split
    · rename_i heq
      rw [heq] at hsend
      split_ifs <;> exact hsend
    · rename_i heq
      rw [heq] at hsend
      exact hsend

theorem responseLoop_wire (sends files : List SendResult) (c : Conn) :
    c.ghost.wire <+: (responseLoop sends files c).2.ghost.wire := by
  induction c using responseLoop.induct sends files with
  | case1 c c' hcall hdone =>
    rw [responseLoop_stop hcall (.inr hdone)]
    have hwire := call_wire sends files c c.req.resHandler
    rw [hcall] at hwire
    exact hwire
  | case2 c c' hcall hdone ih =>
    rw [responseLoop_next hcall (by simpa using hdone)]
    have hwire := call_wire sends files c c.req.resHandler
    rw [hcall] at hwire
    exact hwire.trans ih
  | case3 c st c' hst hcall =>
    rw [responseLoop_stop hcall (.inl hst)]
    have hwire := call_wire sends files c c.req.resHandler
    rw [hcall] at hwire
    exact hwire

theorem wire_handed (sends files : List SendResult) (c : Conn) :
    c.ghost.wire ++ c.handed sends files = (responseLoop sends files c).2.ghost.wire := by
  obtain ⟨more, hmore⟩ := responseLoop_wire sends files c
  rw [Conn.handed, ← hmore, List.drop_left]

end Wire

/-! ### The response that is being sent -/

/-- A response without a file is being sent. -/
structure Conn.DeliveringBuffer (whole : List Byte) (c : Conn) : Prop where
  responseDone : c.req.par.responseDone = false
  resourceFd : c.req.resourceFd = none
  resHandler : c.req.resHandler = .sendBuffer
  whole : c.ghost.wire ++ c.unsent = whole

def Conn.Delivers (whole : List Byte) (c : Conn) : Prop := c.Delivering whole ∨ c.DeliveringBuffer whole

section Delivers

variable {whole : List Byte} {c : Conn} {sends files : List SendResult}

theorem Conn.Delivers.responseDone (h : c.Delivers whole) : c.req.par.responseDone = false :=
  h.elim Conn.Delivering.responseDone Conn.DeliveringBuffer.responseDone

theorem Conn.Delivers.wire (h : c.Delivers whole) : c.ghost.wire <+: whole := by
  rcases h with h | h
  · rcases h.part with ⟨-, hwhole⟩ | ⟨-, hwhole⟩ <;> exact ⟨_, hwhole⟩
  · exact ⟨_, h.whole⟩

theorem responseLoop_deliveringBuffer (h : c.DeliveringBuffer whole) (hsends : Benign sends) :
    (responseLoop sends files c).2.DeliveringBuffer whole ∨
      ((responseLoop sends files c).2.ghost.wire = whole ∧ (responseLoop sends files c).2.req.par.responseDone = true) := by
  have hcall : c.req.resHandler.call sends files c = responseHandleSendBuffer c sends := by rw [h.resHandler]; rfl
  rcases responseSend_spec c hsends with ⟨-, heq⟩ | ⟨-, -, heq⟩
  · have hbuf : responseHandleSendBuffer c sends = (.again, c.sentBuffer (c.unsent.take (taken sends))) := by
      rw [responseHandleSendBuffer, heq]
    rw [responseLoop_stop (hcall.trans hbuf) (.inl (by rintro ⟨⟩))]
    refine .inl ⟨h.responseDone, h.resourceFd, h.resHandler, ?_⟩
    rw [unsent_sentBuffer]
    change c.ghost.wire ++ c.unsent.take (taken sends) ++ c.unsent.drop (taken sends) = whole
    rw [List.append_assoc, List.take_append_drop, h.whole]
  · have hbuf : responseHandleSendBuffer c sends = (.ok, (c.sentBuffer c.unsent).clearOb.setDone.disableOut) := by
      rw [responseHandleSendBuffer, heq]
      exact if_neg (not_not.mpr h.resourceFd)
    rw [responseLoop_stop (hcall.trans hbuf) (.inr rfl)]
    exact .inr ⟨h.whole, rfl⟩

/-- **A call of `response_handle` goes on with the response, or has sent all of it.** -/
theorem responseLoop_delivers (h : c.Delivers whole) (hsends : Benign sends) (hfiles : Benign files) :
    (responseLoop sends files c).2.Delivers whole ∨
      ((responseLoop sends files c).2.ghost.wire = whole ∧ (responseLoop sends files c).2.req.par.responseDone = true) := by
  rcases h with h | h
  · rcases responseLoop_delivering h hsends hfiles with ⟨-, -, hmore⟩ | ⟨-, -, hend⟩
    · exact .inl (.inl hmore)
    · exact .inr hend
  · exact (responseLoop_deliveringBuffer h hsends).imp .inr id

end Delivers

/-- Errors are among the answers, and what is to be sent is in a file. -/
structure Conn.Plain (c : Conn) : Prop where
  error : c.req.par.errReq = true → ∃ code ∈ c.ghost.answers, code ≠ 200
  noFile : c.req.resourceFd = none → c.req.resource = []

section Plain

variable {env : Env} {c c' : Conn}

theorem Conn.Plain.quiet (h : c.Plain) (hq : c.Quiet c') : c'.Plain := by
  refine ⟨?_, ?_⟩
  · rw [hq.errReq, hq.ghost]
    exact h.error
  · rw [hq.req]
    exact h.noFile

theorem Conn.Plain.assembleErr (h : c.Plain) {code : ℕ} (hcode : code ≠ 200) :
    (responseAssembleErrBuffer env c code).2.Plain := by
  rw [assembleErr_eq]
  exact ⟨fun _ => ⟨code, by simp, hcode⟩, h.noFile⟩

end Plain

/-! ### The invariant -/

/-- The requests `done` have been read, and `todo` are to come. -/
structure Dialogue.Between {env : Env} {date : List Byte} (hdate : CR ∉ date) (s : Dialogue)
    (done todo : List (PageRequest env)) : Prop where
  exchange : s.toExchange.Between env (done.map PageRequest.request) (todo.map PageRequest.request)
  stage : (s.state.conn.ghost.answers = [] ∧ s.state.conn.Plain ∧
      s.sent = (pageMessages hdate done).flatMap responseCodec.encode) ∨
    ∃ before p, done = before ++ [p] ∧ s.state.conn.ghost.answers ≠ [] ∧
      s.state.conn.Delivers (responseCodec.encode (p.response hdate).message) ∧
      s.sent = (pageMessages hdate before).flatMap responseCodec.encode ++ s.state.conn.ghost.wire

section Between

variable {timeout : ℤ} {env : Env} {date : List Byte} {s s' : Dialogue} {p : PageRequest env}
  {ps done todo : List (PageRequest env)}

theorem pageMessages_concat (hdate : CR ∉ date) (done : List (PageRequest env)) (p : PageRequest env) :
    (pageMessages hdate (done ++ [p])).flatMap responseCodec.encode =
      (pageMessages hdate done).flatMap responseCodec.encode ++ responseCodec.encode (p.response hdate).message := by
  simp [pageMessages]

/-- While the connection waits for a request, all responses have been sent. -/
theorem Dialogue.Between.waiting {hdate : CR ∉ date} (h : s.Between hdate done todo) (hin : s.state.conn.epollIn = true) :
    s.state.conn.Plain ∧ s.sent = (pageMessages hdate done).flatMap responseCodec.encode ∧ s.state.conn.ghost.answers = [] ∧
      s.read = stream (done.map PageRequest.request) ++ s.state.conn.ghost.received ∧
      s.state.conn.WaitsFor env (todo.map PageRequest.request) := by
  rcases h.exchange.mode with ⟨hread, hwaits⟩ | ⟨-, hsends⟩
  · have hanswers := hwaits.reading.1
    rcases h.stage with ⟨-, hplain, hsent⟩ | ⟨before, p, -, hne, -⟩
    · exact ⟨hplain, hsent, hanswers, hread, hwaits⟩
    · exact absurd hanswers hne
  · rw [hsends.epollIn] at hin
    cases hin

theorem Dialogue.Between.output {hdate : CR ∉ date} (h : s.Between hdate done todo) (hepoll : s.state.conn.epollOut = true)
    {sends files : List SendResult} (hsends : Benign sends) (hfiles : Benign files)
    (hconn : s'.state.conn = (responseHandle sends files s.state.conn).2)
    (hsent : s'.sent = s.sent ++ s.state.conn.handed sends files)
    (hexchange : s'.toExchange.Between env (done.map PageRequest.request) (todo.map PageRequest.request)) :
    s'.Between hdate done todo := by
  have hsending : s.state.conn.ghost.answers ≠ [] ∧ s.state.conn.Sends := by
    rcases h.exchange.mode with ⟨-, hwaits⟩ | ⟨-, hsends⟩
    · rw [hwaits.reading.2.2] at hepoll
      cases hepoll
    · exact ⟨hsends.answers, hsends⟩
  rcases h.stage with ⟨hnil, -⟩ | ⟨before, p, hdone, -, hdelivers, hsent₀⟩
  · exact absurd hnil hsending.1
  · refine ⟨hexchange, ?_⟩
    rw [hsent₀, List.append_assoc, wire_handed] at hsent
    have hloop := responseLoop_cases sends files s.state.conn
    rcases responseHandle_cases sends files s.state.conn with ⟨hend, -, heq⟩ | ⟨-, hdrop, -⟩ | ⟨hmore, heq⟩
    · rcases responseLoop_delivers hdelivers hsends hfiles with hstill | ⟨hwire, -⟩
      · cases hstill.responseDone.symm.trans hend
      · rw [hconn, heq, hdone, pageMessages_concat, hsent, hwire]
        exact .inl ⟨rfl, ⟨by rintro ⟨⟩, fun _ => rfl⟩, rfl⟩
    · rw [hloop.keepAlive, hsending.2.keepAlive] at hdrop
      cases hdrop
    · rcases responseLoop_delivers hdelivers hsends hfiles with hstill | ⟨-, hend⟩
      · rw [hconn, heq]
        exact .inr ⟨before, p, hdone, by rw [hloop.answers]; exact hsending.1, hstill, hsent⟩
      · cases hmore.symm.trans hend

theorem Dialogue.Between.reads {hdate : CR ∉ date} (h : s.Between hdate done todo) :
    s.sent <+: (pageMessages hdate done).flatMap responseCodec.encode ∧
      (responseCodec.decodeAll s.sent).1 <+: pageMessages hdate done := by
  have hbegins : s.sent <+: (pageMessages hdate done).flatMap responseCodec.encode := by
    rcases h.stage with ⟨-, -, hsent⟩ | ⟨before, p, rfl, -, hdelivers, hsent⟩
    · rw [hsent]
    · rw [hsent, pageMessages_concat, List.prefix_append_right_inj]
      exact hdelivers.wire
  refine ⟨hbegins, ?_⟩
  obtain ⟨read, todo', hsplit, hread, -⟩ := responseCodec.decodeAll_prefix hbegins
  rw [hread, hsplit]
  exact List.prefix_append _ _

end Between

end Lotos
