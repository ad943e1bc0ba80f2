import Lotos.Request.Frame

/-!
# The ends of `response_handle`

While bytes go to the socket only the cursor, the rest of the file and the record of the bytes change (`Conn.SendFrame`).
`responseLoop_cases` lists the five ways in which the loop of `response_handle` ends.
-/

namespace Lotos

/-- Only `ob`, its cursor, the rest of the file, the handler of the response and the bytes on the wire change. -/
structure Conn.SendFrame (c c' : Conn) : Prop where
  epollIn : c'.epollIn = c.epollIn
  epollOut : c'.epollOut = c.epollOut
  nextFd : c'.nextFd = c.nextFd
  ghost : c'.ghost = { c.ghost with wire := c'.ghost.wire }
  req : c'.req = { c.req with
    ob := c'.req.ob
    resource := c'.req.resource
    resHandler := c'.req.resHandler
    par := { c.req.par with bufferSent := c'.req.par.bufferSent } }

theorem Conn.SendFrame.refl (c : Conn) : c.SendFrame c := ⟨rfl, rfl, rfl, rfl, rfl⟩

theorem Conn.SendFrame.trans {c₁ c₂ c₃ : Conn} (h₁ : c₁.SendFrame c₂) (h₂ : c₂.SendFrame c₃) : c₁.SendFrame c₃ where
  epollIn := h₂.epollIn.trans h₁.epollIn
  epollOut := h₂.epollOut.trans h₁.epollOut
  nextFd := h₂.nextFd.trans h₁.nextFd
  ghost := by
    rw [h₂.ghost, h₁.ghost]
  req := by
    rw [h₂.req, h₁.req]

section Frame

variable {c c' : Conn} (h : c.SendFrame c')
include h

theorem Conn.SendFrame.responseDone : c'.req.par.responseDone = c.req.par.responseDone := by rw [h.req]

theorem Conn.SendFrame.keepAlive : c'.req.par.keepAlive = c.req.par.keepAlive := by rw [h.req]

theorem Conn.SendFrame.errReq : c'.req.par.errReq = c.req.par.errReq := by rw [h.req]

theorem Conn.SendFrame.resourceFd : c'.req.resourceFd = c.req.resourceFd := by rw [h.req]

theorem Conn.SendFrame.answers : c'.ghost.answers = c.ghost.answers := by rw [h.ghost]

end Frame

def Conn.setDone (c : Conn) : Conn := c.mapPar fun ar => { ar with responseDone := true }

/-- The bytes have been handed to `send`. -/
def Conn.sentBuffer (c : Conn) (bs : List Byte) : Conn :=
  (c.mapPar fun ar => { ar with bufferSent := ar.bufferSent + bs.length }).mapGhost fun g =>
    { g with wire := g.wire ++ bs }

/-- The bytes have been handed to `sendfile`. -/
def Conn.sentFile (c : Conn) (bs : List Byte) : Conn :=
  (c.mapReq fun r => { r with resource := r.resource.drop bs.length }).mapGhost fun g => { g with wire := g.wire ++ bs }

theorem sentBuffer_frame (c : Conn) (bs : List Byte) : c.SendFrame (c.sentBuffer bs) := ⟨rfl, rfl, rfl, rfl, rfl⟩

theorem sentFile_frame (c : Conn) (bs : List Byte) : c.SendFrame (c.sentFile bs) := ⟨rfl, rfl, rfl, rfl, rfl⟩

theorem responseSend_cases (c : Conn) (sends : List SendResult) :
    c.SendFrame (responseSend c sends).2 ∧ (responseSend c sends).2.req.resHandler = c.req.resHandler ∧
      ((responseSend c sends).1 = .ok ∨
        (responseSend c sends).1 ≠ .ok ∧ (responseSend c sends).2.req.ob = c.req.ob) := by
  induction sends generalizing c with
  | nil => exact ⟨.refl c, rfl, .inr ⟨by simp [responseSend], rfl⟩⟩
  | cons r rest ih =>
    cases r with
    | sent k =>
      simp only [responseSend]
      split_ifs
      · exact ⟨⟨rfl, rfl, rfl, rfl, rfl⟩, rfl, .inl rfl⟩
      · obtain ⟨hframe, hh, hend⟩ := ih (c.sentBuffer (List.take k (List.drop c.req.par.bufferSent c.req.ob)))
        exact ⟨(sentBuffer_frame c _).trans hframe, hh, hend⟩
    | again => exact ⟨.refl c, rfl, .inr ⟨by simp [responseSend], rfl⟩⟩
    | error => exact ⟨.refl c, rfl, .inr ⟨by simp [responseSend], rfl⟩⟩

theorem responseHandleSendFile_cases (c : Conn) (files : List SendResult) :
    ∃ c₁, c.SendFrame c₁ ∧ c₁.req.resHandler = c.req.resHandler ∧
      ((responseHandleSendFile c files).1 ≠ .ok ∧ (responseHandleSendFile c files).2 = c₁ ∨
        responseHandleSendFile c files = (.ok, c₁.setDone.closeFd (c.req.resourceFd.getD 0))) := by
  induction files generalizing c with
  | nil => exact ⟨c, .refl c, rfl, .inl ⟨by simp [responseHandleSendFile], rfl⟩⟩
  | cons r rest ih =>
    cases r with
    | sent k =>
      simp only [responseHandleSendFile]
      split_ifs
      · exact ⟨c, .refl c, rfl, .inr rfl⟩
      · obtain ⟨c₁, hframe, hh, hend⟩ :=
          ih (c.sentFile (List.take (min k (sendfileCount c.req.resourceSize)) c.req.resource))
        exact ⟨c₁, (sentFile_frame c _).trans hframe, hh, hend⟩
    | again => exact ⟨c, .refl c, rfl, .inl ⟨by simp [responseHandleSendFile], rfl⟩⟩
    | error => exact ⟨c, .refl c, rfl, .inl ⟨by simp [responseHandleSendFile], rfl⟩⟩

/-- The file is next: it is the handler, or the buffer is, and there is a file to send after it. -/
def Conn.FileNext (c : Conn) : Prop :=
  c.req.resHandler = .sendFile ∨ c.req.resourceFd ≠ none ∧ c.req.par.responseDone = false

/-- How the loop of `response_handle` ends. -/
inductive LoopEnd (c : Conn) : Status × Conn → Prop where
  /-- the buffer has not been sent -/
  | buffer {st c'} (hh : c.req.resHandler = .sendBuffer) (hst : st ≠ .ok) (hf : c.SendFrame c')
      (hob : c'.req.ob = c.req.ob) (hh' : c'.req.resHandler = .sendBuffer) : LoopEnd c (st, c')
  /-- the buffer has been sent, and there is no file -/
  | noFile {c₁} (hh : c.req.resHandler = .sendBuffer) (hfd : c.req.resourceFd = none) (hf : c.SendFrame c₁)
      (hh' : c₁.req.resHandler = .sendBuffer) : LoopEnd c (.ok, c₁.setDone.disableOut)
  /-- the buffer has been sent; there is a file, but the response was done before -/
  | doneBefore {c'} (hh : c.req.resHandler = .sendBuffer) (hfd : c.req.resourceFd ≠ none)
      (hdone : c.req.par.responseDone = true) (hf : c.SendFrame c') : LoopEnd c (.ok, c')
  /-- the file has not been sent -/
  | file {st c'} (hnext : c.FileNext) (hst : st ≠ .ok) (hf : c.SendFrame c') (hh : c'.req.resHandler = .sendFile) :
      LoopEnd c (st, c')
  /-- the end of the file -/
  | endOfFile {c₁} (hnext : c.FileNext) (hf : c.SendFrame c₁) :
      LoopEnd c (.ok, c₁.setDone.closeFd (c.req.resourceFd.getD 0))

section Loop

variable {sends files : List SendResult} {c c' : Conn}

theorem responseLoop_stop {st : Status} (h : c.req.resHandler.call sends files c = (st, c'))
    (hst : st ≠ .ok ∨ c'.req.par.responseDone = true) : responseLoop sends files c = (st, c') := by
  rw [responseLoop, h]
  cases st with
  | ok => simp only [hst.resolve_left (by simp), dif_pos]
  | _ => rfl

theorem responseLoop_next (h : c.req.resHandler.call sends files c = (.ok, c'))
    (hdone : c'.req.par.responseDone = false) : responseLoop sends files c = responseLoop sends files c' := by
  rw [responseLoop, h]
  simp [hdone]

theorem responseLoop_file (hnext : c.FileNext) (hf : c.SendFrame c') (hh : c'.req.resHandler = .sendFile) :
    LoopEnd c (responseLoop sends files c') := by
  have hcall : c'.req.resHandler.call sends files c' = responseHandleSendFile c' files := by rw [hh]; rfl
  obtain ⟨c₁, hf₁, hh₁, ⟨hst, heq⟩ | hok⟩ := responseHandleSendFile_cases c' files
  · rw [responseLoop_stop (hcall.trans (Prod.ext rfl rfl)) (.inl hst), heq]
    exact .file hnext hst (hf.trans hf₁) (hh₁.trans hh)
  · rw [responseLoop_stop (hcall.trans hok) (.inr rfl), hf.resourceFd]
    exact .endOfFile hnext (hf.trans hf₁)

/-- **The ends of the loop of `response_handle`.** -/
theorem responseLoop_cases (sends files : List SendResult) (c : Conn) : LoopEnd c (responseLoop sends files c) := by
  cases hh : c.req.resHandler with
  | sendFile => exact responseLoop_file (.inl hh) (.refl c) hh
  | sendBuffer =>
    have hcall : c.req.resHandler.call sends files c = responseHandleSendBuffer c sends := by rw [hh]; rfl
    obtain ⟨hf, hh', hst | ⟨hst, hob⟩⟩ := responseSend_cases c sends
    · have hsend : responseSend c sends = (.ok, (responseSend c sends).2) := Prod.ext hst rfl
      by_cases hfd : c.req.resourceFd = none
      · have hbuf : responseHandleSendBuffer c sends = (.ok, (responseSend c sends).2.setDone.disableOut) := by
          rw [responseHandleSendBuffer, hsend]
          simp only [hf.resourceFd, hfd, ne_eq, not_true_eq_false, if_false]
          rfl
        rw [responseLoop_stop (hcall.trans hbuf) (.inr rfl)]
        exact .noFile hh hfd hf (hh'.trans hh)
      · -- the file is next, in the same loop unless the response is done
        have hbuf : responseHandleSendBuffer c sends =
            (.ok, (responseSend c sends).2.mapReq fun r => { r with resHandler := .sendFile }) := by
          rw [responseHandleSendBuffer, hsend]
          simp only [hf.resourceFd, hfd, ne_eq, not_false_eq_true, if_true]
        have hfile : c.SendFrame ((responseSend c sends).2.mapReq fun r => { r with resHandler := .sendFile }) :=
          hf.trans ⟨rfl, rfl, rfl, rfl, rfl⟩
        cases hdone : c.req.par.responseDone with
        | true =>
          rw [responseLoop_stop (hcall.trans hbuf) (.inr (hf.responseDone.trans hdone))]
          exact .doneBefore hh hfd hdone hfile
        | false =>
          rw [responseLoop_next (hcall.trans hbuf) (hf.responseDone.trans hdone)]
          exact responseLoop_file (.inr ⟨hfd, hdone⟩) hfile rfl
    · have hbuf : responseHandleSendBuffer c sends = ((responseSend c sends).1, (responseSend c sends).2) := by
        rw [responseHandleSendBuffer]
        split
        · rename_i heq
          rw [heq] at hst
          exact absurd rfl hst
        · rename_i heq
          rw [heq]
      rw [responseLoop_stop (hcall.trans hbuf) (.inl hst)]
      exact .buffer hh hst hf hob (hh'.trans hh)

end Loop

/-! ### What the loop leaves alone -/

section Ends

variable {c : Conn} {res : Status × Conn}

/-- The loop sends, and then the response may be done. -/
theorem LoopEnd.shape (h : LoopEnd c res) : ∃ c₁, c.SendFrame c₁ ∧
    (res.2 = c₁ ∨ res.2 = c₁.setDone.disableOut ∨ ∃ fd, res.2 = c₁.setDone.closeFd fd) := by
  cases h with
  | buffer _ _ hf _ _ => exact ⟨_, hf, .inl rfl⟩
  | noFile _ _ hf _ => exact ⟨_, hf, .inr (.inl rfl)⟩
  | doneBefore _ _ _ hf => exact ⟨_, hf, .inl rfl⟩
  | file _ _ hf _ => exact ⟨_, hf, .inl rfl⟩
  | endOfFile _ hf => exact ⟨_, hf, .inr (.inr ⟨_, rfl⟩)⟩

theorem LoopEnd.epollIn (h : LoopEnd c res) : res.2.epollIn = c.epollIn := by
  obtain ⟨c₁, hf, heq | heq | ⟨fd, heq⟩⟩ := h.shape <;> rw [heq] <;> exact hf.epollIn

/-- Of what has happened on the connection, only the bytes sent and the closed descriptors are new. -/
theorem LoopEnd.ghost (h : LoopEnd c res) :
    res.2.ghost = { c.ghost with wire := res.2.ghost.wire, closed := res.2.ghost.closed } := by
  obtain ⟨c₁, hf, heq | heq | ⟨fd, heq⟩⟩ := h.shape <;> rw [heq]
  · rw [hf.ghost]
  · change c₁.ghost = { c.ghost with wire := c₁.ghost.wire, closed := c₁.ghost.closed }
    rw [hf.ghost]
  · change { c₁.ghost with closed := c₁.ghost.closed ++ [fd] } =
      { c.ghost with wire := c₁.ghost.wire, closed := c₁.ghost.closed ++ [fd] }
    rw [hf.ghost]

theorem LoopEnd.answers (h : LoopEnd c res) : res.2.ghost.answers = c.ghost.answers := by rw [h.ghost]

theorem LoopEnd.par (h : LoopEnd c res) : res.2.req.par = { c.req.par with
    bufferSent := res.2.req.par.bufferSent
    responseDone := res.2.req.par.responseDone } := by
  obtain ⟨c₁, hf, heq | heq | ⟨fd, heq⟩⟩ := h.shape <;> rw [heq]
  · rw [hf.req]
  · change { c₁.req.par with responseDone := true } =
      { c.req.par with bufferSent := c₁.req.par.bufferSent, responseDone := true }
    rw [hf.req]
  · change { c₁.req.par with responseDone := true } =
      { c.req.par with bufferSent := c₁.req.par.bufferSent, responseDone := true }
    rw [hf.req]

theorem LoopEnd.keepAlive (h : LoopEnd c res) : res.2.req.par.keepAlive = c.req.par.keepAlive := by rw [h.par]

theorem LoopEnd.responseDone (h : LoopEnd c res) (hdone : c.req.par.responseDone = true) :
    res.2.req.par.responseDone = true := by
  obtain ⟨c₁, hf, heq | heq | ⟨fd, heq⟩⟩ := h.shape <;> rw [heq]
  · exact hf.responseDone.trans hdone
  · rfl
  · rfl

/-- What `response_handle` does with the end of its loop. -/
theorem responseHandle_cases (sends files : List SendResult) (c : Conn) :
    let res := responseLoop sends files c
    (res.2.req.par.responseDone = true ∧ res.2.req.par.keepAlive = true ∧
      responseHandle sends files c = (res.1, (requestReset res.2).turnIn)) ∨
    (res.2.req.par.responseDone = true ∧ res.2.req.par.keepAlive = false ∧
      responseHandle sends files c = (.error, res.2)) ∨
    (res.2.req.par.responseDone = false ∧ responseHandle sends files c = res) := by
  unfold responseHandle
  rcases responseLoop sends files c with ⟨st, c'⟩
  simp only
  split_ifs with hdone hkeep
  · exact .inl ⟨hdone, hkeep, rfl⟩
  · exact .inr (.inl ⟨hdone, by simpa using hkeep, rfl⟩)
  · exact .inr (.inr ⟨by simpa using hdone, rfl⟩)

end Ends

end Lotos
