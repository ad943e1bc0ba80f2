import Lotos.Request.Lines
import Lotos.Request.Send
import Lotos.Server.Defs

/-!
# The event mask and the handlers

Between two events a connection is in one of three phases:

* `Conn.Reading`: it waits for `EPOLLIN`, a handler of the request is set, and nothing of a response exists;
* `Conn.Sending`: it waits for `EPOLLOUT`, and a response has been assembled that is not known to be sent;
* `Conn.Finished`: its last result was `ERROR`, and every later one will be.

While `request_handle` runs, it goes from `Reading` to `Conn.Answered` and stays there; `response_handle` leads from
`Sending` to each of the three.
-/

namespace Lotos

/-- The connection waits for the rest of a request. -/
structure Conn.Reading (c : Conn) : Prop where
  epollIn : c.epollIn = true
  epollOut : c.epollOut = false
  handler : c.req.reqHandler ≠ none
  ob : c.req.ob = []
  bufferSent : c.req.par.bufferSent = 0
  responseDone : c.req.par.responseDone = false
  resHandler : c.req.resHandler = .sendBuffer
  answers : c.ghost.answers = []

/-- A response has been assembled, and nothing of it has been sent. -/
structure Conn.Answered (c : Conn) : Prop where
  epollIn : c.epollIn = false
  epollOut : c.epollOut = true
  answers : c.ghost.answers ≠ []
  ob : c.req.ob ≠ []
  resHandler : c.req.resHandler = .sendBuffer

/-- A response has been assembled, and is not known to be sent completely. -/
structure Conn.Sending (c : Conn) : Prop where
  epollIn : c.epollIn = false
  epollOut : c.epollOut = true
  answers : c.ghost.answers ≠ []
  pending : c.req.ob ≠ [] ∨ c.req.resHandler = .sendFile

/-- The connection is to be closed. -/
structure Conn.Finished (c : Conn) : Prop where
  epollIn : c.epollIn = false
  answers : c.ghost.answers ≠ []
  responseDone : c.req.par.responseDone = true
  keepAlive : c.req.par.keepAlive = false

/-! ### Assembling -/

section Assemble

variable {env : Env} {c c' : Conn}

theorem Conn.Reading.quiet (h : c.Reading) (hq : c.Quiet c') : c'.Reading where
  epollIn := hq.epollIn.trans h.epollIn
  epollOut := hq.epollOut.trans h.epollOut
  handler := by rw [hq.req]; exact h.handler
  ob := by rw [hq.req]; exact h.ob
  bufferSent := hq.bufferSent.trans h.bufferSent
  responseDone := hq.responseDone.trans h.responseDone
  resHandler := by rw [hq.req]; exact h.resHandler
  answers := by rw [hq.ghost]; exact h.answers

theorem Conn.Answered.quiet (h : c.Answered) (hq : c.Quiet c') : c'.Answered where
  epollIn := hq.epollIn.trans h.epollIn
  epollOut := hq.epollOut.trans h.epollOut
  answers := by rw [hq.ghost]; exact h.answers
  ob := by rw [hq.req]; exact h.ob
  resHandler := by rw [hq.req]; exact h.resHandler

theorem assembleErr_answered (h : c.req.resHandler = .sendBuffer) (code : ℕ) :
    (responseAssembleErrBuffer env c code).2.Answered := by
  have hob : (c.req.assembleErr env code).ob ≠ [] :=
    List.append_ne_nil_of_left_ne_nil (List.append_ne_nil_of_right_ne_nil _ (by simp [CRLF])) _
  rw [assembleErr_eq]
  exact ⟨rfl, rfl, by simp, hob, h⟩

theorem assembleBuffer_answered (h : c.req.resHandler = .sendBuffer) :
    (responseAssembleBuffer env (c.turnOut.setHandler none)).Answered where
  epollIn := rfl
  epollOut := rfl
  answers := List.append_ne_nil_of_right_ne_nil _ (by simp)
  ob := List.append_ne_nil_of_right_ne_nil _ (by simp [CRLF])
  resHandler := h

/-- Reading, or answered. -/
def Conn.Handling (c : Conn) : Prop := c.Reading ∨ c.Answered

theorem Conn.Handling.resHandler (h : c.Handling) : c.req.resHandler = .sendBuffer :=
  h.elim Conn.Reading.resHandler Conn.Answered.resHandler

theorem Conn.Handling.quiet (h : c.Handling) (hq : c.Quiet c') : c'.Handling :=
  h.imp (fun h => h.quiet hq) (fun h => h.quiet hq)

theorem Conn.Handling.assembleErr (h : c.Handling) (code : ℕ) : (responseAssembleErrBuffer env c code).2.Handling :=
  .inr (assembleErr_answered h.resHandler code)

theorem Conn.Handling.setHandler (h : c.Handling) (hd : ReqHandler) : (c.setHandler (some hd)).Handling := by
  rcases h with h | h
  · exact .inl ⟨h.epollIn, h.epollOut, by simp [Conn.setHandler, Conn.mapReq], h.ob, h.bufferSent, h.responseDone,
      h.resHandler, h.answers⟩
  · exact .inr ⟨h.epollIn, h.epollOut, h.answers, h.ob, h.resHandler⟩

end Assemble

/-! ### `request_handle` -/

section RequestHandle

variable {env : Env} {c c' : Conn} {st : Status}

theorem openResource_handling (h : c.Handling) (file : File) : (openResource c file).Handling := by
  have hframe := openResource_frame c file
  have hin := hframe.epollIn
  have hout := hframe.epollOut
  have hreq := hframe.req
  have hghost := hframe.ghost
  generalize openResource c file = c' at hin hout hreq hghost ⊢
  rcases h with h | h
  · refine .inl ⟨hin.trans h.epollIn, hout.trans h.epollOut, ?_, ?_, ?_, ?_, ?_, ?_⟩
    · rw [hreq]
      simp
    · rw [hreq]
      exact h.ob
    · rw [hreq]
      exact h.bufferSent
    · rw [hreq]
      exact h.responseDone
    · rw [hreq]
      exact h.resHandler
    · rw [hghost]
      exact h.answers
  · refine .inr ⟨hin.trans h.epollIn, hout.trans h.epollOut, ?_, ?_, ?_⟩
    · rw [hghost]
      exact h.answers
    · rw [hreq]
      exact h.ob
    · rw [hreq]
      exact h.resHandler

/-- The handlers of the request keep the phase, or answer. -/
theorem handling_scanInv (env : Env) : ScanInv env fun _ c => c.Handling where
  parse _ _ _ h howned := h.quiet (quiet_parse howned)
  error _ code _ h := h.assembleErr code
  path _ c p _ h := h.quiet (quiet_path c p)
  resource _ _ file _ h := openResource_handling h file
  record k _ c _ h := h.quiet (quiet_record c k)
  refuse k _ c code _ h := (h.quiet (quiet_record c k)).assembleErr code
  body _ _ h := h.setHandler .body
  wait _ h := h
  answer _ h := .inr (assembleBuffer_answered h.resHandler)
  coding _ h := h.assembleErr 501

theorem Conn.Reading.receive (h : c.Reading) (bs : List Byte) : (c.receive bs).Reading :=
  ⟨h.epollIn, h.epollOut, h.handler, h.ob, h.bufferSent, h.responseDone, h.resHandler, h.answers⟩

theorem Conn.Answered.sending (h : c.Answered) : c.Sending := ⟨h.epollIn, h.epollOut, h.answers, .inl h.ob⟩

theorem requestHandle_handling {recvs : List RecvResult} (h : c.Reading)
    (hhandle : requestHandle env recvs c = .ok (st, c')) : c'.Handling := by
  have hrecv : (c.receive (recvBytes recvs)).Handling := .inl (h.receive _)
  rw [requestHandle_eq] at hhandle
  split_ifs at hhandle
  · exact handlerLoop_scan (handling_scanInv env) hrecv hhandle
  · obtain ⟨-, rfl⟩ := Prod.ext_iff.mp (Except.ok.inj hhandle)
    exact hrecv

theorem requestHandle_ne_nullHandler (env : Env) (recvs : List RecvResult) (h : c.req.reqHandler ≠ none) :
    requestHandle env recvs c ≠ .error .nullHandler := by
  rw [requestHandle_eq]
  split_ifs
  · exact handlerLoop_ne_nullHandler h
  · simp

end RequestHandle

/-! ### `response_handle` -/

section ResponseHandle

variable {c : Conn} {sends files : List SendResult} {res : Status × Conn}

theorem LoopEnd.sending (h : LoopEnd c res) (hc : c.Sending) (hdone : res.2.req.par.responseDone = false) :
    res.2.Sending := by
  cases h with
  | buffer hh _ hf hob _ =>
    refine ⟨hf.epollIn.trans hc.epollIn, hf.epollOut.trans hc.epollOut, ?_, .inl ?_⟩
    · rw [hf.answers]
      exact hc.answers
    · rw [hob]
      exact hc.pending.resolve_right (by simp [hh])
  | noFile _ _ _ _ => cases hdone
  | doneBefore _ _ hdone₁ hf => cases (hf.responseDone.trans hdone₁).symm.trans hdone
  | file _ _ hf hh =>
    refine ⟨hf.epollIn.trans hc.epollIn, hf.epollOut.trans hc.epollOut, ?_, .inr hh⟩
    rw [hf.answers]
    exact hc.answers
  | endOfFile _ _ => cases hdone

theorem reset_reading (c : Conn) : (requestReset c).turnIn.Reading :=
  ⟨rfl, rfl, by simp [Conn.turnIn, requestReset, Request.fresh, Conn.mapReq, Conn.mapGhost], rfl, rfl, rfl, rfl, rfl⟩

theorem responseHandle_sending (h : c.Sending) :
    (responseHandle sends files c).2.Sending ∨ (responseHandle sends files c).2.Reading ∨
      (responseHandle sends files c).2.Finished ∧ (responseHandle sends files c).1 = .error := by
  have hloop := responseLoop_cases sends files c
  rcases responseHandle_cases sends files c with ⟨-, -, heq⟩ | ⟨hdone, hkeep, heq⟩ | ⟨hdone, heq⟩ <;> rw [heq]
  · exact .inr (.inl (reset_reading _))
  · refine .inr (.inr ⟨⟨hloop.epollIn.trans h.epollIn, ?_, hdone, hkeep⟩, rfl⟩)
    rw [hloop.answers]
    exact h.answers
  · exact .inl (hloop.sending h hdone)

/-- Once a connection is to be closed, every result of `response_handle` is `ERROR`. -/
theorem responseHandle_finished (h : c.Finished) :
    (responseHandle sends files c).2.Finished ∧ (responseHandle sends files c).1 = .error := by
  have hloop := responseLoop_cases sends files c
  have hdone₁ := hloop.responseDone h.responseDone
  have hkeep₁ := hloop.keepAlive.trans h.keepAlive
  rcases responseHandle_cases sends files c with ⟨-, hkeep, -⟩ | ⟨hdone, hkeep, heq⟩ | ⟨hdone, -⟩
  · cases hkeep₁.symm.trans hkeep
  · rw [heq]
    refine ⟨⟨hloop.epollIn.trans h.epollIn, ?_, hdone, hkeep⟩, rfl⟩
    rw [hloop.answers]
    exact h.answers
  · cases hdone₁.symm.trans hdone

end ResponseHandle

/-! ### Runs -/

/-- The phase of a connection between two events. -/
def ConnState.Phase (s : ConnState) : Prop :=
  s.conn.Reading ∨ s.conn.Sending ∨ s.conn.Finished ∧ s.lastResult = some .error

section Runs

variable {timeout : ℤ} {cond : ConnState → Action → Prop} {s s' : ConnState}

/-- Nothing is dispatched: the connection is closed, or has expired, or the event reports neither bit. -/
def Action.Idle (timeout : ℤ) (s : ConnState) : Action → Prop
  | .event now input output => now - s.activeTime > timeout ∨ input = none ∧ output = none
  | .close _ => True

/-- **What a step does.**  It changes nothing but `closed`, or it is the branch of `EPOLLIN` or that of `EPOLLOUT`, with the
bit in the mask. -/
theorem apply_cases {a : Action} (hen : a.Enabled timeout s) (happly : s.apply timeout a = .ok s')
    (hmask : ¬ (s.conn.epollIn = true ∧ s.conn.epollOut = true)) :
    (a.Idle timeout s ∧ ∃ closed, s' = { s with closed := closed } ∧
      (closed = true → s.closed = true ∨ ∃ now, a = .close now)) ∨
    (∃ now env recvs res, a = .event now (some (env, recvs)) none ∧ now - s.activeTime ≤ timeout ∧
      s.conn.epollIn = true ∧ requestHandle env recvs s.conn = .ok res ∧ s' = s.finish now res) ∨
    (∃ now sends files, a = .event now none (some (sends, files)) ∧ now - s.activeTime ≤ timeout ∧
      s.conn.epollOut = true ∧ s' = s.finish now (responseHandle sends files s.conn)) := by
  cases a with
  | close now => exact .inl ⟨trivial, true, (Except.ok.inj happly).symm, fun _ => .inr ⟨now, rfl⟩⟩
  | event now input output =>
    obtain ⟨-, hin, hout⟩ := hen
    simp only [ConnState.apply] at happly
    split_ifs at happly with hexp
    · exact .inl ⟨.inl hexp, s.closed, (Except.ok.inj happly).symm, .inl⟩
    have hexp : now - s.activeTime ≤ timeout := not_lt.mp hexp
    rcases input with _ | ⟨env, recvs⟩ <;> rcases output with _ | ⟨sends, files⟩
    · exact .inl ⟨.inr ⟨rfl, rfl⟩, s.closed, (Except.ok.inj happly).symm, .inl⟩
    · exact .inr (.inr ⟨now, sends, files, rfl, hexp, hout (by simp), (Except.ok.inj happly).symm⟩)
    · have happly : s.input now env recvs = .ok s' := by
        cases hinput : s.input now env recvs <;> simp only [hinput] at happly <;> exact happly
      unfold ConnState.input at happly
      split at happly
      · rename_i res hres
        exact .inr (.inl ⟨now, env, recvs, res, rfl, hexp, hin (by simp), hres, (Except.ok.inj happly).symm⟩)
      · cases happly
    · exact absurd ⟨hin (by simp), hout (by simp)⟩ hmask

theorem ConnState.Phase.mask (h : s.Phase) : ¬ (s.conn.epollIn = true ∧ s.conn.epollOut = true) := by
  rintro ⟨hin, hout⟩
  rcases h with h | h | ⟨h, -⟩
  · cases h.epollOut.symm.trans hout
  · cases h.epollIn.symm.trans hin
  · cases h.epollIn.symm.trans hin

theorem ConnState.Phase.reading (h : s.Phase) (hin : s.conn.epollIn = true) : s.conn.Reading := by
  rcases h with h | h | ⟨h, -⟩
  · exact h
  · cases h.epollIn.symm.trans hin
  · cases h.epollIn.symm.trans hin

theorem step_phase (h : s.Phase) (hstep : Step timeout cond s s') : s'.Phase := by
  obtain ⟨a, hen, -, happly⟩ := hstep
  rcases apply_cases hen happly h.mask with ⟨-, closed, rfl, -⟩ | ⟨now, env, recvs, ⟨st, c'⟩, -, -, hin, hres, rfl⟩ |
    ⟨now, sends, files, -, -, hout, rfl⟩
  · exact h
  · rcases requestHandle_handling (h.reading hin) hres with hc | hc
    · exact .inl hc
    · exact .inr (.inl hc.sending)
  · rcases h with h | h | ⟨h, -⟩
    · cases h.epollOut.symm.trans hout
    · rcases responseHandle_sending h with hc | hc | ⟨hc, hst⟩
      · exact .inr (.inl hc)
      · exact .inl hc
      · exact .inr (.inr ⟨hc, congrArg some hst⟩)
    · obtain ⟨hc, hst⟩ := responseHandle_finished h
      exact .inr (.inr ⟨hc, congrArg some hst⟩)

theorem accept_phase (nextFd : ℕ) (now : ℤ) : (ConnState.accept nextFd now).Phase :=
  .inl ⟨rfl, rfl, by simp [ConnState.accept, Request.fresh], rfl, rfl, rfl, rfl, rfl⟩

theorem run_phase {nextFd : ℕ} {now : ℤ} (hrun : Run timeout cond (.accept nextFd now) s) : s.Phase :=
  hrun.inv ConnState.Phase (fun _ _ h hstep => step_phase h hstep) (accept_phase nextFd now)

/-- No enabled action calls a handler of the request that is not set. -/
theorem apply_ne_nullHandler (h : s.Phase) {a : Action} (ha : a.Enabled timeout s) :
    s.apply timeout a ≠ .error .nullHandler := by
  cases a with
  | close now => simp [ConnState.apply]
  | event now input output =>
    obtain ⟨-, hin, -⟩ := ha
    intro happly
    simp only [ConnState.apply] at happly
    split_ifs at happly
    rcases input with _ | ⟨env, recvs⟩
    · rcases output with _ | ⟨sends, files⟩ <;> cases happly
    · have hne := requestHandle_ne_nullHandler env recvs (h.reading (hin (by simp))).handler
      rcases hhandle : requestHandle env recvs s.conn with e | res
      · rw [hhandle] at hne
        rcases output with _ | ⟨sends, files⟩ <;> simp only [ConnState.input, hhandle] at happly <;>
          exact hne (congrArg _ (Except.error.inj happly))
      · rcases output with _ | ⟨sends, files⟩ <;> simp only [ConnState.input, hhandle] at happly <;> cases happly

/-- **The mask and the handlers, over every run.**  Unless the last result was `ERROR`, the mask has exactly one of the two
bits; with `EPOLLIN` a handler of the request is set and nothing of a response exists, with `EPOLLOUT` a response exists
that is not known to be sent.  So no event calls a handler that is not set, and `response_handle` runs only when there is
a response. -/
theorem run_mask {timeout : ℤ} {nextFd : ℕ} {now : ℤ} {s : ConnState}
    (hrun : Run timeout anyStep (.accept nextFd now) s) :
    (s.lastResult ≠ some .error →
      s.conn.epollIn = !s.conn.epollOut ∧
      (s.conn.epollIn = true → s.conn.req.reqHandler ≠ none ∧ s.conn.req.ob = [] ∧
        s.conn.req.par.bufferSent = 0 ∧ s.conn.req.par.responseDone = false) ∧
      (s.conn.epollOut = true → s.conn.ghost.answers ≠ [] ∧
        (s.conn.req.ob ≠ [] ∨ s.conn.req.resHandler = .sendFile))) ∧
    (∀ a : Action, a.Enabled timeout s → s.apply timeout a ≠ .error .nullHandler) ∧
    (s.conn.epollOut = true → s.conn.ghost.answers ≠ []) := by
  have h := run_phase hrun
  refine ⟨?_, fun a ha => apply_ne_nullHandler h ha, ?_⟩
  · intro hlast
    rcases h with h | h | ⟨-, herr⟩
    · refine ⟨by rw [h.epollIn, h.epollOut]; rfl, fun _ => ⟨h.handler, h.ob, h.bufferSent, h.responseDone⟩, fun hout => ?_⟩
      cases h.epollOut.symm.trans hout
    · refine ⟨by rw [h.epollIn, h.epollOut]; rfl, fun hin => ?_, fun _ => ⟨h.answers, h.pending⟩⟩
      cases h.epollIn.symm.trans hin
    · exact absurd herr hlast
  · intro hout
    rcases h with h | h | ⟨h, -⟩
    · cases h.epollOut.symm.trans hout
    · exact h.answers
    · exact h.answers

/-- After a complete request the connection waits to send. -/
theorem run_mask_answered : ∃ s, Run 5 anyStep (.accept 4 0) s ∧ s.lastResult = some .ok ∧
    s.conn.ghost.answers = [200] ∧ s.conn.epollIn = !s.conn.epollOut := by
  obtain ⟨s, hrun, hs⟩ := exec_observe 5 anyStep (.accept 4 0)
    [.recv 1 (.page []) (str "GET / HTTP/1.1\r\n\r\n")] (fun s => (s.lastResult, s.conn.ghost.answers))
    (x := (some .ok, [200])) (by decide +kernel)
  obtain ⟨hlast, hans⟩ := Prod.mk.inj hs
  have hne : s.lastResult ≠ some .error := by
    rw [hlast]
    decide
  exact ⟨s, hrun, hlast, hans, ((run_mask hrun).1 hne).1⟩

end Runs

end Lotos
