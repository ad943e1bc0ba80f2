import Lotos.Request.Accept
import Lotos.Server.Mask

/-!
# A response with status code 200

`ConnState.Tracked` ties a connection to the bytes it has received, over every run: while it waits for `EPOLLIN` a request
is being read (`Conn.Accepting`), and if it has answered by 200 a whole request has been received (`Conn.Holds`).

What that request is, is all that could be asked but for one thing: `atoi` reads on past a `Content-Length` of white space
alone.  `run_success` says so exactly.
-/

namespace Lotos

section Handle

variable {env : Env} {c c' : Conn} {st : Status}

theorem requestHandle_progress {recvs : List RecvResult} (h : c.Accepting)
    (hhandle : requestHandle env recvs c = .ok (st, c')) : c'.Progress := by
  have hrecv : (c.receive (recvBytes recvs)).Progress := .inl (h.receive _)
  rw [requestHandle_eq] at hhandle
  split_ifs at hhandle
  · exact handlerLoop_inv Conn.Progress (fun c c' hd st h hhd hcall => call_progress h hhd hcall) hrecv hhandle
  · obtain ⟨-, rfl⟩ := Prod.mk.inj (Except.ok.inj hhandle)
    exact hrecv

end Handle

/-! ### Runs -/

/-- The connection and the bytes received. -/
structure ConnState.Tracked (s : ConnState) : Prop where
  phase : s.Phase
  reading : s.conn.epollIn = true → s.conn.Accepting
  served : 200 ∈ s.conn.ghost.answers → ∃ w, s.conn.Holds w

theorem LoopEnd.holds {c : Conn} {res : Status × Conn} (hend : LoopEnd c res) {w : WholeRequest} (h : c.Holds w) :
    res.2.Holds w := by
  have hread := h.read
  have hbody := h.body
  refine ⟨by rw [hend.ghost]; exact h.bytes, h.blanks, ?_, ?_⟩
  · rw [hend.par]
    exact ⟨hread.start, hread.version, hread.headers, hread.coding, hread.connection, hread.length, hread.identity,
      hread.keepAlive, hread.contentLength⟩
  · rw [hend.par]
    exact hbody

section Runs

variable {timeout : ℤ} {cond : ConnState → Action → Prop} {s s' : ConnState}

theorem step_tracked (h : s.Tracked) (hstep : Step timeout cond s s') : s'.Tracked := by
  have hphase := step_phase h.phase hstep
  obtain ⟨a, hen, -, happly⟩ := hstep
  rcases apply_cases hen happly h.phase.mask with ⟨-, closed, rfl, -⟩ |
    ⟨now, env, recvs, ⟨st, c'⟩, -, -, hin, hres, rfl⟩ | ⟨now, sends, files, -, -, hout, rfl⟩
  · exact ⟨hphase, h.reading, h.served⟩
  · have hprogress : c'.Progress := requestHandle_progress (h.reading hin) hres
    refine ⟨hphase, ?_, ?_⟩
    · intro hin'
      have hreading : c'.Reading := hphase.reading hin'
      rcases hprogress with hc | hc | hc
      · exact hc
      · exact absurd hreading.answers hc.answered
      · exact absurd hc.handler hreading.handler
    · intro hmem
      rcases hprogress with hc | hc | hc
      · exact absurd hmem hc.1.not_mem
      · exact absurd hmem hc.answers
      · exact hc.request
  · have hloop := responseLoop_cases sends files s.conn
    have hserved : 200 ∈ (responseLoop sends files s.conn).2.ghost.answers →
        ∃ w, (responseLoop sends files s.conn).2.Holds w := by
      intro hmem
      rw [hloop.answers] at hmem
      obtain ⟨w, hw⟩ := h.served hmem
      exact ⟨w, hloop.holds hw⟩
    have hsame : (responseHandle sends files s.conn).2.epollIn = true →
        (responseHandle sends files s.conn).2.req = .fresh ∧ (responseHandle sends files s.conn).2.ghost.received = [] := by
      intro hin'
      rcases responseHandle_cases sends files s.conn with ⟨-, -, heq⟩ | ⟨-, -, heq⟩ | ⟨-, heq⟩ <;> rw [heq] at hin' ⊢
      · exact ⟨rfl, rfl⟩
      · exact absurd ⟨hloop.epollIn.symm.trans hin', hout⟩ h.phase.mask
      · exact absurd ⟨hloop.epollIn.symm.trans hin', hout⟩ h.phase.mask
    refine ⟨hphase, ?_, ?_⟩
    · intro hin'
      exact fresh_accepting (hsame hin').1 (hsame hin').2 (hphase.reading hin').answers
    · intro hmem
      change 200 ∈ (responseHandle sends files s.conn).2.ghost.answers at hmem
      change ∃ w, (responseHandle sends files s.conn).2.Holds w
      rcases responseHandle_cases sends files s.conn with ⟨-, -, heq⟩ | ⟨-, -, heq⟩ | ⟨-, heq⟩ <;> rw [heq] at hmem ⊢
      · cases hmem
      · exact hserved hmem
      · exact hserved hmem

theorem run_tracked {nextFd : ℕ} {now : ℤ} (hrun : Run timeout cond (.accept nextFd now) s) : s.Tracked :=
  hrun.inv ConnState.Tracked (fun _ _ h hstep => step_tracked h hstep)
    ⟨accept_phase nextFd now, fun _ => fresh_accepting rfl rfl rfl, nofun⟩

/-- A request that is held, without a blank `Content-Length`, is acceptable. -/
theorem Conn.Holds.sound {c : Conn} {w : WholeRequest} (h : c.Holds w) (hsolid : SolidLengths c.ghost.received) :
    SoundRequest c.ghost.received c.req.par.keepAlive := by
  have hread := h.read
  have hsolid : ∀ l ∈ w.headers, l.named "content-length" = true → l.solid := by
    refine hsolid w.line w.headers hread.start hread.headers ⟨emptyLine w.blanks ++ w.rest, ?_⟩
    rw [← h.bytes]
    simp [linesBytes, WholeRequest.bytes]
  refine ⟨w, ⟨hread.start, hread.headers, h.blanks⟩, h.bytes, ⟨hread.version, hread.coding, hread.connection, ?_, ?_⟩,
    hread.keepAlive⟩
  · exact fun l hl hname => hread.length l hl hname (hsolid l hl hname)
  · intro l hlast
    obtain ⟨hl, hname⟩ := lastNamed_mem hlast
    have hcl : c.req.par.contentLength = atoi l.value := hread.contentLength l hlast (hsolid l hl hname)
    rw [← hcl]
    refine h.body ?_
    rw [hcl]
    exact hread.length l hl hname (hsolid l hl hname)

/-- **A response with status code 200.**  In every run, when a request has been answered by 200, the bytes received are an
acceptable request, and `keep_alive` is what it says, exactly if no `Content-Length` among its header lines has a value of
white space alone. -/
theorem run_success {timeout : ℤ} {nextFd : ℕ} {now : ℤ} {s : ConnState}
    (hrun : Run timeout anyStep (.accept nextFd now) s) (hmem : 200 ∈ s.conn.ghost.answers) :
    SoundRequest s.conn.ghost.received s.conn.req.par.keepAlive ↔ SolidLengths s.conn.ghost.received := by
  obtain ⟨w, hw⟩ := (run_tracked hrun).served hmem
  exact ⟨SoundRequest.solidLengths, hw.sound⟩

/-- A request with a body, in two pieces. -/
theorem run_success_body : ∃ s, Run 5 anyStep (.accept 4 0) s ∧ 200 ∈ s.conn.ghost.answers ∧
    (SoundRequest s.conn.ghost.received s.conn.req.par.keepAlive ↔ SolidLengths s.conn.ghost.received) := by
  obtain ⟨s, hrun, hs⟩ := exec_observe 5 anyStep (.accept 4 0)
    [.recv 1 (.page []) (str "POST / HTTP/1.1\r\nContent-Len"), .recv 2 (.page []) (str "gth: 2\r\n\r\nab")]
    (fun s => s.conn.ghost.answers) (x := [200]) (by decide +kernel)
  have hmem : 200 ∈ s.conn.ghost.answers := by simp [hs]
  exact ⟨s, hrun, hmem, run_success hrun hmem⟩

/-- A vertical tab for a `Content-Length`, and a name that begins with a number in the next line: the request is answered by
200 once that number of bytes has followed. -/
theorem not_forall_run_success :
    ¬ ∀ (timeout : ℤ) (nextFd : ℕ) (now : ℤ) (s : ConnState), Run timeout anyStep (.accept nextFd now) s →
      200 ∈ s.conn.ghost.answers → SoundRequest s.conn.ghost.received s.conn.req.par.keepAlive := by
  intro h
  let received := str "GET / HTTP/1.1\r\nContent-Length: \x0b\r\n12: x\r\n\r\nabcdefghijkl"
  obtain ⟨s, hrun, hs⟩ := exec_observe 5 anyStep (.accept 4 0) [.recv 1 (.page []) received]
    (fun s => (s.conn.ghost.answers, s.conn.ghost.received)) (x := ([200], received)) (by decide +kernel)
  obtain ⟨hans, hreceived⟩ := Prod.mk.inj hs
  have hsound := h 5 4 0 s hrun (by simp [hans])
  rw [hreceived] at hsound
  have hsolid := hsound.solidLengths ⟨.get, [], [SLASH], [SP], [0x48, 0x54, 0x54, 0x50], [0x31], [0x31]⟩
    [⟨[], str "Content-Length", [SP], [0x0b]⟩]
    ⟨by decide, by simp, ⟨[], rfl, by simp⟩, ⟨by simp, by decide +kernel⟩,
      ⟨_, _, _, _, rfl, by decide, by decide, by decide, by decide⟩,
      .inl ⟨0x31, by decide, rfl⟩, .inl ⟨0x31, by decide, rfl⟩⟩
    (fun l hl => by
      rw [List.mem_singleton.mp hl]
      exact ⟨by simp, ⟨by decide +kernel, by decide +kernel⟩, by decide +kernel, _, _, rfl, by decide,
        by decide +kernel⟩)
    (by decide +kernel) _ (List.mem_singleton_self _) (by decide +kernel)
  obtain ⟨c, hc, hspace⟩ := hsolid
  rw [List.mem_singleton.mp hc] at hspace
  cases hspace

end Runs

end Lotos
