import Lotos.Server.Mask

/-!
# The descriptors of the resources

`request_handle_request_line` opens the file of a request and keeps it in `resource_fd`; the only `close` of it is at the
end of `response_handle_send_file`.  `FdLog` is a record of descriptors of which at most one is held; `Conn.Files` says
that `resource_fd` is the held one, and that it has been closed exactly if the response is done without an error.

`ReleasesFile` is the condition on the steps under which nothing else happens, and `run_descriptors` is about the runs all
of whose steps satisfy it.
-/

namespace Lotos

/-! ### Records of descriptors -/

/-- Descriptors that have been opened and closed, all numbers below `next`; of those that are open none but `held`. -/
structure FdLog (next : ℕ) (opened closed : List ℕ) (held : Option ℕ) : Prop where
  fresh : ∀ fd ∈ opened, fd < next
  openedOnce : opened.Nodup
  closedOnce : closed.Nodup
  wasOpened : ∀ fd ∈ closed, fd ∈ opened
  rest : ∀ fd ∈ opened, fd ∉ closed → held = some fd
  held : ∀ fd, held = some fd → fd ∈ opened

section Log

variable {next : ℕ} {opened closed : List ℕ} {held : Option ℕ}

theorem FdLog.allClosed (h : FdLog next opened closed none) : ∀ fd ∈ opened, fd ∈ closed := by
  intro fd ho
  by_contra hc
  cases h.rest fd ho hc

theorem FdLog.openNext (h : FdLog next opened closed none) : FdLog (next + 1) (opened ++ [next]) closed (some next) where
  fresh fd hfd := by
    rcases List.mem_append.mp hfd with hfd | hfd
    · exact Nat.lt_succ_of_lt (h.fresh fd hfd)
    · rw [List.mem_singleton.mp hfd]
      exact Nat.lt_succ_self next
  openedOnce := by
    refine h.openedOnce.append (List.nodup_singleton next) ?_
    rw [List.disjoint_singleton]
    exact fun hmem => absurd (h.fresh next hmem) (lt_irrefl next)
  closedOnce := h.closedOnce
  wasOpened fd hfd := List.mem_append_left _ (h.wasOpened fd hfd)
  rest fd hfd hc := by
    rcases List.mem_append.mp hfd with hfd | hfd
    · exact absurd (h.allClosed fd hfd) hc
    · rw [List.mem_singleton.mp hfd]
  held fd hfd := by
    cases hfd
    simp

theorem FdLog.next_not_closed (h : FdLog next opened closed held) : next ∉ closed :=
  fun hmem => absurd (h.fresh next (h.wasOpened next hmem)) (lt_irrefl next)

theorem FdLog.closeHeld {fd : ℕ} (h : FdLog next opened closed (some fd)) (hc : fd ∉ closed) (held : Option ℕ)
    (hheld : held = none ∨ held = some fd) : FdLog next opened (closed ++ [fd]) held where
  fresh := h.fresh
  openedOnce := h.openedOnce
  closedOnce := by
    refine h.closedOnce.append (List.nodup_singleton fd) ?_
    rw [List.disjoint_singleton]
    exact hc
  wasOpened fd' hfd' := by
    rcases List.mem_append.mp hfd' with hfd' | hfd'
    · exact h.wasOpened fd' hfd'
    · rw [List.mem_singleton.mp hfd']
      exact h.held fd rfl
  rest fd' ho hc' := by
    rw [List.mem_append, not_or, List.mem_singleton] at hc'
    cases h.rest fd' ho hc'.1
    exact absurd rfl hc'.2
  held fd' hfd' := by
    rcases hheld with rfl | rfl
    · cases hfd'
    · exact h.held fd' hfd'

/-- Once it has been closed, a descriptor need not be held. -/
theorem FdLog.release (h : FdLog next opened closed held) (hall : ∀ fd ∈ opened, fd ∈ closed) :
    FdLog next opened closed none :=
  ⟨h.fresh, h.openedOnce, h.closedOnce, h.wasOpened, fun fd ho hc => absurd (hall fd ho) hc, nofun⟩

end Log

/-! ### The descriptors of a connection -/

/-- `resource_fd` is the descriptor that is held, and it has been closed exactly if the response is done without an
error. -/
structure Conn.Files (c : Conn) : Prop where
  log : FdLog c.nextFd c.ghost.opened c.ghost.closed c.req.resourceFd
  resource : ∀ fd, c.req.resourceFd = some fd →
    (fd ∈ c.ghost.closed ↔ c.req.par.responseDone = true ∧ c.req.par.errReq = false)
  start : c.req.reqHandler = some .requestLine → c.req.resourceFd = none
  file : c.req.resHandler = .sendFile → c.req.resourceFd ≠ none
  err : c.req.par.errReq = true → c.req.par.responseDone = true

/-- Every opened descriptor has been closed. -/
def Conn.AllClosed (c : Conn) : Prop := ∀ fd ∈ c.ghost.opened, fd ∈ c.ghost.closed

/-- With a resource that has been closed, or with none, all descriptors have been closed. -/
theorem Conn.Files.allClosed {c : Conn} (h : c.Files)
    (hfd : c.req.resourceFd = none ∨ c.req.par.responseDone = true ∧ c.req.par.errReq = false) : c.AllClosed := by
  intro fd ho
  by_contra hc
  have hheld := h.log.rest fd ho hc
  rcases hfd with hnone | hdone
  · cases hnone.symm.trans hheld
  · exact hc ((h.resource fd hheld).mpr hdone)

section Request

variable {env : Env} {c c' : Conn}

/-- While a request is handled the response is not done, but for an error. -/
structure Conn.Filing (c : Conn) : Prop where
  files : c.Files
  notDone : c.req.par.responseDone = true → c.req.par.errReq = true

theorem Conn.Filing.open (h : c.Filing) {fd : ℕ} (hfd : c.req.resourceFd = some fd) : fd ∉ c.ghost.closed := by
  rw [h.files.resource fd hfd]
  rintro ⟨hdone, herr⟩
  cases herr.symm.trans (h.notDone hdone)

theorem Conn.Filing.congr (h : c.Filing) (hlog : FdLog c'.nextFd c'.ghost.opened c'.ghost.closed c'.req.resourceFd)
    (hclosed : c'.ghost.closed = c.ghost.closed) (hfd : c'.req.resourceFd = c.req.resourceFd)
    (hhd : c'.req.reqHandler = some .requestLine → c.req.reqHandler = some .requestLine)
    (hh : c'.req.resHandler = c.req.resHandler)
    (hflags : c'.req.par.responseDone = c'.req.par.errReq ∨
      c'.req.par.responseDone = c.req.par.responseDone ∧ c'.req.par.errReq = c.req.par.errReq) : c'.Filing := by
  have herr : c'.req.par.errReq = true → c'.req.par.responseDone = true := by
    intro herr
    rcases hflags with heq | ⟨hdone, herr'⟩
    · exact heq.trans herr
    · exact hdone.trans (h.files.err (herr'.symm.trans herr))
  have hnot : c'.req.par.responseDone = true → c'.req.par.errReq = true := by
    intro hdone
    rcases hflags with heq | ⟨hdone', herr'⟩
    · exact heq.symm.trans hdone
    · exact herr'.trans (h.notDone (hdone'.symm.trans hdone))
  refine ⟨⟨hlog, ?_, ?_, ?_, herr⟩, hnot⟩
  · intro fd hres
    rw [hclosed]
    refine iff_of_false (h.open (hfd.symm.trans hres)) ?_
    rintro ⟨hdone, herr'⟩
    cases herr'.symm.trans (hnot hdone)
  · intro hreq
    rw [hfd]
    exact h.files.start (hhd hreq)
  · intro hres
    rw [hfd]
    exact h.files.file (hh.symm.trans hres)

theorem assembleErr_filing (h : c.Filing) (code : ℕ) : (responseAssembleErrBuffer env c code).2.Filing := by
  rw [assembleErr_eq]
  exact h.congr h.files.log rfl rfl nofun rfl (.inl rfl)

theorem record_filing (h : c.Filing) (k : LineKind) : (c.lowerName.mapPar k.record).Filing := by
  refine h.congr h.files.log rfl rfl id rfl (.inr ⟨?_, ?_⟩) <;> cases k <;> rfl

theorem openResource_filing (h : c.Filing) (hhd : c.req.reqHandler = some .requestLine) (file : File) :
    (openResource c file).Filing := by
  have hlog := h.files.log
  have hnone := h.files.start hhd
  rw [hnone] at hlog
  have hopen := hlog.openNext
  -- a directory is closed before anything is held
  have hdir := hopen.closeHeld hlog.next_not_closed none (.inl rfl)
  have hh : c.req.resHandler ≠ .sendFile := fun hh => h.files.file hh hnone
  have hiff : ∀ {fd : ℕ} {closed : List ℕ}, fd ∉ closed →
      (fd ∈ closed ↔ c.req.par.responseDone = true ∧ c.req.par.errReq = false) := by
    intro fd closed hfd
    refine iff_of_false hfd ?_
    rintro ⟨hdone, herr⟩
    cases herr.symm.trans (h.notDone hdone)
  rcases file with content | ⟨size, _ | content⟩
  · refine ⟨⟨hopen, ?_, nofun, fun hres => absurd hres hh, h.files.err⟩, h.notDone⟩
    intro fd hfd
    cases hfd
    exact hiff hlog.next_not_closed
  · exact ⟨⟨hdir, nofun, nofun, fun hres => absurd hres hh, h.files.err⟩, h.notDone⟩
  · refine ⟨⟨hdir.openNext, ?_, nofun, fun hres => absurd hres hh, h.files.err⟩, h.notDone⟩
    intro fd hfd
    cases hfd
    exact hiff hdir.next_not_closed

theorem filing_scanInv (env : Env) : ScanInv env fun _ c => c.Filing where
  parse _ _ _ h howned := h.congr h.files.log rfl rfl id rfl
    (.inr ⟨congrArg Owned.responseDone howned, congrArg Owned.errReq howned⟩)
  error _ code _ h := assembleErr_filing h code
  path _ _ _ _ h := h.congr h.files.log rfl rfl id rfl (.inr ⟨rfl, rfl⟩)
  resource _ _ file hhd h := openResource_filing h hhd file
  record k _ _ _ h := record_filing h k
  refuse k _ _ code _ h := assembleErr_filing (record_filing h k) code
  body _ _ h := h.congr h.files.log rfl rfl nofun rfl (.inr ⟨rfl, rfl⟩)
  wait _ h := h
  answer _ h := h.congr h.files.log rfl rfl nofun rfl (.inr ⟨rfl, rfl⟩)
  coding _ h := assembleErr_filing h 501

theorem requestHandle_files {recvs : List RecvResult} {st : Status} (h : c.Files) (hreading : c.Reading)
    (hhandle : requestHandle env recvs c = .ok (st, c')) : c'.Files := by
  have hrecv : (c.receive (recvBytes recvs)).Filing := by
    refine ⟨⟨h.log, h.resource, h.start, h.file, h.err⟩, ?_⟩
    intro hdone
    cases hreading.responseDone.symm.trans hdone
  rw [requestHandle_eq] at hhandle
  split_ifs at hhandle
  · exact (handlerLoop_scan (filing_scanInv env) hrecv hhandle).files
  · obtain ⟨-, rfl⟩ := Prod.mk.inj (Except.ok.inj hhandle)
    exact hrecv.files

end Request

/-! ### Sending the file -/

section Response

variable {c c' : Conn} {res : Status × Conn}

theorem Conn.Files.frame (h : c.Files) (hf : c.SendFrame c')
    (hfile : c'.req.resHandler = .sendFile → c.req.resourceFd ≠ none) : c'.Files := by
  have hghost : c'.ghost.opened = c.ghost.opened ∧ c'.ghost.closed = c.ghost.closed := by
    rw [hf.ghost]
    exact ⟨rfl, rfl⟩
  have hhd : c'.req.reqHandler = c.req.reqHandler := by rw [hf.req]
  refine ⟨?_, ?_, ?_, ?_, ?_⟩
  · rw [hf.nextFd, hghost.1, hghost.2, hf.resourceFd]
    exact h.log
  · intro fd hfd
    rw [hghost.2, hf.responseDone, hf.errReq]
    exact h.resource fd (hf.resourceFd.symm.trans hfd)
  · intro hreq
    rw [hf.resourceFd]
    exact h.start (hhd.symm.trans hreq)
  · intro hres
    rw [hf.resourceFd]
    exact hfile hres
  · intro herr
    exact hf.responseDone.trans (h.err (hf.errReq.symm.trans herr))

theorem Conn.FileNext.resource (hnext : c.FileNext) (h : c.Files) : c.req.resourceFd ≠ none :=
  hnext.elim h.file And.left

/-- The loop of `response_handle`, when there is no resource or the response is not done: if it ends with the response
done, all descriptors have been closed. -/
theorem LoopEnd.files (hend : LoopEnd c res) (h : c.Files)
    (hcond : c.req.resourceFd = none ∨ c.req.par.responseDone = false) :
    res.2.Files ∧ (res.2.req.par.responseDone = true → res.2.AllClosed) := by
  cases hend with
  | @buffer st c' _ _ hf _ hh' =>
    have hc' : c'.Files := h.frame hf (by simp [hh'])
    refine ⟨hc', fun hdone => hc'.allClosed (.inl (hf.resourceFd.trans (hcond.resolve_right ?_)))⟩
    rw [← hf.responseDone, hdone]
    simp
  | @noFile c₁ _ hfd hf hh' =>
    have hc₁ : c₁.Files := h.frame hf (by simp [hh'])
    have hnone := hf.resourceFd.trans hfd
    have hc' : c₁.setDone.disableOut.Files := by
      refine ⟨hc₁.log, ?_, hc₁.start, hc₁.file, fun _ => rfl⟩
      intro fd hres
      cases hnone.symm.trans hres
    exact ⟨hc', fun _ => hc'.allClosed (.inl hnone)⟩
  | doneBefore _ hfd hdone _ => cases hdone.symm.trans (hcond.resolve_left hfd)
  | @file st c' hnext _ hf _ =>
    have hfd := hnext.resource h
    refine ⟨h.frame hf fun _ => hfd, ?_⟩
    intro hdone
    cases hdone.symm.trans (hf.responseDone.trans (hcond.resolve_left hfd))
  | @endOfFile c₁ hnext hf =>
    have hc₁ : c₁.Files := h.frame hf fun _ => hnext.resource h
    have hdone := hcond.resolve_left (hnext.resource h)
    obtain ⟨fd, hfd⟩ := Option.ne_none_iff_exists'.mp (hnext.resource h)
    have hfd₁ : c₁.req.resourceFd = some fd := hf.resourceFd.trans hfd
    have herr : c₁.req.par.errReq = false := by
      by_contra herr
      cases (hf.responseDone.trans hdone).symm.trans (hc₁.err (by simpa using herr))
    have hopen : fd ∉ c₁.ghost.closed := by
      rw [hc₁.resource fd hfd₁]
      rintro ⟨hdone₁, -⟩
      cases (hf.responseDone.trans hdone).symm.trans hdone₁
    have hlog := hc₁.log
    rw [hfd₁] at hlog
    have hclosed := hlog.closeHeld hopen (some fd) (.inr rfl)
    rw [hfd]
    have hc' : (c₁.setDone.closeFd fd).Files := by
      refine ⟨?_, ?_, hc₁.start, hc₁.file, fun _ => rfl⟩
      · change FdLog c₁.nextFd c₁.ghost.opened (c₁.ghost.closed ++ [fd]) c₁.req.resourceFd
        rw [hfd₁]
        exact hclosed
      · intro fd' hfd'
        cases hfd₁.symm.trans hfd'
        exact iff_of_true (by simp [Conn.closeFd, Conn.mapGhost]) ⟨rfl, herr⟩
    exact ⟨hc', fun _ => hc'.allClosed (.inr ⟨rfl, herr⟩)⟩

theorem reset_files (h : c.Files) (hall : c.AllClosed) : (requestReset c).turnIn.Files :=
  ⟨h.log.release hall, nofun, fun _ => rfl, nofun, nofun⟩

theorem responseHandle_files (sends files : List SendResult) (h : c.Files)
    (hcond : c.req.resourceFd = none ∨ c.req.par.responseDone = false) : (responseHandle sends files c).2.Files := by
  obtain ⟨hfiles, hall⟩ := (responseLoop_cases sends files c).files h hcond
  rcases responseHandle_cases sends files c with ⟨hdone, -, heq⟩ | ⟨-, -, heq⟩ | ⟨-, heq⟩ <;> rw [heq]
  · exact reset_files hfiles (hall hdone)
  · exact hfiles
  · exact hfiles

end Response

/-! ### Runs -/

/-- `response_handle` is called only without a resource or before the response is done, and the connection is closed only
without a resource or after an ordinary response has been done. -/
def ReleasesFile (timeout : ℤ) (s : ConnState) : Action → Prop
  | .event now _ (some _) => now - s.activeTime ≤ timeout →
      s.conn.req.resourceFd = none ∨ s.conn.req.par.responseDone = false
  | .event _ _ none => True
  | .close _ => s.conn.req.resourceFd = none ∨ s.conn.req.par.responseDone = true ∧ s.conn.req.par.errReq = false

instance (timeout : ℤ) (s : ConnState) (a : Action) : Decidable (ReleasesFile timeout s a) := by
  rcases a with ⟨now, input, _ | output⟩ | now <;> unfold ReleasesFile <;> exact inferInstance

/-- Every descriptor is opened once, and closed at most once; it has been closed unless it is that of the request that is
being served, on a connection that has not been closed. -/
structure ConnState.Released (s : ConnState) : Prop where
  openedOnce : s.conn.ghost.opened.Nodup
  closedOnce : s.conn.ghost.closed.Nodup
  wasOpened : ∀ fd ∈ s.conn.ghost.closed, fd ∈ s.conn.ghost.opened
  closed : ∀ fd ∈ s.conn.ghost.opened, fd ∈ s.conn.ghost.closed ∨ s.conn.req.resourceFd = some fd ∧ s.closed = false

/-- What holds between two events. -/
structure ConnState.Filed (s : ConnState) : Prop where
  phase : s.Phase
  files : s.conn.Files
  closed : s.closed = true → s.conn.AllClosed

section Runs

variable {timeout : ℤ} {s s' : ConnState}

theorem step_filed (h : s.Filed) (hstep : Step timeout (ReleasesFile timeout) s s') : s'.Filed := by
  have hphase := step_phase h.phase hstep
  obtain ⟨a, hen, hcond, happly⟩ := hstep
  rcases apply_cases hen happly h.phase.mask with ⟨-, closed, rfl, hclosed⟩ |
    ⟨now, env, recvs, ⟨st, c'⟩, rfl, hexp, hin, hres, rfl⟩ | ⟨now, sends, files, rfl, hexp, hout, rfl⟩
  · refine ⟨hphase, h.files, ?_⟩
    intro hc
    rcases hclosed hc with hc | ⟨now, rfl⟩
    · exact h.closed hc
    · exact h.files.allClosed hcond
  · refine ⟨hphase, requestHandle_files h.files (h.phase.reading hin) hres, ?_⟩
    intro hc
    cases hen.1.symm.trans hc
  · refine ⟨hphase, responseHandle_files sends files h.files (hcond hexp), ?_⟩
    intro hc
    cases hen.1.symm.trans hc

theorem accept_files (nextFd : ℕ) (now : ℤ) : (ConnState.accept nextFd now).conn.Files where
  log := ⟨by simp [ConnState.accept], List.nodup_nil, List.nodup_nil, by simp [ConnState.accept],
    by simp [ConnState.accept], nofun⟩
  resource := nofun
  start _ := rfl
  file := nofun
  err := nofun

/-- **No descriptor is leaked or closed twice.**  In a run in which `response_handle` is called only without a resource or
before the response is done, and in which the connection is closed only without a resource or after an ordinary response
has been done, every descriptor is closed exactly once, at the latest at the reset or when the connection is closed. -/
theorem run_descriptors {timeout : ℤ} {nextFd : ℕ} {now : ℤ} {s : ConnState}
    (hrun : Run timeout (ReleasesFile timeout) (.accept nextFd now) s) : s.Released := by
  have h : s.Filed := hrun.inv ConnState.Filed (fun s s' => step_filed)
    ⟨accept_phase nextFd now, accept_files nextFd now, nofun⟩
  refine ⟨h.files.log.openedOnce, h.files.log.closedOnce, h.files.log.wasOpened, ?_⟩
  intro fd ho
  by_cases hc : fd ∈ s.conn.ghost.closed
  · exact .inl hc
  · refine .inr ⟨h.files.log.rest fd ho hc, ?_⟩
    by_contra hclosed
    exact hc (h.closed (by simpa using hclosed) fd ho)

/-- Two requests on a connection, and its end. -/
theorem run_descriptors_two : ∃ s, Run 5 (ReleasesFile 5) (.accept 4 0) s ∧ s.closed = true ∧
    s.conn.ghost.opened = [4, 5] ∧ s.conn.ghost.closed = [4, 5] ∧ s.Released := by
  obtain ⟨s, hrun, hs⟩ := exec_observe 5 (ReleasesFile 5) (.accept 4 0)
    [.recv 1 (.page [0x41]) (str "GET / HTTP/1.1\r\n\r\n"), .send 2 [.sent 10000, .sent 0] [.sent 1, .sent 0],
      .recv 3 (.page []) (str "GET / HTTP/1.0\r\n\r\n"), .send 4 [.sent 10000, .sent 0] [.sent 0], .close 9]
    (fun s => (s.closed, s.conn.ghost.opened, s.conn.ghost.closed)) (x := (true, [4, 5], [4, 5])) (by decide +kernel)
  simp only [Prod.mk.injEq] at hs
  exact ⟨s, hrun, hs.1, hs.2.1, hs.2.2, run_descriptors hrun⟩

/-- The client sends a request line and then nothing more: the connection times out, and the file stays open. -/
theorem not_forall_run_descriptors :
    ¬ ∀ (timeout : ℤ) (nextFd : ℕ) (now : ℤ) (s : ConnState), Run timeout anyStep (.accept nextFd now) s → s.Released := by
  intro h
  obtain ⟨s, hrun, hs⟩ := exec_observe 5 anyStep (.accept 4 0)
    [.recv 1 (.page []) (str "GET / HTTP/1.1\r\n"), .close 7]
    (fun s => (s.closed, s.conn.ghost.opened, s.conn.ghost.closed)) (x := (true, [4], [])) (by decide +kernel)
  simp only [Prod.mk.injEq] at hs
  obtain ⟨hclosed, hopened, hnil⟩ := hs
  rcases (h 5 4 0 s hrun).closed 4 (by simp [hopened]) with hmem | ⟨-, hlive⟩
  · simp [hnil] at hmem
  · cases hclosed.symm.trans hlive

end Runs

end Lotos
