import Lotos.Server.Mask

/-!
# The responses of a request

The handlers that refuse a header line answer it by `response_assemble_err_buffer`, which returns `OK`; so
`request_handle_headers` goes on with the next line, and every later refusal, a malformed line, or the end of a complete
request is answered again.  `requestHandle_answers` counts the answers of one call exactly.

The same line of the loop lets a later `Connection: keep-alive` undo the `keep_alive = FALSE` of an error response.

`SingleAnswer` and `StaysClosed` are the conditions on a step under which neither happens; `run_answers` and
`run_error_final` are about the runs all of whose steps satisfy them.
-/

namespace Lotos

/-- The handlers answer the line with an error. -/
def LineKind.Refused (k : LineKind) : Prop := k.answer ≠ none

instance (k : LineKind) : Decidable k.Refused := inferInstanceAs (Decidable (k.answer ≠ none))

/-! ### Counting -/

/-- How often the handlers answer. -/
def HeaderScan.count (sc : HeaderScan) : ℕ :=
  sc.kinds.countP (fun k => decide k.Refused) + (if sc.status = .error then 1 else 0) + sc.complete.toNat

/-- After a refused line there is no other one, no malformed line, and no end of a complete request. -/
def HeaderScan.Single (sc : HeaderScan) : Prop :=
  sc.kinds.Pairwise (fun k k' => ¬ (k.Refused ∧ k'.Refused)) ∧
    ((∃ k ∈ sc.kinds, k.Refused) → sc.status ≠ .error ∧ sc.complete = false)

instance (sc : HeaderScan) : Decidable sc.Single := by
  unfold HeaderScan.Single
  exact inferInstance

theorem count_cons (k : LineKind) (sc : HeaderScan) :
    (HeaderScan.cons k sc).count = sc.count + if k.Refused then 1 else 0 := by
  have harith : ∀ a b c d : ℕ, a + d + b + c = a + b + c + d := by omega
  simp only [HeaderScan.count, HeaderScan.cons, List.countP_cons, decide_eq_true_eq]
  exact harith _ _ _ _

theorem countP_refused_le_one (ks : List LineKind) :
    ks.countP (fun k => decide k.Refused) ≤ 1 ↔ ks.Pairwise fun k k' => ¬ (k.Refused ∧ k'.Refused) := by
  induction ks with
  | nil => simp
  | cons k ks ih =>
    rw [List.countP_cons, List.pairwise_cons, ← ih]
    by_cases hk : k.Refused
    · have hzero : ks.countP (fun k => decide k.Refused) = 0 ↔ ∀ k' ∈ ks, ¬ k'.Refused := by
        simp [List.countP_eq_zero]
      simp only [hk, decide_true, if_true, true_and]
      rw [← hzero]
      omega
    · simp [hk]

/-- One answer at most, for a scan that is complete only at the end of the lines. -/
theorem count_le_one_iff {sc : HeaderScan} (h : sc.complete = true → sc.status ≠ .error) : sc.count ≤ 1 ↔ sc.Single := by
  have hex : (∃ k ∈ sc.kinds, k.Refused) ↔ 0 < sc.kinds.countP fun k => decide k.Refused := by
    simp [List.countP_pos_iff]
  unfold HeaderScan.Single HeaderScan.count
  rw [← countP_refused_le_one, hex]
  by_cases hst : sc.status = .error
  · have hcomplete : sc.complete = false := by
      by_contra hc
      exact h (by simpa using hc) hst
    simp only [hst, hcomplete, if_true, Bool.toNat_false, ne_eq, not_true_eq_false, false_and, imp_false]
    omega
  · cases hc : sc.complete with
    | true =>
      simp only [hst, if_false, Bool.toNat_true, ne_eq, not_false_eq_true, true_and, Bool.true_eq_false, imp_false]
      omega
    | false => simp [hst]

theorem headerScan_complete (data : List Byte) (ar : ParseArchive) :
    (headerScan data ar).complete = true → (headerScan data ar).status ≠ .error := by
  induction hn : data.length - ar.nextParsePos using Nat.strong_induction_on generalizing data ar with
  | _ n ih =>
    rcases h : parseHeaderLine data ar with ⟨_ | _ | _ | _, ar'⟩
    · have hpos := parseHeaderLine_done_pos h (.inl rfl)
      rw [headerScan_ok h]
      exact ih _ (by rw [← hn, ssstrTolower_length, record_pos]; omega) _ _ rfl
    · rw [headerScan_again h]
      simp
    · rw [headerScan_crlfLine h]
      simp
    · rw [headerScan_error h]
      simp

theorem scan_complete (env : Env) (c : Conn) : (c.scan env).complete = true → (c.scan env).status ≠ .error := by
  unfold Conn.scan
  split
  · simp [HeaderScan.stop]
  · simp
  · exact headerScan_complete _ _
  · split
    · simp [HeaderScan.stop]
    · split_ifs
      · simp [HeaderScan.stop]
      · unfold pathScan
        repeat' split
        all_goals first | exact headerScan_complete _ _ | simp [HeaderScan.stop]
    · simp [HeaderScan.stop]

/-! ### One call of `request_handle` -/

section Call

variable {env : Env} {c c' : Conn} {st : Status}

theorem assembleErr_answers (env : Env) (c : Conn) (code : ℕ) :
    (responseAssembleErrBuffer env c code).2.ghost.answers.length = c.ghost.answers.length + 1 := by
  rw [assembleErr_eq]
  exact List.length_append

theorem assembleBuffer_answers (env : Env) (c : Conn) :
    (responseAssembleBuffer env (c.turnOut.setHandler none)).ghost.answers.length = c.ghost.answers.length + 1 :=
  List.length_append

theorem answers_scanInv (env : Env) (n : ℕ) : ScanInv env fun sc c => c.ghost.answers.length + sc.count = n where
  parse _ _ _ h _ := h
  error c code _ h := by
    rw [assembleErr_answers]
    exact h
  path _ _ _ _ h := h
  resource _ c file _ h := by
    rw [(openResource_frame c file).ghost]
    exact h
  record k sc c hk h := by
    rw [count_cons, if_neg (by simp [LineKind.Refused, hk])] at h
    exact h
  refuse k sc c code hk h := by
    rw [count_cons, if_pos (by simp [LineKind.Refused, hk])] at h
    rw [assembleErr_answers]
    change c.ghost.answers.length + 1 + sc.count = n
    omega
  body _ _ h := h
  wait _ h := h
  answer c h := by
    rw [assembleBuffer_answers]
    exact h
  coding c h := by
    rw [assembleErr_answers]
    exact h

/-- **The answers of one call.**  The handlers answer exactly as often as the scan before them counts. -/
theorem handlerLoop_answers (h : handlerLoop env c = .ok (st, c')) :
    c'.ghost.answers.length = c.ghost.answers.length + (c.scan env).count :=
  handlerLoop_scan (answers_scanInv env (c.ghost.answers.length + (c.scan env).count)) rfl h

end Call

/-! ### Runs with one answer -/

/-- The scan that the handlers of the request will see in a step. -/
def Action.scan (timeout : ℤ) (s : ConnState) : Action → HeaderScan
  | .event now (some (env, recvs)) _ =>
    if now - s.activeTime ≤ timeout ∧ recvStatus recvs = .again then (s.conn.receive (recvBytes recvs)).scan env
    else .stop .again
  | _ => .stop .again

/-- In this step no refused header line is followed by another one, by a malformed line or by the end of a complete
request. -/
def SingleAnswer (timeout : ℤ) (s : ConnState) (a : Action) : Prop := (a.scan timeout s).Single

instance (timeout : ℤ) (s : ConnState) (a : Action) : Decidable (SingleAnswer timeout s a) := by
  unfold SingleAnswer
  exact inferInstance

theorem stop_single : (HeaderScan.stop .again).Single := by decide

section Runs

variable {timeout : ℤ} {cond : ConnState → Action → Prop} {s s' : ConnState}

theorem requestHandle_answers {env : Env} {recvs : List RecvResult} {c c' : Conn} {st : Status}
    (h : requestHandle env recvs c = .ok (st, c')) :
    c'.ghost.answers.length = c.ghost.answers.length +
      if recvStatus recvs = .again then ((c.receive (recvBytes recvs)).scan env).count else 0 := by
  rw [requestHandle_eq] at h
  split_ifs at h ⊢
  · exact handlerLoop_answers h
  · obtain ⟨-, rfl⟩ := Prod.mk.inj (Except.ok.inj h)
    rfl

theorem responseHandle_answers (sends files : List SendResult) (c : Conn) :
    (responseHandle sends files c).2.ghost.answers.length ≤ c.ghost.answers.length := by
  have hloop := (responseLoop_cases sends files c).answers
  rcases responseHandle_cases sends files c with ⟨-, -, heq⟩ | ⟨-, -, heq⟩ | ⟨-, heq⟩ <;> rw [heq]
  · exact Nat.zero_le _
  · rw [hloop]
  · rw [hloop]

theorem idle_scan {a : Action} (h : a.Idle timeout s) : a.scan timeout s = .stop .again := by
  rcases a with ⟨now, _ | ⟨env, recvs⟩, output⟩ | now
  · rfl
  · rcases h with hexp | ⟨hnone, -⟩
    · exact if_neg fun h => absurd h.1 (not_le.mpr hexp)
    · cases hnone
  · rfl

theorem apply_answers (hphase : s.Phase) (hs : s.conn.ghost.answers.length ≤ 1) {a : Action} (ha : a.Enabled timeout s)
    (happly : s.apply timeout a = .ok s') : s'.conn.ghost.answers.length ≤ 1 ↔ SingleAnswer timeout s a := by
  unfold SingleAnswer
  rcases apply_cases ha happly hphase.mask with ⟨hidle, closed, rfl, -⟩ |
    ⟨now, env, recvs, ⟨st, c'⟩, rfl, hexp, hin, hres, rfl⟩ | ⟨now, sends, files, rfl, -, hout, rfl⟩
  · rw [idle_scan hidle]
    exact iff_of_true hs stop_single
  · have hcount := requestHandle_answers hres
    rw [(hphase.reading hin).answers, List.length_nil, Nat.zero_add] at hcount
    change c'.ghost.answers.length ≤ 1 ↔ _
    rw [hcount]
    by_cases hrecv : recvStatus recvs = .again
    · rw [if_pos hrecv, count_le_one_iff (scan_complete env _)]
      simp only [Action.scan, hexp, hrecv, and_self, if_true]
    · rw [if_neg hrecv]
      simp only [Action.scan, hrecv, and_false, if_false]
      exact iff_of_true (Nat.zero_le 1) stop_single
  · exact iff_of_true ((responseHandle_answers sends files s.conn).trans hs) stop_single

/-- **One request, one response.**  In a run in which no call of `request_handle` meets, after a header line that it
refuses, another one, a malformed line or the end of a complete request, at most one response is assembled between two
resets; and the next step keeps it so exactly if it satisfies the same condition. -/
theorem run_answers {timeout : ℤ} {nextFd : ℕ} {now : ℤ} {s : ConnState}
    (hrun : Run timeout (SingleAnswer timeout) (.accept nextFd now) s) :
    s.conn.ghost.answers.length ≤ 1 ∧
      ∀ (a : Action) (s' : ConnState), a.Enabled timeout s → s.apply timeout a = .ok s' →
        (s'.conn.ghost.answers.length ≤ 1 ↔ SingleAnswer timeout s a) := by
  have hle : s.Phase ∧ s.conn.ghost.answers.length ≤ 1 := by
    refine hrun.inv (fun s => s.Phase ∧ s.conn.ghost.answers.length ≤ 1) ?_ ⟨accept_phase nextFd now, Nat.zero_le 1⟩
    rintro s s' ⟨hphase, hs⟩ ⟨a, hen, hcond, happly⟩
    exact ⟨step_phase hphase ⟨a, hen, hcond, happly⟩, (apply_answers hphase hs hen happly).mpr hcond⟩
  exact ⟨hle.2, fun a s' hen happly => apply_answers hle.1 hle.2 hen happly⟩

/-- A request that is answered once. -/
theorem run_answers_once : ∃ s, Run 5 (SingleAnswer 5) (.accept 4 0) s ∧ s.conn.ghost.answers = [400] ∧
    s.conn.ghost.answers.length ≤ 1 := by
  obtain ⟨s, hrun, hs⟩ := exec_observe 5 (SingleAnswer 5) (.accept 4 0)
    [.recv 1 (.page []) (str "GET / HTTP/1.1\r\nConnection: foo\r\n")] (fun s => s.conn.ghost.answers)
    (x := [400]) (by decide +kernel)
  exact ⟨s, hrun, hs, (run_answers hrun).1⟩

/-- A refused header line and then the end of the request: two responses. -/
theorem not_forall_run_answers :
    ¬ ∀ (timeout : ℤ) (nextFd : ℕ) (now : ℤ) (s : ConnState), Run timeout anyStep (.accept nextFd now) s →
      s.conn.ghost.answers.length ≤ 1 := by
  intro h
  obtain ⟨s, hrun, hs⟩ := exec_observe 5 anyStep (.accept 4 0)
    [.recv 1 (.page []) (str "GET / HTTP/1.1\r\nConnection: foo\r\n\r\n")] (fun s => s.conn.ghost.answers)
    (x := [400, 400]) (by decide +kernel)
  have hle := h 5 4 0 s hrun
  rw [hs] at hle
  exact absurd hle (by decide)

end Runs

/-! ### After an error response -/

/-- No `Connection: keep-alive` after a refused line. -/
def HeaderScan.StaysClosed (sc : HeaderScan) : Prop := sc.kinds.Pairwise fun k k' => k.Refused → k' ≠ .keepAlive

/-- In this step no `Connection: keep-alive` follows a refused header line. -/
def StaysClosed (timeout : ℤ) (s : ConnState) (a : Action) : Prop := (a.scan timeout s).StaysClosed

instance (timeout : ℤ) (s : ConnState) (a : Action) : Decidable (StaysClosed timeout s a) := by
  unfold StaysClosed HeaderScan.StaysClosed
  exact inferInstance

/-- The connection will be closed after what it sends. -/
structure Conn.Ended (c : Conn) : Prop where
  keepAlive : c.req.par.keepAlive = false
  responseDone : c.req.par.responseDone = true
  epollIn : c.epollIn = false

/-- An error response ends the connection, and no line to come can change that. -/
structure EndedBefore (sc : HeaderScan) (c : Conn) : Prop where
  start : c.req.reqHandler = some .requestLine → c.ghost.failed = false
  ended : c.ghost.failed = true → c.Ended ∧ ∀ k ∈ sc.kinds, k ≠ .keepAlive
  lines : sc.StaysClosed

section ErrorResponse

variable {env : Env} {c c' : Conn} {st : Status} {sc : HeaderScan}

theorem assembleErr_ended (env : Env) (c : Conn) (code : ℕ) : (responseAssembleErrBuffer env c code).2.Ended := by
  rw [assembleErr_eq]
  exact ⟨rfl, rfl, rfl⟩

theorem stop_staysClosed (st : Status) : (HeaderScan.stop st).StaysClosed := List.Pairwise.nil

/-- After an error response the connection has ended if the lines to come do not ask to keep it. -/
theorem assembleErr_endedBefore (code : ℕ) (hks : ∀ k ∈ sc.kinds, k ≠ .keepAlive) (hlines : sc.StaysClosed) :
    EndedBefore sc (responseAssembleErrBuffer env c code).2 where
  start h := by
    rw [assembleErr_handler] at h
    cases h
  ended _ := ⟨assembleErr_ended env c code, hks⟩
  lines := hlines

theorem Conn.Ended.record (h : c.Ended) {k : LineKind} (hk : k ≠ .keepAlive) : (c.lowerName.mapPar k.record).Ended where
  keepAlive := by
    cases k with
    | keepAlive => exact absurd rfl hk
    | close => rfl
    | _ => exact h.keepAlive
  responseDone := by cases k <;> exact h.responseDone
  epollIn := h.epollIn

theorem ended_scanInv (env : Env) : ScanInv env EndedBefore where
  parse sc c ar h howned := by
    refine ⟨h.start, ?_, h.lines⟩
    intro hf
    obtain ⟨hended, hks⟩ := h.ended hf
    exact ⟨⟨(congrArg Owned.keepAlive howned).trans hended.keepAlive,
      (congrArg Owned.responseDone howned).trans hended.responseDone, hended.epollIn⟩, hks⟩
  error c code _ _ := assembleErr_endedBefore code (by simp [HeaderScan.stop]) (stop_staysClosed _)
  path sc c p hhd h := by
    refine ⟨h.start, ?_, h.lines⟩
    intro hf
    cases (h.start hhd).symm.trans hf
  resource sc c file hhd h := by
    have hfailed : (openResource c file).ghost.failed = false := by
      rw [(openResource_frame c file).ghost]
      exact h.start hhd
    refine ⟨fun _ => hfailed, ?_, h.lines⟩
    intro hf
    cases hfailed.symm.trans hf
  record k sc c _ h := by
    refine ⟨h.start, ?_, (List.pairwise_cons.mp h.lines).2⟩
    intro hf
    obtain ⟨hended, hks⟩ := h.ended hf
    exact ⟨hended.record (hks k (by simp [HeaderScan.cons])), fun k' hk' => hks k' (List.mem_cons_of_mem k hk')⟩
  refuse k sc c code hk h := by
    obtain ⟨hks, hlines⟩ := List.pairwise_cons.mp h.lines
    exact assembleErr_endedBefore code (fun k' hk' => hks k' hk' (by simp [LineKind.Refused, hk])) hlines
  body sc c h := by
    refine ⟨nofun, ?_, h.lines⟩
    intro hf
    obtain ⟨hended, hks⟩ := h.ended hf
    exact ⟨⟨hended.keepAlive, hended.responseDone, hended.epollIn⟩, hks⟩
  wait c h := ⟨h.start, fun hf => ⟨(h.ended hf).1, by simp [HeaderScan.stop]⟩, stop_staysClosed _⟩
  answer c h :=
    ⟨nofun, fun hf => ⟨⟨(h.ended hf).1.keepAlive, (h.ended hf).1.responseDone, rfl⟩, by simp [HeaderScan.stop]⟩,
      stop_staysClosed _⟩
  coding c _ := assembleErr_endedBefore 501 (by simp [HeaderScan.stop]) (stop_staysClosed _)

theorem responseHandle_ended (h : c.Ended) (sends files : List SendResult) :
    responseHandle sends files c = (.error, (responseLoop sends files c).2) ∧ (responseLoop sends files c).2.Ended := by
  have hloop := responseLoop_cases sends files c
  have hdone₁ := hloop.responseDone h.responseDone
  have hkeep₁ := hloop.keepAlive.trans h.keepAlive
  rcases responseHandle_cases sends files c with ⟨-, hkeep, -⟩ | ⟨-, -, heq⟩ | ⟨hdone, -⟩
  · cases hkeep₁.symm.trans hkeep
  · exact ⟨heq, hkeep₁, hdone₁, hloop.epollIn.trans h.epollIn⟩
  · cases hdone₁.symm.trans hdone

theorem responseHandle_failed (sends files : List SendResult) (c : Conn) :
    (responseHandle sends files c).2.ghost.failed = c.ghost.failed := by
  have hloop : (responseLoop sends files c).2.ghost.failed = c.ghost.failed := by
    rw [(responseLoop_cases sends files c).ghost]
  rcases responseHandle_cases sends files c with ⟨-, -, heq⟩ | ⟨-, -, heq⟩ | ⟨-, heq⟩ <;> rw [heq] <;> exact hloop

/-- The connection has ended if an error response has been assembled. -/
structure ConnState.Final (s : ConnState) : Prop where
  phase : s.Phase
  ended : s.conn.ghost.failed = true → s.conn.Ended

section Runs

variable {timeout : ℤ} {cond : ConnState → Action → Prop} {s s' : ConnState}

theorem step_final (h : s.Final) (hstep : Step timeout (StaysClosed timeout) s s') : s'.Final := by
  refine ⟨step_phase h.phase hstep, ?_⟩
  obtain ⟨a, hen, hcond, happly⟩ := hstep
  rcases apply_cases hen happly h.phase.mask with ⟨-, closed, rfl, -⟩ |
    ⟨now, env, recvs, ⟨st, c'⟩, rfl, hexp, hin, hres, rfl⟩ | ⟨now, sends, files, -, -, hout, rfl⟩
  · exact h.ended
  · have hfailed : s.conn.ghost.failed = false := by
      by_contra hf
      cases (h.ended (by simpa using hf)).epollIn.symm.trans hin
    rw [requestHandle_eq] at hres
    split_ifs at hres with hrecv
    · have hbefore : EndedBefore ((s.conn.receive (recvBytes recvs)).scan env) (s.conn.receive (recvBytes recvs)) := by
        refine ⟨fun _ => hfailed, ?_, ?_⟩
        · intro hf
          cases hfailed.symm.trans hf
        · simpa only [StaysClosed, Action.scan, hexp, hrecv, and_self, if_true] using hcond
      exact fun hf => ((handlerLoop_scan (ended_scanInv env) hbefore hres).ended hf).1
    · obtain ⟨-, rfl⟩ := Prod.mk.inj (Except.ok.inj hres)
      intro hf
      cases hfailed.symm.trans hf
  · intro hf
    have hf : s.conn.ghost.failed = true := (responseHandle_failed sends files s.conn).symm.trans hf
    obtain ⟨heq, hended⟩ := responseHandle_ended (h.ended hf) sends files
    change (responseHandle sends files s.conn).2.Ended
    rw [heq]
    exact hended

/-- What never changes once a connection has ended. -/
structure Unchanged (c c' : Conn) : Prop where
  ended : c'.Ended
  resets : c'.ghost.resets = c.ghost.resets
  received : c'.ghost.received = c.ghost.received
  answers : c'.ghost.answers = c.ghost.answers

theorem step_unchanged {c : Conn} (hphase : s.Phase) (h : Unchanged c s.conn) (hstep : Step timeout cond s s') :
    Unchanged c s'.conn := by
  obtain ⟨a, hen, -, happly⟩ := hstep
  rcases apply_cases hen happly hphase.mask with ⟨-, closed, rfl, -⟩ |
    ⟨now, env, recvs, res, -, -, hin, -, rfl⟩ | ⟨now, sends, files, -, -, -, rfl⟩
  · exact h
  · cases h.ended.epollIn.symm.trans hin
  · obtain ⟨heq, hended⟩ := responseHandle_ended h.ended sends files
    have hghost := (responseLoop_cases sends files s.conn).ghost
    change Unchanged c (responseHandle sends files s.conn).2
    rw [heq]
    exact ⟨hended, by rw [hghost]; exact h.resets, by rw [hghost]; exact h.received, by rw [hghost]; exact h.answers⟩

/-- `keep_alive` is `FALSE` and stays so, whatever happens: there is no reset, nothing more is read, and nothing more is
answered. -/
def ConnState.StaysFinal (timeout : ℤ) (s : ConnState) : Prop :=
  s.conn.req.par.keepAlive = false ∧
    ∀ s', Run timeout anyStep s s' → s'.conn.req.par.keepAlive = false ∧ s'.conn.epollIn = false ∧
      s'.conn.ghost.resets = s.conn.ghost.resets ∧ s'.conn.ghost.received = s.conn.ghost.received ∧
      s'.conn.ghost.answers = s.conn.ghost.answers

/-- **An error response ends the connection.**  In a run in which no call of `request_handle` meets a
`Connection: keep-alive` after a header line that it refuses, an error response is the last one of its connection. -/
theorem run_error_final {timeout : ℤ} {nextFd : ℕ} {now : ℤ} {s : ConnState}
    (hrun : Run timeout (StaysClosed timeout) (.accept nextFd now) s) (hfailed : s.conn.ghost.failed = true) :
    s.StaysFinal timeout := by
  have hfinal : s.Final := hrun.inv ConnState.Final (fun s s' => step_final) ⟨accept_phase nextFd now, nofun⟩
  have hended := hfinal.ended hfailed
  refine ⟨hended.keepAlive, ?_⟩
  intro s' hrun'
  have h : s'.Phase ∧ Unchanged s.conn s'.conn := by
    refine hrun'.inv (fun s' => s'.Phase ∧ Unchanged s.conn s'.conn) ?_ ⟨hfinal.phase, hended, rfl, rfl, rfl⟩
    exact fun s₁ s₂ h₁ hstep => ⟨step_phase h₁.1 hstep, step_unchanged h₁.1 h₁.2 hstep⟩
  exact ⟨h.2.ended.keepAlive, h.2.ended.epollIn, h.2.resets, h.2.received, h.2.answers⟩

/-- A refused header line, and the connection is not kept. -/
theorem run_error_final_refused : ∃ s, Run 5 (StaysClosed 5) (.accept 4 0) s ∧ s.conn.ghost.failed = true ∧
    s.StaysFinal 5 := by
  obtain ⟨s, hrun, hs⟩ := exec_observe 5 (StaysClosed 5) (.accept 4 0)
    [.recv 1 (.page []) (str "GET / HTTP/1.1\r\nConnection: foo\r\n")] (fun s => s.conn.ghost.failed)
    (x := true) (by decide +kernel)
  exact ⟨s, hrun, hs, run_error_final hrun hs⟩

/-- A refused header line and then `Connection: keep-alive`: after the error response the connection is reset, and the
next request on it is answered. -/
theorem not_forall_run_error_final :
    ¬ ∀ (timeout : ℤ) (nextFd : ℕ) (now : ℤ) (s : ConnState), Run timeout anyStep (.accept nextFd now) s →
      s.conn.ghost.failed = true → s.StaysFinal timeout := by
  intro h
  obtain ⟨s, hrun, hs⟩ := exec_observe 5 anyStep (.accept 4 0)
    [.recv 1 (.page []) (str "GET / HTTP/1.1\r\nConnection: foo\r\nConnection: keep-alive\r\n"),
      .send 2 [.sent 10000, .sent 0] [], .recv 3 (.page []) (str "GET / HTTP/1.1\r\n\r\n")]
    (fun s => (s.conn.ghost.failed, s.conn.req.par.keepAlive, s.conn.ghost.resets, s.conn.ghost.answers))
    (x := (true, true, 1, [200])) (by decide +kernel)
  simp only [Prod.mk.injEq] at hs
  cases (h 5 4 0 s hrun hs.1).1.symm.trans hs.2.1

end Runs

end ErrorResponse

end Lotos
