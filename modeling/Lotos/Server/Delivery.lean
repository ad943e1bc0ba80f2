import Lotos.Server.Mask

/-!
# What reaches the socket

`response_handle` is called for every `EPOLLOUT` event, and each call hands on what the socket takes: first the bytes of
`ob`, from the cursor `buffer_sent` on, then the file, from its offset on.  `responseSend_spec` and
`responseHandleSendFile_spec` say what one call hands on, for all results of `send` and `sendfile` without a hard error;
`Delivery` follows the calls until the response ends.

A successful response ends after its last byte (`run_delivery`).  An error response ends with the first call, whatever has
been sent: `response_assemble_err_buffer` has set `response_done` (`run_error_delivery`).
-/

namespace Lotos

/-! ### The calls on the socket -/

/-- No hard error, and a positive count each time. -/
def Benign (rs : List SendResult) : Prop := ∀ r ∈ rs, r = .again ∨ ∃ k, r = .sent (k + 1)

/-- How many bytes the socket takes before it would block. -/
def taken : List SendResult → ℕ
  | .sent k :: rest => k + taken rest
  | _ => 0

/-- A call would block before one finds that nothing is left of so many bytes. -/
def stalls : ℕ → List SendResult → Bool
  | n, .sent k :: rest => n != 0 && stalls (n - k) rest
  | _, .error :: _ => false
  | _, _ => true

theorem stalls_sent {n : ℕ} (hpos : 0 < n) (k : ℕ) (rest : List SendResult) :
    stalls n (.sent k :: rest) = stalls (n - k) rest := by
  rw [stalls, bne_iff_ne.mpr hpos.ne', Bool.true_and]

theorem Benign.tail {r : SendResult} {rs : List SendResult} (h : Benign (r :: rs)) : Benign rs :=
  fun r' hr' => h r' (List.mem_cons_of_mem _ hr')

theorem drop_length_take (xs : List Byte) (n : ℕ) : xs.drop (xs.take n).length = xs.drop n := by
  rw [List.length_take]
  rcases Nat.le_total n xs.length with hle | hle
  · rw [Nat.min_eq_left hle]
  · rw [Nat.min_eq_right hle, List.drop_length, List.drop_of_length_le hle]

theorem sentBuffer_sentBuffer (c : Conn) (xs ys : List Byte) :
    (c.sentBuffer xs).sentBuffer ys = c.sentBuffer (xs ++ ys) := by
  simp [Conn.sentBuffer, Conn.mapPar, Conn.mapReq, Conn.mapGhost, Nat.add_assoc]

theorem sentFile_sentFile (c : Conn) (xs ys : List Byte) : (c.sentFile xs).sentFile ys = c.sentFile (xs ++ ys) := by
  simp [Conn.sentFile, Conn.mapReq, Conn.mapGhost]

theorem sentBuffer_nil (c : Conn) : c.sentBuffer [] = c := by
  simp [Conn.sentBuffer, Conn.mapPar, Conn.mapReq, Conn.mapGhost]

theorem sentFile_nil (c : Conn) : c.sentFile [] = c := by
  simp [Conn.sentFile, Conn.mapReq, Conn.mapGhost]

/-- `buffer_clear(b)` and `buffer_sent = 0`. -/
def Conn.clearOb (c : Conn) : Conn := c.mapReq fun r => { r with ob := [], par := { r.par with bufferSent := 0 } }

/-- The bytes of `ob` that have not been sent. -/
def Conn.unsent (c : Conn) : List Byte := c.req.ob.drop c.req.par.bufferSent

theorem unsent_sentBuffer (c : Conn) (n : ℕ) : (c.sentBuffer (c.unsent.take n)).unsent = c.unsent.drop n := by
  change c.req.ob.drop (c.req.par.bufferSent + (c.unsent.take n).length) = c.unsent.drop n
  rw [← List.drop_drop]
  exact drop_length_take c.unsent n

/-- **`response_send`.**  It hands on what the socket takes of the bytes not sent yet, and answers `OK` only after all of
them; otherwise a call would block. -/
theorem responseSend_spec (c : Conn) {sends : List SendResult} (hs : Benign sends) :
    (stalls c.unsent.length sends = true ∧ responseSend c sends = (.again, c.sentBuffer (c.unsent.take (taken sends)))) ∨
    (stalls c.unsent.length sends = false ∧ c.unsent.length ≤ taken sends ∧
      responseSend c sends = (.ok, (c.sentBuffer c.unsent).clearOb)) := by
  induction sends generalizing c with
  | nil => exact .inl ⟨rfl, by simp [responseSend, taken, sentBuffer_nil]⟩
  | cons r rest ih =>
    rcases hs r List.mem_cons_self with rfl | ⟨k, rfl⟩
    · exact .inl ⟨rfl, by simp [responseSend, taken, sentBuffer_nil]⟩
    · have hunfold : responseSend c (.sent (k + 1) :: rest) =
          if (c.unsent.take (k + 1)).length = 0 then (.ok, c.clearOb)
          else responseSend (c.sentBuffer (c.unsent.take (k + 1))) rest := rfl
      rw [hunfold]
      by_cases hnil : c.unsent = []
      · refine .inr ⟨by rw [hnil]; rfl, by simp [hnil], ?_⟩
        simp [hnil, sentBuffer_nil]
      · have hpos := List.length_pos_of_ne_nil hnil
        have hlen : (c.unsent.take (k + 1)).length = min (k + 1) c.unsent.length := List.length_take
        have hrest := unsent_sentBuffer c (k + 1)
        rw [if_neg (by omega), stalls_sent hpos]
        rcases ih (c.sentBuffer (c.unsent.take (k + 1))) hs.tail with ⟨hstalls, heq⟩ | ⟨hstalls, hle, heq⟩
        · rw [hrest, List.length_drop] at hstalls
          rw [heq, hrest, sentBuffer_sentBuffer, ← List.take_add]
          exact .inl ⟨hstalls, rfl⟩
        · rw [hrest, List.length_drop] at hstalls hle
          rw [heq, hrest, sentBuffer_sentBuffer, List.take_append_drop]
          refine .inr ⟨hstalls, ?_, rfl⟩
          rw [taken]
          omega

/-- **`response_handle_send_file`**, for a `resource_size` that is not less than what is left of the file. -/
theorem responseHandleSendFile_spec (c : Conn) {files : List SendResult} (hs : Benign files)
    (hsize : c.req.resource.length ≤ sendfileCount c.req.resourceSize) :
    (stalls c.req.resource.length files = true ∧
      responseHandleSendFile c files = (.again, c.sentFile (c.req.resource.take (taken files)))) ∨
    (stalls c.req.resource.length files = false ∧ c.req.resource.length ≤ taken files ∧ responseHandleSendFile c files =
      (.ok, (c.sentFile c.req.resource).setDone.closeFd (c.req.resourceFd.getD 0))) := by
  induction files generalizing c with
  | nil => exact .inl ⟨rfl, by simp [responseHandleSendFile, taken, sentFile_nil]⟩
  | cons r rest ih =>
    rcases hs r List.mem_cons_self with rfl | ⟨k, rfl⟩
    · exact .inl ⟨rfl, by simp [responseHandleSendFile, taken, sentFile_nil]⟩
    · have hunfold : responseHandleSendFile c (.sent (k + 1) :: rest) =
          if (c.req.resource.take (min (k + 1) (sendfileCount c.req.resourceSize))).length = 0 then
            (.ok, c.setDone.closeFd (c.req.resourceFd.getD 0))
          else responseHandleSendFile
            (c.sentFile (c.req.resource.take (min (k + 1) (sendfileCount c.req.resourceSize)))) rest := rfl
      -- the count never cuts a piece short
      have hpiece : c.req.resource.take (min (k + 1) (sendfileCount c.req.resourceSize)) = c.req.resource.take (k + 1) := by
        rw [← List.take_take, List.take_of_length_le hsize]
      rw [hunfold, hpiece]
      by_cases hnil : c.req.resource = []
      · refine .inr ⟨by rw [hnil]; rfl, by simp [hnil], ?_⟩
        simp [hnil, sentFile_nil]
      · have hpos := List.length_pos_of_ne_nil hnil
        have hlen : (c.req.resource.take (k + 1)).length = min (k + 1) c.req.resource.length := List.length_take
        have hrest : (c.sentFile (c.req.resource.take (k + 1))).req.resource = c.req.resource.drop (k + 1) :=
          drop_length_take c.req.resource (k + 1)
        have hsize' : (c.sentFile (c.req.resource.take (k + 1))).req.resource.length ≤
            sendfileCount c.req.resourceSize := by
          rw [hrest, List.length_drop]
          omega
        rw [if_neg (by omega), stalls_sent hpos]
        rcases ih (c.sentFile (c.req.resource.take (k + 1))) hs.tail hsize' with ⟨hstalls, heq⟩ | ⟨hstalls, hle, heq⟩
        · rw [hrest, List.length_drop] at hstalls
          rw [heq, hrest, sentFile_sentFile, ← List.take_add]
          exact .inl ⟨hstalls, rfl⟩
        · rw [hrest, List.length_drop] at hstalls hle
          rw [heq, hrest, sentFile_sentFile, List.take_append_drop]
          refine .inr ⟨hstalls, ?_, rfl⟩
          rw [taken]
          omega

/-! ### A successful response -/

/-- The response is being sent: what has been handed on and what is left make up the whole. -/
structure Conn.Delivering (whole : List Byte) (c : Conn) : Prop where
  responseDone : c.req.par.responseDone = false
  resourceFd : c.req.resourceFd ≠ none
  size : c.req.resource.length ≤ sendfileCount c.req.resourceSize
  part : c.req.resHandler = .sendBuffer ∧ c.ghost.wire ++ (c.unsent ++ c.req.resource) = whole ∨
    c.req.resHandler = .sendFile ∧ c.ghost.wire ++ c.req.resource = whole

/-- A call on the socket would block before all that is left of the response has been taken. -/
def Conn.blocked (c : Conn) (sends files : List SendResult) : Bool :=
  c.req.resHandler == .sendBuffer && stalls c.unsent.length sends || stalls c.req.resource.length files

section Delivering

variable {whole : List Byte} {c : Conn} {sends files : List SendResult}

theorem responseLoop_file_delivering (h : c.Delivering whole) (hh : c.req.resHandler = .sendFile) (hfiles : Benign files) :
    (stalls c.req.resource.length files = true ∧ (responseLoop sends files c).1 = .again ∧
      (responseLoop sends files c).2.Delivering whole) ∨
    (stalls c.req.resource.length files = false ∧ (responseLoop sends files c).1 = .ok ∧
      (responseLoop sends files c).2.ghost.wire = whole ∧ (responseLoop sends files c).2.req.par.responseDone = true) := by
  have hcall : c.req.resHandler.call sends files c = responseHandleSendFile c files := by rw [hh]; rfl
  have hwhole : c.ghost.wire ++ c.req.resource = whole := by
    rcases h.part with ⟨hbuf, -⟩ | ⟨-, hwhole⟩
    · cases hh.symm.trans hbuf
    · exact hwhole
  rcases responseHandleSendFile_spec c hfiles h.size with ⟨hstalls, heq⟩ | ⟨hstalls, -, heq⟩
  · rw [responseLoop_stop (hcall.trans heq) (.inl nofun)]
    have hrest : (c.sentFile (c.req.resource.take (taken files))).req.resource = c.req.resource.drop (taken files) :=
      drop_length_take _ _
    refine .inl ⟨hstalls, rfl, h.responseDone, h.resourceFd, ?_, .inr ⟨hh, ?_⟩⟩
    · rw [hrest, List.length_drop]
      exact (Nat.sub_le _ _).trans h.size
    · rw [hrest]
      change c.ghost.wire ++ c.req.resource.take (taken files) ++ c.req.resource.drop (taken files) = whole
      rw [List.append_assoc, List.take_append_drop, hwhole]
  · rw [responseLoop_stop (hcall.trans heq) (.inr rfl)]
    exact .inr ⟨hstalls, rfl, hwhole, rfl⟩

/-- **One call of `response_handle`.**  The loop ends with the last byte handed on, or since a call would block. -/
theorem responseLoop_delivering (h : c.Delivering whole) (hsends : Benign sends) (hfiles : Benign files) :
    (c.blocked sends files = true ∧ (responseLoop sends files c).1 = .again ∧
      (responseLoop sends files c).2.Delivering whole) ∨
    (c.blocked sends files = false ∧ (responseLoop sends files c).1 = .ok ∧
      (responseLoop sends files c).2.ghost.wire = whole ∧ (responseLoop sends files c).2.req.par.responseDone = true) := by
  rw [Conn.blocked]
  rcases h.part with ⟨hh, hwhole⟩ | ⟨hh, -⟩
  · have hcall : c.req.resHandler.call sends files c = responseHandleSendBuffer c sends := by rw [hh]; rfl
    rcases responseSend_spec c hsends with ⟨hstalls, heq⟩ | ⟨hstalls, -, heq⟩
    · have hbuf : responseHandleSendBuffer c sends = (.again, c.sentBuffer (c.unsent.take (taken sends))) := by
        rw [responseHandleSendBuffer, heq]
      rw [responseLoop_stop (hcall.trans hbuf) (.inl (by rintro ⟨⟩))]
      refine .inl ⟨by rw [hh, hstalls]; rfl, rfl, h.responseDone, h.resourceFd, h.size, .inl ⟨hh, ?_⟩⟩
      rw [unsent_sentBuffer]
      change c.ghost.wire ++ c.unsent.take (taken sends) ++ (c.unsent.drop (taken sends) ++ c.req.resource) = whole
      rw [List.append_assoc, ← List.append_assoc (c.unsent.take _), List.take_append_drop, hwhole]
    · -- the handler switches to the file in the same loop
      have hbuf : responseHandleSendBuffer c sends =
          (.ok, ((c.sentBuffer c.unsent).clearOb).mapReq fun r => { r with resHandler := .sendFile }) := by
        rw [responseHandleSendBuffer, heq]
        exact if_pos h.resourceFd
      rw [responseLoop_next (hcall.trans hbuf) h.responseDone, hstalls, Bool.and_false, Bool.false_or]
      refine responseLoop_file_delivering
        (c := (c.sentBuffer c.unsent).clearOb.mapReq fun r => { r with resHandler := .sendFile })
        ⟨h.responseDone, h.resourceFd, h.size, .inr ⟨rfl, ?_⟩⟩ rfl hfiles
      rw [← hwhole, ← List.append_assoc]
      rfl
  · rw [hh]
    exact responseLoop_file_delivering h hh hfiles

end Delivering

/-- What the socket answers in an event: to `send`, and to `sendfile`. -/
abbrev OutEvent := List SendResult × List SendResult

/-- **The delivery of a response over the events.**  If a call on the socket would block, `response_handle` answers `AGAIN`,
has handed on a part of the response, which stays on the wire, and leaves the rest to the events that follow; otherwise all
of the response has been handed on, and then the request is reset if `keep_alive`, and the answer is `ERROR` if not. -/
def Delivery (whole : List Byte) (c : Conn) : List OutEvent → Prop
  | [] => True
  | (sends, files) :: rest =>
    let res := responseHandle sends files c
    let wire := (responseLoop sends files c).2.ghost.wire
    (c.blocked sends files = true ∧ res.1 = .again ∧ res.2.ghost.resets = c.ghost.resets ∧ res.2.ghost.wire = wire ∧
      wire <+: whole ∧ Delivery whole res.2 rest) ∨
    (c.blocked sends files = false ∧ wire = whole ∧
      (c.req.par.keepAlive = true ∧ res.1 = .ok ∧ res.2.req = .fresh ∧ res.2.ghost.resets = c.ghost.resets + 1 ∨
        c.req.par.keepAlive = false ∧ res.1 = .error ∧ res.2.ghost.resets = c.ghost.resets))

theorem Conn.Delivering.delivery {whole : List Byte} {c : Conn} (h : c.Delivering whole) {events : List OutEvent}
    (hevents : ∀ ev ∈ events, Benign ev.1 ∧ Benign ev.2) : Delivery whole c events := by
  induction events generalizing c with
  | nil => trivial
  | cons ev rest ih =>
    obtain ⟨sends, files⟩ := ev
    obtain ⟨hsends, hfiles⟩ := hevents _ List.mem_cons_self
    have hloop := responseLoop_cases sends files c
    have hresets : (responseLoop sends files c).2.ghost.resets = c.ghost.resets := by rw [hloop.ghost]
    have hkeep := hloop.keepAlive
    rcases responseLoop_delivering h hsends hfiles with ⟨hblock, hst, hmore⟩ | ⟨hfree, hst, hwire, hdone⟩
    · rcases responseHandle_cases sends files c with ⟨hdone, -⟩ | ⟨hdone, -⟩ | ⟨-, heq⟩
      · cases hmore.responseDone.symm.trans hdone
      · cases hmore.responseDone.symm.trans hdone
      · refine .inl ⟨hblock, heq ▸ hst, heq ▸ hresets, by rw [heq], ?_, ?_⟩
        · rcases hmore.part with ⟨-, hwhole⟩ | ⟨-, hwhole⟩ <;> exact ⟨_, hwhole⟩
        · rw [heq]
          exact ih hmore fun ev hev => hevents ev (List.mem_cons_of_mem _ hev)
    · refine .inr ⟨hfree, hwire, ?_⟩
      rcases responseHandle_cases sends files c with ⟨-, hkeep', heq⟩ | ⟨-, hkeep', heq⟩ | ⟨hdone', -⟩
      · refine .inl ⟨hkeep.symm.trans hkeep', heq ▸ hst, by rw [heq]; rfl, ?_⟩
        rw [heq, ← hresets]
        rfl
      · exact .inr ⟨hkeep.symm.trans hkeep', by rw [heq], by rw [heq]; exact hresets⟩
      · cases hdone.symm.trans hdone'

/-! ### A response that has just been assembled -/

/-- Nothing of a response has been sent; the response is done before that exactly if it is an error response. -/
structure Conn.Unsent (c : Conn) : Prop where
  bufferSent : c.req.par.bufferSent = 0
  resHandler : c.req.resHandler = .sendBuffer
  wire : c.ghost.wire = []
  responseDone : c.req.par.responseDone = c.req.par.errReq
  resource : c.req.resourceFd ≠ none → c.req.resourceSize = toInt c.req.resource.length

section Unsent

variable {env : Env} {c c' : Conn}

theorem Conn.Unsent.quiet (h : c.Unsent) (hq : c.Quiet c') : c'.Unsent where
  bufferSent := hq.bufferSent.trans h.bufferSent
  resHandler := by rw [hq.req]; exact h.resHandler
  wire := by rw [hq.ghost]; exact h.wire
  responseDone := by rw [hq.responseDone, hq.errReq, h.responseDone]
  resource := by rw [hq.req]; exact h.resource

theorem Conn.Unsent.assembleErr (h : c.Unsent) (code : ℕ) : (responseAssembleErrBuffer env c code).2.Unsent := by
  rw [assembleErr_eq]
  exact ⟨h.bufferSent, h.resHandler, h.wire, rfl, h.resource⟩

theorem openResource_size (c : Conn) (file : File) (h : (openResource c file).req.resourceFd ≠ none) :
    (openResource c file).req.resourceSize = toInt (openResource c file).req.resource.length := by
  rcases file with content | ⟨size, _ | content⟩
  · simp only [openResource, Conn.setResource, Conn.mapReq]
  · exact absurd rfl h
  · simp only [openResource, Conn.setResource, Conn.mapReq, Conn.mapPar]

theorem openResource_unsent (h : c.Unsent) (file : File) : (openResource c file).Unsent := by
  have hframe := openResource_frame c file
  have hsize := openResource_size c file
  have hreq := hframe.req
  have hghost := hframe.ghost
  generalize openResource c file = c' at hsize hreq hghost ⊢
  refine ⟨?_, ?_, ?_, ?_, hsize⟩
  · rw [hreq]
    exact h.bufferSent
  · rw [hreq]
    exact h.resHandler
  · rw [hghost]
    exact h.wire
  · rw [hreq]
    exact h.responseDone

theorem unsent_scanInv (env : Env) : ScanInv env fun _ c => c.Unsent where
  parse _ _ _ h howned := h.quiet (quiet_parse howned)
  error _ code _ h := h.assembleErr code
  path _ c p _ h := h.quiet (quiet_path c p)
  resource _ _ file _ h := openResource_unsent h file
  record k _ c _ h := h.quiet (quiet_record c k)
  refuse k _ c code _ h := (h.quiet (quiet_record c k)).assembleErr code
  body _ _ h := ⟨h.bufferSent, h.resHandler, h.wire, h.responseDone, h.resource⟩
  wait _ h := h
  answer _ h := ⟨h.bufferSent, h.resHandler, h.wire, h.responseDone, h.resource⟩
  coding _ h := h.assembleErr 501

theorem requestHandle_unsent {recvs : List RecvResult} {st : Status} (h : c.Unsent)
    (hhandle : requestHandle env recvs c = .ok (st, c')) : c'.Unsent := by
  have hrecv : (c.receive (recvBytes recvs)).Unsent := ⟨h.bufferSent, h.resHandler, h.wire, h.responseDone, h.resource⟩
  rw [requestHandle_eq] at hhandle
  split_ifs at hhandle
  · exact handlerLoop_scan (unsent_scanInv env) hrecv hhandle
  · obtain ⟨-, rfl⟩ := Prod.ext_iff.mp (Except.ok.inj hhandle)
    exact hrecv

end Unsent

/-! ### Runs -/

section Runs

variable {timeout : ℤ} {cond : ConnState → Action → Prop} {s s' : ConnState}

theorem fresh_unsent {c : Conn} (hreq : c.req = .fresh) (hwire : c.ghost.wire = []) : c.Unsent := by
  refine ⟨?_, ?_, hwire, ?_, ?_⟩ <;> rw [hreq]
  · rfl
  · rfl
  · rfl
  · exact fun hfd => absurd rfl hfd

/-- While a connection waits for `EPOLLIN`, nothing has been sent since the last reset. -/
theorem step_unsent (hphase : s.Phase) (h : s.conn.epollIn = true → s.conn.Unsent) (hstep : Step timeout cond s s') :
    s'.conn.epollIn = true → s'.conn.Unsent := by
  obtain ⟨a, hen, -, happly⟩ := hstep
  rcases apply_cases hen happly hphase.mask with ⟨-, closed, rfl, -⟩ |
    ⟨now, env, recvs, ⟨st, c'⟩, -, -, hin, hres, rfl⟩ | ⟨now, sends, files, -, -, hout, rfl⟩
  · exact h
  · exact fun _ => requestHandle_unsent (h hin) hres
  · intro hin'
    change (responseHandle sends files s.conn).2.epollIn = true at hin'
    change (responseHandle sends files s.conn).2.Unsent
    have hloop := responseLoop_cases sends files s.conn
    rcases responseHandle_cases sends files s.conn with ⟨-, -, heq⟩ | ⟨-, -, heq⟩ | ⟨-, heq⟩ <;> rw [heq] at hin' ⊢
    · exact fresh_unsent rfl rfl
    · exact absurd ⟨hloop.epollIn.symm.trans hin', hout⟩ hphase.mask
    · exact absurd ⟨hloop.epollIn.symm.trans hin', hout⟩ hphase.mask

theorem run_unsent {nextFd : ℕ} {now : ℤ} (hrun : Run timeout cond (.accept nextFd now) s)
    (hin : s.conn.epollIn = true) : s.conn.Unsent := by
  have hinv := hrun.inv (fun s => s.Phase ∧ (s.conn.epollIn = true → s.conn.Unsent))
    (fun s s' h hstep => ⟨step_phase h.1 hstep, step_unsent h.1 h.2 hstep⟩)
    ⟨accept_phase nextFd now, fun _ => fresh_unsent rfl rfl⟩
  exact hinv.2 hin

end Runs

/-- **Complete and exact delivery.**  After every run that ends with a call of `request_handle`, with an open file of less
than `2^31` bytes and no error response, and so for every response with status code 200: nothing has been handed to the
socket, and over all events without a hard error, `response_handle` ends the response only when the bytes handed to the
socket are those of `ob` and then those of the file, and it does so then. -/
theorem run_delivery {timeout : ℤ} {nextFd : ℕ} {now : ℤ} {s : ConnState} {env : Env} {recvs : List RecvResult}
    {st : Status} {c : Conn} (hrun : Run timeout anyStep (.accept nextFd now) s) (hin : s.conn.epollIn = true)
    (hhandle : requestHandle env recvs s.conn = .ok (st, c)) (herr : c.req.par.errReq = false)
    (hfd : c.req.resourceFd ≠ none) (hsize : c.req.resource.length < 2 ^ 31) {events : List OutEvent}
    (hevents : ∀ ev ∈ events, Benign ev.1 ∧ Benign ev.2) :
    c.ghost.wire = [] ∧ Delivery (c.req.ob ++ c.req.resource) c events := by
  have hunsent := requestHandle_unsent (run_unsent hrun hin) hhandle
  have hdeliver : c.Delivering (c.req.ob ++ c.req.resource) := by
    refine ⟨hunsent.responseDone.trans herr, hfd, ?_, .inl ⟨hunsent.resHandler, ?_⟩⟩
    · rw [hunsent.resource hfd, toInt_eq (by omega) (by omega), sendfileCount]
      omega
    · rw [hunsent.wire, Conn.unsent, hunsent.bufferSent]
      rfl
  exact ⟨hunsent.wire, hdeliver.delivery hevents⟩

/-- A file of five bytes: a short write in `ob`, one at the boundary, one in the file, and calls that would block between
them; the last event ends the response. -/
theorem run_delivery_short : ∃ st c events,
    requestHandle (.page (str "hello")) [.data (str "GET / HTTP/1.1\r\n\r\n")] (ConnState.accept 4 0).conn = .ok (st, c) ∧
      c.req.statusCode = 200 ∧ c.ghost.answers = [200] ∧ c.req.par.keepAlive = true ∧
      events = [([.sent 7], []), ([.sent 5000, .sent 1], [.sent 2, .again]), ([], [.sent 9, .sent 1])] ∧
      (c.ghost.wire = [] ∧ Delivery (c.req.ob ++ c.req.resource) c events) ∧
      (events.foldl (fun c ev => (responseHandle ev.1 ev.2 c).2) c).ghost.resets = c.ghost.resets + 1 := by
  let events : List OutEvent := [([.sent 7], []), ([.sent 5000, .sent 1], [.sent 2, .again]), ([], [.sent 9, .sent 1])]
  obtain ⟨⟨st, c⟩, hhandle, hobs⟩ := observe_ok (fun res : Status × Conn => decide (res.2.req.statusCode = 200 ∧
    res.2.ghost.answers = [200] ∧ res.2.req.par.keepAlive = true ∧ res.2.req.par.errReq = false ∧
    res.2.req.resourceFd = some 4 ∧ res.2.req.resource.length = 5 ∧
    (events.foldl (fun c ev => (responseHandle ev.1 ev.2 c).2) res.2).ghost.resets = res.2.ghost.resets + 1))
    (x := requestHandle (.page (str "hello")) [.data (str "GET / HTTP/1.1\r\n\r\n")] (ConnState.accept 4 0).conn) (b := true)
    (by decide +kernel)
  obtain ⟨hstatus, hanswers, hkeep, herr, hfd, hlen, hreset⟩ := of_decide_eq_true hobs
  have hrun : Run 5 anyStep (.accept 4 0) (.accept 4 0) := .refl
  refine ⟨st, c, events, hhandle, hstatus, hanswers, hkeep, rfl, ?_, hreset⟩
  refine run_delivery hrun rfl hhandle herr (by rw [hfd]; nofun) (by rw [hlen]; omega) ?_
  simp [Benign, events]

/-! ### An error response -/

/-- When a call of `response_handle` answers `ERROR` or resets the request for the first time, all these bytes have been
accepted by `send`; what the calls before it have sent stays on the wire. -/
def SentBeforeEnd (ob : List Byte) (c : Conn) : List OutEvent → Prop
  | [] => True
  | (sends, files) :: rest =>
    let res := responseHandle sends files c
    if res.1 = .error ∨ res.2.ghost.resets ≠ c.ghost.resets then (responseLoop sends files c).2.ghost.wire = ob
    else res.2.ghost.wire = (responseLoop sends files c).2.ghost.wire ∧ SentBeforeEnd ob res.2 rest

section Error

variable {c : Conn} {sends : List SendResult} (files : List SendResult)

theorem responseLoop_done (hh : c.req.resHandler = .sendBuffer) (hdone : c.req.par.responseDone = true)
    (hsends : Benign sends) :
    (responseLoop sends files c).2.ghost.wire = c.ghost.wire ++ c.unsent.take (taken sends) ∧
      (responseLoop sends files c).2.req.par.responseDone = true := by
  have hcall : c.req.resHandler.call sends files c = responseHandleSendBuffer c sends := by rw [hh]; rfl
  rcases responseSend_spec c hsends with ⟨-, heq⟩ | ⟨-, hle, heq⟩
  · have hbuf : responseHandleSendBuffer c sends = (.again, c.sentBuffer (c.unsent.take (taken sends))) := by
      rw [responseHandleSendBuffer, heq]
    rw [responseLoop_stop (hcall.trans hbuf) (.inl (by rintro ⟨⟩))]
    exact ⟨rfl, hdone⟩
  · rw [List.take_of_length_le hle]
    by_cases hfd : c.req.resourceFd = none
    · have hbuf : responseHandleSendBuffer c sends = (.ok, (c.sentBuffer c.unsent).clearOb.setDone.disableOut) := by
        rw [responseHandleSendBuffer, heq]
        exact if_neg (not_not.mpr hfd)
      rw [responseLoop_stop (hcall.trans hbuf) (.inr rfl)]
      exact ⟨rfl, rfl⟩
    · have hbuf : responseHandleSendBuffer c sends =
          (.ok, ((c.sentBuffer c.unsent).clearOb).mapReq fun r => { r with resHandler := .sendFile }) := by
        rw [responseHandleSendBuffer, heq]
        exact if_pos hfd
      rw [responseLoop_stop (hcall.trans hbuf) (.inr hdone)]
      exact ⟨rfl, hdone⟩

/-- The first call ends an error response, by `ERROR` or by a reset. -/
theorem responseHandle_done (hh : c.req.resHandler = .sendBuffer) (hdone : c.req.par.responseDone = true)
    (hsends : Benign sends) :
    (responseHandle sends files c).1 = .error ∨ (responseHandle sends files c).2.ghost.resets ≠ c.ghost.resets := by
  have hend := (responseLoop_done files hh hdone hsends).2
  have hresets : (responseLoop sends files c).2.ghost.resets = c.ghost.resets := by
    rw [(responseLoop_cases sends files c).ghost]
  rcases responseHandle_cases sends files c with ⟨-, -, heq⟩ | ⟨-, -, heq⟩ | ⟨hdone', -⟩
  · refine .inr ?_
    rw [heq]
    change (responseLoop sends files c).2.ghost.resets + 1 ≠ _
    omega
  · exact .inl (by rw [heq])
  · cases hend.symm.trans hdone'

end Error

/-- **Error responses.**  After every run that ends with a call of `request_handle` that has assembled an error response, and
for all events without a hard error: all of `ob` has been accepted by `send` before the request is dropped or reset exactly
if the socket takes all of it in the first event, before a call would block. -/
theorem run_error_delivery {timeout : ℤ} {nextFd : ℕ} {now : ℤ} {s : ConnState} {env : Env} {recvs : List RecvResult}
    {st : Status} {c : Conn} (hrun : Run timeout anyStep (.accept nextFd now) s) (hin : s.conn.epollIn = true)
    (hhandle : requestHandle env recvs s.conn = .ok (st, c)) (herr : c.req.par.errReq = true) {events : List OutEvent}
    (hevents : ∀ ev ∈ events, Benign ev.1 ∧ Benign ev.2) :
    c.ghost.wire = [] ∧
      (SentBeforeEnd c.req.ob c events ↔ ∀ ev, events.head? = some ev → c.req.ob.length ≤ taken ev.1) := by
  have hunsent := requestHandle_unsent (run_unsent hrun hin) hhandle
  have hdone := hunsent.responseDone.trans herr
  refine ⟨hunsent.wire, ?_⟩
  cases events with
  | nil => exact ⟨fun _ => nofun, fun _ => trivial⟩
  | cons ev rest =>
    obtain ⟨sends, files⟩ := ev
    have hsends := (hevents _ List.mem_cons_self).1
    have hwire := (responseLoop_done files hunsent.resHandler hdone hsends).1
    have hall : c.unsent = c.req.ob := by
      rw [Conn.unsent, hunsent.bufferSent]
      rfl
    rw [SentBeforeEnd, if_pos (responseHandle_done files hunsent.resHandler hdone hsends), hwire, hunsent.wire, hall,
      List.nil_append, List.take_eq_self_iff]
    simp

/-- A request that is refused, and a socket that takes the response in two pieces. -/
theorem run_error_delivery_refused : ∃ st c,
    requestHandle (.page []) [.data (str "GET / HTTP/1.7\r\n\r\n")] (ConnState.accept 4 0).conn = .ok (st, c) ∧
      c.req.par.errReq = true ∧
      (SentBeforeEnd c.req.ob c [([.sent 20, .sent 5000], [])] ↔
        ∀ ev, [([SendResult.sent 20, .sent 5000], ([] : List SendResult))].head? = some ev →
          c.req.ob.length ≤ taken ev.1) := by
  obtain ⟨⟨st, c⟩, hhandle, herr⟩ := observe_ok (fun res : Status × Conn => res.2.req.par.errReq)
    (x := requestHandle (.page []) [.data (str "GET / HTTP/1.7\r\n\r\n")] (ConnState.accept 4 0).conn) (b := true)
    (by decide +kernel)
  have hrun : Run 5 anyStep (.accept 4 0) (.accept 4 0) := .refl
  exact ⟨st, c, hhandle, herr, (run_error_delivery hrun rfl hhandle herr (by simp [Benign])).2⟩

/-- The socket takes ten bytes and would then block. -/
theorem not_forall_run_error_delivery :
    ¬ ∀ (timeout : ℤ) (nextFd : ℕ) (now : ℤ) (s : ConnState) (env : Env) (recvs : List RecvResult) (st : Status) (c : Conn),
      Run timeout anyStep (.accept nextFd now) s → s.conn.epollIn = true →
      requestHandle env recvs s.conn = .ok (st, c) → c.req.par.errReq = true →
      ∀ events : List OutEvent, (∀ ev ∈ events, Benign ev.1 ∧ Benign ev.2) → SentBeforeEnd c.req.ob c events := by
  intro h
  obtain ⟨⟨st, c⟩, hhandle, hobs⟩ := observe_ok (fun res : Status × Conn => decide (res.2.req.par.errReq = true ∧
    res.2.req.par.responseDone = true ∧ res.2.req.resHandler = .sendBuffer ∧ res.2.req.par.bufferSent = 0 ∧
    res.2.ghost.wire = [] ∧ 10 < res.2.req.ob.length))
    (x := requestHandle (.page []) [.data (str "GET / HTTP/1.7\r\n\r\n")] (ConnState.accept 4 0).conn) (b := true)
    (by decide +kernel)
  obtain ⟨herr, hdone, hh, hsent, hwire, hlen⟩ := of_decide_eq_true hobs
  have hbenign : Benign [.sent 10, .again] := by simp [Benign]
  have hdelivered := h 5 4 0 (.accept 4 0) _ _ st c .refl rfl hhandle herr [([.sent 10, .again], [])] (by simp [Benign])
  rw [SentBeforeEnd, if_pos (responseHandle_done [] hh hdone hbenign), (responseLoop_done [] hh hdone hbenign).1, hwire,
    Conn.unsent, hsent] at hdelivered
  have hcut := congrArg List.length hdelivered
  rw [List.nil_append, List.length_take, List.drop_zero] at hcut
  simp only [taken] at hcut hlen
  omega

end Lotos
