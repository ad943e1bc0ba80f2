import Lotos.Response.Message
import Lotos.Server.Delivery
import Lotos.Server.Success

/-!
# What a client reads

`Conn.Framed` is kept by the handlers of a request: what they append to `ob` begins with a response that a client can read.
If the first answer is an error, it is a message with the page of its code; if it is a 200, it is the only answer, and `ob`
is the head of a response that announces `resource_size` and says about `keep_alive` what the request has.  So whatever a
client has sent, and however it arrived, the client can tell where the response ends (`run_framed`).

What may follow an error in `ob` is not framed: a 200 that the handlers assemble after it announces the length of a page that
is not appended.
-/

namespace Lotos

/-- What an error response says. -/
def Response.error (env : Env) (minor : ℕ) {date : List Byte} (hdate : CR ∉ date) (code : ℕ) : Response :=
  ⟨minor, statusText code, date, str "text/html", false, env.errPage.of code, statusText_clean code, hdate,
    by decide +kernel⟩

/-- The head of a success response. -/
def successHead (minor : ℕ) (date contentType : List Byte) (size : ℤ) (keepAlive : Bool) : List Byte :=
  appendedBy [.statusLine minor (some (statusText 200)), .date (str "Date: " ++ date ++ CRLF), .server,
    .contentType contentType, .contentLength size, .connection keepAlive, .crlf]

/-- The responses in `ob`. -/
structure Conn.Framed (env : Env) {date : List Byte} (hdate : CR ∉ date) (sc : HeaderScan) (c : Conn) : Prop where
  line : c.req.reqHandler = some .requestLine → c.ghost.answers = []
  clean : c.ghost.answers = [] → c.req.par.errReq = false ∧ c.req.statusCode = 200 ∧ c.req.ob = []
  error : ∀ code more, c.ghost.answers = code :: more → code ≠ 200 → ∃ minor rest,
    c.req.ob = responseCodec.encode (Response.error env minor hdate code).message ++ rest ∧ (more = [] → rest = [])
  success : ∀ more, c.ghost.answers = 200 :: more → more = [] ∧ sc = .stop .again ∧ ∃ minor contentType, CR ∉ contentType ∧
    c.req.ob = successHead minor date contentType c.req.resourceSize c.req.par.keepAlive

section Framed

variable {env : Env} {date : List Byte} {hdate : CR ∉ date} {sc : HeaderScan} {c c' : Conn}

theorem Conn.Framed.quiet (h : c.Framed env hdate sc) (hq : c.Quiet c')
    (hkeep : c'.req.par.keepAlive = c.req.par.keepAlive ∨ sc ≠ .stop .again ∨ c.ghost.answers = []) :
    c'.Framed env hdate sc := by
  have hans : c'.ghost.answers = c.ghost.answers := congrArg Ghost.answers hq.ghost
  have hob : c'.req.ob = c.req.ob := by rw [hq.req]
  have hcode : c'.req.statusCode = c.req.statusCode := by rw [hq.req]
  have hhandler : c'.req.reqHandler = c.req.reqHandler := by rw [hq.req]
  have hsize : c'.req.resourceSize = c.req.resourceSize := by rw [hq.req]
  refine ⟨?_, ?_, ?_, ?_⟩ <;> rw [hans]
  · rw [hhandler]
    exact h.line
  · rw [hcode, hob, hq.errReq]
    exact h.clean
  · rw [hob]
    exact h.error
  · intro more hmore
    obtain ⟨hnil, hsc, hhead⟩ := h.success more hmore
    rw [hob, hsize]
    rcases hkeep with hkeep | hkeep | hkeep
    · rw [hkeep]
      exact ⟨hnil, hsc, hhead⟩
    · exact absurd hsc hkeep
    · cases hkeep.symm.trans hmore

theorem assembleHelpers_head (hdated : env.Dated date) (r : Request) (herr : r.par.errReq = false) :
    appendedBy (r.assembleHelpers env) = appendedBy [.statusLine r.par.version.httpMinor (some (statusText r.statusCode)),
      .date (str "Date: " ++ date ++ CRLF), .server,
      .contentType ((dictGet r.ib mimeDict r.par.url.mimeExtension).getD (str "text/html")), .contentLength r.resourceSize,
      .connection r.par.keepAlive, .crlf] := by
  simp only [Request.assembleHelpers, herr, Bool.false_eq_true, if_false, appendedBy, List.flatMap_cons, statusLine_pieces,
    Option.getD_some, hdated.line, statusText]

/-- An error response is a message with the page of its code. -/
theorem errHelpers_encode (hdated : env.Dated date) (hfits : env.errPage.Fits) (r : Request) (code : ℕ) :
    appendedBy ((r.markErr code).errHelpers env) =
      responseCodec.encode (Response.error env r.par.version.httpMinor hdated.clean code).message := by
  have hends : env.errPage.tail = [] := tail_eq_nil_iff.mpr hfits.ends
  have htext : (r.markErr code).errPageText env = env.errPage.of code := by
    rw [Request.errPageText, hends, List.append_nil]
    rfl
  have hnul : NUL ∉ env.errPage.of code := by
    have hstatus : NUL ∉ (statusTable code).getD (str "(null)") := by
      cases h : statusTable code with
      | none => decide +kernel
      | some status => exact statusTable_nul h
    simp only [ErrPage.of, ErrPage.render, List.mem_append, not_or]
    exact ⟨⟨hfits.pre, hstatus⟩, hfits.post⟩
  have hpage : (r.markErr code).errPageRenderBuf env = env.errPage.of code := by
    have hlen := hfits.length code
    rw [Request.errPageRenderBuf, htext, List.take_of_length_le (by omega)]
    refine List.takeWhile_eq_self_iff.mpr ?_
    intro b hb
    simp only [ne_eq, decide_not, Bool.not_eq_true', decide_eq_false_iff_not]
    rintro rfl
    exact hnul hb
  have htext' : ((r.markErr code).dropKeepAlive).errPageText env = env.errPage.of code := htext
  rw [Response.encode, Request.errHelpers, hpage]
  simp only [Request.assembleHelpers, htext']
  simp only [Response.error, appendedBy, List.flatMap_append, List.flatMap_cons, List.flatMap_nil, statusLine_pieces]
  simp only [Option.getD_some, hdated.line, Request.markErr, Request.dropKeepAlive, if_true, List.append_nil,
    List.append_assoc, Helper.pieces, List.flatten_cons, List.flatten_nil, statusText]
  rfl

/-- With something before them, the handlers have not answered by a 200. -/
theorem Conn.Framed.scan (h : c.Framed env hdate sc) (hsc : sc ≠ .stop .again) (sc' : HeaderScan) : c.Framed env hdate sc' :=
  ⟨h.line, h.clean, h.error, fun more hmore => absurd (h.success more hmore).2.1 hsc⟩

theorem Conn.Framed.assembleErr (hdated : env.Dated date) (hfits : env.errPage.Fits) (h : c.Framed env hdated.clean sc)
    (hsc : sc ≠ .stop .again) {code : ℕ} (hcode : code ≠ 200) (sc' : HeaderScan) :
    (responseAssembleErrBuffer env c code).2.Framed env hdated.clean sc' := by
  have hans : (responseAssembleErrBuffer env c code).2.ghost.answers = c.ghost.answers ++ [code] := by rw [assembleErr_eq]
  have hob : (responseAssembleErrBuffer env c code).2.req.ob = c.req.ob ++
      responseCodec.encode (Response.error env c.req.par.version.httpMinor hdated.clean code).message := by
    rw [assembleErr_eq]
    exact (assembleErr_ob env c.req code).trans (congrArg _ (errHelpers_encode hdated hfits c.req code))
  have hne : c.ghost.answers ++ [code] ≠ [] := List.append_ne_nil_of_right_ne_nil _ (List.cons_ne_nil _ _)
  refine ⟨?_, ?_, ?_, ?_⟩ <;> rw [hans]
  · rw [assembleErr_handler]
    rintro ⟨⟩
  · exact fun hnil => absurd hnil hne
  · intro first more hfirst hfirst200
    rw [hob]
    cases hanswers : c.ghost.answers with
    | nil =>
      rw [hanswers] at hfirst
      obtain ⟨rfl, rfl⟩ := List.cons.inj hfirst
      rw [(h.clean hanswers).2.2, List.nil_append]
      exact ⟨_, [], (List.append_nil _).symm, fun _ => rfl⟩
    | cons first' more' =>
      rw [hanswers, List.cons_append] at hfirst
      obtain ⟨rfl, rfl⟩ := List.cons.inj hfirst
      obtain ⟨minor, rest, hrest, -⟩ := h.error _ _ hanswers hfirst200
      refine ⟨minor, rest ++ _, by rw [hrest, List.append_assoc], ?_⟩
      exact fun hnil => absurd hnil (List.append_ne_nil_of_right_ne_nil _ (List.cons_ne_nil _ _))
  · intro more hmore
    cases hanswers : c.ghost.answers with
    | nil =>
      rw [hanswers] at hmore
      exact absurd (List.cons.inj hmore).1 hcode
    | cons first' more' =>
      rw [hanswers, List.cons_append] at hmore
      obtain ⟨rfl, -⟩ := List.cons.inj hmore
      exact absurd (h.success _ hanswers).2.1 hsc

theorem Conn.Framed.assemble (hdated : env.Dated date) (h : c.Framed env hdated.clean sc) (hsc : sc ≠ .stop .again) :
    (responseAssembleBuffer env (c.turnOut.setHandler none)).Framed env hdated.clean (.stop .again) := by
  have hans : (responseAssembleBuffer env (c.turnOut.setHandler none)).ghost.answers =
      c.ghost.answers ++ [c.req.statusCode] := rfl
  have hob : (responseAssembleBuffer env (c.turnOut.setHandler none)).req.ob =
      c.req.ob ++ appendedBy (c.req.assembleHelpers env) :=
    responseAssembleBuffer_ob env (c.turnOut.setHandler none).req
  have hne : c.ghost.answers ++ [c.req.statusCode] ≠ [] := List.append_ne_nil_of_right_ne_nil _ (List.cons_ne_nil _ _)
  refine ⟨by rintro ⟨⟩, ?_, ?_, ?_⟩ <;> rw [hans]
  · exact fun hnil => absurd hnil hne
  · intro first more hfirst hfirst200
    cases hanswers : c.ghost.answers with
    | nil =>
      rw [hanswers, (h.clean hanswers).2.1] at hfirst
      exact absurd (List.cons.inj hfirst).1.symm hfirst200
    | cons first' more' =>
      rw [hanswers, List.cons_append] at hfirst
      obtain ⟨rfl, rfl⟩ := List.cons.inj hfirst
      obtain ⟨minor, rest, hrest, -⟩ := h.error _ _ hanswers hfirst200
      refine ⟨minor, rest ++ _, by rw [hob, hrest, List.append_assoc], ?_⟩
      exact fun hnil => absurd hnil (List.append_ne_nil_of_right_ne_nil _ (List.cons_ne_nil _ _))
  · intro more hmore
    cases hanswers : c.ghost.answers with
    | nil =>
      obtain ⟨herr, hcode, hnil⟩ := h.clean hanswers
      rw [hanswers] at hmore
      refine ⟨(List.cons.inj hmore).2.symm, rfl, c.req.par.version.httpMinor, _, contentType_clean c.req.ib
        c.req.par.url.mimeExtension, ?_⟩
      rw [hob, hnil, assembleHelpers_head hdated c.req herr, hcode]
      rfl
    | cons first' more' =>
      rw [hanswers, List.cons_append] at hmore
      obtain ⟨rfl, -⟩ := List.cons.inj hmore
      exact absurd (h.success _ hanswers).2.1 hsc

/-- **The handlers of a request frame what they answer.** -/
theorem framed_scanInv (hdated : env.Dated date) (hfits : env.errPage.Fits) :
    ScanInv env fun sc c => c.Framed env hdated.clean sc where
  parse _ _ _ h howned := h.quiet (quiet_parse howned) (.inl (congrArg Owned.keepAlive howned))
  error _ _ hcode h := h.assembleErr hdated hfits (by rintro ⟨⟩) hcode _
  path _ c p hline h := h.quiet (quiet_path c p) (.inr (.inr (h.line hline)))
  resource sc c file hline h := by
    have hnil := h.line hline
    have hframe := openResource_frame c file
    have hans : (openResource c file).ghost.answers = [] := by
      rw [hframe.ghost]
      exact hnil
    refine ⟨fun _ => hans, ?_, ?_, ?_⟩
    · intro _
      rw [hframe.req]
      exact h.clean hnil
    · rw [hans]
      rintro code more ⟨⟩
    · rw [hans]
      rintro more ⟨⟩
  record k sc c _ h := (h.quiet (quiet_record c k) (.inr (.inl (by rintro ⟨⟩)))).scan (by rintro ⟨⟩) sc
  refuse k sc c code hk h := by
    have hcode : code ≠ 200 := by cases k <;> cases hk <;> decide
    exact (h.quiet (quiet_record c k) (.inr (.inl (by rintro ⟨⟩)))).assembleErr hdated hfits (by rintro ⟨⟩) hcode sc
  body sc c h := ⟨by rintro ⟨⟩, h.clean, h.error, h.success⟩
  wait c h := h.scan (by rintro ⟨⟩) _
  answer c h := h.assemble hdated (by rintro ⟨⟩)
  coding _ h := h.assembleErr hdated hfits (by rintro ⟨⟩) (by decide) _

/-- A success head is that of a response, if it announces the length of what follows it. -/
theorem successHead_encode {minor : ℕ} {contentType : List Byte} (hdate : CR ∉ date) (htype : CR ∉ contentType)
    (keepAlive : Bool) (body : List Byte) :
    successHead minor date contentType body.length keepAlive ++ body = responseCodec.encode
      (⟨minor, statusText 200, date, contentType, keepAlive, body, statusText_clean 200, hdate, htype⟩ :
        Response).message := by
  rw [Response.encode]
  rfl

theorem requestHandle_framed (hdated : env.Dated date) (hfits : env.errPage.Fits) (hclean : c.Clean) (hob : c.req.ob = [])
    (herr : c.req.par.errReq = false) {recvs : List RecvResult} {st : Status}
    (hhandle : requestHandle env recvs c = .ok (st, c')) :
    c'.Framed env hdated.clean (.stop .again) := by
  have hreceive (sc : HeaderScan) : (c.receive (recvBytes recvs)).Framed env hdated.clean sc := by
    refine ⟨fun _ => hclean.answers, fun _ => ⟨herr, hclean.status, hob⟩, ?_, ?_⟩
    · intro code more hmore
      cases hclean.answers.symm.trans hmore
    · intro more hmore
      cases hclean.answers.symm.trans hmore
  rw [requestHandle_eq] at hhandle
  split_ifs at hhandle
  · exact handlerLoop_scan (framed_scanInv hdated hfits) (hreceive _) hhandle
  · obtain ⟨-, rfl⟩ := Prod.mk.inj (Except.ok.inj hhandle)
    exact hreceive _

end Framed

/-- **What a client reads.**  After every run that ends with a call of `request_handle`, for every request and however it
arrived: if the first answer is an error, then what is in `ob` begins with a response that the client reads as that code with
its page, and that says the connection is closed; if it is a 200 with an open file of less than `2^31` bytes, then it is the
only answer, and `ob` with the file is a response that the client reads as a 200 with the content of the file, whatever
follows, and that says about the connection what `keep_alive` says. -/
theorem run_framed {timeout : ℤ} {nextFd : ℕ} {now : ℤ} {s : ConnState} {env : Env} {date : List Byte}
    {recvs : List RecvResult} {st : Status} {c : Conn} {code : ℕ} {more : List ℕ}
    (hrun : Run timeout anyStep (.accept nextFd now) s) (hin : s.conn.epollIn = true) (hdated : env.Dated date)
    (hfits : env.errPage.Fits)
    (hhandle : requestHandle env recvs s.conn = .ok (st, c)) (hans : c.ghost.answers = code :: more) :
    (code ≠ 200 → ∃ (m : Response) (extra : List Byte),
      (∀ rest, responseCodec.decode (c.req.ob ++ rest) = some (m.message, extra ++ rest)) ∧ (more = [] → extra = []) ∧
      m.status = statusText code ∧ m.body = env.errPage.of code ∧ m.keepAlive = false) ∧
    (code = 200 → more = [] ∧ (c.req.resourceFd ≠ none → c.req.resource.length < 2 ^ 31 → ∃ m : Response,
      (∀ rest, responseCodec.decode (c.req.ob ++ c.req.resource ++ rest) = some (m.message, rest)) ∧
      m.status = statusText 200 ∧ m.body = c.req.resource ∧ m.keepAlive = c.req.par.keepAlive)) := by
  have hreading := (run_phase hrun).reading hin
  have hunsent := run_unsent hrun hin
  have hclean : s.conn.Clean := ((run_tracked hrun).reading hin).1
  have hframed := requestHandle_framed hdated hfits hclean hreading.ob
    (hunsent.responseDone.symm.trans hreading.responseDone) hhandle
  refine ⟨?_, ?_⟩
  · intro hcode
    obtain ⟨minor, extra, hob, hnil⟩ := hframed.error _ _ hans hcode
    refine ⟨Response.error env minor hdated.clean code, extra, ?_, hnil, rfl, rfl, rfl⟩
    intro rest
    rw [hob, List.append_assoc]
    exact responseCodec.decode_encode _ _
  · rintro rfl
    obtain ⟨hnil, -, minor, contentType, htype, hob⟩ := hframed.success _ hans
    refine ⟨hnil, ?_⟩
    intro hfd hlen
    have hsize : c.req.resourceSize = c.req.resource.length := by
      rw [(requestHandle_unsent hunsent hhandle).resource hfd, toInt_eq (by omega) (by omega)]
    refine ⟨⟨minor, statusText 200, date, contentType, c.req.par.keepAlive, c.req.resource, statusText_clean 200,
        hdated.clean, htype⟩, ?_, rfl, rfl, rfl⟩
    intro rest
    rw [hob, hsize, successHead_encode hdated.clean htype]
    exact responseCodec.decode_encode _ _

/-- A file of five bytes. -/
def helloEnv : Env := ⟨fun _ => some (.regular (str "hello")), str "Date: today" ++ CRLF, ⟨str "<h1>", str "</h1>", []⟩⟩

theorem helloEnv_dated : helloEnv.Dated (str "today") := ⟨by decide +kernel, by decide +kernel⟩

theorem helloEnv_fits : helloEnv.errPage.Fits where
  pre := by decide +kernel
  post := by decide +kernel
  ends := .inr rfl
  length code := by
    have hstatus := statusTable_length code
    have hpre : (str "<h1>").length = 4 := by decide +kernel
    have hpost : (str "</h1>").length = 5 := by decide +kernel
    simp only [ErrPage.of, ErrPage.render, helloEnv, List.length_append, hpre, hpost, bufsiz]
    omega

/-- The first request of a connection. -/
theorem run_framed_hello : ∃ st c, requestHandle helloEnv [.data (str "GET / HTTP/1.1\r\n\r\n")]
      (ConnState.accept 4 0).conn = .ok (st, c) ∧
    ∃ m : Response, (∀ rest, responseCodec.decode (c.req.ob ++ c.req.resource ++ rest) = some (m.message, rest)) ∧
      m.body = str "hello" := by
  obtain ⟨⟨st, c⟩, hhandle, hobs⟩ := observe_ok (fun res : Status × Conn => decide (res.2.ghost.answers = [200] ∧
    res.2.req.resourceFd = some 4 ∧ res.2.req.resource = str "hello"))
    (x := requestHandle helloEnv [.data (str "GET / HTTP/1.1\r\n\r\n")] (ConnState.accept 4 0).conn) (b := true)
    (by decide +kernel)
  obtain ⟨hanswers, hfd, hresource⟩ := of_decide_eq_true hobs
  have hrun : Run 5 anyStep (.accept 4 0) (.accept 4 0) := .refl
  obtain ⟨-, hfile⟩ := (run_framed hrun rfl helloEnv_dated helloEnv_fits hhandle hanswers).2 rfl
  have hlen : c.req.resource.length < 2 ^ 31 := by
    rw [hresource]
    decide +kernel
  obtain ⟨m, hdecode, -, hbody, -⟩ := hfile (by rw [hfd]; exact Option.some_ne_none _) hlen
  exact ⟨st, c, hhandle, m, hdecode, hbody.trans hresource⟩

end Lotos
