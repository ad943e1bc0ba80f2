import Lotos.Request.Arrival
import Lotos.Server.Mask

/-!
# Requests on a persistent connection

A client sends valid requests one after the other, and the server answers them.  An `Exchange` is a connection with all the
bytes that `request_recv` has read on it and all the responses that have been assembled.

`request_recv` reads whatever there is, the handlers stop at the end of one request, and `request_reset` clears the buffer.
So what a batch holds behind the end of a request is lost.  `run_replies` says that this is all that goes wrong.
-/

namespace Lotos

/-! ### The exchange -/

structure Exchange where
  state : ConnState
  /-- the bytes that `request_recv` has read since the connection was made -/
  read : List Byte
  /-- the responses assembled since the connection was made, each with the content of its file -/
  out : List (List Byte × List Byte)

def Exchange.start (nextFd : ℕ) (now : ℤ) : Exchange := ⟨.accept nextFd now, [], []⟩

/-- The bytes that a step reads. -/
def Action.batch (timeout : ℤ) (s : ConnState) : Action → List Byte
  | .event now (some (_, recvs)) _ => if now - s.activeTime > timeout then [] else recvBytes recvs
  | _ => []

/-- The response that a step has assembled, if it has. -/
def replies (c c' : Conn) : List (List Byte × List Byte) :=
  if c.ghost.answers = [] ∧ c'.ghost.answers ≠ [] then [(c'.req.ob, c'.req.resource)] else []

/-- A step of the event loop on the connection. -/
def Exchange.Step (timeout : ℤ) (cond : Exchange → Action → Prop) (e e' : Exchange) : Prop :=
  ∃ a : Action, a.Enabled timeout e.state ∧ cond e a ∧ e.state.apply timeout a = .ok e'.state ∧
    e'.read = e.read ++ a.batch timeout e.state ∧ e'.out = e.out ++ replies e.state.conn e'.state.conn

abbrev Exchange.Run (timeout : ℤ) (cond : Exchange → Action → Prop) : Exchange → Exchange → Prop :=
  Relation.ReflTransGen (Exchange.Step timeout cond)

/-- The bytes of the requests. -/
def stream (ws : List WholeRequest) : List Byte := ws.flatMap WholeRequest.bytes

/-- The file system and the date do not change, the client sends the bytes of the requests, and it does not close. -/
def Arrives (env : Env) (ws : List WholeRequest) (e : Exchange) (a : Action) : Prop :=
  ∀ now env' recvs output, a = .event now (some (env', recvs)) output →
    env' = env ∧ recvStatus recvs = .again ∧ e.read ++ recvBytes recvs <+: stream ws

/-- The batch does not go on behind the end of a request. -/
def Apart (ws : List WholeRequest) (e : Exchange) (a : Action) : Prop :=
  ∀ now env' recvs output, a = .event now (some (env', recvs)) output →
    ∀ done, done <+: ws → e.read.length < (stream done).length →
      (e.read ++ recvBytes recvs).length ≤ (stream done).length

/-- The requests that lie wholly in the first `n` bytes of the stream. -/
def complete : List WholeRequest → ℕ → List WholeRequest
  | [], _ => []
  | w :: ws, n => if w.bytes.length ≤ n then w :: complete ws (n - w.bytes.length) else []

/-! ### Whole requests in the stream -/

section Stream

variable {w : WholeRequest} {ws done todo : List WholeRequest} {n : ℕ}

theorem bytes_pos (w : WholeRequest) : 0 < w.bytes.length := by
  simp only [WholeRequest.bytes, emptyLine, CRLF, List.length_append, List.length_cons]
  omega

theorem stream_append (done todo : List WholeRequest) : stream (done ++ todo) = stream done ++ stream todo :=
  List.flatMap_append

theorem complete_append (done todo : List WholeRequest) (n : ℕ) :
    complete (done ++ todo) ((stream done).length + n) = done ++ complete todo n := by
  induction done with
  | nil => simp [stream]
  | cons w done ih =>
    have hlen : (stream (w :: done)).length + n = w.bytes.length + ((stream done).length + n) := by
      simp [stream, Nat.add_assoc]
    rw [List.cons_append, complete, hlen, if_pos (Nat.le_add_right _ _), Nat.add_sub_cancel_left, ih, List.cons_append]

theorem complete_short (h : n < w.bytes.length) : complete (w :: ws) n = [] := by
  rw [complete, if_neg (by omega)]

theorem complete_zero (ws : List WholeRequest) : complete ws 0 = [] := by
  cases ws with
  | nil => rfl
  | cons w ws => exact complete_short (bytes_pos w)

end Stream

/-! ### One request after the other -/

/-- The connection waits for the rest of the next request, if there is one. -/
def Conn.WaitsFor (env : Env) (c : Conn) : List WholeRequest → Prop
  | [] => c.AtLine ∧ c.ghost.received = [] ∧ c.ghost.answers = [] ∧ c.epollIn = true ∧ c.epollOut = false
  | w :: _ => ∃ file future, env.openat w.line.target = some file ∧
    c.Awaits w (w.line.served file).offer future ∧ future ≠ []

/-- The connection sends a response, and is kept. -/
structure Conn.Sends (c : Conn) : Prop where
  answers : c.ghost.answers ≠ []
  keepAlive : c.req.par.keepAlive = true
  epollIn : c.epollIn = false

/-- The bytes of the next request. -/
def nextBytes : List WholeRequest → List Byte
  | [] => []
  | w :: _ => w.bytes

section Conn

variable {env : Env} {c : Conn} {todo : List WholeRequest}

theorem Conn.WaitsFor.reading (h : c.WaitsFor env todo) : c.ghost.answers = [] ∧ c.epollIn = true ∧ c.epollOut = false := by
  cases todo with
  | nil => exact h.2.2
  | cons w todo =>
    obtain ⟨file, future, -, h, -⟩ := h
    exact ⟨h.clean.answers, h.epollIn, h.epollOut⟩

theorem fresh_waits (hvalid : ∀ w ∈ todo, w.Valid env) (hreq : c.req = .fresh) (hreceived : c.ghost.received = [])
    (hanswers : c.ghost.answers = []) (hin : c.epollIn = true) (hout : c.epollOut = false) : c.WaitsFor env todo := by
  cases todo with
  | nil => exact ⟨fresh_atLine hreq hreceived, hreceived, hanswers, hin, hout⟩
  | cons w todo =>
    obtain ⟨file, hfile⟩ := Option.ne_none_iff_exists'.mp (hvalid w List.mem_cons_self).found
    refine ⟨file, w.bytes, hfile, fresh_awaits w _ hreq hreceived hanswers hin hout, ?_⟩
    exact List.ne_nil_of_length_pos (bytes_pos w)

/-- `request_handle` on a batch that does not go on behind the end of the next request: it waits for more of it, or it
assembles the response. -/
theorem requestHandle_waits (hvalid : ∀ w ∈ todo, w.Valid env) (h : c.WaitsFor env todo) {recvs : List RecvResult}
    (hst : recvStatus recvs = .again) (hfit : c.ghost.received ++ recvBytes recvs <+: nextBytes todo) :
    ∃ res, requestHandle env recvs c = .ok res ∧
      ((res.2.WaitsFor env todo ∧ res.2.ghost.received = c.ghost.received ++ recvBytes recvs) ∨
        ∃ w todo', todo = w :: todo' ∧ c.ghost.received ++ recvBytes recvs = w.bytes ∧ res.2.Sends ∧
          (res.2.req.ob, res.2.req.resource) = w.reply env) := by
  rw [requestHandle_eq, if_pos hst]
  cases todo with
  | nil =>
    obtain ⟨hline, hreceived, hrest⟩ := h
    have hbs : recvBytes recvs = [] := (List.append_eq_nil_iff.mp (List.prefix_nil.mp hfit)).2
    rw [hbs, receive_nil, List.append_nil]
    have hib : c.req.ib = [] := hline.ib.trans hreceived
    have hagain : (parseRequestLine c.req.ib c.req.par).1 = .again := by
      rw [hib]
      simp [parseRequestLine, rlScan, rlFinish]
    obtain ⟨ar, hp⟩ : ∃ ar, parseRequestLine c.req.ib c.req.par = (.again, ar) := ⟨_, Prod.ext hagain rfl⟩
    have hcall : requestHandleRequestLine env c = .ok (.again, c.mapPar fun _ => ar) := by rw [requestHandleRequestLine, hp]
    refine ⟨(.again, c.mapPar fun _ => ar), ?_, .inl ⟨⟨hline.again hp, hreceived, hrest⟩, rfl⟩⟩
    rw [handlerLoop_some hline.handler, ReqHandler.call, hcall]
    exact nextRound_stop (by rintro ⟨⟨⟩, -⟩)
  | cons w todo' =>
    obtain ⟨file, future, hfile, hawaits, -⟩ := h
    have hw := hvalid w List.mem_cons_self
    obtain ⟨future', hfuture⟩ := hfit
    have hsplit : future = recvBytes recvs ++ future' := by
      have hbytes := hawaits.bytes
      rw [← show nextBytes (w :: todo') = w.bytes from rfl, ← hfuture, List.append_assoc] at hbytes
      exact List.append_cancel_left hbytes
    rw [hsplit] at hawaits
    obtain ⟨res, hloop, hawaited⟩ := handlerLoop_awaits hw hfile hawaits.receive
    refine ⟨res, hloop, ?_⟩
    rcases hawaited with ⟨-, hnext, hne⟩ | ⟨-, hreplied, rfl⟩
    · refine .inl ⟨⟨file, future', hfile, hnext, hne⟩, ?_⟩
      exact List.append_cancel_right (hnext.bytes.trans hfuture.symm)
    · refine .inr ⟨w, todo', rfl, ?_, ⟨?_, hreplied.keepAlive, hreplied.epollIn⟩, hreplied.reply hw hfile⟩
      · rw [List.append_nil] at hfuture
        exact hfuture
      · rw [hreplied.answers]
        exact List.cons_ne_nil _ _

theorem responseHandle_sends (hvalid : ∀ w ∈ todo, w.Valid env) (h : c.Sends) (sends files : List SendResult) :
    (responseHandle sends files c).2.Sends ∨
      ((responseHandle sends files c).2.WaitsFor env todo ∧ (responseHandle sends files c).2.ghost.received = []) := by
  have hloop := responseLoop_cases sends files c
  have hkeep : (responseLoop sends files c).2.req.par.keepAlive = true := by
    rw [hloop.par]
    exact h.keepAlive
  rcases responseHandle_cases sends files c with ⟨-, -, heq⟩ | ⟨-, hdrop, -⟩ | ⟨-, heq⟩
  · rw [heq]
    exact .inr ⟨fresh_waits hvalid rfl rfl rfl rfl rfl, rfl⟩
  · rw [hdrop] at hkeep
    cases hkeep
  · rw [heq]
    refine .inl ⟨?_, hkeep, hloop.epollIn.trans h.epollIn⟩
    rw [hloop.answers]
    exact h.answers

end Conn

/-! ### Runs -/

/-- The requests `done` have been answered, and `todo` are to come. -/
structure Exchange.Between (env : Env) (e : Exchange) (done todo : List WholeRequest) : Prop where
  out : e.out = done.map (WholeRequest.reply env)
  mode : (e.read = stream done ++ e.state.conn.ghost.received ∧ e.state.conn.WaitsFor env todo) ∨
    (e.read = stream done ∧ e.state.conn.Sends)

section Runs

variable {timeout : ℤ} {env : Env} {ws done todo : List WholeRequest} {e e' : Exchange}

theorem Exchange.Between.mask (h : e.Between env done todo) :
    ¬ (e.state.conn.epollIn = true ∧ e.state.conn.epollOut = true) := by
  rintro ⟨hin, hout⟩
  rcases h.mode with ⟨-, hwaits⟩ | ⟨-, hsends⟩
  · rw [hwaits.reading.2.2] at hout
    cases hout
  · rw [hsends.epollIn] at hin
    cases hin

theorem Exchange.Between.complete (h : e.Between env done todo) :
    e.out = (complete (done ++ todo) e.read.length).map (WholeRequest.reply env) := by
  have hread : Lotos.complete (done ++ todo) e.read.length = done := by
    rcases h.mode with ⟨hread, hwaits⟩ | ⟨hread, -⟩
    · rw [hread, List.length_append, complete_append]
      cases todo with
      | nil => rw [Lotos.complete, List.append_nil]
      | cons w todo =>
        obtain ⟨file, future, -, hawaits, hne⟩ := hwaits
        have hlen := congrArg List.length hawaits.bytes
        have hpos := List.length_pos_of_ne_nil hne
        rw [List.length_append] at hlen
        rw [complete_short (by omega), List.append_nil]
    · rw [hread, ← Nat.add_zero (stream done).length, complete_append, complete_zero, List.append_nil]
  rw [hread, h.out]

/-- A batch that arrives, and does not go on behind the end of a request, is part of the next request. -/
theorem batch_fits {bs : List Byte} (hwaits : e.state.conn.WaitsFor env todo)
    (hread : e.read = stream done ++ e.state.conn.ghost.received) (hpre : e.read ++ bs <+: stream (done ++ todo))
    (hapart : ∀ part, part <+: done ++ todo → e.read.length < (stream part).length →
      (e.read ++ bs).length ≤ (stream part).length) : e.state.conn.ghost.received ++ bs <+: nextBytes todo := by
  rw [hread, List.append_assoc, stream_append, List.prefix_append_right_inj] at hpre
  cases todo with
  | nil => exact hpre
  | cons w todo =>
    obtain ⟨file, future, -, hawaits, hne⟩ := hwaits
    have hlen := congrArg List.length hawaits.bytes
    have hpos := List.length_pos_of_ne_nil hne
    have hpart := hapart (done ++ [w]) ⟨todo, by simp⟩
    have hone : stream [w] = w.bytes := by simp [stream]
    rw [stream_append, hone, hread] at hpart
    simp only [List.length_append] at hlen hpart
    refine List.prefix_of_prefix_length_le hpre (List.prefix_append _ _) ?_
    change (e.state.conn.ghost.received ++ bs).length ≤ w.bytes.length
    rw [List.length_append]
    omega

theorem replies_same {c c' : Conn} (h : c'.ghost.answers = c.ghost.answers) : replies c c' = [] := by
  rw [replies, if_neg]
  rintro ⟨hnil, hne⟩
  exact hne (h.trans hnil)

theorem Exchange.Between.idle (h : e.Between env done todo) (hconn : e'.state.conn = e.state.conn) (hread : e'.read = e.read)
    (hout : e'.out = e.out ++ replies e.state.conn e'.state.conn) : e'.Between env done todo := by
  rw [hconn, replies_same rfl, List.append_nil] at hout
  refine ⟨hout.trans h.out, ?_⟩
  rw [hread, hconn]
  exact h.mode

theorem Exchange.Between.input (hvalid : ∀ w ∈ todo, w.Valid env) (h : e.Between env done todo)
    (hin : e.state.conn.epollIn = true) {recvs : List RecvResult} {res : Status × Conn}
    (hres : requestHandle env recvs e.state.conn = .ok res) (hst : recvStatus recvs = .again)
    (hpre : e.read ++ recvBytes recvs <+: stream (done ++ todo))
    (hapart : ∀ part, part <+: done ++ todo → e.read.length < (stream part).length →
      (e.read ++ recvBytes recvs).length ≤ (stream part).length)
    (hconn : e'.state.conn = res.2) (hread : e'.read = e.read ++ recvBytes recvs)
    (hout : e'.out = e.out ++ replies e.state.conn e'.state.conn) :
    ∃ done' todo', done' ++ todo' = done ++ todo ∧ e'.Between env done' todo' := by
  rw [hconn] at hout
  rcases h.mode with ⟨hread₀, hwaits⟩ | ⟨-, hsends⟩
  · have hfit := batch_fits hwaits hread₀ hpre hapart
    obtain ⟨res', hres', hnext⟩ := requestHandle_waits hvalid hwaits hst hfit
    obtain rfl : res' = res := Except.ok.inj (hres'.symm.trans hres)
    rcases hnext with ⟨hwaits', hreceived⟩ | ⟨w, todo', rfl, hbytes, hsends, hreply⟩
    · rw [replies_same (hwaits'.reading.1.trans hwaits.reading.1.symm), List.append_nil] at hout
      refine ⟨done, todo, rfl, hout.trans h.out, .inl ⟨?_, hconn ▸ hwaits'⟩⟩
      rw [hread, hread₀, hconn, hreceived, List.append_assoc]
    · refine ⟨done ++ [w], todo', by simp, ?_, .inr ⟨?_, hconn ▸ hsends⟩⟩
      · rw [hout, h.out, replies, if_pos ⟨hwaits.reading.1, hsends.answers⟩, hreply]
        simp
      · rw [hread, hread₀, List.append_assoc, hbytes, stream_append]
        simp [stream]
  · rw [hsends.epollIn] at hin
    cases hin

theorem Exchange.Between.output (hvalid : ∀ w ∈ todo, w.Valid env) (h : e.Between env done todo)
    (hepoll : e.state.conn.epollOut = true) {sends files : List SendResult}
    (hconn : e'.state.conn = (responseHandle sends files e.state.conn).2) (hread : e'.read = e.read)
    (hout : e'.out = e.out ++ replies e.state.conn e'.state.conn) : e'.Between env done todo := by
  rcases h.mode with ⟨-, hwaits⟩ | ⟨hread₀, hsends⟩
  · rw [hwaits.reading.2.2] at hepoll
    cases hepoll
  · have hnone : replies e.state.conn e'.state.conn = [] := if_neg fun hnil => hsends.answers hnil.1
    rw [hnone, List.append_nil] at hout
    refine ⟨hout.trans h.out, ?_⟩
    rcases responseHandle_sends hvalid hsends sends files with hsends' | ⟨hwaits, hreceived⟩
    · exact .inr ⟨hread.trans hread₀, hconn ▸ hsends'⟩
    · refine .inl ⟨?_, hconn ▸ hwaits⟩
      rw [hread, hread₀, hconn, hreceived, List.append_nil]

theorem step_between (hvalid : ∀ w ∈ done ++ todo, w.Valid env) (h : e.Between env done todo)
    (hstep : Exchange.Step timeout (fun e a => Arrives env (done ++ todo) e a ∧ Apart (done ++ todo) e a) e e') :
    ∃ done' todo', done' ++ todo' = done ++ todo ∧ e'.Between env done' todo' := by
  obtain ⟨a, hen, ⟨harrives, hapart⟩, happly, hread, hout⟩ := hstep
  have htodo : ∀ w ∈ todo, w.Valid env := fun w hw => hvalid w (List.mem_append_right _ hw)
  rcases apply_cases hen happly h.mask with ⟨hidle, closed, hs', -⟩ | ⟨now, env', recvs, res, rfl, hexp, hin, hres, hs'⟩ |
    ⟨now, sends, files, rfl, hexp, hepoll, hs'⟩
  · have hbatch : a.batch timeout e.state = [] := by
      cases a with
      | close now => rfl
      | event now input output =>
        rcases input with _ | ⟨env', recvs⟩
        · rfl
        · rcases hidle with hexp | ⟨hnone, -⟩
          · exact if_pos hexp
          · cases hnone
    rw [hbatch, List.append_nil] at hread
    exact ⟨done, todo, rfl, h.idle (by rw [hs']) hread hout⟩
  · obtain ⟨rfl, hst, hpre⟩ := harrives now env' recvs none rfl
    have hbatch : (Action.event now (some (env', recvs)) none).batch timeout e.state = recvBytes recvs := if_neg (by omega)
    rw [hbatch] at hread
    have hconn : e'.state.conn = res.2 := by rw [hs']; rfl
    exact h.input htodo hin hres hst hpre (hapart now env' recvs none rfl) hconn hread hout
  · have hbatch : (Action.event now none (some (sends, files))).batch timeout e.state = [] := rfl
    rw [hbatch, List.append_nil] at hread
    have hconn : e'.state.conn = (responseHandle sends files e.state.conn).2 := by rw [hs']; rfl
    exact ⟨done, todo, rfl, h.output htodo hepoll hconn hread hout⟩

theorem apply_between (hvalid : ∀ w ∈ done ++ todo, w.Valid env) (h : e.Between env done todo) {a : Action}
    (hen : a.Enabled timeout e.state) (harrives : Arrives env (done ++ todo) e a) (hapart : Apart (done ++ todo) e a) :
    ∃ s', e.state.apply timeout a = .ok s' := by
  have htodo : ∀ w ∈ todo, w.Valid env := fun w hw => hvalid w (List.mem_append_right _ hw)
  cases a with
  | close now => exact ⟨_, rfl⟩
  | event now input output =>
    obtain ⟨-, hin, hout⟩ := hen
    simp only [ConnState.apply]
    split_ifs with hexp
    · exact ⟨_, rfl⟩
    rcases input with _ | ⟨env', recvs⟩ <;> rcases output with _ | ⟨sends, files⟩
    · exact ⟨_, rfl⟩
    · exact ⟨_, rfl⟩
    · obtain ⟨rfl, hst, hpre⟩ := harrives now env' recvs none rfl
      rcases h.mode with ⟨hread₀, hwaits⟩ | ⟨-, hsends⟩
      · have hfit := batch_fits hwaits hread₀ hpre (hapart now env' recvs none rfl)
        obtain ⟨res, hres, -⟩ := requestHandle_waits htodo hwaits hst hfit
        have hinput : e.state.input now env' recvs = .ok (e.state.finish now res) := by rw [ConnState.input, hres]
        refine ⟨e.state.finish now res, ?_⟩
        simp only
        rw [hinput]
      · exact absurd (hin (Option.some_ne_none _)) (by rw [hsends.epollIn]; exact Bool.false_ne_true)
    · exact absurd ⟨hin (Option.some_ne_none _), hout (Option.some_ne_none _)⟩ h.mask

/-- The two conditions on a step. -/
def OneAtATime (env : Env) (ws : List WholeRequest) (e : Exchange) (a : Action) : Prop := Arrives env ws e a ∧ Apart ws e a

theorem run_between (hvalid : ∀ w ∈ ws, w.Valid env) {nextFd : ℕ} {now : ℤ}
    (hrun : Exchange.Run timeout (OneAtATime env ws) (.start nextFd now) e) :
    ∃ done todo, done ++ todo = ws ∧ e.Between env done todo := by
  induction hrun with
  | refl => exact ⟨[], ws, rfl, rfl, .inl ⟨rfl, fresh_waits hvalid rfl rfl rfl rfl rfl⟩⟩
  | tail _ hstep ih =>
    obtain ⟨done, todo, rfl, h⟩ := ih
    exact step_between hvalid h hstep

/-- **Requests on a persistent connection.**  Valid requests that are sent one after the other are answered each once, in
order and alike whatever the batches, in every run in which no batch goes on behind the end of a request: the responses
assembled are those to the requests that have been read wholly, and no step stops the process. -/
theorem run_replies {ws : List WholeRequest} (hvalid : ∀ w ∈ ws, w.Valid env) {nextFd : ℕ} {now : ℤ}
    (hrun : Exchange.Run timeout (OneAtATime env ws) (.start nextFd now) e) :
    e.out = (complete ws e.read.length).map (WholeRequest.reply env) ∧
      ∀ a : Action, a.Enabled timeout e.state → OneAtATime env ws e a → ∃ s', e.state.apply timeout a = .ok s' := by
  obtain ⟨done, todo, rfl, h⟩ := run_between hvalid hrun
  exact ⟨h.complete, fun a hen hcond => apply_between hvalid h hen hcond.1 hcond.2⟩

/-- A request without a body. -/
def getPage : WholeRequest := ⟨⟨.get, [], str "/", [SP], str "HTTP", str "1", str "1"⟩, [], [], []⟩

theorem getPage_valid : getPage.Valid (.page []) where
  grammar := by
    refine ⟨⟨by decide, nofun, ⟨[], by decide +kernel, nofun⟩, by decide +kernel,
      ⟨0x48, 0x54, 0x54, 0x50, by decide +kernel, by decide, by decide, by decide, by decide⟩,
      .inl ⟨0x31, by decide, by decide +kernel⟩, .inl ⟨0x31, by decide, by decide +kernel⟩⟩, nofun, nofun⟩
  acceptable := ⟨by decide +kernel, nofun, nofun, nofun, nofun⟩
  keepAlive := by decide +kernel
  delimited := .inl rfl
  found := nofun
  body := rfl

theorem twoPages_valid : ∀ w ∈ [getPage, getPage], w.Valid (.page []) := by
  intro w hw
  obtain rfl : w = getPage := by simpa using hw
  exact getPage_valid

end Runs

end Lotos
