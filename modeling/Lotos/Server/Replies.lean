import Lotos.Server.Batches
import Lotos.Server.Held
import Lotos.Server.Persistent

/-!
# Requests on a persistent connection, with the buffers in memory

The exchanges of `Server/Persistent`, on a connection with its blocks: the same events, the same bytes read, and a response
as the block at `r->ob` has it.  `held_replies` is what the connection does for its client: two things must not happen, that
a batch goes on behind the end of a request, and that an append moves a block under a handle that is still used.
-/

namespace Lotos

structure HeldExchange where
  exchange : Exchange
  bufs : Buffers

def HeldExchange.held (e : HeldExchange) : HeldState := ⟨e.exchange.state, e.bufs⟩

def HeldExchange.start (nextFd : ℕ) (now : ℤ) (bufs : Buffers) : HeldExchange := ⟨.start nextFd now, bufs⟩

/-- A step of the event loop on the connection. -/
def HeldExchange.Step (timeout : ℤ) (cond : HeldExchange → Allocs → Action → Prop) (e e' : HeldExchange) : Prop :=
  ∃ a al, a.Enabled timeout e.exchange.state ∧ e.held.Possible timeout al a ∧ cond e al a ∧
    e.held.apply timeout al a = .ok e'.held ∧ e'.exchange.read = e.exchange.read ++ a.batch timeout e.exchange.state ∧
    e'.exchange.out = e.exchange.out ++ replies e.exchange.state.conn e'.exchange.state.conn

abbrev HeldExchange.Run (timeout : ℤ) (cond : HeldExchange → Allocs → Action → Prop) : HeldExchange → HeldExchange → Prop :=
  Relation.ReflTransGen (HeldExchange.Step timeout cond)

/-- A condition on the action, and no block is moved under a handle that is still used. -/
def InPlace (timeout : ℤ) (cond : Exchange → Action → Prop) (e : HeldExchange) (al : Allocs) (a : Action) : Prop :=
  cond e.exchange a ∧ e.held.Keeps timeout al a

section Replies

variable {timeout : ℤ} {cond : Exchange → Action → Prop} {e e' : HeldExchange} {env : Env} {ws : List WholeRequest}

/-- **The projection of exchanges.** -/
theorem heldExchange_project {nextFd : ℕ} {now : ℤ} {bufs : Buffers} (hbufs : bufs.New)
    (hrun : HeldExchange.Run timeout (InPlace timeout cond) (.start nextFd now bufs) e) :
    Exchange.Run timeout cond (.start nextFd now) e.exchange ∧ e.held.Good := by
  induction hrun with
  | refl => exact ⟨.refl, accept_good nextFd now hbufs⟩
  | tail _ hstep ih =>
    obtain ⟨hrun, hgood⟩ := ih
    obtain ⟨a, al, hen, hposs, ⟨hcond, hkeeps⟩, happly, hread, hout⟩ := hstep
    obtain ⟨happly', hgood'⟩ := hgood.project hen hposs hkeeps happly
    exact ⟨hrun.tail ⟨a, hen, hcond, happly', hread, hout⟩, hgood'⟩

/-- **Requests on a persistent connection.**  Valid requests that are sent one after the other are answered each once, in
order and alike whatever the batches, in every run in which no batch goes on behind the end of a request, and no append moves
a block under a handle that is still used: the responses assembled are those to the requests that have been read wholly, and
no step stops the process. -/
theorem held_replies (hvalid : ∀ w ∈ ws, w.Valid env) {nextFd : ℕ} {now : ℤ} {bufs : Buffers} (hbufs : bufs.New)
    (hrun : HeldExchange.Run timeout (InPlace timeout (OneAtATime env ws)) (.start nextFd now bufs) e) :
    e.exchange.out = (complete ws e.exchange.read.length).map (WholeRequest.reply env) ∧
      ∀ a al, a.Enabled timeout e.exchange.state → e.held.Possible timeout al a →
        InPlace timeout (OneAtATime env ws) e al a →
        ∃ s', e.held.apply timeout al a = .ok s' := by
  obtain ⟨hrun', hgood⟩ := heldExchange_project hbufs hrun
  obtain ⟨hout, hsteps⟩ := run_replies hvalid hrun'
  refine ⟨hout, ?_⟩
  rintro a al hen hposs ⟨hcond, hkeeps⟩
  obtain ⟨st, happly⟩ := hsteps a hen hcond
  obtain ⟨bufs', happly', -⟩ := hgood.lift hen hposs hkeeps happly
  exact ⟨_, happly'⟩

/-- The first of two requests. -/
theorem held_replies_first : ∃ e,
    HeldExchange.Run 5 (InPlace 5 (OneAtATime (.page []) [getPage, getPage])) (.start 4 0 .first) e ∧
    e.exchange.read = getPage.bytes ∧ e.exchange.out = [getPage.reply (.page [])] := by
  let recv : Action := .recv 1 (.page []) getPage.bytes
  obtain ⟨s, happly, -⟩ := observe_ok (x := (ConnState.accept 4 0).apply 5 recv) (fun _ => ()) (b := ()) (by decide +kernel)
  have hbytes : recvBytes [.data getPage.bytes] = getPage.bytes := by decide +kernel
  have hread : getPage.bytes = [] ++ recv.batch 5 (.accept 4 0) := by decide +kernel
  have hone : OneAtATime (.page []) [getPage, getPage] (.start 4 0) recv := by
    refine ⟨?_, ?_⟩ <;> intro now env' recvs output ha <;>
      cases (show Action.recv 1 (.page []) getPage.bytes = .event now (some (env', recvs)) output from ha)
    · exact ⟨rfl, by decide +kernel, by decide +kernel⟩
    · intro part hpart hlt
      cases part with
      | nil => exact absurd hlt (lt_irrefl 0)
      | cons w part =>
        obtain ⟨rfl, -⟩ := List.cons_prefix_cons.mp hpart
        rw [hbytes]
        simp [stream, Exchange.start]
  have hgood := accept_good 4 0 first_new
  have hen : recv.Enabled 5 (ConnState.accept 4 0) := by decide
  obtain ⟨hposs, hkeeps⟩ := hgood.fits 5 1 (.page []) [.data getPage.bytes] none rfl first_new.room (by decide +kernel)
    (by decide +kernel) (by decide +kernel)
  obtain ⟨bufs, happly', -⟩ := hgood.lift hen hposs hkeeps happly
  have hrun : HeldExchange.Run 5 (InPlace 5 (OneAtATime (.page []) [getPage, getPage])) (.start 4 0 .first)
      ⟨⟨s, getPage.bytes, replies (ConnState.accept 4 0).conn s.conn⟩, bufs⟩ :=
    .single ⟨recv, ⟨[], []⟩, hen, hposs, ⟨hone, hkeeps⟩, happly', hread, rfl⟩
  refine ⟨_, hrun, rfl, ?_⟩
  rw [(held_replies twoPages_valid first_new hrun).1]
  have hwhole := complete_append [getPage] [getPage] 0
  rw [complete_zero, show stream [getPage] = getPage.bytes from List.append_nil _] at hwhole
  exact congrArg (List.map _) hwhole

/-- Two requests in one batch: when the response to the first has been sent the connection waits for more, and the second
request is gone. -/
theorem not_forall_held_replies :
    ¬ ∀ (timeout : ℤ) (env : Env) (ws : List WholeRequest) (nextFd : ℕ) (now : ℤ) (bufs : Buffers) (e : HeldExchange),
      (∀ w ∈ ws, w.Valid env) → bufs.New →
      HeldExchange.Run timeout (InPlace timeout (Arrives env ws)) (.start nextFd now bufs) e →
      e.exchange.state.conn.epollIn = true →
      e.exchange.out = (complete ws e.exchange.read.length).map (WholeRequest.reply env) := by
  intro hall
  let recv : Action := .recv 1 (.page []) (stream [getPage, getPage])
  let send : Action := .send 2 [.sent 1000, .sent 1000] [.sent 1000]
  obtain ⟨s₁, happly₁, hs₁⟩ := observe_ok (x := (ConnState.accept 4 0).apply 5 recv)
    (fun s => (s.closed, s.conn.epollOut, s.conn.ghost.answers, (s.apply 5 send).toOption.map fun s' => s'.conn.epollIn))
    (b := (false, true, [200], some true)) (by decide +kernel)
  obtain ⟨hclosed, hs₁⟩ := Prod.mk.inj hs₁
  obtain ⟨hout, hs₁⟩ := Prod.mk.inj hs₁
  obtain ⟨hanswers, hs₁⟩ := Prod.mk.inj hs₁
  obtain ⟨s₂, happly₂, hin⟩ := observe_ok _ hs₁
  have hread : stream [getPage, getPage] = [] ++ recv.batch 5 (.accept 4 0) := by decide +kernel
  have hgood := accept_good 4 0 first_new
  have hen₁ : recv.Enabled 5 (ConnState.accept 4 0) := by decide
  have hen₂ : send.Enabled 5 s₁ := ⟨hclosed, fun h => absurd rfl h, fun _ => hout⟩
  obtain ⟨hposs, hkeeps⟩ := hgood.fits 5 1 (.page []) [.data (stream [getPage, getPage])] none rfl first_new.room
    (by decide +kernel) (by decide +kernel) (by decide +kernel)
  obtain ⟨bufs₁, happly₁, hgood₁⟩ := hgood.lift hen₁ hposs hkeeps happly₁
  obtain ⟨bufs₂, happly₂, -⟩ := hgood₁.lift hen₂
    (show HeldState.Possible 5 ⟨s₁, bufs₁⟩ ⟨[], []⟩ send from trivial) trivial happly₂
  let e₁ : HeldExchange := ⟨⟨s₁, stream [getPage, getPage], replies (ConnState.accept 4 0).conn s₁.conn⟩, bufs₁⟩
  have hrun₁ : HeldExchange.Run 5 (InPlace 5 (Arrives (.page []) [getPage, getPage])) (.start 4 0 .first) e₁ := by
    refine .single ⟨recv, ⟨[], []⟩, hen₁, hposs, ⟨?_, hkeeps⟩, happly₁, hread, rfl⟩
    intro now env' recvs output ha
    cases (show Action.recv 1 (.page []) (stream [getPage, getPage]) = _ from ha)
    exact ⟨rfl, by decide +kernel, by decide +kernel⟩
  have hnone : replies s₁.conn s₂.conn = [] := by
    rw [replies, hanswers, if_neg (by simp)]
  have hstep : HeldExchange.Step 5 (InPlace 5 (Arrives (.page []) [getPage, getPage])) e₁
      ⟨⟨s₂, e₁.exchange.read, e₁.exchange.out⟩, bufs₂⟩ := by
    refine ⟨send, ⟨[], []⟩, hen₂, trivial, ⟨?_, trivial⟩, happly₂, (List.append_nil _).symm, ?_⟩
    · intro now env' recvs output ha
      cases (show Action.send 2 [.sent 1000, .sent 1000] [.sent 1000] = _ from ha)
    · rw [hnone, List.append_nil]
  have heq := hall 5 (.page []) [getPage, getPage] 4 0 .first _ twoPages_valid first_new (hrun₁.tail hstep) hin
  have htwo := complete_append [getPage, getPage] [] 0
  have hlen := congrArg List.length heq
  rw [List.length_map, show complete [getPage, getPage] e₁.exchange.read.length = [getPage, getPage] from htwo] at hlen
  have hle : (replies (ConnState.accept 4 0).conn s₁.conn).length ≤ 1 := by
    unfold replies
    split_ifs <;> simp
  have hlen : (replies (ConnState.accept 4 0).conn s₁.conn).length = 2 := hlen
  omega

end Replies

/-! ### Batches -/

/-- The events of `EPOLLIN` that deliver the batches, until the bit leaves the mask. -/
def HeldConn.readAll (env : Env) (x : HeldConn) : List (List RecvResult × Allocs) → Except HeldFault HeldConn
  | [] => .ok x
  | (recvs, al) :: rest =>
    match x.requestHandle env recvs al with
    | .ok (_, y) => if y.conn.epollIn then y.readAll env rest else .ok y
    | .error e => .error e

/-- A condition on the calls on the buffers in these events. -/
def HeldConn.AllBatches (cond : Buffers → BufferCall → Prop) (env : Env) (x : HeldConn) :
    List (List RecvResult × Allocs) → Prop
  | [] => True
  | (recvs, al) :: rest => x.AllIn cond env recvs al ∧
      ∀ st y, x.requestHandle env recvs al = .ok (st, y) → y.conn.epollIn = true → y.AllBatches cond env rest

/-- The bytes of the batches, and the responses, fit in so much room. -/
def Conn.batchesFit (env : Env) (c : Conn) (n m : ℕ) : List (List RecvResult) → Bool
  | [] => true
  | recvs :: rest =>
    let out := (appendedBy (loopHelpers env (c.receive (recvBytes recvs)))).length
    decide ((recvBytes recvs).length ≤ n ∧ recvStatus recvs = .again ∧ out < m) &&
      match requestHandle env recvs c with
      | .ok (_, c') => !c'.epollIn || c'.batchesFit env (n - (recvBytes recvs).length) (m - out) rest
      | .error _ => true

/-- A connection on lists, and in memory. -/
structure SameConn (c : Conn) (x : HeldConn) : Prop where
  conn : x.conn = c
  good : x.Good

section Batches

variable {x y : HeldConn} {env : Env} {batches batches' : List (List RecvResult × Allocs)}

theorem readAll_carried (h : x.Good) (hposs : x.AllBatches (fun s call => call.Possible s) env batches)
    (hkeeps : x.AllBatches (fun s call => call.Keeps s) env batches) :
    Carried SameConn (x.conn.readAll env (batches.map Prod.fst)) (x.readAll env batches) := by
  induction batches generalizing x with
  | nil => exact .ok ⟨rfl, h⟩
  | cons batch rest ih =>
    obtain ⟨recvs, al⟩ := batch
    have hcarried := requestHandle_carried h hposs.1 hkeeps.1
    rw [List.map_cons, Conn.readAll, HeldConn.readAll]
    cases hres : requestHandle env recvs x.conn with
    | error e =>
      rw [hres] at hcarried
      rw [hcarried.of_error]
      exact .error e
    | ok res =>
      rw [hres] at hcarried
      obtain ⟨⟨st, y⟩, hok, -, hconn, hy⟩ := hcarried.of_ok
      replace hconn : y.conn = res.2 := hconn
      simp only [hok, ← hconn]
      split_ifs with hin
      · exact ih hy (hposs.2 st y hok hin) (hkeeps.2 st y hok hin)
      · exact .ok ⟨rfl, hy⟩

theorem batchesFit_keeps (h : x.Good) (hposs : x.AllBatches (fun s call => call.Possible s) env batches) {n m : ℕ}
    (hroom : x.bufs.Room n m) (hfit : x.conn.batchesFit env n m (batches.map Prod.fst) = true) :
    x.AllBatches (fun s call => call.Keeps s) env batches := by
  induction batches generalizing x n m with
  | nil => trivial
  | cons batch rest ih =>
    obtain ⟨recvs, al⟩ := batch
    rw [List.map_cons, Conn.batchesFit, Bool.and_eq_true_iff] at hfit
    obtain ⟨hfirst, hrest⟩ := hfit
    obtain ⟨hlen, hst, hout⟩ := of_decide_eq_true hfirst
    have hkeeps := h.keeps hposs.1 hroom hlen fun _ => hout
    refine ⟨hkeeps, fun st y hok hin => ?_⟩
    have hcarried := requestHandle_carried h hposs.1 hkeeps
    rw [hok] at hcarried
    obtain ⟨⟨st', c'⟩, hres, rfl, rfl, hy⟩ := hcarried.ok_right
    simp only [hres] at hrest
    rw [show y.conn.epollIn = true from hin, Bool.not_true, Bool.false_or] at hrest
    exact ih hy (hposs.2 _ _ hok hin) (h.room hposs.1 hroom hlen hst hout hok) hrest

/-- The events are steps of a run. -/
theorem held_readAll_run {timeout : ℤ} (ht : 0 ≤ timeout) {s : HeldState} (hclosed : s.state.closed = false)
    (hin : s.state.conn.epollIn = true) (hposs : s.held.AllBatches (fun s call => call.Possible s) env batches)
    (hkeeps : s.held.AllBatches (fun s call => call.Keeps s) env batches) (h : s.held.readAll env batches = .ok y) :
    ∃ s', HeldState.Run timeout (fun s al a => s.Keeps timeout al a) s s' ∧ s'.held = y := by
  induction batches generalizing s with
  | nil => exact ⟨s, .refl, Except.ok.inj h⟩
  | cons batch rest ih =>
    obtain ⟨recvs, al⟩ := batch
    rw [HeldConn.readAll] at h
    cases hhandle : s.held.requestHandle env recvs al with
    | error e =>
      rw [hhandle] at h
      cases h
    | ok res =>
      rw [hhandle] at h
      -- the event comes as soon as it can
      have hstep : HeldState.Step timeout (fun s al a => s.Keeps timeout al a) s (s.finish s.state.activeTime res) := by
        refine ⟨.event s.state.activeTime (some (env, recvs)) none, al, ⟨hclosed, fun _ => hin, by simp⟩,
          fun _ => hposs.1, fun _ => hkeeps.1, ?_⟩
        simp [HeldState.apply, HeldState.input, hhandle, not_lt.mpr ht]
      simp only at h
      split_ifs at h with hlive
      · obtain ⟨s', hrun, hs'⟩ := ih (s := s.finish s.state.activeTime res) hclosed hlive
          (hposs.2 _ _ hhandle hlive) (hkeeps.2 _ _ hhandle hlive) h
        exact ⟨s', .head hstep hrun, hs'⟩
      · exact ⟨_, .single hstep, Except.ok.inj h⟩

/-- **Batches make no difference.**  Whenever a request begins in a run, the same bytes in any two divisions into batches, of
which no append moves a block under a handle that is still used, are answered by the same status code first and with the same
file, or are not answered and leave the connection in the same state, or are the same fault; and the output of a response
with status code 200 is the same. -/
theorem held_batches {timeout : ℤ} {nextFd : ℕ} {now : ℤ} {bufs : Buffers} (hbufs : bufs.New) {s : HeldState}
    (hrun : HeldState.Run timeout (fun s al a => s.Keeps timeout al a) (.accept nextFd now bufs) s)
    (hopen : s.state.closed = false) (hfresh : s.state.conn.req = .fresh) (hin : s.state.conn.epollIn = true) (env : Env)
    (hagain : ∀ batch ∈ batches ++ batches', recvStatus batch.1 = .again)
    (hsame : (batches.map Prod.fst).flatMap recvBytes = (batches'.map Prod.fst).flatMap recvBytes)
    (hsolid : SolidLengths ((batches.map Prod.fst).flatMap recvBytes))
    (hposs : s.held.AllBatches (fun s call => call.Possible s) env batches ∧
      s.held.AllBatches (fun s call => call.Possible s) env batches')
    (hkeeps : s.held.AllBatches (fun s call => call.Keeps s) env batches ∧
      s.held.AllBatches (fun s call => call.Keeps s) env batches') :
    SameFirst ((s.held.readAll env batches).map HeldConn.conn) ((s.held.readAll env batches').map HeldConn.conn) := by
  obtain ⟨hrun', hgood⟩ := HeldState.Run.project hbufs hrun
  have hfirst := run_batches hrun' hfresh hin env (by
    intro recvs hmem
    rw [← List.map_append] at hmem
    obtain ⟨batch, hbatch, rfl⟩ := List.mem_map.mp hmem
    exact hagain batch hbatch) hsame hsolid
  have hx := readAll_carried (hgood hopen) hposs.1 hkeeps.1
  have hy := readAll_carried (hgood hopen) hposs.2 hkeeps.2
  change Carried SameConn (s.state.conn.readAll env _) _ at hx
  change Carried SameConn (s.state.conn.readAll env _) _ at hy
  generalize s.state.conn.readAll env (batches.map Prod.fst) = a at hfirst hx
  generalize s.state.conn.readAll env (batches'.map Prod.fst) = a' at hfirst hy
  cases hfirst with
  | fault e =>
    rw [hx.of_error, hy.of_error]
    exact .fault _
  | waits c hnone =>
    obtain ⟨x, hxok, rfl, -⟩ := hx.of_ok
    obtain ⟨y, hyok, hconn, -⟩ := hy.of_ok
    rw [hxok, hyok]
    simp only [Except.map, hconn]
    exact .waits _ hnone
  | answers c c' code h h' hob hsuccess hresource =>
    obtain ⟨x, hxok, rfl, -⟩ := hx.of_ok
    obtain ⟨y, hyok, rfl, -⟩ := hy.of_ok
    rw [hxok, hyok]
    exact .answers _ _ code h h' hob hsuccess hresource

theorem batches_possible (batches : List (List RecvResult)) (h : ∀ recvs ∈ batches, (recvBytes recvs).length ≤ bufsiz) :
    x.AllBatches (fun s call => call.Possible s) env (batches.map fun recvs => (recvs, ⟨[], []⟩)) := by
  induction batches generalizing x with
  | nil => trivial
  | cons recvs rest ih =>
    rw [List.forall_mem_cons] at h
    exact ⟨possible_null h.1, fun _ _ _ _ => ih h.2⟩

/-- A request in three batches, of which one is read with two calls of `recv`, and in one batch. -/
theorem held_batches_post : let x := (HeldState.accept 4 0 .first).held
    let batches : List (List RecvResult) := [[.data (str "POST / HTTP/1.1\r\nCont")],
      [.data (str "ent-Length: "), .data (str "2\r\n\r")], [.data (str "\nab"), .again]]
    let once : List (List RecvResult) := [[.data (batches.flatMap recvBytes)]]
    SameFirst ((x.readAll (.page []) (batches.map fun recvs => (recvs, ⟨[], []⟩))).map HeldConn.conn)
      ((x.readAll (.page []) (once.map fun recvs => (recvs, ⟨[], []⟩))).map HeldConn.conn) ∧
      ((x.conn.readAll (.page []) batches).toOption.map fun c => c.ghost.answers) = some [200] := by
  intro x batches once
  refine ⟨?_, by decide +kernel⟩
  have hposs : ∀ l ∈ [batches, once], x.AllBatches (fun s call => call.Possible s) (.page [])
      (l.map fun recvs => (recvs, ⟨[], []⟩)) := by
    intro l hl
    exact batches_possible l (by revert hl; revert l; decide +kernel)
  have hfit : ∀ l ∈ [batches, once], x.conn.batchesFit (.page []) bufsiz bufsiz l = true := by decide +kernel
  have hkeeps : ∀ l ∈ [batches, once], x.AllBatches (fun s call => call.Keeps s) (.page [])
      (l.map fun recvs => (recvs, ⟨[], []⟩)) := by
    intro l hl
    refine batchesFit_keeps (first_new.good rfl rfl) (hposs l hl) first_new.room ?_
    rw [List.map_map]
    exact (congrArg _ (List.map_id l)).trans (hfit l hl)
  have hfst : ∀ l ∈ [batches, once], (l.map fun recvs => (recvs, (⟨[], []⟩ : Allocs))).map Prod.fst = l := by
    intro l _
    rw [List.map_map]
    exact List.map_id l
  have hmem : batches ∈ [batches, once] := List.mem_cons_self
  have hmem' : once ∈ [batches, once] := List.mem_cons_of_mem _ List.mem_cons_self
  have hrun : HeldState.Run 5 (fun s al a => s.Keeps 5 al a) (.accept 4 0 .first) (.accept 4 0 .first) := .refl
  refine held_batches first_new hrun rfl rfl rfl (.page []) ?_ ?_ ?_ ⟨hposs _ hmem, hposs _ hmem'⟩
    ⟨hkeeps _ hmem, hkeeps _ hmem'⟩
  · decide +kernel
  · rw [hfst _ hmem, hfst _ hmem']
    decide +kernel
  · rw [hfst _ hmem]
    exact solidLengths_of_plain (by decide +kernel)

end Batches

end Lotos
