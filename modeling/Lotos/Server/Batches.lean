import Lotos.Lib.Batching
import Lotos.Request.Cut
import Lotos.Server.Success

/-!
# Requests in batches

`request_recv` takes what the kernel has of a request, and the handlers go as far as they can.  `Conn.readAll` is one event
of `EPOLLIN` after the other, each with a batch of bytes, until the bit leaves the mask.

How a client's bytes fall into batches makes no difference to whether it is answered, to the status code, and to the file
(`run_batches`).  What else there is in `ob` may differ: after an error the handlers go on with the lines that are in the
buffer, so that a larger batch can be answered by more than one error.  So the output of one way is a beginning of the output
of another.
-/

namespace Lotos

/-! ### What has been answered is kept -/

/-- What has been answered, and what has come after. -/
structure Conn.Begins (c c' : Conn) : Prop where
  answered : c.ghost.answers ≠ []
  answers : c.ghost.answers <+: c'.ghost.answers
  ob : c.req.ob <+: c'.req.ob
  resource : c'.req.resource = c.req.resource
  /-- without another answer nothing is assembled -/
  whole : c'.ghost.answers = c.ghost.answers → c'.req.ob = c.req.ob

theorem Conn.Begins.refl {c : Conn} (h : c.ghost.answers ≠ []) : c.Begins c :=
  ⟨h, List.prefix_rfl, List.prefix_rfl, rfl, fun _ => rfl⟩

theorem begins_receive {c : Conn} (h : c.ghost.answers ≠ []) (more : List Byte) : c.Begins (c.receive more) :=
  ⟨h, List.prefix_rfl, List.prefix_rfl, rfl, fun _ => rfl⟩

theorem Conn.Begins.trans {c₁ c₂ c₃ : Conn} (h₁ : c₁.Begins c₂) (h₂ : c₂.Begins c₃) : c₁.Begins c₃ where
  answered := h₁.answered
  answers := h₁.answers.trans h₂.answers
  ob := h₁.ob.trans h₂.ob
  resource := h₂.resource.trans h₁.resource
  whole heq := by
    have hmid : c₂.ghost.answers = c₁.ghost.answers := by
      refine (h₁.answers.eq_of_length_le ?_).symm
      rw [← heq]
      exact h₂.answers.length_le
    exact (h₂.whole (heq.trans hmid.symm)).trans (h₁.whole hmid)

theorem Conn.SameReply.begins {c c' : Conn} (h : c.SameReply c') : c.Begins c' where
  answered := h.answered
  answers := by rw [h.answers]
  ob := by rw [h.ob]
  resource := h.resource
  whole _ := h.ob

section Begins

variable {c₀ c c' : Conn}

theorem Conn.Begins.concat (h : c₀.Begins c) {code : ℕ} (hans : c'.ghost.answers = c.ghost.answers ++ [code])
    (hob : c.req.ob <+: c'.req.ob) (hresource : c'.req.resource = c.req.resource) : c₀.Begins c' where
  answered := h.answered
  answers := by
    rw [hans]
    exact h.answers.trans (List.prefix_append _ _)
  ob := h.ob.trans hob
  resource := hresource.trans h.resource
  whole heq := by
    have hlen := h.answers.length_le
    rw [← heq, hans, List.length_append, List.length_singleton] at hlen
    omega

theorem Conn.Begins.assembleErr (h : c₀.Begins c) (env : Env) (code : ℕ) :
    c₀.Begins (responseAssembleErrBuffer env c code).2 := by
  rw [assembleErr_eq]
  refine h.concat rfl ?_ rfl
  rw [assembleErr_ob]
  exact List.prefix_append _ _

theorem Conn.Begins.quiet (h : c₀.Begins c) (hq : c.Quiet c') : c₀.Begins c' where
  answered := h.answered
  answers := by rw [hq.ghost]; exact h.answers
  ob := by rw [hq.req]; exact h.ob
  resource := by rw [hq.req]; exact h.resource
  whole := by rw [hq.ghost, hq.req]; exact h.whole

theorem begins_scanInv (env : Env) (c₀ : Conn) :
    ScanInv env fun _ c => c.req.reqHandler ≠ some .requestLine ∧ c₀.Begins c where
  parse _ _ _ h howned := ⟨h.1, h.2.quiet (quiet_parse howned)⟩
  error _ code _ h := ⟨by simp, h.2.assembleErr env code⟩
  path _ _ _ hhd h := absurd hhd h.1
  resource _ _ _ hhd h := absurd hhd h.1
  record k _ c _ h := ⟨h.1, h.2.quiet (quiet_record c k)⟩
  refuse k _ c code _ h := ⟨by simp, (h.2.quiet (quiet_record c k)).assembleErr env code⟩
  body _ _ h := ⟨by simp [Conn.setHandler, Conn.mapReq], h.2.answered, h.2.answers, h.2.ob, h.2.resource, h.2.whole⟩
  wait _ h := h
  answer c h := by
    refine ⟨by rintro ⟨⟩, h.2.concat rfl ?_ rfl⟩
    change c.req.ob <+: (Request.responseAssembleBuffer env _).ob
    rw [responseAssembleBuffer_ob]
    exact List.prefix_append _ _
  coding _ h := ⟨by simp, h.2.assembleErr env 501⟩

end Begins

/-! ### The handlers -/

/-- What the handlers make of what is in the buffer. -/
def Conn.handled (env : Env) (c : Conn) : Except Fault Conn := (handlerLoop env c).map Prod.snd

/-- What has come of a beginning of the bytes, and what comes of more of them. -/
def AsFar (x y : Except Fault Conn) : Prop := x = y ∨ ∃ c c', x = .ok c ∧ y = .ok c' ∧ c.Begins c'

theorem AsFar.trans {x y z : Except Fault Conn} (h₁ : AsFar x y) (h₂ : AsFar y z) : AsFar x z := by
  rcases h₁ with rfl | ⟨c₁, c₂, rfl, rfl, h₁⟩
  · exact h₂
  · rcases h₂ with rfl | ⟨c₂', c₃, heq, rfl, h₂⟩
    · exact .inr ⟨c₁, c₂, rfl, rfl, h₁⟩
    · obtain rfl := Except.ok.inj heq
      exact .inr ⟨c₁, c₃, rfl, rfl, h₁.trans h₂⟩

section Handled

variable {env : Env} {c c₀ : Conn} {hd : ReqHandler} {res : Status × Conn}

theorem handled_error {e : Fault} (hhd : c.req.reqHandler = some hd) (hcall : hd.call env c = .error e) :
    c.handled env = .error e := by
  rw [Conn.handled, handlerLoop_some hhd, hcall]
  rfl

theorem handled_go (hhd : c.req.reqHandler = some hd) (hcall : hd.call env c = .ok res)
    (hgo : res.1 = .ok ∧ res.2.req.reqHandler ≠ none) : c.handled env = res.2.handled env := by
  rw [Conn.handled, handlerLoop_some hhd, hcall]
  exact congrArg (Except.map Prod.snd) (nextRound_go hgo)

theorem handled_stop (hhd : c.req.reqHandler = some hd) (hcall : hd.call env c = .ok res)
    (hstop : ¬ (res.1 = .ok ∧ res.2.req.reqHandler ≠ none)) : c.handled env = .ok res.2 := by
  rw [Conn.handled, handlerLoop_some hhd, hcall]
  exact congrArg (Except.map Prod.snd) (nextRound_stop hstop)

theorem call_begins (env : Env) (h : c₀.Begins c) (hline : c.req.reqHandler ≠ some .requestLine)
    (hlater : hd ≠ .requestLine) :
    ∃ res, hd.call env c = .ok res ∧ res.2.req.reqHandler ≠ some .requestLine ∧ c₀.Begins res.2 := by
  cases hd with
  | requestLine => exact absurd rfl hlater
  | headers =>
    refine ⟨_, rfl, ?_⟩
    rcases headers_scan (begins_scanInv env c₀) ⟨hline, h⟩ with ⟨-, -, hkept⟩ | ⟨-, hkept⟩ <;> exact hkept
  | body => exact ⟨_, rfl, (body_scan (begins_scanInv env c₀) ⟨hline, h⟩).2⟩

theorem handled_begins (env : Env) (h : c₀.Begins c) (hline : c.req.reqHandler ≠ some .requestLine)
    (hne : c.req.reqHandler ≠ none) : ∃ c', c.handled env = .ok c' ∧ c₀.Begins c' := by
  induction hn : handlerRank c.req.reqHandler using Nat.strong_induction_on generalizing c with
  | _ n ih =>
    obtain ⟨hd, hhd⟩ := Option.ne_none_iff_exists'.mp hne
    have hlater : hd ≠ .requestLine := fun heq => hline (heq ▸ hhd)
    obtain ⟨⟨st, c₁⟩, hcall, hkept⟩ := call_begins env h hline hlater
    by_cases hgo : st = .ok ∧ c₁.req.reqHandler ≠ none
    · rw [handled_go hhd hcall hgo]
      obtain ⟨rfl, hne⟩ := hgo
      have hrank := call_rank hcall
      rw [← hhd, hn] at hrank
      exact ih _ hrank hkept.2 hkept.1 hne rfl
    · exact ⟨c₁, handled_stop hhd hcall hgo, hkept.2⟩

theorem handled_begins_call (hhd : c.req.reqHandler = some hd) (hcall : hd.call env c = .ok res)
    (hline : res.2.req.reqHandler ≠ some .requestLine) (h : c₀.Begins res.2) :
    ∃ c', c.handled env = .ok c' ∧ c₀.Begins c' := by
  by_cases hgo : res.1 = .ok ∧ res.2.req.reqHandler ≠ none
  · rw [handled_go hhd hcall hgo]
    exact handled_begins env h hline hgo.2
  · exact ⟨res.2, handled_stop hhd hcall hgo, h⟩

theorem Alike.asFar {c c' : Conn} (hhd : c.req.reqHandler = some hd) (hhd' : c'.req.reqHandler = some hd)
    (h : Alike (hd.call env c) (hd.call env c')) : AsFar (c.handled env) (c'.handled env) := by
  rcases h with heq | ⟨d, d', hd₁, hd₂, hsame⟩
  · refine .inl ?_
    rw [Conn.handled, Conn.handled, handlerLoop_some hhd, handlerLoop_some hhd', heq]
  · rw [handled_stop hhd hd₁ (by simp [hsame.handler]), handled_stop hhd' hd₂ (by simp [hsame.handler'])]
    exact .inr ⟨d, d', rfl, rfl, hsame.begins⟩

end Handled

/-! ### The handlers, and more bytes -/

/-- What more bytes make of what the handlers do: it is the same fault, or they go on, or what has been answered is kept. -/
inductive Conn.HandledMore (env : Env) (more : List Byte) (c : Conn) : Prop where
  | fault (e : Fault) (h : c.handled env = .error e) (h' : (c.receive more).handled env = .error e)
  | waits (c' : Conn) (h : c.handled env = .ok c') (reading : c'.Reading) (cut : c'.Cut)
    (received : c'.ghost.received = c.ghost.received)
    (h' : AsFar ((c'.receive more).handled env) ((c.receive more).handled env))
  | answers (c' : Conn) (h : c.handled env = .ok c') (answered : c'.Answered)
    (h' : AsFar (.ok c') ((c.receive more).handled env))

section More

variable {env : Env} {c c' : Conn} {hd : ReqHandler} {more : List Byte}

theorem again_later (hc : c.Cut) (hhd : c.req.reqHandler = some hd) (hcall : hd.call env c = .ok (.again, c'))
    (hanswered : c'.ghost.answers ≠ []) : hd ≠ .requestLine := by
  rintro rfl
  rcases requestHandleRequestLine_cases hcall with ⟨ar, -, hres⟩ | ⟨ar, code, -, -, hres, -⟩ |
    ⟨ar, b, p, -, -, -, -, -, ⟨-, hres⟩ | ⟨file, -, hres⟩⟩ <;> obtain ⟨hst, rfl⟩ := Prod.ext_iff.mp hres
  · exact hanswered (hc.line hhd)
  all_goals cases hst

/-- An error has been answered, and the handler waits for more. -/
theorem answered_again (hc : c.Cut) (hhd : c.req.reqHandler = some hd) (hcall : hd.call env c = .ok (.again, c'))
    (hmore : Alike (hd.call env (c'.receive more)) (hd.call env (c.receive more))) (hanswered : c'.ghost.answers ≠ []) :
    AsFar (.ok c') ((c.receive more).handled env) := by
  have hlater := again_later hc hhd hcall hanswered
  have hline : c'.req.reqHandler ≠ some .requestLine := by
    rcases call_again_handler hhd hcall with hhd' | hhd' <;> rw [hhd']
    · simpa using hlater
    · simp
  have hbegins := begins_receive hanswered more
  obtain ⟨res, hres, hline', hkept⟩ := call_begins env hbegins hline hlater
  rcases hmore with heq | ⟨d, d', hd₁, hd₂, hsame⟩
  · obtain ⟨c'', hc'', hkept'⟩ := handled_begins_call (c := c.receive more) hhd (heq.symm.trans hres) hline' hkept
    exact .inr ⟨c', c'', rfl, hc'', hkept'⟩
  · obtain rfl := Except.ok.inj (hres.symm.trans hd₁)
    rw [handled_stop (c := c.receive more) hhd hd₂ (by simp [hsame.handler'])]
    exact .inr ⟨c', d', rfl, rfl, hkept.trans hsame.begins⟩

/-- **The handlers, and more bytes.** -/
theorem handled_receive (hc : c.Cut) (hh : c.Handling) (hne : c.req.reqHandler ≠ none)
    (hsolid : SolidLengths (c.ghost.received ++ more)) : c.HandledMore env more := by
  induction hn : handlerRank c.req.reqHandler using Nat.strong_induction_on generalizing c with
  | _ n ih =>
    obtain ⟨hd, hhd⟩ := Option.ne_none_iff_exists'.mp hne
    have hphase : ∀ {res : Status × Conn}, hd.call env c = .ok res → res.2.Handling := by
      intro res hcall
      rcases call_scan (handling_scanInv env) hhd hh hcall with ⟨-, -, hh'⟩ | ⟨-, hh'⟩ <;> exact hh'
    cases call_goesOn hc hhd hsolid with
    | fault e h h' => exact .fault e (handled_error hhd h) (handled_error (c := c.receive more) hhd h')
    | done c' h h' =>
      obtain ⟨hcut, hreceived⟩ := call_cut hc hhd h
      by_cases hgo : c'.req.reqHandler = none
      · have hanswered : c'.Answered := (hphase h).resolve_left fun hreading => hreading.handler hgo
        refine .answers c' (handled_stop hhd h (by simp [hgo])) hanswered ?_
        rcases h' with heq | ⟨d, d', hd₁, hd₂, hsame⟩
        · rw [handled_stop (c := c.receive more) hhd heq.symm (by simp [hgo])]
          exact .inr ⟨c', c'.receive more, rfl, rfl, begins_receive hanswered.answers more⟩
        · obtain ⟨-, rfl⟩ := Prod.mk.inj (Except.ok.inj hd₁)
          rw [handled_stop (c := c.receive more) hhd hd₂ (by simp [hsame.handler'])]
          exact .inr ⟨c', d', rfl, rfl, (begins_receive hanswered.answers more).trans hsame.begins⟩
      · have hmore : hd.call env (c.receive more) = .ok (.ok, c'.receive more) := by
          rcases h' with heq | ⟨d, d', hd₁, -, hsame⟩
          · exact heq.symm
          · obtain ⟨-, rfl⟩ := Prod.mk.inj (Except.ok.inj hd₁)
            exact absurd hsame.handler hgo
        have hrank := call_rank h
        rw [← hhd, hn] at hrank
        have hgoes := handled_go hhd h ⟨rfl, hgo⟩
        have hgoes' := handled_go (c := c.receive more) hhd hmore ⟨rfl, hgo⟩
        cases ih _ hrank hcut (hphase h) hgo (by rwa [hreceived]) rfl with
        | fault e h h' => exact .fault e (hgoes.trans h) (hgoes'.trans h')
        | waits c'' h hr hcut hrec h' => exact .waits c'' (hgoes.trans h) hr hcut (hrec.trans hreceived) (hgoes' ▸ h')
        | answers c'' h ha h' => exact .answers c'' (hgoes.trans h) ha (hgoes' ▸ h')
    | waits c' h h' =>
      obtain ⟨hcut, hreceived⟩ := call_cut hc hhd h
      have hstop := handled_stop hhd h (by simp)
      rcases hphase h with hreading | hanswered
      · have hhd' : c'.req.reqHandler = some hd := (call_again_handler hhd h).resolve_right hreading.handler
        have hgoes : AsFar ((c'.receive more).handled env) ((c.receive more).handled env) := h'.asFar hhd' hhd
        exact .waits c' hstop hreading hcut hreceived hgoes
      · exact .answers c' hstop hanswered (answered_again hc hhd h h' hanswered.answers)

end More

/-! ### After a response with status code 200 -/

/-- A response with status code 200 is the last one. -/
def LastIsSuccess (sc : HeaderScan) (c : Conn) : Prop :=
  200 ∉ c.ghost.answers.dropLast ∧ (200 ∈ c.ghost.answers → sc = .stop .again)

section Success

variable {env : Env} {c c' : Conn} {sc : HeaderScan}

theorem LastIsSuccess.not_mem (h : LastIsSuccess sc c) (hsc : sc ≠ .stop .again) : 200 ∉ c.ghost.answers :=
  fun hmem => hsc (h.2 hmem)

theorem assembleErr_last (h : 200 ∉ c.ghost.answers) {code : ℕ} (hcode : code ≠ 200) (sc : HeaderScan) :
    LastIsSuccess sc (responseAssembleErrBuffer env c code).2 := by
  rw [LastIsSuccess, assembleErr_eq]
  simp [h, hcode.symm]

theorem lastIsSuccess_scanInv (env : Env) : ScanInv env LastIsSuccess where
  parse _ _ _ h _ := h
  error _ _ hcode h := assembleErr_last (h.not_mem (by simp [HeaderScan.stop])) hcode _
  path _ _ _ _ h := h
  resource _ c file _ h := by
    rw [LastIsSuccess, (openResource_frame c file).ghost]
    exact h
  record _ _ _ _ h := ⟨h.1, fun hmem => absurd hmem (h.not_mem (by simp [HeaderScan.stop, HeaderScan.cons]))⟩
  refuse k sc c code hk h :=
    assembleErr_last (c := c.lowerName.mapPar k.record) (h.not_mem (by simp [HeaderScan.stop, HeaderScan.cons]))
      (answer_ne_ok hk) sc
  body _ _ h := h
  wait _ h := ⟨h.1, fun _ => rfl⟩
  answer c h := by
    refine ⟨?_, fun _ => rfl⟩
    change 200 ∉ (c.ghost.answers ++ [c.req.statusCode]).dropLast
    rw [List.dropLast_concat]
    exact h.not_mem (by simp [HeaderScan.stop])
  coding _ h := assembleErr_last (h.not_mem (by simp [HeaderScan.stop])) (by omega) _

theorem handled_success (h : c.handled env = .ok c') (hc : c.ghost.answers = [])
    (hfirst : c'.ghost.answers.head? = some 200) : c'.ghost.answers = [200] := by
  obtain ⟨⟨st, c₁⟩, hloop, rfl⟩ := map_ok_iff.mp h
  have hlast := handlerLoop_scan (lastIsSuccess_scanInv env) ⟨by simp [hc], by simp [hc]⟩ hloop
  have hdrop := hlast.1
  change (c₁.ghost.answers).head? = some 200 at hfirst
  change c₁.ghost.answers = [200]
  cases hans : c₁.ghost.answers with
  | nil =>
    rw [hans] at hfirst
    cases hfirst
  | cons code rest =>
    rw [hans] at hfirst hdrop
    obtain rfl : code = 200 := Option.some.inj hfirst
    cases rest with
    | nil => rfl
    | cons code' rest => simp at hdrop

end Success

/-! ### Batches -/

/-- The events of `EPOLLIN` that deliver the batches, until the bit leaves the mask. -/
def Conn.readAll (env : Env) (c : Conn) : List (List RecvResult) → Except Fault Conn
  | [] => .ok c
  | recvs :: rest =>
    match requestHandle env recvs c with
    | .ok (_, c') => if c'.epollIn then c'.readAll env rest else .ok c'
    | .error e => .error e

/-- The same first answer, or none. -/
inductive SameFirst {ε : Type} : Except ε Conn → Except ε Conn → Prop where
  | fault (e : ε) : SameFirst (.error e) (.error e)
  | waits (c : Conn) (h : c.ghost.answers = []) : SameFirst (.ok c) (.ok c)
  | answers (c c' : Conn) (code : ℕ) (h : c.ghost.answers.head? = some code) (h' : c'.ghost.answers.head? = some code)
      (ob : c.req.ob <+: c'.req.ob ∨ c'.req.ob <+: c.req.ob) (success : code = 200 → c'.req.ob = c.req.ob)
      (resource : c'.req.resource = c.req.resource) : SameFirst (.ok c) (.ok c')

section Batches

variable {env : Env} {c d : Conn} {x y : Except Fault Conn}

/-- Batches of which the client has not closed the connection. -/
theorem readAll_eq (env : Env) (c : Conn) {batches : List (List RecvResult)}
    (h : ∀ recvs ∈ batches, recvStatus recvs = .again) :
    c.readAll env batches = Batching.serve Conn.receive (Conn.handled env) Conn.epollIn c (batches.map recvBytes) := by
  induction batches generalizing c with
  | nil => rfl
  | cons recvs rest ih =>
    rw [List.forall_mem_cons] at h
    rw [Conn.readAll, requestHandle_eq, if_pos h.1, List.map_cons, Batching.serve, Conn.handled]
    cases handlerLoop env (c.receive (recvBytes recvs)) with
    | error e => rfl
    | ok res =>
      obtain ⟨st, c'⟩ := res
      simp only [Except.map]
      rw [ih c' h.2]

/-- **A request is resumed.** -/
theorem handled_resumes (env : Env) : Batching.Resumes Conn.receive (Conn.handled env) Conn.epollIn
    (fun c more => c.Reading ∧ c.Cut ∧ SolidLengths (c.ghost.received ++ more)) AsFar := by
  have hmore : ∀ {c : Conn} {b more : List Byte}, c.Reading ∧ c.Cut ∧ SolidLengths (c.ghost.received ++ (b ++ more)) →
      (c.receive b).HandledMore env more := by
    rintro c b more ⟨hreading, hcut, hsolid⟩
    rw [← List.append_assoc] at hsolid
    exact handled_receive (hcut.receive b) (.inl (hreading.receive b)) hreading.handler hsolid
  refine ⟨fun _ => .inl rfl, AsFar.trans, ?_, ?_⟩
  · intro c c' b more hJ heq hlive
    have hsolid := hJ.2.2
    rw [← List.append_assoc] at hsolid
    rw [← receive_append]
    cases hmore hJ with
    | fault e h => cases h.symm.trans heq
    | waits c₁ h hreading hcut hreceived h' =>
      obtain rfl := Except.ok.inj (h.symm.trans heq)
      exact ⟨⟨hreading, hcut, by rwa [hreceived]⟩, h'⟩
    | answers c₁ h hanswered =>
      obtain rfl := Except.ok.inj (h.symm.trans heq)
      cases hanswered.epollIn.symm.trans hlive
  · intro c b more hJ hstop
    rw [← receive_append]
    cases hmore hJ with
    | fault e h h' => exact .inl (h.trans h'.symm)
    | waits c₁ h hreading => cases hreading.epollIn.symm.trans (hstop c₁ h)
    | answers c₁ h _ h' =>
      rw [h]
      exact h'

theorem AsFar.answered (h : AsFar x (.ok d)) (hd : d.ghost.answers ≠ []) : ∃ c, x = .ok c ∧ c.Begins d := by
  rcases h with rfl | ⟨c, d', rfl, heq, h⟩
  · exact ⟨d, rfl, .refl hd⟩
  · obtain rfl := Except.ok.inj heq
    exact ⟨c, rfl, h⟩

theorem AsFar.stays (h : AsFar x y) (hy : ∀ d, y = .ok d → d.ghost.answers = []) : x = y := by
  rcases h with rfl | ⟨c, d, -, rfl, h⟩
  · rfl
  · obtain ⟨rest, hrest⟩ := h.answers
    rw [hy d rfl] at hrest
    exact absurd (List.append_eq_nil_iff.mp hrest).1 h.answered

theorem Conn.Begins.head (h : c.Begins d) : c.ghost.answers.head? = d.ghost.answers.head? := by
  obtain ⟨rest, hrest⟩ := h.answers
  rw [← hrest]
  cases hans : c.ghost.answers with
  | nil => exact absurd hans h.answered
  | cons code codes => rfl

theorem Conn.Begins.success (h : c.Begins d) (hd : d.ghost.answers = [200]) : d.req.ob = c.req.ob := by
  refine h.whole (h.answers.eq_of_length_le ?_).symm
  rw [hd]
  exact List.length_pos_of_ne_nil h.answered

theorem sameFirst_of_begins {c c' : Conn} (hc : c.Begins d) (hc' : c'.Begins d)
    (hsuccess : d.ghost.answers.head? = some 200 → d.ghost.answers = [200]) : @SameFirst Fault (.ok c) (.ok c') := by
  cases hhead : d.ghost.answers.head? with
  | none =>
    obtain ⟨rest, hrest⟩ := hc.answers
    rw [List.head?_eq_none_iff.mp hhead] at hrest
    exact absurd (List.append_eq_nil_iff.mp hrest).1 hc.answered
  | some code =>
    refine .answers c c' code (hc.head.trans hhead) (hc'.head.trans hhead) (List.prefix_or_prefix_of_prefix hc.ob hc'.ob) ?_
      (hc'.resource.symm.trans hc.resource)
    rintro rfl
    have hone := hsuccess hhead
    exact (hc'.success hone).symm.trans (hc.success hone)

theorem sameFirst_of_asFar (hc : c.Cut) (hreading : c.Reading) (hsolid : SolidLengths c.ghost.received)
    (hx : AsFar x (c.handled env)) (hy : AsFar y (c.handled env)) : SameFirst x y := by
  have hhandled : c.HandledMore env [] :=
    handled_receive hc (.inl hreading) hreading.handler (by rwa [List.append_nil])
  cases hhandled with
  | fault e h =>
    rw [h] at hx hy
    have hnone : ∀ d : Conn, .error e = Except.ok d → d.ghost.answers = [] := by
      rintro d ⟨⟩
    rw [hx.stays hnone, hy.stays hnone]
    exact .fault e
  | waits d h hd =>
    rw [h] at hx hy
    have hnone : ∀ d' : Conn, (.ok d : Except Fault Conn) = .ok d' → d'.ghost.answers = [] := by
      rintro d' ⟨⟩
      exact hd.answers
    rw [hx.stays hnone, hy.stays hnone]
    exact .waits d hd.answers
  | answers d h hd =>
    rw [h] at hx hy
    obtain ⟨c₁, rfl, h₁⟩ := hx.answered hd.answers
    obtain ⟨c₂, rfl, h₂⟩ := hy.answered hd.answers
    exact sameFirst_of_begins h₁ h₂ (handled_success h hreading.answers)

theorem fresh_handled (env : Env) (hreq : c.req = .fresh) : (c.receive []).handled env = .ok c := by
  have hpar : (c.mapPar fun _ => parseArchiveInit) = c := by
    change { c with req := { c.req with par := parseArchiveInit } } = c
    rw [show parseArchiveInit = c.req.par by rw [hreq]; rfl]
  have hhandler : c.req.reqHandler = some .requestLine := by
    rw [hreq]
    rfl
  have hcall : ReqHandler.call env c .requestLine = .ok (.again, c.mapPar fun _ => parseArchiveInit) := by
    refine requestLine_again ?_
    rw [hreq]
    rfl
  rw [receive_nil, handled_stop hhandler hcall (by simp), hpar]

/-- The batches, and all the bytes at once. -/
theorem readAll_asFar (env : Env) (hreq : c.req = .fresh) (hreading : c.Reading)
    (hcut : c.Cut) {batches : List (List RecvResult)} (hagain : ∀ recvs ∈ batches, recvStatus recvs = .again)
    (hsolid : SolidLengths (c.ghost.received ++ batches.flatMap recvBytes)) :
    AsFar (c.readAll env batches) ((c.receive (batches.flatMap recvBytes)).handled env) := by
  rw [readAll_eq env c hagain, List.flatMap_def]
  rw [List.flatMap_def] at hsolid
  exact Batching.serve_le (handled_resumes env) _ ⟨hreading, hcut, hsolid⟩ (fresh_handled env hreq)

end Batches

/-! ### Runs -/

/-- The events are steps of a run. -/
theorem readAll_run {timeout : ℤ} (ht : 0 ≤ timeout) (env : Env) {s : ConnState} {batches : List (List RecvResult)}
    {c : Conn} (hclosed : s.closed = false) (hin : s.conn.epollIn = true) (h : s.conn.readAll env batches = .ok c) :
    ∃ s', Run timeout anyStep s s' ∧ s'.conn = c := by
  induction batches generalizing s with
  | nil => exact ⟨s, .refl, Except.ok.inj h⟩
  | cons recvs rest ih =>
    rw [Conn.readAll] at h
    cases hhandle : requestHandle env recvs s.conn with
    | error e =>
      rw [hhandle] at h
      cases h
    | ok res =>
      rw [hhandle] at h
      -- the event comes as soon as it can
      have hstep : Step timeout anyStep s (s.finish s.activeTime res) := by
        refine ⟨.event s.activeTime (some (env, recvs)) none, ⟨hclosed, fun _ => hin, by simp⟩, trivial, ?_⟩
        simp [ConnState.apply, ConnState.input, hhandle, not_lt.mpr ht]
      simp only at h
      split_ifs at h with hlive
      · obtain ⟨s', hrun, hs'⟩ := ih (s := s.finish s.activeTime res) hclosed hlive h
        exact ⟨s', .head hstep hrun, hs'⟩
      · exact ⟨_, .single hstep, Except.ok.inj h⟩

/-- **Batches make no difference.**  Whenever a request begins in a run, the same bytes in any two divisions into batches are
answered by the same status code first and with the same file, or are not answered and leave the connection in the same
state, or are the same fault; and the output of a response with status code 200 is the same. -/
theorem run_batches {timeout : ℤ} {nextFd : ℕ} {now : ℤ} {s : ConnState} (hrun : Run timeout anyStep (.accept nextFd now) s)
    (hfresh : s.conn.req = .fresh) (hin : s.conn.epollIn = true) (env : Env) {batches batches' : List (List RecvResult)}
    (hagain : ∀ recvs ∈ batches ++ batches', recvStatus recvs = .again)
    (hsame : batches.flatMap recvBytes = batches'.flatMap recvBytes) (hsolid : SolidLengths (batches.flatMap recvBytes)) :
    SameFirst (s.conn.readAll env batches) (s.conn.readAll env batches') := by
  have htracked := run_tracked hrun
  have hreading := htracked.phase.reading hin
  have hline : s.conn.AtLine := by
    have hhandler : s.conn.req.reqHandler = some .requestLine := by rw [hfresh]; rfl
    obtain ⟨-, h | ⟨line, ls, h⟩ | ⟨line, ls, ws, h⟩⟩ := htracked.reading hin
    · exact h
    · cases h.handler.symm.trans hhandler
    · cases h.handler.symm.trans hhandler
  have hreceived : s.conn.ghost.received = [] := by
    rw [← hline.ib, hfresh]
    rfl
  have hcut : s.conn.Cut := by
    have hstage : s.conn.Stage := by
      rw [Conn.Stage, hline.handler]
      exact hline
    exact ⟨hstage, fun _ => hreading.answers, by simp [hline.handler], by simp [hline.handler]⟩
  have hsolid' : SolidLengths (s.conn.ghost.received ++ batches.flatMap recvBytes) := by rwa [hreceived]
  have hx := readAll_asFar env hfresh hreading hcut (fun recvs h => hagain recvs (List.mem_append_left _ h)) hsolid'
  rw [hsame] at hx hsolid'
  have hy := readAll_asFar env hfresh hreading hcut (fun recvs h => hagain recvs (List.mem_append_right _ h)) hsolid'
  exact sameFirst_of_asFar (hcut.receive _) (hreading.receive _) hsolid' hx hy

/-- Without vertical tabs and form feeds the value of a header line is not white space alone. -/
theorem solidLengths_of_plain {received : List Byte} (h : ∀ b ∈ received, b ≠ 0x0b ∧ b ≠ 0x0c) : SolidLengths received := by
  intro line ls hline hls hpre l hl hname
  obtain ⟨b, bs, hvalue, hblank, heol⟩ := (hls l hl).value
  have hmem : b ∈ l.value := by simp [hvalue]
  have hreceived : b ∈ received := by
    refine hpre.subset ?_
    refine List.mem_append_right _ (List.mem_flatMap.mpr ⟨l, hl, ?_⟩)
    simp [HeaderLine.bytes, hmem]
  have hspace : ∀ b : Byte, isBlank b = false → isEol b = false → b ≠ 0x0b ∧ b ≠ 0x0c →
      isSpace b = false := by decide +kernel
  exact ⟨b, hmem, hspace b hblank (heol b hmem) (h b hreceived)⟩

/-- A vertical tab for a `Content-Length`: alone in a batch it is refused, otherwise `atoi` reads on in the next line. -/
example : let c := (ConnState.accept 4 0).conn
    let line := str "GET / HTTP/1.1\r\nContent-Length: \x0b\r\n"
    let next := str "1: x\r\n\r\na"
    ((c.readAll (.page []) [[.data line], [.data next]]).toOption.map fun c => c.ghost.answers) = some [400] ∧
      ((c.readAll (.page []) [[.data (line ++ next)]]).toOption.map fun c => c.ghost.answers) = some [200] := by
  decide +kernel

end Lotos
