import Lotos.Request.Defs

/-!
# What the parsers and the handlers leave alone

The members of the archive that the handlers own, `keep_alive`, `content_length` and the rest of `ParseArchive.Owned`, are
written by the handlers and not by the parsers.
-/

namespace Lotos

/-- The members that the handlers write. -/
structure Owned where
  keepAlive : Bool
  contentLength : ℤ
  transferEncoding : TransferEncoding
  reqHeaders : HeaderSlot → Ssstr
  bufferSent : ℕ
  responseDone : Bool
  errReq : Bool

def ParseArchive.owned (ar : ParseArchive) : Owned :=
  ⟨ar.keepAlive, ar.contentLength, ar.transferEncoding, ar.reqHeaders, ar.bufferSent, ar.responseDone, ar.errReq⟩

theorem rlStep_owned (data : List Byte) (q : ℕ) (c : Byte) (ar : ParseArchive) :
    (rlStep data q c ar).state.owned = ar.owned ∧ (rlStep data q c ar).state.bodyReceived = ar.bodyReceived := by
  cases hst : ar.state <;> simp only [rlStep, rlMethodStep, expect, hst]
  case rlUrl =>
    split_ifs
    · have hf := parseUrl_frame data (ar.urlBegin.getD 0) q { ar with state := .rlSpBeforeVersion }
      have hurl : (parseUrl data (ar.urlBegin.getD 0) q { ar with state := .rlSpBeforeVersion }).2.owned = ar.owned ∧
          (parseUrl data (ar.urlBegin.getD 0) q { ar with state := .rlSpBeforeVersion }).2.bodyReceived =
            ar.bodyReceived := by
        rw [hf]
        exact ⟨rfl, rfl⟩
      clear hf
      generalize parseUrl data _ q _ = res at hurl ⊢
      split <;> exact hurl
    · exact ⟨rfl, rfl⟩
    · exact ⟨rfl, rfl⟩
  all_goals (try split_ifs) <;> exact ⟨rfl, rfl⟩

theorem parseRequestLine_owned {data : List Byte} {ar ar' : ParseArchive} {st : Status}
    (h : parseRequestLine data ar = (st, ar')) : ar'.owned = ar.owned ∧ ar'.bodyReceived = ar.bodyReceived := by
  have hinv : (rlScan data ar).state.owned = ar.owned ∧ (rlScan data ar).state.bodyReceived = ar.bodyReceived := by
    refine Scan.run_state_inv (fun s : ParseArchive => s.owned = ar.owned ∧ s.bodyReceived = ar.bodyReceived) ?_ ⟨rfl, rfl⟩
    intro q c s hs
    exact ⟨(rlStep_owned data q c s).1.trans hs.1, (rlStep_owned data q c s).2.trans hs.2⟩
  rw [parseRequestLine] at h
  generalize rlScan data ar = res at hinv h
  rcases res with s | ⟨_ | _, q, s⟩ <;> cases h <;> exact hinv

/-- The members that `parse_header_line` does not write: also those of the request line and of the body. -/
structure ParseArchive.HeaderFrame (ar ar' : ParseArchive) : Prop where
  owned : ar'.owned = ar.owned
  bodyReceived : ar'.bodyReceived = ar.bodyReceived
  version : ar'.version = ar.version
  url : ar'.url = ar.url

theorem hdStep_frame (q : ℕ) (c : Byte) (ar : ParseArchive) : ar.HeaderFrame (hdStep q c ar).state := by
  cases hst : ar.state <;> simp only [hdStep, hst] <;> (try split_ifs) <;> exact ⟨rfl, rfl, rfl, rfl⟩

theorem parseHeaderLine_frame {data : List Byte} {ar ar' : ParseArchive} {st : Status}
    (h : parseHeaderLine data ar = (st, ar')) : ar.HeaderFrame ar' := by
  have hinv : ar.HeaderFrame (hdScan data ar).state := by
    refine Scan.run_state_inv ar.HeaderFrame ?_ ⟨rfl, rfl, rfl, rfl⟩
    intro q c s hs
    have hstep := hdStep_frame q c s
    exact ⟨hstep.owned.trans hs.owned, hstep.bodyReceived.trans hs.bodyReceived, hstep.version.trans hs.version,
      hstep.url.trans hs.url⟩
  rw [parseHeaderLine] at h
  generalize hdScan data ar = res at hinv h
  rcases res with s | ⟨_ | _, q, s⟩ <;> cases h <;> exact ⟨hinv.owned, hinv.bodyReceived, hinv.version, hinv.url⟩

theorem parseHeaderBodyIdentity_owned (data : List Byte) (ar : ParseArchive) :
    (parseHeaderBodyIdentity data ar).2.owned = ar.owned := by
  simp only [parseHeaderBodyIdentity]
  split_ifs <;> rfl

/-! ### The resource -/

/-- Only the resource, the URL, the handler and the record of the descriptors change. -/
structure Conn.OpenFrame (c c' : Conn) : Prop where
  epollIn : c'.epollIn = c.epollIn
  epollOut : c'.epollOut = c.epollOut
  ghost : c'.ghost = { c.ghost with opened := c'.ghost.opened, closed := c'.ghost.closed }
  req : c'.req = { c.req with
    par := { c.req.par with url := c'.req.par.url }
    resourceFd := c'.req.resourceFd
    resourceSize := c'.req.resourceSize
    resource := c'.req.resource
    reqHandler := some .headers }

theorem openResource_frame (c : Conn) (file : File) : c.OpenFrame (openResource c file) := by
  unfold openResource Conn.setResource
  rcases file with content | ⟨size, _ | content⟩ <;> simp only <;> generalize toInt _ = n <;> exact ⟨rfl, rfl, rfl, rfl⟩

/-! ### The loop of the handlers -/

section Loop

variable {env : Env} {c c' : Conn} {st : Status}

/-- What follows a call of a handler: the next round, if the answer is `OK` and there is a handler to go on with. -/
def nextRound (loop : Conn → Except Fault (Status × Conn)) (res : Status × Conn) : Except Fault (Status × Conn) :=
  if res.1 = .ok ∧ res.2.req.reqHandler ≠ none then loop res.2 else .ok res

theorem nextRound_go {loop : Conn → Except Fault (Status × Conn)} {res : Status × Conn}
    (h : res.1 = .ok ∧ res.2.req.reqHandler ≠ none) : nextRound loop res = loop res.2 := if_pos h

theorem nextRound_stop {loop : Conn → Except Fault (Status × Conn)} {res : Status × Conn}
    (h : ¬ (res.1 = .ok ∧ res.2.req.reqHandler ≠ none)) : nextRound loop res = .ok res := if_neg h

theorem handlerLoop_none (h : c.req.reqHandler = none) : handlerLoop env c = .error .nullHandler := by
  rw [handlerLoop, h]

theorem handlerLoop_some {hd : ReqHandler} (h : c.req.reqHandler = some hd) :
    handlerLoop env c = (hd.call env c).bind (nextRound (handlerLoop env)) := by
  rw [handlerLoop]
  split
  · rename_i hnone
    cases hnone.symm.trans h
  · rename_i hd' hhd
    obtain rfl : hd' = hd := Option.some.inj (hhd.symm.trans h)
    split
    · rename_i e he
      rw [he]
      rfl
    · rename_i c₁ hc₁
      rw [hc₁]
      simp [Except.bind, nextRound]
    · rename_i st₁ c₁ hne hc₁
      rw [hc₁]
      exact (nextRound_stop fun hand => hne hand.1).symm

theorem handlerLoop_first {res : Status × Conn} (h : handlerLoop env c = .ok res) :
    ∃ hd res₁, c.req.reqHandler = some hd ∧ ReqHandler.call env c hd = .ok res₁ ∧
      nextRound (handlerLoop env) res₁ = .ok res := by
  cases hhd : c.req.reqHandler with
  | none =>
    rw [handlerLoop_none hhd] at h
    cases h
  | some hd =>
    rw [handlerLoop_some hhd] at h
    cases hcall : hd.call env c with
    | error e =>
      rw [hcall] at h
      cases h
    | ok res₁ =>
      rw [hcall] at h
      exact ⟨hd, res₁, rfl, hcall, h⟩

/-- **The loop of `request_handle`.**  What every call of a handler keeps while there is a handler to go on with, and gives
the result at the last call, gives the result. -/
theorem handlerLoop_rule (P : Conn → Prop) (Q : Status → Conn → Prop)
    (hnext : ∀ c c' hd, P c → c.req.reqHandler = some hd → ReqHandler.call env c hd = .ok (.ok, c') →
      c'.req.reqHandler ≠ none → P c')
    (hstop : ∀ c c' hd st, P c → c.req.reqHandler = some hd → ReqHandler.call env c hd = .ok (st, c') →
      (st = .ok → c'.req.reqHandler = none) → Q st c')
    (hc : P c) (h : handlerLoop env c = .ok (st, c')) : Q st c' := by
  induction hn : handlerRank c.req.reqHandler using Nat.strong_induction_on generalizing c with
  | _ n ih =>
    obtain ⟨hd, ⟨st₁, c₁⟩, hhd, hcall, hround⟩ := handlerLoop_first h
    by_cases hgo : st₁ = .ok ∧ c₁.req.reqHandler ≠ none
    · rw [nextRound_go hgo] at hround
      obtain ⟨rfl, hne⟩ := hgo
      have hrank := call_rank hcall
      rw [← hhd, hn] at hrank
      exact ih _ hrank (hnext c c₁ hd hc hhd hcall hne) hround rfl
    · rw [nextRound_stop hgo] at hround
      cases hround
      exact hstop c _ hd _ hc hhd hcall fun hst => not_not.mp fun hne => hgo ⟨hst, hne⟩

/-- What every call of a handler keeps holds at the end of the loop. -/
theorem handlerLoop_inv (P : Conn → Prop)
    (hcall : ∀ c c' hd st, P c → c.req.reqHandler = some hd → ReqHandler.call env c hd = .ok (st, c') → P c')
    (hc : P c) (h : handlerLoop env c = .ok (st, c')) : P c' :=
  handlerLoop_rule P (fun _ => P) (fun c c' hd hc hhd h _ => hcall c c' hd .ok hc hhd h)
    (fun c c' hd st hc hhd h _ => hcall c c' hd st hc hhd h) hc h

theorem call_ne_nullHandler (hd : ReqHandler) : ReqHandler.call env c hd ≠ .error .nullHandler := by
  intro h
  cases hd with
  | requestLine =>
    simp only [ReqHandler.call, requestHandleRequestLine, requestHandlePath] at h
    repeat' split at h
    all_goals cases h
  | _ => cases h

theorem handlerLoop_ne_nullHandler (hc : c.req.reqHandler ≠ none) : handlerLoop env c ≠ .error .nullHandler := by
  induction hn : handlerRank c.req.reqHandler using Nat.strong_induction_on generalizing c with
  | _ n ih =>
    obtain ⟨hd, hhd⟩ := Option.ne_none_iff_exists'.mp hc
    rw [handlerLoop_some hhd]
    cases hcall : hd.call env c with
    | error e =>
      intro h
      exact call_ne_nullHandler hd (hcall.trans h)
    | ok res =>
      obtain ⟨st, c₁⟩ := res
      change nextRound (handlerLoop env) (st, c₁) ≠ _
      by_cases hgo : st = .ok ∧ c₁.req.reqHandler ≠ none
      · rw [nextRound_go hgo]
        obtain ⟨rfl, hne⟩ := hgo
        have hrank := call_rank hcall
        rw [← hhd, hn] at hrank
        exact ih _ hrank hne rfl
      · rw [nextRound_stop hgo]
        nofun

end Loop

/-! ### Receiving -/

/-- The bytes that the calls of `recv` deliver. -/
def recvBytes : List RecvResult → List Byte
  | .data bs :: rest => if bs.length = 0 then [] else bs ++ recvBytes rest
  | _ => []

/-- How the calls of `recv` end. -/
def recvStatus : List RecvResult → Status
  | .data bs :: rest => if bs.length = 0 then .ok else recvStatus rest
  | .error :: _ => .error
  | _ => .again

theorem receive_nil (c : Conn) : c.receive [] = c := by
  simp [Conn.receive, Conn.mapReq, Conn.mapGhost]

theorem receive_append (c : Conn) (xs ys : List Byte) : (c.receive xs).receive ys = c.receive (xs ++ ys) := by
  simp [Conn.receive, Conn.mapReq, Conn.mapGhost]

theorem requestRecv_eq (c : Conn) (recvs : List RecvResult) :
    requestRecv c recvs = (recvStatus recvs, c.receive (recvBytes recvs)) := by
  induction recvs generalizing c with
  | nil => simp [requestRecv, recvStatus, recvBytes, receive_nil]
  | cons r rest ih =>
    cases r with
    | data bs =>
      simp only [requestRecv, recvStatus, recvBytes]
      split_ifs
      · rw [receive_nil]
      · rw [ih, receive_append]
    | again => simp [requestRecv, recvStatus, recvBytes, receive_nil]
    | error => simp [requestRecv, recvStatus, recvBytes, receive_nil]

/-- `request_handle` receives, and runs the handlers unless the client has closed or `recv` has failed. -/
theorem requestHandle_eq (env : Env) (recvs : List RecvResult) (c : Conn) :
    requestHandle env recvs c =
      if recvStatus recvs = .again then handlerLoop env (c.receive (recvBytes recvs))
      else .ok (.error, c.receive (recvBytes recvs)) := by
  unfold requestHandle
  rw [requestRecv_eq]
  cases recvStatus recvs <;> rfl

end Lotos
