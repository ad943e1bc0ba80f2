import Lotos.Buffer.Defs
import Lotos.Request.Bounds

/-!
# The appends of a request

The handlers of the request append to the output buffer by the functions `response_append_*`, and nothing else in them
touches it.  `loopHelpers` is the list of these calls in one run of the loop of `request_handle`, handler by handler: those
of `response_assemble_err_buffer` for every error that is answered, and those of `response_assemble_buffer` at the end.
-/

namespace Lotos

/-- The calls of `response_assemble_err_buffer`. -/
def Conn.errHelpers (env : Env) (c : Conn) (code : ℕ) : List Helper := (c.req.markErr code).errHelpers env

/-- The calls after the version has been accepted, in `request_handle_request_line`. -/
def pathHelpers (env : Env) (c : Conn) : List Helper :=
  match c.req.par.url.absPath.str with
  | .buf b =>
    match pathEnd c.req.ib b with
    | none => []
    | some p =>
      let c := c.closePath p
      match env.openat (relativePath c.req.ib b c.req.par.url.absPath.len) with
      | none => c.errHelpers env 404
      | some _ => []
  | _ => []

/-- The calls in `request_handle_request_line`. -/
def requestLineHelpers (env : Env) (c : Conn) : List Helper :=
  match parseRequestLine c.req.ib c.req.par with
  | (.again, _) => []
  | (.ok, ar) =>
    if ar.version.httpMajor > 1 ∨ ar.version.httpMinor > 1 then (c.mapPar fun _ => ar).errHelpers env 505
    else pathHelpers env (c.mapPar fun _ => ar).acceptVersion
  | (_, ar) => (c.mapPar fun _ => ar).errHelpers env 400

/-- The calls for a complete header. -/
def headerHelpers (env : Env) (c : Conn) : List Helper :=
  match c.lowerName.kind.answer with
  | none => []
  | some code => (c.lowerName.mapPar c.lowerName.kind.record).errHelpers env code

/-- The calls in `request_handle_headers`. -/
def headersHelpers (env : Env) (c : Conn) : List Helper :=
  match _h : parseHeaderLine c.req.ib c.req.par with
  | (.again, _) => []
  | (.error, ar) => (c.mapPar fun _ => ar).errHelpers env 400
  | (.crlfLine, _) => []
  | (.ok, ar) =>
    headerHelpers env (c.mapPar fun _ => ar) ++ headersHelpers env (handleHeader env (c.mapPar fun _ => ar)).2
termination_by c.req.ib.length - c.req.par.nextParsePos
decreasing_by
  have hnext := parseHeaderLine_done_pos _h (.inl rfl)
  have hpos := handleHeader_pos env (c.mapPar fun _ => ar)
  simp only [mapPar_ib, mapPar_par] at hpos
  omega

/-- The calls in `request_handle_body`. -/
def bodyHelpers (env : Env) (c : Conn) : List Helper :=
  match c.req.par.transferEncoding with
  | .identity =>
    match parseHeaderBodyIdentity c.req.ib c.req.par with
    | (.again, _) => []
    | (.ok, ar) => (((c.mapPar fun _ => ar).turnOut).setHandler none).req.assembleHelpers env
    | (_, ar) => (c.mapPar fun _ => ar).errHelpers env 501
  | _ => c.errHelpers env 501

/-- The calls in a handler of the request. -/
def ReqHandler.helpers (env : Env) (c : Conn) : ReqHandler → List Helper
  | .requestLine => requestLineHelpers env c
  | .headers => headersHelpers env c
  | .body => bodyHelpers env c

/-- The calls in the loop of `request_handle`. -/
def loopHelpers (env : Env) (c : Conn) : List Helper :=
  match _hhd : c.req.reqHandler with
  | none => []
  | some hd =>
    match _hcall : hd.call env c with
    | .ok (.ok, c') => hd.helpers env c ++ if c'.req.reqHandler ≠ none then loopHelpers env c' else []
    | _ => hd.helpers env c
termination_by handlerRank c.req.reqHandler
decreasing_by
  rw [_hhd]
  exact call_rank _hcall

/-! ### What they append -/

section Appends

variable {env : Env} {c c' : Conn} {ar : ParseArchive} {res : Status × Conn}

theorem appendedBy_append (fs gs : List Helper) : appendedBy (fs ++ gs) = appendedBy fs ++ appendedBy gs :=
  List.flatMap_append

theorem openResource_ob (c : Conn) (file : File) : (openResource c file).req.ob = c.req.ob := by
  rcases file with content | ⟨size, _ | content⟩ <;> rfl

theorem responseAssembleErr_helpers (env : Env) (c : Conn) (code : ℕ) :
    (responseAssembleErrBuffer env c code).2.req.ob = c.req.ob ++ appendedBy (c.errHelpers env code) := by
  rw [assembleErr_eq]
  exact assembleErr_ob env c.req code

theorem path_helpers (h : requestHandlePath env c = .ok res) :
    res.2.req.ob = c.req.ob ++ appendedBy (pathHelpers env c) := by
  unfold requestHandlePath at h
  unfold pathHelpers
  cases hb : c.req.par.url.absPath.str with
  | buf b =>
    rw [hb] at h
    simp only at h ⊢
    cases hp : pathEnd c.req.ib b with
    | none =>
      rw [hp] at h
      cases h
    | some p =>
      rw [hp] at h
      simp only at h ⊢
      cases hopen : env.openat (relativePath (c.closePath p).req.ib b (c.closePath p).req.par.url.absPath.len) with
      | none =>
        rw [hopen] at h
        obtain rfl := Except.ok.inj h
        exact responseAssembleErr_helpers env (c.closePath p) 404
      | some file =>
        rw [hopen] at h
        obtain rfl := Except.ok.inj h
        exact (openResource_ob (c.closePath p) file).trans (List.append_nil _).symm
  | null =>
    rw [hb] at h
    cases h
  | const s =>
    rw [hb] at h
    cases h

theorem requestLine_helpers (h : requestHandleRequestLine env c = .ok res) :
    res.2.req.ob = c.req.ob ++ appendedBy (requestLineHelpers env c) := by
  unfold requestHandleRequestLine at h
  unfold requestLineHelpers
  rcases hp : parseRequestLine c.req.ib c.req.par with ⟨_ | _ | _ | _, ar⟩ <;> rw [hp] at h <;> simp only at h ⊢
  · split_ifs at h ⊢ with hversion
    · obtain rfl := Except.ok.inj h
      exact responseAssembleErr_helpers env (c.mapPar fun _ => ar) 505
    · exact path_helpers (c := (c.mapPar fun _ => ar).acceptVersion) h
  · obtain rfl := Except.ok.inj h
    exact (List.append_nil _).symm
  all_goals
    obtain rfl := Except.ok.inj h
    exact responseAssembleErr_helpers env (c.mapPar fun _ => ar) 400

theorem header_helpers (env : Env) (c : Conn) :
    (handleHeader env c).2.req.ob = c.req.ob ++ appendedBy (headerHelpers env c) := by
  rw [handleHeader_eq, headerHelpers]
  cases c.lowerName.kind.answer with
  | none => exact (List.append_nil _).symm
  | some code => exact responseAssembleErr_helpers env (c.lowerName.mapPar c.lowerName.kind.record) code

theorem headers_helpers (env : Env) (c : Conn) :
    (requestHandleHeaders env c).2.req.ob = c.req.ob ++ appendedBy (headersHelpers env c) := by
  induction hn : c.req.ib.length - c.req.par.nextParsePos using Nat.strong_induction_on generalizing c with
  | _ n ih =>
    rw [headersHelpers]
    split <;> rename_i ar hp
    · rw [requestHandleHeaders_again hp]
      exact (List.append_nil _).symm
    · rw [requestHandleHeaders_error hp]
      exact responseAssembleErr_helpers env (c.mapPar fun _ => ar) 400
    · rw [requestHandleHeaders_crlfLine hp]
      exact (List.append_nil _).symm
    · have hnext := parseHeaderLine_done_pos hp (.inl rfl)
      have hpos := handleHeader_pos env (c.mapPar fun _ => ar)
      simp only [mapPar_ib, mapPar_par] at hpos
      rw [requestHandleHeaders_ok hp, ih _ (by omega) _ rfl, header_helpers, appendedBy_append, List.append_assoc]
      rfl

theorem body_helpers (env : Env) (c : Conn) :
    (requestHandleBody env c).2.req.ob = c.req.ob ++ appendedBy (bodyHelpers env c) := by
  unfold requestHandleBody bodyHelpers
  cases c.req.par.transferEncoding with
  | identity =>
    simp only
    rcases hp : parseHeaderBodyIdentity c.req.ib c.req.par with ⟨_ | _ | _ | _, ar⟩ <;> simp only
    · exact responseAssembleBuffer_ob env _
    · exact (List.append_nil _).symm
    all_goals exact responseAssembleErr_helpers env (c.mapPar fun _ => ar) 501
  | _ => exact responseAssembleErr_helpers env c 501

theorem call_helpers {hd : ReqHandler} (h : hd.call env c = .ok res) :
    res.2.req.ob = c.req.ob ++ appendedBy (hd.helpers env c) := by
  cases hd with
  | requestLine => exact requestLine_helpers h
  | headers =>
    obtain rfl := Except.ok.inj h
    exact headers_helpers env c
  | body =>
    obtain rfl := Except.ok.inj h
    exact body_helpers env c

theorem loopHelpers_some {hd : ReqHandler} (hhd : c.req.reqHandler = some hd) (hcall : hd.call env c = .ok res) :
    loopHelpers env c = hd.helpers env c ++
      if res.1 = .ok ∧ res.2.req.reqHandler ≠ none then loopHelpers env res.2 else [] := by
  rw [loopHelpers]
  split
  · rename_i hnone
    cases hnone.symm.trans hhd
  · rename_i hd' hhd'
    obtain rfl : hd' = hd := Option.some.inj (hhd'.symm.trans hhd)
    split
    · rename_i c' hok
      obtain rfl := Except.ok.inj (hok.symm.trans hcall)
      simp
    · rename_i hne
      have hst : res.1 ≠ .ok := by
        rintro hst
        exact hne res.2 (hcall.trans (congrArg Except.ok (Prod.ext hst rfl)))
      rw [if_neg fun h => hst h.1, List.append_nil]

/-- **What the loop of `request_handle` appends.** -/
theorem handlerLoop_helpers (h : handlerLoop env c = .ok res) :
    res.2.req.ob = c.req.ob ++ appendedBy (loopHelpers env c) := by
  induction hn : handlerRank c.req.reqHandler using Nat.strong_induction_on generalizing c with
  | _ n ih =>
    obtain ⟨hd, ⟨st, c'⟩, hhd, hcall, hround⟩ := handlerLoop_first h
    rw [loopHelpers_some hhd hcall, appendedBy_append, ← List.append_assoc, ← call_helpers hcall]
    by_cases hgo : st = .ok ∧ c'.req.reqHandler ≠ none
    · rw [nextRound_go hgo] at hround
      rw [if_pos hgo]
      obtain ⟨rfl, hne⟩ := hgo
      have hrank := call_rank hcall
      rw [← hhd, hn] at hrank
      exact ih _ hrank hround rfl
    · rw [nextRound_stop hgo] at hround
      rw [if_neg hgo, ← Except.ok.inj hround]
      exact (List.append_nil _).symm

theorem handlerLoop_length (h : handlerLoop env c = .ok res) : res.2.req.ib.length = c.req.ib.length :=
  handlerLoop_inv (fun c' => c'.req.ib.length = c.req.ib.length) (fun _ _ _ _ hc _ hcall => (call_length hcall).trans hc)
    rfl h

end Appends

end Lotos
