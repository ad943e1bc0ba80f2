import Lotos.Request.Headers

/-!
# The header lines of one call of `request_handle`

`headerScan` goes through the header lines of a buffer as `request_handle_headers` does, but answers nothing: it notes of
what kind each line is, how the lines end, and whether the body handler would answer at once.  The flags that an error
response sets in the archive make no difference to it (`headerScan_dress`), so that the scan of the rest of the lines is
the rest of the scan.

`Conn.scan` is the scan that a call of the handlers will see, from the connection before the call.  `ScanInv` lists what
the handlers can do with a connection while a scan is before them; what is kept in each case is kept by `request_handle`
(`requestHandle_scan`).
-/

namespace Lotos

/-! ### Members that the parsers do not look at -/

/-- The archive with another URL and other flags. -/
def ParseArchive.dress (u : ReqUrl) (keep done err : Bool) (ar : ParseArchive) : ParseArchive :=
  { ar with url := u, keepAlive := keep, responseDone := done, errReq := err }

section Dress

variable (u : ReqUrl) (keep done err : Bool)

theorem hdStep_dress (q : ℕ) (c : Byte) (ar : ParseArchive) :
    hdStep q c (ar.dress u keep done err) = (hdStep q c ar).map (ParseArchive.dress u keep done err) := by
  cases hst : ar.state <;> simp only [hdStep, show (ar.dress u keep done err).state = ar.state from rfl, hst] <;>
    (try split_ifs) <;> rfl

theorem parseHeaderLine_dress (data : List Byte) (ar : ParseArchive) :
    parseHeaderLine data (ar.dress u keep done err) =
      ((parseHeaderLine data ar).1, (parseHeaderLine data ar).2.dress u keep done err) := by
  have hscan : hdScan data (ar.dress u keep done err) = (hdScan data ar).map (ParseArchive.dress u keep done err) :=
    Scan.run_map _ (hdStep_dress u keep done err)
  unfold parseHeaderLine
  rw [hscan]
  rcases hdScan data ar with s | ⟨_ | _, q, s⟩ <;> rfl

theorem parseHeaderBodyIdentity_dress (data : List Byte) (ar : ParseArchive) :
    (parseHeaderBodyIdentity data (ar.dress u keep done err)).1 = (parseHeaderBodyIdentity data ar).1 := by
  simp only [parseHeaderBodyIdentity, apply_ite Prod.fst]
  rfl

end Dress

/-! ### The scan -/

/-- The body handler answers at once. -/
def bodyAnswers (data : List Byte) (ar : ParseArchive) : Bool :=
  decide (ar.transferEncoding ≠ .identity ∨ (parseHeaderBodyIdentity data ar).1 = .ok)

structure HeaderScan where
  kinds : List LineKind
  /-- the first answer of `parse_header_line` other than `OK` -/
  status : Status
  /-- the lines are complete, and the body handler answers at once -/
  complete : Bool
  deriving DecidableEq, Repr

theorem record_pos (k : LineKind) (ar : ParseArchive) : (k.record ar).nextParsePos = ar.nextParsePos := by
  cases k <;> rfl

def headerScan (data : List Byte) (ar : ParseArchive) : HeaderScan :=
  match _h : parseHeaderLine data ar with
  | (.ok, ar') =>
    let data' := ssstrTolower data ar'.headerName
    let k := kindOf data' ar'
    let rest := headerScan data' (k.record ar')
    { rest with kinds := k :: rest.kinds }
  | (.crlfLine, ar') => ⟨[], .crlfLine, bodyAnswers data ar'⟩
  | (st, _) => ⟨[], st, false⟩
termination_by data.length - ar.nextParsePos
decreasing_by
  have hpos := parseHeaderLine_done_pos _h (.inl rfl)
  rw [ssstrTolower_length, record_pos]
  omega

section Equations

variable {data : List Byte} {ar ar' : ParseArchive}

theorem headerScan_ok (h : parseHeaderLine data ar = (.ok, ar')) :
    headerScan data ar =
      let data' := ssstrTolower data ar'.headerName
      let k := kindOf data' ar'
      let rest := headerScan data' (k.record ar')
      ⟨k :: rest.kinds, rest.status, rest.complete⟩ := by
  rw [headerScan, h]

theorem headerScan_again (h : parseHeaderLine data ar = (.again, ar')) : headerScan data ar = ⟨[], .again, false⟩ := by
  rw [headerScan, h]

theorem headerScan_error (h : parseHeaderLine data ar = (.error, ar')) : headerScan data ar = ⟨[], .error, false⟩ := by
  rw [headerScan, h]

theorem headerScan_crlfLine (h : parseHeaderLine data ar = (.crlfLine, ar')) :
    headerScan data ar = ⟨[], .crlfLine, bodyAnswers data ar'⟩ := by
  rw [headerScan, h]

end Equations

section Dress

variable (u : ReqUrl) (keep done err : Bool)

theorem record_dress (k : LineKind) (ar : ParseArchive) :
    ∃ keep', k.record (ar.dress u keep done err) = (k.record ar).dress u keep' done err := by
  cases k with
  | keepAlive => exact ⟨true, rfl⟩
  | close => exact ⟨false, rfl⟩
  | _ => exact ⟨keep, rfl⟩

/-- The flags and the URL do not matter to the scan. -/
theorem headerScan_dress (data : List Byte) (ar : ParseArchive) :
    headerScan data (ar.dress u keep done err) = headerScan data ar := by
  induction hn : data.length - ar.nextParsePos using Nat.strong_induction_on generalizing data ar keep with
  | _ n ih =>
    have hdress := parseHeaderLine_dress u keep done err data ar
    rcases h : parseHeaderLine data ar with ⟨_ | _ | _ | _, ar'⟩ <;> rw [h] at hdress
    · have hpos := parseHeaderLine_done_pos h (.inl rfl)
      rw [headerScan_ok hdress, headerScan_ok h]
      obtain ⟨keep', hrecord⟩ := record_dress u keep done err
        (kindOf (ssstrTolower data ar'.headerName) ar') ar'
      have hrest := ih _ (by rw [← hn, ssstrTolower_length, record_pos]; omega) keep'
        (ssstrTolower data ar'.headerName) ((kindOf (ssstrTolower data ar'.headerName) ar').record ar') rfl
      rw [← hrecord] at hrest
      simp only
      change HeaderScan.mk (kindOf _ ar' :: (headerScan _ (LineKind.record (kindOf _ ar') _)).kinds) _ _ = _
      rw [← hrest]
      rfl
    · rw [headerScan_again hdress, headerScan_again h]
    · rw [headerScan_crlfLine hdress, headerScan_crlfLine h]
      unfold bodyAnswers
      rw [parseHeaderBodyIdentity_dress]
      rfl
    · rw [headerScan_error hdress, headerScan_error h]

end Dress

/-! ### The scan before a call of the handlers -/

/-- Nothing is left but an answer of the parser. -/
def HeaderScan.stop (st : Status) : HeaderScan := ⟨[], st, false⟩

/-- A line before the others. -/
def HeaderScan.cons (k : LineKind) (sc : HeaderScan) : HeaderScan := { sc with kinds := k :: sc.kinds }

/-- The scan after a complete request line. -/
def pathScan (env : Env) (data : List Byte) (ar : ParseArchive) : HeaderScan :=
  match ar.url.absPath.str with
  | .buf b =>
    match pathEnd data b with
    | some p =>
      match env.openat (relativePath (data.set p NUL) b ar.url.absPath.len) with
      | some _ => headerScan (data.set p NUL) ar
      | none => .stop .error
    | none => .stop .again
  | _ => .stop .again

/-- The scan that the handlers will see. -/
def Conn.scan (env : Env) (c : Conn) : HeaderScan :=
  match c.req.reqHandler with
  | none => .stop .again
  | some .body => ⟨[], .crlfLine, bodyAnswers c.req.ib c.req.par⟩
  | some .headers => headerScan c.req.ib c.req.par
  | some .requestLine =>
    match parseRequestLine c.req.ib c.req.par with
    | (.again, _) => .stop .again
    | (.ok, ar) =>
      if ar.version.httpMajor > 1 ∨ ar.version.httpMinor > 1 then .stop .error else pathScan env c.req.ib ar
    | (_, _) => .stop .error

/-- What the handlers do while a scan is before them, and what each of it keeps. -/
structure ScanInv (env : Env) (P : HeaderScan → Conn → Prop) : Prop where
  /-- a call of a parser -/
  parse : ∀ sc c ar, P sc c → ar.owned = c.req.par.owned → P sc (c.mapPar fun _ => ar)
  /-- an error that no line before it explains -/
  error : ∀ c code, code ≠ 200 → P (.stop .error) c → P (.stop .again) (responseAssembleErrBuffer env c code).2
  /-- the version and the `NUL` after the path -/
  path : ∀ sc c p, c.req.reqHandler = some .requestLine → P sc c → P sc (c.acceptVersion.closePath p)
  /-- the resource -/
  resource : ∀ sc c file, c.req.reqHandler = some .requestLine → P sc c → P sc (openResource c file)
  /-- a line that is accepted -/
  record : ∀ k sc c, k.answer = none → P (.cons k sc) c → P sc (c.lowerName.mapPar k.record)
  /-- a line that is refused -/
  refuse : ∀ k sc c code, k.answer = some code → P (.cons k sc) c →
    P sc (responseAssembleErrBuffer env (c.lowerName.mapPar k.record) code).2
  /-- the end of the header lines -/
  body : ∀ sc c, P sc c → P sc (c.setHandler (some .body))
  /-- the body is not complete -/
  wait : ∀ c, P ⟨[], .crlfLine, false⟩ c → P (.stop .again) c
  /-- a response -/
  answer : ∀ c, P ⟨[], .crlfLine, true⟩ c → P (.stop .again) (responseAssembleBuffer env (c.turnOut.setHandler none))
  /-- a coding that is not implemented -/
  coding : ∀ c, P ⟨[], .crlfLine, true⟩ c → P (.stop .again) (responseAssembleErrBuffer env c 501).2

section Calls

variable {env : Env} {c c' : Conn} {st : Status} {ar : ParseArchive} {P : HeaderScan → Conn → Prop}

theorem requestLine_scan (hP : ScanInv env P) (hhd : c.req.reqHandler = some .requestLine) (hc : P (c.scan env) c)
    (h : requestHandleRequestLine env c = .ok (st, c')) :
    (st = .ok ∧ c'.req.reqHandler ≠ none ∧ P (c'.scan env) c') ∨
      ((st = .ok → c'.req.reqHandler = none) ∧ P (.stop .again) c') := by
  have hscan : c.scan env = match parseRequestLine c.req.ib c.req.par with
      | (.again, _) => .stop .again
      | (.ok, ar) =>
        if ar.version.httpMajor > 1 ∨ ar.version.httpMinor > 1 then .stop .error else pathScan env c.req.ib ar
      | (_, _) => .stop .error := by
    unfold Conn.scan
    rw [hhd]
  unfold requestHandleRequestLine at h
  rcases hp : parseRequestLine c.req.ib c.req.par with ⟨_ | _ | _ | _, ar⟩ <;> rw [hp] at h hscan <;>
    simp only at h hscan <;> rw [hscan] at hc <;> have howned := (parseRequestLine_owned hp).1
  · split_ifs at h hc with hver
    · obtain ⟨rfl, rfl⟩ := Prod.mk.inj (Except.ok.inj h)
      exact .inr ⟨fun _ => assembleErr_handler _ _ _, hP.error _ 505 (by omega) (hP.parse _ c ar hc howned)⟩
    · unfold requestHandlePath at h
      unfold pathScan at hc
      split at h
      · rename_i b hb
        rw [show ar.url.absPath.str = .buf b from hb] at hc
        simp only at hc
        split at h
        · cases h
        · rename_i p hend
          rw [show pathEnd c.req.ib b = some p from hend] at hc
          simp only at h hc
          split at h
          · rename_i hnone
            rw [show env.openat (relativePath (c.req.ib.set p NUL) b ar.url.absPath.len) = none from hnone] at hc
            obtain ⟨rfl, rfl⟩ := Prod.mk.inj (Except.ok.inj h)
            exact .inr ⟨fun _ => assembleErr_handler _ _ _, hP.error _ 404 (by omega)
              (hP.path _ _ p hhd (hP.parse _ c ar hc howned))⟩
          · rename_i file hsome
            rw [show env.openat (relativePath (c.req.ib.set p NUL) b ar.url.absPath.len) = some file from hsome] at hc
            obtain ⟨rfl, rfl⟩ := Prod.mk.inj (Except.ok.inj h)
            have hframe := openResource_frame ((c.mapPar fun _ => ar).acceptVersion.closePath p) file
            have hhandler := openResource_handler ((c.mapPar fun _ => ar).acceptVersion.closePath p) file
            refine .inl ⟨rfl, by rw [hhandler]; simp, ?_⟩
            -- the lines are the same ones with the flags and the URL that are written here
            have hscan' : (openResource ((c.mapPar fun _ => ar).acceptVersion.closePath p) file).scan env =
                headerScan (c.req.ib.set p NUL) ar := by
              unfold Conn.scan
              rw [hhandler]
              simp only
              rw [hframe.req]
              exact headerScan_dress _ _ ar.responseDone ar.errReq (c.req.ib.set p NUL) ar
            rw [hscan']
            exact hP.resource _ _ file hhd (hP.path _ _ p hhd (hP.parse _ c ar hc howned))
      · cases h
  · obtain ⟨rfl, rfl⟩ := Prod.mk.inj (Except.ok.inj h)
    exact .inr ⟨nofun, hP.parse _ c ar hc howned⟩
  · obtain ⟨rfl, rfl⟩ := Prod.mk.inj (Except.ok.inj h)
    exact .inr ⟨fun _ => assembleErr_handler _ _ _, hP.error _ 400 (by omega) (hP.parse _ c ar hc howned)⟩
  · obtain ⟨rfl, rfl⟩ := Prod.mk.inj (Except.ok.inj h)
    exact .inr ⟨fun _ => assembleErr_handler _ _ _, hP.error _ 400 (by omega) (hP.parse _ c ar hc howned)⟩

theorem assembleErr_dress (env : Env) (c : Conn) (code : ℕ) :
    (responseAssembleErrBuffer env c code).2.req.par = c.req.par.dress c.req.par.url false true true :=
  assembleErr_par env c code

theorem headerScan_handleHeader (env : Env) (h : parseHeaderLine c.req.ib c.req.par = (.ok, ar)) :
    headerScan c.req.ib c.req.par = .cons (c.mapPar fun _ => ar).lowerName.kind
      (headerScan (handleHeader env (c.mapPar fun _ => ar)).2.req.ib
        (handleHeader env (c.mapPar fun _ => ar)).2.req.par) := by
  rw [headerScan_ok h, handleHeader_eq]
  simp only
  cases hans : (c.mapPar fun _ => ar).lowerName.kind.answer with
  | none => rfl
  | some code =>
    simp only [finishHeader]
    rw [assembleErr_ib, assembleErr_dress, headerScan_dress]
    rfl

theorem headers_scan (hP : ScanInv env P) (hc : P (headerScan c.req.ib c.req.par) c) :
    let res := requestHandleHeaders env c
    (res.1 = .ok ∧ res.2.req.reqHandler = some .body ∧
      P ⟨[], .crlfLine, bodyAnswers res.2.req.ib res.2.req.par⟩ res.2) ∨
      ((res.1 = .ok → res.2.req.reqHandler = none) ∧ P (.stop .again) res.2) := by
  refine requestHandleHeaders_rule (fun c => P (headerScan c.req.ib c.req.par) c)
    (fun res => (res.1 = .ok ∧ res.2.req.reqHandler = some .body ∧
      P ⟨[], .crlfLine, bodyAnswers res.2.req.ib res.2.req.par⟩ res.2) ∨
      ((res.1 = .ok → res.2.req.reqHandler = none) ∧ P (.stop .again) res.2)) ?_ ?_ ?_ ?_ hc
  · intro c ar hc hp
    rw [headerScan_handleHeader env hp] at hc
    have hc₁ := hP.parse _ c ar hc (parseHeaderLine_frame hp).owned
    generalize headerScan (handleHeader env (c.mapPar fun _ => ar)).2.req.ib
      (handleHeader env (c.mapPar fun _ => ar)).2.req.par = sc at hc₁ ⊢
    rw [handleHeader_eq]
    cases hans : (c.mapPar fun _ => ar).lowerName.kind.answer with
    | none => exact hP.record _ sc _ hans hc₁
    | some code => exact hP.refuse _ sc _ code hans hc₁
  · intro c ar hc hp
    rw [headerScan_again hp] at hc
    exact .inr ⟨nofun, hP.parse _ c ar hc (parseHeaderLine_frame hp).owned⟩
  · intro c ar hc hp
    rw [headerScan_error hp] at hc
    exact .inr ⟨fun _ => assembleErr_handler _ _ _, hP.error _ 400 (by omega)
      (hP.parse _ c ar hc (parseHeaderLine_frame hp).owned)⟩
  · intro c ar hc hp
    rw [headerScan_crlfLine hp] at hc
    exact .inl ⟨rfl, rfl, hP.body _ _ (hP.parse _ c ar hc (parseHeaderLine_frame hp).owned)⟩

theorem body_scan (hP : ScanInv env P) (hc : P ⟨[], .crlfLine, bodyAnswers c.req.ib c.req.par⟩ c) :
    let res := requestHandleBody env c
    (res.1 = .ok → res.2.req.reqHandler = none) ∧ P (.stop .again) res.2 := by
  have howned := parseHeaderBodyIdentity_owned c.req.ib c.req.par
  rcases requestHandleBody_cases env c with ⟨ar, hte, hp, hres⟩ | ⟨ar, hte, hp, hres⟩ | ⟨hte, hres⟩ <;> rw [hres]
  · have hans : bodyAnswers c.req.ib c.req.par = false := by simp [bodyAnswers, hte, hp]
    rw [hp] at howned
    rw [hans] at hc
    exact ⟨nofun, hP.wait _ (hP.parse _ c ar hc howned)⟩
  · have hans : bodyAnswers c.req.ib c.req.par = true := by simp [bodyAnswers, hp]
    rw [hp] at howned
    rw [hans] at hc
    exact ⟨fun _ => rfl, hP.answer _ (hP.parse _ c ar hc howned)⟩
  · have hans : bodyAnswers c.req.ib c.req.par = true := by simp [bodyAnswers, hte]
    rw [hans] at hc
    exact ⟨fun _ => assembleErr_handler _ _ _, hP.coding c hc⟩

theorem call_scan (hP : ScanInv env P) {hd : ReqHandler} (hhd : c.req.reqHandler = some hd) (hc : P (c.scan env) c)
    (h : hd.call env c = .ok (st, c')) :
    (st = .ok ∧ c'.req.reqHandler ≠ none ∧ P (c'.scan env) c') ∨
      ((st = .ok → c'.req.reqHandler = none) ∧ P (.stop .again) c') := by
  cases hd with
  | requestLine => exact requestLine_scan hP hhd hc h
  | headers =>
    obtain hres : requestHandleHeaders env c = (st, c') := Except.ok.inj h
    have hscan : c.scan env = headerScan c.req.ib c.req.par := by
      unfold Conn.scan
      rw [hhd]
    rw [hscan] at hc
    have hheaders := headers_scan hP hc
    simp only [hres] at hheaders
    rcases hheaders with ⟨hst, hbody, hc'⟩ | hstop
    · refine .inl ⟨hst, by rw [hbody]; simp, ?_⟩
      have hscan' : c'.scan env = ⟨[], .crlfLine, bodyAnswers c'.req.ib c'.req.par⟩ := by
        unfold Conn.scan
        rw [hbody]
      rw [hscan']
      exact hc'
    · exact .inr hstop
  | body =>
    obtain hres : requestHandleBody env c = (st, c') := Except.ok.inj h
    have hscan : c.scan env = ⟨[], .crlfLine, bodyAnswers c.req.ib c.req.par⟩ := by
      unfold Conn.scan
      rw [hhd]
    rw [hscan] at hc
    have hbody := body_scan hP hc
    simp only [hres] at hbody
    exact .inr hbody

/-- **The handlers of one call of `request_handle`.**  What they keep while a scan is before them holds when it has been
dealt with. -/
theorem handlerLoop_scan (hP : ScanInv env P) (hc : P (c.scan env) c) (h : handlerLoop env c = .ok (st, c')) :
    P (.stop .again) c' := by
  refine handlerLoop_rule (fun c => P (c.scan env) c) (fun _ c => P (.stop .again) c) ?_ ?_ hc h
  · intro c c' hd hc hhd hcall hne
    rcases call_scan hP hhd hc hcall with ⟨-, -, hc'⟩ | ⟨hnone, -⟩
    · exact hc'
    · exact absurd (hnone rfl) hne
  · intro c c' hd st hc hhd hcall hstop
    rcases call_scan hP hhd hc hcall with ⟨hst, hne, -⟩ | ⟨-, hc'⟩
    · exact absurd (hstop hst) hne
    · exact hc'

end Calls

end Lotos
