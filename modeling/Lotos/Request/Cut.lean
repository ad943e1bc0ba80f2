import Lotos.Request.Path
import Lotos.Request.Reuse

/-!
# More bytes of a request

The handlers of a request are called with what has been received so far, and again when more has been received.  This module
compares a call with the call on a buffer that has more bytes at its end (`Conn.receive`).  A handler that comes to its end
does the same on the longer buffer, and one that answers `AGAIN` goes on as it would have done with all the bytes
(`call_goesOn`).

There are two exceptions to "the same".  After an error the archive has the position of the last call, and once the body is
complete all bytes of the buffer have been counted; neither is looked at again (`Conn.SameReply`).  And `atoi` skips the end
of a line that is white space alone, so that no `Content-Length` may be like that (`SolidLengths`).
-/

namespace Lotos

/-! ### More bytes -/

/-- The result of a handler, with more bytes received. -/
def receiveRes (more : List Byte) (res : Status × Conn) : Status × Conn := (res.1, res.2.receive more)

section Receive

variable (env : Env) (c : Conn) (more : List Byte)

@[simp] theorem receive_par : (c.receive more).req.par = c.req.par := rfl

@[simp] theorem receive_ib : (c.receive more).req.ib = c.req.ib ++ more := rfl

@[simp] theorem receive_handler : (c.receive more).req.reqHandler = c.req.reqHandler := rfl

theorem receive_mapPar (f : ParseArchive → ParseArchive) : (c.receive more).mapPar f = (c.mapPar f).receive more := rfl

theorem assembleErr_receive (code : ℕ) :
    responseAssembleErrBuffer env (c.receive more) code = receiveRes more (responseAssembleErrBuffer env c code) := rfl

theorem openResource_receive (file : File) : openResource (c.receive more) file = (openResource c file).receive more := by
  unfold openResource Conn.setResource
  rcases file with content | ⟨size, _ | content⟩ <;> simp only <;> generalize toInt _ = n <;> rfl

theorem finishHeader_receive (ans : Option ℕ) :
    finishHeader env (c.receive more) ans = receiveRes more (finishHeader env c ans) := by
  cases ans with
  | none => rfl
  | some code => exact assembleErr_receive env c more code

theorem responseAssembleBuffer_receive (hmime : c.req.par.url.mimeExtension.InBounds c.req.ib.length) :
    responseAssembleBuffer env (c.receive more) = (responseAssembleBuffer env c).receive more :=
  congrArg (Conn.mapGhost · fun g => { g with received := g.received ++ more })
    (responseAssembleBuffer_extend env c more hmime)

end Receive

/-! ### The request line -/

section RequestLine

variable {env : Env} {c : Conn} {ar : ParseArchive}

/-- The path that `openat` gets ends before what has been received behind it. -/
theorem relativePath_receive {data : List Byte} {b p : ℕ} (more : List Byte) (hbp : b < p) (hp : p < data.length) (len : ℤ) :
    relativePath (data.set p NUL ++ more) b len = relativePath (data.set p NUL) b len := by
  have hlen : (data.set p NUL).length = data.length := List.length_set
  obtain ⟨pre, post, hsplit⟩ : ∃ pre post, (data.set p NUL).drop (b + 1) = pre ++ NUL :: post := by
    refine List.append_of_mem ?_
    rw [List.mem_iff_getElem?]
    refine ⟨p - (b + 1), ?_⟩
    rw [List.getElem?_drop, show b + 1 + (p - (b + 1)) = p from by omega, List.getElem?_set_self hp]
  unfold relativePath
  rw [List.getD_append _ _ _ _ (by omega), List.drop_append_of_le_length (by omega), hsplit, List.append_assoc,
    List.cons_append, cString_append_nul, cString_append_nul]

theorem Conn.AtLine.pathStop (h : c.AtLine) (hp : parseRequestLine c.req.ib c.req.par = (.ok, ar)) {b : ℕ}
    (hb : ar.url.absPath.str = .buf b) : ∃ p, pathEnd c.req.ib b = some p ∧ b < p ∧ p < c.req.ib.length := by
  obtain ⟨hpath, -, -⟩ := h.path hp
  obtain ⟨p, hend⟩ := Option.ne_none_iff_exists'.mp (hpath b hb)
  obtain ⟨hle, hlt⟩ := pathEnd_bounds hend
  refine ⟨p, hend, lt_of_le_of_ne hle ?_, hlt⟩
  rintro rfl
  obtain ⟨line, hline, ⟨rest, hrest⟩, rfl⟩ := h.ok hp
  obtain ⟨rfl, -⟩ := parseUrl_absPath { parseArchiveInit with
    methodBegin := some 0
    method := line.method
    urlBegin := some line.urlPos
    state := .rlSpBeforeVersion } rfl hb
  obtain ⟨v, hv, -⟩ := hline.url
  obtain ⟨tail, htail⟩ := drop_urlPos ⟨rest, hrest⟩
  rw [hv] at htail
  obtain ⟨i, hi, hzero⟩ := Option.map_eq_some_iff.mp hend
  obtain rfl : i = 0 := by omega
  rw [htail, List.cons_append, List.findIdx?_cons] at hi
  simp [SLASH, SP, QUESTION] at hi

theorem requestHandlePath_receive (more : List Byte) (hpath : ∀ b, c.req.par.url.absPath.str = .buf b →
    ∃ p, pathEnd c.req.ib b = some p ∧ b < p ∧ p < c.req.ib.length) :
    requestHandlePath env (c.receive more) = (requestHandlePath env c).map (receiveRes more) := by
  unfold requestHandlePath
  rw [receive_par]
  cases hstr : c.req.par.url.absPath.str with
  | buf b =>
    obtain ⟨p, hend, hbp, hp⟩ := hpath b hstr
    have hclose : (c.receive more).closePath p = (c.closePath p).receive more := by
      have hset : (c.req.ib ++ more).set p NUL = c.req.ib.set p NUL ++ more := List.set_append_left _ _ hp
      simp only [Conn.closePath, Conn.receive, Conn.mapReq, Conn.mapGhost, hset]
    have hrel : ∀ len, relativePath ((c.closePath p).req.ib ++ more) b len = relativePath (c.closePath p).req.ib b len :=
      relativePath_receive more hbp hp
    simp only [receive_ib, pathEnd_append more hend, hend, hclose, hrel, receive_par]
    cases env.openat (relativePath (c.closePath p).req.ib b (c.closePath p).req.par.url.absPath.len) with
    | none => rfl
    | some file =>
      simp only [openResource_receive]
      rfl
  | null => rfl
  | const => rfl

theorem requestLine_receive (h : c.AtLine) (more : List Byte) (hne : (parseRequestLine c.req.ib c.req.par).1 ≠ .again) :
    requestHandleRequestLine env (c.receive more) = (requestHandleRequestLine env c).map (receiveRes more) := by
  have hparse : parseRequestLine (c.receive more).req.ib (c.receive more).req.par = parseRequestLine c.req.ib c.req.par :=
    parseRequestLine_append more h.pos h.pending hne
  unfold requestHandleRequestLine
  rw [hparse]
  rcases hp : parseRequestLine c.req.ib c.req.par with ⟨_ | _ | _ | _, ar⟩ <;> simp only
  · split_ifs
    · rfl
    · exact requestHandlePath_receive (c := (c.mapPar fun _ => ar).acceptVersion) more fun b hb => h.pathStop hp hb
  · exact absurd (congrArg Prod.fst hp) hne
  · rfl
  · rfl

end RequestLine

/-! ### A header line -/

/-- The bytes after a line do not matter to its kind, but for a `Content-Length` of white space alone. -/
theorem kind_solid {l : HeaderLine} (h : l.named "content-length" = true → l.solid) (more more' : List Byte) :
    l.kind more = l.kind more' := by
  have hword : ∀ word : String, CR ∉ str word → (str word).map toLower = str word →
      ssstrCaseequal (l.value ++ CR :: more) ⟨.buf 0, 0⟩ (str word) =
        ssstrCaseequal (l.value ++ CR :: more') ⟨.buf 0, 0⟩ (str word) := by
    intro word hcr hlower
    rw [caseequal_line l more hcr hlower, caseequal_line l more' hcr hlower]
  unfold HeaderLine.kind
  cases hentry : headerEntry (l.name.map toLower) with
  | none => rfl
  | some x =>
    obtain ⟨func, slot⟩ := x
    cases func with
    | base => rfl
    | connection =>
      simp only [HeaderFunc.memKind, HeaderFunc.kind]
      rw [hword "keep-alive" (by decide +kernel) (by decide +kernel),
        hword "close" (by decide +kernel) (by decide +kernel)]
    | contentLength =>
      have hname : l.named "content-length" = true := by
        obtain ⟨e, he, hname, hx⟩ := headerEntry_mem hentry
        have hspecial := (hfList_special e he).2.1 (by rw [hx])
        rw [hspecial] at hname
        exact decide_eq_true hname.symm
      simp only [HeaderFunc.memKind, HeaderFunc.kind, Ssstr.mem, List.drop_zero]
      rw [atoi_append_line (h hname), atoi_append_line (h hname)]
    | transferEncoding =>
      simp only [HeaderFunc.memKind, HeaderFunc.kind, codingOf]
      rw [hword "chunked" (by decide +kernel) (by decide +kernel),
        hword "compress" (by decide +kernel) (by decide +kernel),
        hword "deflate" (by decide +kernel) (by decide +kernel),
        hword "gzip" (by decide +kernel) (by decide +kernel),
        hword "identity" (by decide +kernel) (by decide +kernel)]

theorem lowerName_receive {c : Conn} (more : List Byte) (hname : c.req.par.headerName.InBounds c.req.ib.length) :
    (c.receive more).lowerName = c.lowerName.receive more := by
  simp only [Conn.lowerName, Conn.receive, Conn.mapReq, Conn.mapGhost, ssstrTolower_append more hname]

theorem handleHeader_received (env : Env) (c : Conn) : (handleHeader env c).2.ghost.received = c.ghost.received := by
  rw [handleHeader_eq]
  cases c.lowerName.kind.answer with
  | none => rfl
  | some code =>
    rw [finishHeader, assembleErr_eq]
    rfl

theorem handleHeader_receive (env : Env) {c : Conn} {l : HeaderLine} {ar : ParseArchive} (more : List Byte)
    (hpre : l.bytes <+: c.req.ib.drop ar.nextParsePos) (hpar : c.req.par = l.taken ar)
    (hsolid : l.named "content-length" = true → l.solid) :
    handleHeader env (c.receive more) = receiveRes more (handleHeader env c) := by
  have hpos : ar.nextParsePos ≤ c.req.ib.length := (Nat.le_add_right _ _).trans (line_length hpre).2
  have hpre' : l.bytes <+: (c.receive more).req.ib.drop ar.nextParsePos := by
    rw [receive_ib, List.drop_append_of_le_length hpos]
    exact hpre.trans (List.prefix_append _ _)
  have hname : c.req.par.headerName.InBounds c.req.ib.length := by
    rw [hpar]
    rintro _ ⟨⟩
    have hlen := line_length hpre
    simp only [HeaderLine.taken, Int.toNat_natCast]
    omega
  obtain ⟨⟨m, hkind⟩, -⟩ := kind_of_line hpre hpar
  obtain ⟨⟨m', hkind'⟩, -⟩ := kind_of_line hpre' hpar
  have hsame : (c.receive more).lowerName.kind = c.lowerName.kind := by rw [hkind, hkind', kind_solid hsolid m' m]
  rw [handleHeader_eq, handleHeader_eq, hsame, lowerName_receive more hname, receive_mapPar]
  exact finishHeader_receive env _ more _

/-! ### Among the header lines -/

/-- Header lines are being read, whatever has been answered. -/
structure Conn.InLines (c : Conn) (line : RequestLine) (ls : List HeaderLine) : Prop where
  start : line.Grammar
  headers : ∀ l ∈ ls, l.Grammar
  lines : linesBytes line ls <+: c.ghost.received
  ib : c.req.ib.drop (linesBytes line ls).length = c.ghost.received.drop (linesBytes line ls).length
  length : c.req.ib.length = c.ghost.received.length
  pos : c.req.par.nextParsePos ≤ c.req.ib.length
  same : ∃ ar₀, ar₀.state = .hdBegin ∧ ar₀.nextParsePos = (linesBytes line ls).length ∧
    ∀ ys, SameAnswer (parseHeaderLine (c.req.ib ++ ys) c.req.par) (parseHeaderLine (c.req.ib ++ ys) ar₀)

theorem Conn.AtHeaders.inLines {c : Conn} {line : RequestLine} {ls : List HeaderLine} (h : c.AtHeaders line ls) :
    c.InLines line ls :=
  ⟨h.read.start, h.read.headers, h.lines, h.ib, h.length, h.pos, h.same⟩

section InLines

variable {env : Env} {c : Conn} {line : RequestLine} {ls : List HeaderLine} {ar : ParseArchive}

theorem Conn.InLines.receive (h : c.InLines line ls) (more : List Byte) : (c.receive more).InLines line ls := by
  have hle := h.lines.length_le
  have hle' : (linesBytes line ls).length ≤ c.req.ib.length := by
    rw [h.length]
    exact hle
  obtain ⟨ar₀, hst, hpos, hsame⟩ := h.same
  refine ⟨h.start, h.headers, h.lines.trans (List.prefix_append _ _), ?_, ?_, ?_, ar₀, hst, hpos, ?_⟩
  · change (c.req.ib ++ more).drop _ = (c.ghost.received ++ more).drop _
    rw [List.drop_append_of_le_length hle', List.drop_append_of_le_length hle, h.ib]
  · rw [(receive_length c more).1, (receive_length c more).2, h.length]
  · rw [(receive_length c more).1]
    exact h.pos.trans (Nat.le_add_right _ _)
  · intro ys
    have hsame := hsame (more ++ ys)
    rw [← List.append_assoc] at hsame
    exact hsame

theorem Conn.InLines.again (h : c.InLines line ls) (hp : parseHeaderLine c.req.ib c.req.par = (.again, ar)) :
    (c.mapPar fun _ => ar).InLines line ls := by
  obtain ⟨ar₀, hst, hpos, hsame⟩ := h.same
  exact ⟨h.start, h.headers, h.lines, h.ib, h.length, (parseHeaderLine_again_pos hp).le, ar₀, hst, hpos,
    fun ys => (parseHeaderLine_resume ys h.pos hp).trans (hsame ys)⟩

theorem Conn.InLines.taken (h : c.InLines line ls) (hp : parseHeaderLine c.req.ib c.req.par = (.ok, ar)) :
    ∃ (l : HeaderLine) (ar₀ : ParseArchive), l.Grammar ∧ ar₀.nextParsePos = (linesBytes line ls).length ∧
      l.bytes <+: c.req.ib.drop ar₀.nextParsePos ∧ ar = l.taken ar₀ := by
  obtain ⟨ar₀, hbegin, hpos, hsame⟩ := h.same
  have hsame := hsame []
  rw [List.append_nil, hp] at hsame
  have hp₀ := hsame.eq nofun
  obtain ⟨l, hl, hpre, har⟩ := parseHeaderLine_line hbegin hp₀
  exact ⟨l, ar₀, hl, hpos, hpre, har⟩

theorem Conn.InLines.take (env : Env) (h : c.InLines line ls) (hp : parseHeaderLine c.req.ib c.req.par = (.ok, ar))
    {l : HeaderLine} (hl : l.Grammar) {ar₀ : ParseArchive} (hpos : ar₀.nextParsePos = (linesBytes line ls).length)
    (hpre : l.bytes <+: c.req.ib.drop ar₀.nextParsePos) (har : ar = l.taken ar₀) :
    (handleHeader env (c.mapPar fun _ => ar)).2.InLines line (ls ++ [l]) := by
  obtain ⟨-, hdrop⟩ := kind_of_line (c := c.mapPar fun _ => ar) hpre har
  have hdone := parseHeaderLine_done_pos hp (.inl rfl)
  have hframe := handleHeader_pos env (c.mapPar fun _ => ar)
  simp only [mapPar_ib, mapPar_par] at hframe
  have hreceived : (handleHeader env (c.mapPar fun _ => ar)).2.ghost.received = c.ghost.received :=
    handleHeader_received env _
  have hkept : (handleHeader env (c.mapPar fun _ => ar)).2.req.ib = (c.mapPar fun _ => ar).lowerName.req.ib ∧
      (handleHeader env (c.mapPar fun _ => ar)).2.req.par.state = ar.state := by
    rw [handleHeader_eq]
    generalize (c.mapPar fun _ => ar).lowerName.kind = k
    cases k.answer with
    | none => cases k <;> exact ⟨rfl, rfl⟩
    | some code =>
      rw [finishHeader, assembleErr_eq]
      cases k <;> exact ⟨rfl, rfl⟩
  obtain ⟨hib, hstate⟩ := hkept
  rw [hpos] at hpre hdrop
  have hlen : (linesBytes line (ls ++ [l])).length = (linesBytes line ls).length + l.bytes.length := by
    rw [linesBytes_concat, List.length_append]
  refine ⟨h.start, ?_, ?_, ?_, ?_, ?_, _, hstate.trans hdone.2.2, ?_, fun ys => .refl _⟩
  · intro l' hl'
    rcases List.mem_append.mp hl' with hl' | hl'
    · exact h.headers l' hl'
    · rw [List.mem_singleton.mp hl']
      exact hl
  · rw [linesBytes_concat, hreceived]
    refine prefix_append_of_drop h.lines ?_
    rw [← h.ib]
    exact hpre
  · have hnext := congrArg (List.drop l.bytes.length) h.ib
    rw [List.drop_drop, List.drop_drop] at hnext
    rw [hlen, hib, hreceived]
    exact hdrop.trans hnext
  · rw [hframe.1, hreceived, h.length]
  · rw [hframe.1, hframe.2]
    exact hdone.2.1
  · rw [hframe.2, hlen, har, ← hpos]
    rfl

end InLines

/-! ### Calls that go on -/

/-- The same response, and no handler to go on with. -/
structure Conn.SameReply (c c' : Conn) : Prop where
  handler : c.req.reqHandler = none
  handler' : c'.req.reqHandler = none
  answered : c.ghost.answers ≠ []
  answers : c'.ghost.answers = c.ghost.answers
  ob : c'.req.ob = c.req.ob
  resource : c'.req.resource = c.req.resource

/-- The results of two calls, equal but for what is not looked at again. -/
def Alike (x y : Except Fault (Status × Conn)) : Prop :=
  x = y ∨ ∃ c c', x = .ok (.ok, c) ∧ y = .ok (.ok, c') ∧ c.SameReply c'

/-- What more bytes make of a call: the call with all of them does what it has done with the first ones, or what the next
call will do. -/
inductive GoesOn (f : Conn → Except Fault (Status × Conn)) (more : List Byte) (c : Conn) : Prop where
  | fault (e : Fault) (h : f c = .error e) (h' : f (c.receive more) = .error e)
  | done (c' : Conn) (h : f c = .ok (.ok, c')) (h' : Alike (.ok (.ok, c'.receive more)) (f (c.receive more)))
  | waits (c' : Conn) (h : f c = .ok (.again, c')) (h' : Alike (f (c'.receive more)) (f (c.receive more)))

theorem GoesOn.congr {f : Conn → Except Fault (Status × Conn)} {more : List Byte} {c c₁ : Conn} (h : GoesOn f more c₁)
    (heq : f c = f c₁) (heq' : f (c.receive more) = f (c₁.receive more)) : GoesOn f more c := by
  cases h with
  | fault e h h' => exact .fault e (heq.trans h) (heq'.trans h')
  | done c' h h' => exact .done c' (heq.trans h) (heq' ▸ h')
  | waits c' h h' => exact .waits c' (heq.trans h) (heq' ▸ h')

section Calls

variable {env : Env} {c : Conn} {line : RequestLine} {ls : List HeaderLine} {more : List Byte}

/-- After an error nothing but `next_parse_pos` can differ. -/
theorem assembleErr_sameReply (env : Env) (c : Conn) (code : ℕ) {ar ar' : ParseArchive} (h : ar.setPos 0 = ar'.setPos 0) :
    (responseAssembleErrBuffer env (c.mapPar fun _ => ar) code).2.SameReply
      (responseAssembleErrBuffer env (c.mapPar fun _ => ar') code).2 := by
  have hob : ∀ a : ParseArchive, ((c.mapPar fun _ => a).req.assembleErr env code).ob =
      ((c.mapPar fun _ => a.setPos 0).req.assembleErr env code).ob := fun _ => rfl
  rw [assembleErr_eq, assembleErr_eq]
  refine ⟨rfl, rfl, by simp, rfl, ?_, rfl⟩
  change ((c.mapPar fun _ => ar').req.assembleErr env code).ob = ((c.mapPar fun _ => ar).req.assembleErr env code).ob
  rw [hob ar', hob ar, h]

theorem SameAnswer.alike (env : Env) (c : Conn) {r r' : Status × ParseArchive} (h : SameAnswer r r')
    {x x' : Except Fault (Status × Conn)} (heq : r = r' → x = x')
    (herr : ∀ ar ar', r = (.error, ar) → r' = (.error, ar') →
      x = .ok (responseAssembleErrBuffer env (c.mapPar fun _ => ar) 400) ∧
        x' = .ok (responseAssembleErrBuffer env (c.mapPar fun _ => ar') 400)) : Alike x x' := by
  obtain ⟨st, ar⟩ := r
  obtain ⟨st', ar'⟩ := r'
  obtain ⟨hst, hpos, hpar⟩ := h
  obtain rfl : st = st' := hst
  by_cases hst : st = .error
  · subst hst
    obtain ⟨rfl, rfl⟩ := herr ar ar' rfl rfl
    exact .inr ⟨_, _, rfl, rfl, assembleErr_sameReply env c 400 hpos⟩
  · exact .inl (heq (Prod.ext rfl (hpar hst)))

theorem requestLine_again {ar : ParseArchive} (hp : parseRequestLine c.req.ib c.req.par = (.again, ar)) :
    requestHandleRequestLine env c = .ok (.again, c.mapPar fun _ => ar) := by
  rw [requestHandleRequestLine, hp]

theorem requestLine_error {ar : ParseArchive} (hp : parseRequestLine c.req.ib c.req.par = (.error, ar)) :
    requestHandleRequestLine env c = .ok (responseAssembleErrBuffer env (c.mapPar fun _ => ar) 400) := by
  rw [requestHandleRequestLine, hp]

theorem requestLine_waits (env : Env) (h : c.AtLine) (more : List Byte) {ar : ParseArchive}
    (hp : parseRequestLine c.req.ib c.req.par = (.again, ar)) :
    Alike (requestHandleRequestLine env ((c.mapPar fun _ => ar).receive more))
      (requestHandleRequestLine env (c.receive more)) := by
  refine (parseRequestLine_resume more h.pos h.pending hp).alike env (c.receive more) ?_ ?_
  · intro heq
    have heq : parseRequestLine ((c.mapPar fun _ => ar).receive more).req.ib ((c.mapPar fun _ => ar).receive more).req.par =
        parseRequestLine (c.receive more).req.ib (c.receive more).req.par := heq
    unfold requestHandleRequestLine
    rw [heq]
    rfl
  · intro ar₁ ar₂ h₁ h₂
    exact ⟨requestLine_error (c := (c.mapPar fun _ => ar).receive more) h₁, requestLine_error (c := c.receive more) h₂⟩

theorem requestLine_goesOn (env : Env) (h : c.AtLine) (more : List Byte) :
    GoesOn (requestHandleRequestLine env) more c := by
  rcases hp : parseRequestLine c.req.ib c.req.par with ⟨st, ar⟩
  by_cases hst : st = .again
  · subst hst
    exact .waits _ (requestLine_again hp) (requestLine_waits env h more hp)
  · have hne : (parseRequestLine c.req.ib c.req.par).1 ≠ .again := by rwa [hp]
    have hmap := @requestLine_receive env c h more hne
    cases hcall : requestHandleRequestLine env c with
    | error e =>
      rw [hcall] at hmap
      exact .fault e hcall hmap
    | ok res =>
      rw [hcall] at hmap
      have hok : res.1 = .ok := by
        rcases requestHandleRequestLine_cases hcall with ⟨ar, hp, -⟩ | ⟨ar, code, -, -, rfl, -⟩ |
          ⟨ar, b, p, -, -, -, -, -, ⟨-, rfl⟩ | ⟨file, -, rfl⟩⟩
        · exact absurd (by rw [hp]) hne
        · exact assembleErr_status _ _ _
        · exact assembleErr_status _ _ _
        · rfl
      obtain ⟨st, c'⟩ := res
      obtain rfl : st = .ok := hok
      exact .done c' hcall (.inl hmap.symm)

/-- The header lines see the connection through the answer of the parser. -/
theorem requestHandleHeaders_congr {c c' : Conn} (hpar : ∀ ar, (c.mapPar fun _ => ar) = c'.mapPar fun _ => ar)
    (hparse : parseHeaderLine c.req.ib c.req.par = parseHeaderLine c'.req.ib c'.req.par) :
    requestHandleHeaders env c = requestHandleHeaders env c' := by
  rcases hp : parseHeaderLine c.req.ib c.req.par with ⟨_ | _ | _ | _, ar⟩ <;> rw [hp] at hparse
  · rw [requestHandleHeaders_ok hp, requestHandleHeaders_ok hparse.symm, hpar]
  · rw [requestHandleHeaders_again hp, requestHandleHeaders_again hparse.symm, hpar]
  · rw [requestHandleHeaders_crlfLine hp, requestHandleHeaders_crlfLine hparse.symm, hpar]
  · rw [requestHandleHeaders_error hp, requestHandleHeaders_error hparse.symm, hpar]

theorem headers_waits (env : Env) (h : c.InLines line ls) (more : List Byte) {ar : ParseArchive}
    (hp : parseHeaderLine c.req.ib c.req.par = (.again, ar)) :
    Alike (.ok (requestHandleHeaders env ((c.mapPar fun _ => ar).receive more)))
      (.ok (requestHandleHeaders env (c.receive more))) := by
  refine (parseHeaderLine_resume more h.pos hp).alike env (c.receive more) ?_ ?_
  · intro heq
    exact congrArg Except.ok (requestHandleHeaders_congr (fun _ => rfl) heq)
  · intro ar₁ ar₂ h₁ h₂
    exact ⟨congrArg Except.ok (requestHandleHeaders_error (c := (c.mapPar fun _ => ar).receive more) h₁),
      congrArg Except.ok (requestHandleHeaders_error (c := c.receive more) h₂)⟩

theorem headers_goesOn (env : Env) (h : c.InLines line ls) (hsolid : SolidLengths (c.ghost.received ++ more)) :
    GoesOn (fun c => .ok (requestHandleHeaders env c)) more c := by
  induction hn : c.req.ib.length - c.req.par.nextParsePos using Nat.strong_induction_on generalizing c ls with
  | _ n ih =>
    rcases hp : parseHeaderLine c.req.ib c.req.par with ⟨st, ar⟩
    by_cases hst : st = .again
    · subst hst
      exact .waits _ (congrArg Except.ok (requestHandleHeaders_again hp)) (headers_waits env h more hp)
    · have hmore : parseHeaderLine (c.receive more).req.ib (c.receive more).req.par = (st, ar) := by
        have happend : parseHeaderLine (c.req.ib ++ more) c.req.par = parseHeaderLine c.req.ib c.req.par :=
          parseHeaderLine_append more h.pos (by rwa [hp])
        exact happend.trans hp
      cases st with
      | ok =>
        obtain ⟨l, ar₀, hl, hpos, hpre, har⟩ := h.taken hp
        have hnext := h.take env hp hl hpos hpre har
        have hreceived := handleHeader_received env (c.mapPar fun _ => ar)
        have hlsolid : l.named "content-length" = true → l.solid := by
          have hlines := hnext.lines.trans (List.prefix_append _ more)
          rw [hreceived] at hlines
          exact hsolid line (ls ++ [l]) hnext.start hnext.headers hlines l (by simp)
        have hheader := handleHeader_receive (c := c.mapPar fun _ => ar) env more hpre har hlsolid
        have hframe := handleHeader_pos env (c.mapPar fun _ => ar)
        have hdone := parseHeaderLine_done_pos hp (.inl rfl)
        simp only [mapPar_ib, mapPar_par] at hframe
        refine (ih _ (by omega) hnext (by rwa [hreceived]) rfl).congr (congrArg Except.ok (requestHandleHeaders_ok hp)) ?_
        rw [requestHandleHeaders_ok hmore, receive_mapPar, hheader]
        rfl
      | again => exact absurd rfl hst
      | crlfLine =>
        refine .done _ (congrArg Except.ok (requestHandleHeaders_crlfLine hp)) (.inl ?_)
        rw [requestHandleHeaders_crlfLine hmore]
        rfl
      | error =>
        refine .done _ (congrArg Except.ok ((requestHandleHeaders_error hp).trans (Prod.ext rfl rfl))) (.inl ?_)
        rw [requestHandleHeaders_error hmore, receive_mapPar, assembleErr_receive]
        rfl

/-- The bytes of the body that have been counted are not counted again. -/
theorem countBody_append {data more : List Byte} {ar : ParseArchive} (hpos : ar.nextParsePos ≤ data.length) :
    (ar.countBody data).countBody (data ++ more) = ar.countBody (data ++ more) := by
  simp only [ParseArchive.countBody, List.length_append, ParseArchive.mk.injEq, and_true, true_and]
  omega

theorem parseHeaderBodyIdentity_counts (data : List Byte) {ar : ParseArchive} (h : 0 < ar.contentLength) :
    parseHeaderBodyIdentity data ar =
      (if ar.contentLength ≤ (ar.countBody data).bodyReceived then .ok else .again, ar.countBody data) := by
  unfold parseHeaderBodyIdentity
  rw [if_neg (not_le.mpr h)]
  change (if ((ar.countBody data).bodyReceived : ℤ) ≥ ar.contentLength then
    (Status.ok, ar.countBody data) else (.again, ar.countBody data)) = _
  split_ifs <;> rfl

theorem requestHandleBody_congr {c c' : Conn} (hpar : ∀ ar, (c.mapPar fun _ => ar) = c'.mapPar fun _ => ar)
    (hte : c.req.par.transferEncoding = .identity) (hte' : c'.req.par.transferEncoding = .identity)
    (hparse : parseHeaderBodyIdentity c.req.ib c.req.par = parseHeaderBodyIdentity c'.req.ib c'.req.par) :
    requestHandleBody env c = requestHandleBody env c' := by
  unfold requestHandleBody
  rw [hte, hte', hparse]
  simp only [hpar]

theorem body_waits (env : Env) (hte : c.req.par.transferEncoding = .identity)
    (hpos : c.req.par.nextParsePos ≤ c.req.ib.length) (more : List Byte) {ar : ParseArchive}
    (hp : parseHeaderBodyIdentity c.req.ib c.req.par = (.again, ar)) :
    requestHandleBody env ((c.mapPar fun _ => ar).receive more) = requestHandleBody env (c.receive more) := by
  obtain ⟨rfl, hlen, -⟩ := parseHeaderBodyIdentity_again hp
  refine requestHandleBody_congr (fun _ => rfl) hte hte ?_
  change parseHeaderBodyIdentity (c.req.ib ++ more) (c.req.par.countBody c.req.ib) =
    parseHeaderBodyIdentity (c.req.ib ++ more) c.req.par
  have hlen' : 0 < (c.req.par.countBody c.req.ib).contentLength := hlen
  rw [parseHeaderBodyIdentity_counts _ hlen, parseHeaderBodyIdentity_counts _ hlen', countBody_append hpos]
  rfl

theorem assembleBuffer_sameReply (env : Env) (c : Conn) (ar : ParseArchive) (data data' : List Byte) :
    (responseAssembleBuffer env ((c.mapPar fun _ => ar.countBody data).turnOut.setHandler none)).SameReply
      (responseAssembleBuffer env ((c.mapPar fun _ => ar.countBody data').turnOut.setHandler none)) := by
  refine ⟨rfl, rfl, List.append_ne_nil_of_right_ne_nil _ (by simp), rfl, ?_, rfl⟩
  change (Request.responseAssembleBuffer env _).ob = (Request.responseAssembleBuffer env _).ob
  rw [responseAssembleBuffer_ob, responseAssembleBuffer_ob]
  rfl

theorem requestHandleBody_coding (h : c.req.par.transferEncoding ≠ .identity) :
    requestHandleBody env c = responseAssembleErrBuffer env c 501 := by
  rcases requestHandleBody_cases env c with ⟨-, hte, -⟩ | ⟨-, hte, -⟩ | ⟨-, heq⟩
  · exact absurd hte h
  · exact absurd hte h
  · exact heq

theorem requestHandleBody_ok {ar : ParseArchive} (hte : c.req.par.transferEncoding = .identity)
    (hp : parseHeaderBodyIdentity c.req.ib c.req.par = (.ok, ar)) :
    requestHandleBody env c = (.ok, responseAssembleBuffer env (((c.mapPar fun _ => ar).turnOut).setHandler none)) := by
  unfold requestHandleBody
  rw [hte, hp]

theorem body_goesOn (env : Env) (hmime : c.req.par.url.mimeExtension.InBounds c.req.ib.length)
    (hpos : c.req.par.nextParsePos ≤ c.req.ib.length) (more : List Byte) :
    GoesOn (fun c => .ok (requestHandleBody env c)) more c := by
  by_cases hte : c.req.par.transferEncoding = .identity
  · by_cases hlen : c.req.par.contentLength ≤ 0
    · -- no body is waited for
      have hp : ∀ data, parseHeaderBodyIdentity data c.req.par = (.ok, c.req.par) := fun _ => if_pos hlen
      have hmore := responseAssembleBuffer_receive env (((c.mapPar fun _ => c.req.par).turnOut).setHandler none) more hmime
      refine .done _ (congrArg Except.ok (requestHandleBody_ok hte (hp _))) (.inl ?_)
      rw [← hmore, requestHandleBody_ok (c := c.receive more) hte (hp _)]
      rfl
    · rw [not_le] at hlen
      by_cases hall : c.req.par.contentLength ≤ (c.req.par.countBody c.req.ib).bodyReceived
      · -- the body is complete, and what follows it is counted as well
        have hp : parseHeaderBodyIdentity c.req.ib c.req.par = (.ok, c.req.par.countBody c.req.ib) := by
          rw [parseHeaderBodyIdentity_counts _ hlen, if_pos hall]
        have hp' : parseHeaderBodyIdentity (c.req.ib ++ more) c.req.par = (.ok, c.req.par.countBody (c.req.ib ++ more)) := by
          have hall' : c.req.par.contentLength ≤ (c.req.par.countBody (c.req.ib ++ more)).bodyReceived := by
            simp only [ParseArchive.countBody, List.length_append] at hall ⊢
            omega
          rw [parseHeaderBodyIdentity_counts _ hlen, if_pos hall']
        have hmore := responseAssembleBuffer_receive env
          (((c.mapPar fun _ => c.req.par.countBody c.req.ib).turnOut).setHandler none) more hmime
        have hok := @requestHandleBody_ok env (c.receive more) _ hte hp'
        refine .done _ (congrArg Except.ok (requestHandleBody_ok hte hp)) (.inr ⟨_, _, rfl, congrArg Except.ok hok, ?_⟩)
        rw [← hmore]
        exact assembleBuffer_sameReply env (c.receive more) c.req.par c.req.ib (c.req.ib ++ more)
      · have hp : parseHeaderBodyIdentity c.req.ib c.req.par = (.again, c.req.par.countBody c.req.ib) := by
          rw [parseHeaderBodyIdentity_counts _ hlen, if_neg hall]
        have hwaits : requestHandleBody env c = (.again, c.mapPar fun _ => c.req.par.countBody c.req.ib) := by
          unfold requestHandleBody
          rw [hte, hp]
        exact .waits _ (congrArg Except.ok hwaits) (.inl (congrArg Except.ok (body_waits env hte hpos more hp)))
  · refine .done (responseAssembleErrBuffer env c 501).2 (congrArg Except.ok (requestHandleBody_coding hte)) (.inl ?_)
    rw [requestHandleBody_coding (c := c.receive more) hte, assembleErr_receive]
    rfl

end Calls

/-! ### Where a request is cut -/

/-- What is known of a request of which a part has been received. -/
structure Conn.Cut (c : Conn) : Prop where
  stage : c.Stage
  line : c.req.reqHandler = some .requestLine → c.ghost.answers = []
  lines : c.req.reqHandler = some .headers → ∃ line ls, c.InLines line ls
  counted : c.req.reqHandler = some .body → c.req.par.nextParsePos ≤ c.req.ib.length

theorem Conn.Cut.of_none {c : Conn} (h : c.req.reqHandler = none) : c.Cut :=
  ⟨.of_none h, by simp [h], by simp [h], by simp [h]⟩

section Cut

variable {env : Env} {c c' : Conn} {st : Status}

theorem Conn.Cut.receive (h : c.Cut) (more : List Byte) : (c.receive more).Cut where
  stage := h.stage.receive more
  line := h.line
  lines hhd := by
    obtain ⟨line, ls, hlines⟩ := h.lines hhd
    exact ⟨line, ls, hlines.receive more⟩
  counted hhd := by
    rw [(receive_length c more).1]
    exact (h.counted hhd).trans (Nat.le_add_right _ _)

theorem call_stage (h : c.Stage) {hd : ReqHandler} (hhd : c.req.reqHandler = some hd) {res : Status × Conn}
    (hcall : hd.call env c = .ok res) : res.2.Stage := by
  have hclosed : c.Closed [NUL] := fun _ => ⟨[], rfl⟩
  exact ((callIn_extend env h hclosed hhd).2 _ hcall).1

theorem call_cut (h : c.Cut) {hd : ReqHandler} (hhd : c.req.reqHandler = some hd) (hcall : hd.call env c = .ok (st, c')) :
    c'.Cut ∧ c'.ghost.received = c.ghost.received := by
  have hstage : c'.Stage := call_stage h.stage hhd hcall
  cases hd with
  | requestLine =>
    have hline : c.AtLine := by
      have hline := h.stage
      rw [Conn.Stage, hhd] at hline
      exact hline
    rcases requestHandleRequestLine_cases hcall with ⟨ar, -, hres⟩ | ⟨ar, code, -, -, hres, -⟩ |
      ⟨ar, b, p, hp, hmajor, hminor, hb, hend, ⟨-, hres⟩ | ⟨file, -, hres⟩⟩ <;> obtain ⟨-, rfl⟩ := Prod.ext_iff.mp hres
    · refine ⟨⟨hstage, h.line, ?_, ?_⟩, rfl⟩ <;> simp [Conn.mapPar, Conn.mapReq, hhd]
    · refine ⟨.of_none (assembleErr_handler _ _ _), ?_⟩
      rw [assembleErr_eq]
      rfl
    · refine ⟨.of_none (assembleErr_handler _ _ _), ?_⟩
      rw [assembleErr_eq]
      rfl
    · obtain ⟨line, hheaders⟩ := hline.headers hp ⟨hmajor, hminor⟩ hb hend file
      refine ⟨⟨hstage, by simp [openResource_handler], fun _ => ⟨line, [], hheaders.inLines⟩,
        by simp [openResource_handler]⟩, ?_⟩
      rw [(openResource_frame _ file).ghost]
      rfl
  | headers =>
    obtain ⟨line, ls, hlines⟩ := h.lines hhd
    have hrule : let res := requestHandleHeaders env c
        (res.2.Stage → res.2.Cut) ∧ res.2.ghost.received = c.ghost.received := by
      refine requestHandleHeaders_rule
        (fun c₁ => (∃ ls, c₁.InLines line ls) ∧ (c₁.req.reqHandler = some .headers ∨ c₁.req.reqHandler = none) ∧
          c₁.ghost.received = c.ghost.received)
        (fun res => (res.2.Stage → res.2.Cut) ∧ res.2.ghost.received = c.ghost.received) ?_ ?_ ?_ ?_
          ⟨⟨ls, hlines⟩, .inl hhd, rfl⟩
      · rintro c₁ ar ⟨⟨ls, hlines⟩, hhandler, hreceived⟩ hp
        obtain ⟨l, ar₀, hl, hpos, hpre, har⟩ := hlines.taken hp
        refine ⟨⟨ls ++ [l], hlines.take env hp hl hpos hpre har⟩, ?_, (handleHeader_received env _).trans hreceived⟩
        rw [handleHeader_eq]
        cases (c₁.mapPar fun _ => ar).lowerName.kind.answer with
        | none => exact hhandler
        | some code => exact .inr (assembleErr_handler _ _ _)
      · rintro c₁ ar ⟨⟨ls, hlines⟩, hhandler, hreceived⟩ hp
        refine ⟨fun hstage => ⟨hstage, ?_, fun _ => ⟨line, ls, hlines.again hp⟩, ?_⟩, hreceived⟩ <;>
          rcases hhandler with hhandler | hhandler <;> simp [Conn.mapPar, Conn.mapReq, hhandler]
      · rintro c₁ ar ⟨-, -, hreceived⟩ hp
        refine ⟨fun _ => .of_none (assembleErr_handler _ _ _), ?_⟩
        rw [assembleErr_eq]
        exact hreceived
      · rintro c₁ ar ⟨-, -, hreceived⟩ hp
        have hdone := parseHeaderLine_done_pos hp (.inr rfl)
        exact ⟨fun hstage => ⟨hstage, by rintro ⟨⟩, by rintro ⟨⟩, fun _ => hdone.2.1⟩, hreceived⟩
    rw [show requestHandleHeaders env c = (st, c') from Except.ok.inj hcall] at hrule
    exact ⟨hrule.1 hstage, hrule.2⟩
  | body =>
    obtain hres : requestHandleBody env c = (st, c') := Except.ok.inj hcall
    rcases requestHandleBody_cases env c with ⟨ar, -, hp, heq⟩ | ⟨ar, -, -, heq⟩ | ⟨-, heq⟩ <;>
      obtain ⟨-, rfl⟩ := Prod.ext_iff.mp (hres.symm.trans heq)
    · obtain ⟨rfl, -, -⟩ := parseHeaderBodyIdentity_again hp
      refine ⟨⟨hstage, h.line, ?_, fun _ => le_rfl⟩, rfl⟩
      simp [Conn.mapPar, Conn.mapReq, hhd]
    · exact ⟨.of_none rfl, rfl⟩
    · refine ⟨.of_none (assembleErr_handler _ _ _), ?_⟩
      rw [assembleErr_eq]

/-- **A call of a handler, and the call with more bytes.** -/
theorem call_goesOn (h : c.Cut) {hd : ReqHandler} (hhd : c.req.reqHandler = some hd) {more : List Byte}
    (hsolid : SolidLengths (c.ghost.received ++ more)) : GoesOn (fun c => hd.call env c) more c := by
  have hstage := h.stage
  rw [Conn.Stage, hhd] at hstage
  cases hd with
  | requestLine => exact requestLine_goesOn env hstage more
  | headers =>
    obtain ⟨line, ls, hlines⟩ := h.lines hhd
    exact headers_goesOn env hlines hsolid
  | body =>
    have hbody : c.BodyPending := hstage
    exact body_goesOn env hbody.mime (h.counted hhd) more

/-- A handler that answers `AGAIN` stays set, unless an error has been answered. -/
theorem call_again_handler {hd : ReqHandler} (hhd : c.req.reqHandler = some hd) (hcall : hd.call env c = .ok (.again, c')) :
    c'.req.reqHandler = some hd ∨ c'.req.reqHandler = none := by
  cases hd with
  | requestLine =>
    rcases requestHandleRequestLine_cases hcall with ⟨ar, -, hres⟩ | ⟨ar, code, -, -, hres, -⟩ |
      ⟨ar, b, p, -, -, -, -, -, ⟨-, hres⟩ | ⟨file, -, hres⟩⟩ <;> obtain ⟨hst, rfl⟩ := Prod.ext_iff.mp hres
    · exact .inl hhd
    all_goals cases hst
  | headers =>
    have hrule : (requestHandleHeaders env c).1 = .again →
        (requestHandleHeaders env c).2.req.reqHandler = some .headers ∨
          (requestHandleHeaders env c).2.req.reqHandler = none := by
      refine requestHandleHeaders_rule (fun c => c.req.reqHandler = some .headers ∨ c.req.reqHandler = none)
        (fun res => res.1 = .again → res.2.req.reqHandler = some .headers ∨ res.2.req.reqHandler = none) ?_ ?_ ?_ ?_
          (.inl hhd)
      · intro c ar hc hp
        rw [handleHeader_eq]
        cases (c.mapPar fun _ => ar).lowerName.kind.answer with
        | none => exact hc
        | some code => exact .inr (assembleErr_handler _ _ _)
      · intro c ar hc hp _
        exact hc
      · rintro c ar - - ⟨⟩
      · rintro c ar - - ⟨⟩
    rw [show requestHandleHeaders env c = (.again, c') from Except.ok.inj hcall] at hrule
    exact hrule rfl
  | body =>
    obtain hres : requestHandleBody env c = (.again, c') := Except.ok.inj hcall
    rcases requestHandleBody_cases env c with ⟨ar, -, -, heq⟩ | ⟨ar, -, -, heq⟩ | ⟨-, heq⟩ <;>
      obtain ⟨hst, rfl⟩ := Prod.ext_iff.mp (hres.symm.trans heq)
    · exact .inl hhd
    all_goals cases hst

end Cut

end Lotos
