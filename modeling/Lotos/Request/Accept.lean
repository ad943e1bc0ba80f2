import Lotos.Parser.Url
import Lotos.Request.Lines
import Lotos.Request.Whole

/-!
# From the bytes to the response

What the buffer and the archive say about the bytes received, while a request is read: `Conn.AtLine` before the end of the
request line, `Conn.AtHeaders` among the header lines, `Conn.AtBody` after the empty line.  The handlers write into the
buffer, but only before the line that is read next: a `NUL` into the request line, and names in lower case into header
lines that have been dealt with.  So the bytes from the current line on are those received.

The handlers of the request lead from one stage to the next, to a response with status code 200 (`Conn.Served`), or to an
error response (`Conn.Rejected`).
-/

namespace Lotos

/-! ### The end of the path -/

section Path

variable {data : List Byte} {b e : ℕ}

/-- The loop that looks for the end of the path stops within what `parse_url` has read. -/
theorem pathEnd_le {p : ℕ} (hend : pathEnd data b = some p) (h : ∃ c ∈ slice data b (e + 1), c = SP ∨ c = QUESTION) :
    p ≤ e := by
  obtain ⟨c, hc, hstop⟩ := h
  obtain ⟨i, hi, rfl⟩ := Option.map_eq_some_iff.mp hend
  have hdrop : data.drop b = slice data b (e + 1) ++ (data.drop b).drop (e + 1 - b) := (List.take_append_drop _ _).symm
  rw [hdrop, List.findIdx?_append] at hi
  obtain ⟨j, hj⟩ : ∃ j, (slice data b (e + 1)).findIdx? (fun ch => ch == SP || ch == QUESTION) = some j := by
    rw [← Option.isSome_iff_exists, List.findIdx?_isSome, List.any_eq_true]
    exact ⟨c, hc, by simpa using hstop⟩
  rw [hj] at hi
  obtain rfl : j = i := by simpa using hi
  have hlt := (List.findIdx?_eq_some_iff_findIdx_eq.mp hj).1
  simp only [slice, List.length_take] at hlt
  omega

end Path

/-! ### What has been read -/

/-- The lines read so far, and what the archive has of them.  Of a `Content-Length` without anything but white space in its
value nothing is said: `atoi` has read on in the next line. -/
structure LinesRead (line : RequestLine) (ls : List HeaderLine) (o : Owned) : Prop where
  start : line.Grammar
  version : decimal line.major ≤ 1 ∧ decimal line.minor ≤ 1
  headers : ∀ l ∈ ls, l.Grammar
  coding : ∀ l ∈ ls, l.named "transfer-encoding" = false
  connection : ∀ l ∈ ls, l.named "connection" = true → l.startsWith "keep-alive" = true ∨ l.startsWith "close" = true
  length : ∀ l ∈ ls, l.named "content-length" = true → l.solid → 0 < atoi l.value
  identity : o.transferEncoding = .identity
  keepAlive : o.keepAlive = keepAliveOf line ls
  contentLength : ∀ l, lastNamed ls "content-length" = some l → l.solid → o.contentLength = atoi l.value

theorem LinesRead.concat {line : RequestLine} {ls : List HeaderLine} {ar : ParseArchive} (h : LinesRead line ls ar.owned)
    {l : HeaderLine} (hl : l.Grammar) {more : List Byte} (hk : (l.kind more).answer = none) :
    LinesRead line (ls ++ [l]) ((l.kind more).record ar).owned := by
  have hcoding := kind_transferEncoding hk
  have hforall : ∀ {P : HeaderLine → Prop}, (∀ l ∈ ls, P l) → P l → ∀ l' ∈ ls ++ [l], P l' := by
    intro P hls hl l' hl'
    rcases List.mem_append.mp hl' with hl' | hl'
    · exact hls l' hl'
    · rw [List.mem_singleton.mp hl']
      exact hl
  have hlength : l.named "content-length" = true → l.solid →
      0 < atoi l.value ∧ l.kind more = .length (atoi l.value) := by
    intro hname hsolid
    have hpos := kind_contentLength hname hk
    rwa [atoi_append_line hsolid] at hpos
  refine ⟨h.start, h.version, hforall h.headers hl, hforall h.coding hcoding, hforall h.connection ?_,
    hforall h.length fun hname hsolid => (hlength hname hsolid).1, ?_, ?_, ?_⟩
  · intro hname
    rcases kind_connection hname hk with ⟨hkeep, -⟩ | ⟨-, hclose, -⟩
    · exact .inl hkeep
    · exact .inr hclose
  · -- only a `Transfer-Encoding` sets the coding
    cases hkind : l.kind more with
    | coding te =>
      rw [hkind] at hk
      cases hk
    | _ => exact h.identity
  · unfold keepAliveOf
    rw [lastNamed_concat]
    cases hname : l.named "connection" with
    | true =>
      rcases kind_connection hname hk with ⟨hkeep, hkind⟩ | ⟨hkeep, -, hkind⟩ <;> rw [hkind] <;> exact hkeep.symm
    | false =>
      have hkeep : ((l.kind more).record ar).owned.keepAlive = ar.owned.keepAlive := by
        cases hlen : l.named "content-length" with
        | true =>
          rw [(kind_contentLength hlen hk).2]
          rfl
        | false =>
          rcases kind_other more hname hlen hcoding with hkind | ⟨slot, hkind⟩ <;> rw [hkind] <;> rfl
      rw [hkeep]
      exact h.keepAlive
  · intro l' hlast hsolid
    rw [lastNamed_concat] at hlast
    cases hname : l.named "content-length" with
    | true =>
      rw [hname] at hlast
      cases hlast
      rw [(hlength hname hsolid).2]
      rfl
    | false =>
      rw [hname] at hlast
      have hlen : ((l.kind more).record ar).owned.contentLength = ar.owned.contentLength := record_contentLength ar hk hname
      rw [hlen]
      exact h.contentLength l' hlast hsolid

/-! ### The stages -/

theorem SameAnswer.refl (r : Status × ParseArchive) : SameAnswer r r := ⟨rfl, rfl, fun _ => rfl⟩

theorem SameAnswer.trans {r₁ r₂ r₃ : Status × ParseArchive} (h₁ : SameAnswer r₁ r₂) (h₂ : SameAnswer r₂ r₃) :
    SameAnswer r₁ r₃ :=
  ⟨h₁.1.trans h₂.1, h₁.2.1.trans h₂.2.1, fun hne => (h₁.2.2 hne).trans (h₂.2.2 (h₁.1 ▸ hne))⟩

theorem SameAnswer.eq {r : Status × ParseArchive} {st : Status} {ar : ParseArchive} (h : SameAnswer (st, ar) r)
    (hst : st ≠ .error) : r = (st, ar) := (Prod.ext h.1 (h.2.2 hst)).symm

/-- The request line is being read: the archive is one from which the call on any longer buffer answers as a call on a
fresh archive would. -/
structure Conn.AtLine (c : Conn) : Prop where
  handler : c.req.reqHandler = some .requestLine
  ib : c.req.ib = c.ghost.received
  pos : c.req.par.nextParsePos ≤ c.req.ib.length
  pending : c.req.par.UrlPending
  same : ∀ ys, SameAnswer (parseRequestLine (c.req.ib ++ ys) c.req.par) (parseRequestLine (c.req.ib ++ ys) parseArchiveInit)

theorem linesBytes_concat (line : RequestLine) (ls : List HeaderLine) (l : HeaderLine) :
    linesBytes line (ls ++ [l]) = linesBytes line ls ++ l.bytes := by
  simp [linesBytes]

/-- Header lines are being read: the archive is one from which the call on any longer buffer answers as a call at the
beginning of the current line would. -/
structure Conn.AtHeaders (c : Conn) (line : RequestLine) (ls : List HeaderLine) : Prop where
  handler : c.req.reqHandler = some .headers
  read : LinesRead line ls c.req.par.owned
  bodyReceived : c.req.par.bodyReceived = 0
  lines : linesBytes line ls <+: c.ghost.received
  ib : c.req.ib.drop (linesBytes line ls).length = c.ghost.received.drop (linesBytes line ls).length
  length : c.req.ib.length = c.ghost.received.length
  pos : c.req.par.nextParsePos ≤ c.req.ib.length
  same : ∃ ar₀, ar₀.state = .hdBegin ∧ ar₀.nextParsePos = (linesBytes line ls).length ∧
    ∀ ys, SameAnswer (parseHeaderLine (c.req.ib ++ ys) c.req.par) (parseHeaderLine (c.req.ib ++ ys) ar₀)

/-- The body is being read: what follows the empty line has been counted up to `next_parse_pos`. -/
structure Conn.AtBody (c : Conn) (line : RequestLine) (ls : List HeaderLine) (ws : List Byte) : Prop where
  handler : c.req.reqHandler = some .body
  read : LinesRead line ls c.req.par.owned
  blanks : ∀ b ∈ ws, isBlank b = true
  lines : linesBytes line ls ++ emptyLine ws <+: c.ghost.received
  length : c.req.ib.length = c.ghost.received.length
  counted : (linesBytes line ls ++ emptyLine ws).length + c.req.par.bodyReceived = c.req.par.nextParsePos
  pos : c.req.par.nextParsePos ≤ c.req.ib.length

/-- Nothing has been answered. -/
structure Conn.Clean (c : Conn) : Prop where
  status : c.req.statusCode = 200
  answers : c.ghost.answers = []

/-- A request is being read. -/
def Conn.Accepting (c : Conn) : Prop :=
  c.Clean ∧ (c.AtLine ∨ (∃ line ls, c.AtHeaders line ls) ∨ ∃ line ls ws, c.AtBody line ls ws)

/-- An error has been answered. -/
structure Conn.Rejected (c : Conn) : Prop where
  status : c.req.statusCode ≠ 200
  answered : c.ghost.answers ≠ []
  answers : 200 ∉ c.ghost.answers

/-- The request that has been received, as the archive has it. -/
structure Conn.Holds (c : Conn) (w : WholeRequest) : Prop where
  bytes : w.bytes = c.ghost.received
  blanks : ∀ b ∈ w.blanks, isBlank b = true
  read : LinesRead w.line w.headers c.req.par.owned
  body : 0 < c.req.par.contentLength → c.req.par.contentLength ≤ w.rest.length

/-- The request has been answered by 200. -/
structure Conn.Served (c : Conn) : Prop where
  handler : c.req.reqHandler = none
  request : ∃ w, c.Holds w

section Line

variable {env : Env} {c : Conn} {ar : ParseArchive}

theorem Conn.AtLine.again (h : c.AtLine) (hp : parseRequestLine c.req.ib c.req.par = (.again, ar)) :
    (c.mapPar fun _ => ar).AtLine where
  handler := h.handler
  ib := h.ib
  pos := (parseRequestLine_again_pos hp).le
  pending := parseRequestLine_again_urlPending h.pending hp
  same ys := (parseRequestLine_resume ys h.pos h.pending hp).trans (h.same ys)

theorem Conn.AtLine.ok (h : c.AtLine) (hp : parseRequestLine c.req.ib c.req.par = (.ok, ar)) :
    ∃ line : RequestLine, line.Grammar ∧ line.bytes <+: c.req.ib ∧
      ar = { line.archive c.req.ib with nextParsePos := line.bytes.length, state := .hdBegin } := by
  have hsame := h.same []
  rw [List.append_nil, hp] at hsame
  have hinit := hsame.eq nofun
  obtain ⟨line, hline, hpre⟩ := parseRequestLine_ok (by rw [hinit])
  rw [parseRequestLine_of_grammar hline hpre] at hinit
  exact ⟨line, hline, hpre, (Prod.ext_iff.mp hinit).2.symm⟩

theorem pathEnd_lt {data : List Byte} {line : RequestLine} {b p : ℕ}
    (hb : (line.archive data).url.absPath.str = .buf b) (hend : pathEnd data b = some p) (hline : line.Grammar) :
    p < line.bytes.length := by
  obtain ⟨rfl, hstop⟩ := parseUrl_absPath { parseArchiveInit with
    methodBegin := some 0
    method := line.method
    urlBegin := some line.urlPos
    state := .rlSpBeforeVersion } rfl hb
  have hle := pathEnd_le hend hstop
  have hsep := List.length_pos_of_ne_nil hline.sep.1
  simp only [RequestLine.bytes, RequestLine.urlPos, List.length_append, List.length_cons] at hle ⊢
  omega

theorem archive_owned (line : RequestLine) (data : List Byte) (n : ℕ) :
    ({ line.archive data with nextParsePos := n, state := .hdBegin } : ParseArchive).owned = parseArchiveInit.owned ∧
      (line.archive data).bodyReceived = 0 := by
  unfold RequestLine.archive ParseArchive.withVersion
  rw [urlArchive_frame]
  exact ⟨rfl, rfl⟩

theorem Conn.AtLine.take (h : c.AtLine) {line : RequestLine} (hline : line.Grammar) (hpre : line.bytes <+: c.req.ib)
    (har : ar = { line.archive c.req.ib with nextParsePos := line.bytes.length, state := .hdBegin })
    (hversion : ar.version.httpMajor ≤ 1 ∧ ar.version.httpMinor ≤ 1) {b p : ℕ} (hb : ar.url.absPath.str = .buf b)
    (hend : pathEnd c.req.ib b = some p) (file : File) :
    (openResource ((c.mapPar fun _ => ar).acceptVersion.closePath p) file).AtHeaders line [] := by
  subst har
  have hlt := pathEnd_lt hb hend hline
  obtain ⟨howned, hbody⟩ := archive_owned line c.req.ib line.bytes.length
  set ar := { line.archive c.req.ib with nextParsePos := line.bytes.length, state := ParserState.hdBegin } with har
  set c₁ := (c.mapPar fun _ => ar).acceptVersion.closePath p with hc₁
  have hframe := openResource_frame c₁ file
  have hib : (openResource c₁ file).req.ib = c₁.req.ib := by rw [hframe.req]
  have hpar : (openResource c₁ file).req.par = { c₁.req.par with url := (openResource c₁ file).req.par.url } := by
    rw [hframe.req]
  have hreceived : (openResource c₁ file).ghost.received = c₁.ghost.received := by rw [hframe.ghost]
  have hib₁ : c₁.req.ib = c.req.ib.set p NUL := rfl
  have hbytes : linesBytes line [] = line.bytes := by simp [linesBytes]
  have howned₁ : (openResource c₁ file).req.par.owned =
      { parseArchiveInit.owned with keepAlive := keepAliveOf line [] } := by
    rw [hpar, ← howned]
    rfl
  have hlen : (c.req.ib.set p NUL).length = c.req.ib.length := List.length_set
  refine ⟨openResource_handler c₁ file, ?_, ?_, ?_, ?_, ?_, ?_, ?_⟩
  · rw [howned₁]
    exact ⟨hline, hversion, by simp, by simp, by simp, by simp, rfl, rfl, by simp [lastNamed]⟩
  · rw [hpar]
    exact hbody
  · rw [hbytes, hreceived]
    exact h.ib ▸ hpre
  · rw [hbytes, hib, hib₁, hreceived, List.drop_set_of_lt hlt]
    exact congrArg (List.drop _) h.ib
  · rw [hib, hib₁, hreceived, hlen]
    exact congrArg List.length h.ib
  · rw [hpar, hib, hib₁, hlen]
    exact hpre.length_le
  · refine ⟨(openResource c₁ file).req.par, ?_, ?_, fun ys => .refl _⟩
    · rw [hpar]
      rfl
    · rw [hpar, hbytes]
      rfl

theorem Conn.AtLine.headers (h : c.AtLine) (hp : parseRequestLine c.req.ib c.req.par = (.ok, ar))
    (hversion : ar.version.httpMajor ≤ 1 ∧ ar.version.httpMinor ≤ 1) {b p : ℕ} (hb : ar.url.absPath.str = .buf b)
    (hend : pathEnd c.req.ib b = some p) (file : File) :
    ∃ line, (openResource ((c.mapPar fun _ => ar).acceptVersion.closePath p) file).AtHeaders line [] := by
  obtain ⟨line, hline, hpre, har⟩ := h.ok hp
  exact ⟨line, h.take hline hpre har hversion hb hend file⟩

end Line

section Headers

variable {env : Env} {c : Conn} {line : RequestLine} {ls : List HeaderLine} {ar : ParseArchive}

theorem Conn.AtHeaders.again (h : c.AtHeaders line ls) (hp : parseHeaderLine c.req.ib c.req.par = (.again, ar)) :
    (c.mapPar fun _ => ar).AtHeaders line ls := by
  have hframe := parseHeaderLine_frame hp
  obtain ⟨ar₀, hst, hpos, hsame⟩ := h.same
  refine ⟨h.handler, ?_, hframe.bodyReceived.trans h.bodyReceived, h.lines, h.ib, h.length,
    (parseHeaderLine_again_pos hp).le, ar₀, hst, hpos, fun ys => (parseHeaderLine_resume ys h.pos hp).trans (hsame ys)⟩
  rw [show (c.mapPar fun _ => ar).req.par.owned = c.req.par.owned from hframe.owned]
  exact h.read

/-- The call that ends a line answers as one at its beginning would. -/
theorem Conn.AtHeaders.done (h : c.AtHeaders line ls) {st : Status} (hp : parseHeaderLine c.req.ib c.req.par = (st, ar))
    (hst : st ≠ .error) : ∃ ar₀, ar₀.state = .hdBegin ∧ ar₀.nextParsePos = (linesBytes line ls).length ∧
      parseHeaderLine c.req.ib ar₀ = (st, ar) := by
  obtain ⟨ar₀, hbegin, hpos, hsame⟩ := h.same
  have hsame := hsame []
  rw [List.append_nil, hp] at hsame
  exact ⟨ar₀, hbegin, hpos, hsame.eq hst⟩

theorem prefix_append_of_drop {xs ys zs : List Byte} (hx : xs <+: zs) (hy : ys <+: zs.drop xs.length) : xs ++ ys <+: zs := by
  obtain ⟨t, rfl⟩ := hx
  rw [List.drop_left] at hy
  exact List.prefix_append_right_inj xs |>.mpr hy

theorem Conn.AtHeaders.take (h : c.AtHeaders line ls) (hp : parseHeaderLine c.req.ib c.req.par = (.ok, ar))
    {l : HeaderLine} (hl : l.Grammar) {ar₀ : ParseArchive} (hpos : ar₀.nextParsePos = (linesBytes line ls).length)
    (hpre : l.bytes <+: c.req.ib.drop ar₀.nextParsePos) (har : ar = l.taken ar₀)
    (hk : (c.mapPar fun _ => ar).lowerName.kind.answer = none) :
    ((c.mapPar fun _ => ar).lowerName.mapPar (c.mapPar fun _ => ar).lowerName.kind.record).AtHeaders line (ls ++ [l]) := by
  have hframe := parseHeaderLine_frame hp
  obtain ⟨⟨more, hkind⟩, hdrop⟩ := kind_of_line (c := c.mapPar fun _ => ar) hpre har
  have hlen : (c.mapPar fun _ => ar).lowerName.req.ib.length = c.req.ib.length := ssstrTolower_length _ _
  rw [hpos] at hpre hdrop
  rw [hkind] at hk ⊢
  refine ⟨h.handler, ?_, ?_, ?_, ?_, hlen.trans h.length, ?_, ?_⟩
  · have hread : LinesRead line ls ar.owned := by
      rw [hframe.owned]
      exact h.read
    exact hread.concat hl hk
  · have hbody : ((l.kind more).record ar).bodyReceived = ar.bodyReceived := by cases l.kind more <;> rfl
    exact hbody.trans (hframe.bodyReceived.trans h.bodyReceived)
  · rw [linesBytes_concat]
    refine prefix_append_of_drop h.lines ?_
    rw [show (((c.mapPar fun _ => ar).lowerName).mapPar (l.kind more).record).ghost.received = c.ghost.received from rfl,
      ← h.ib]
    exact hpre
  · have hib := congrArg (List.drop l.bytes.length) h.ib
    rw [List.drop_drop, List.drop_drop] at hib
    rw [linesBytes_concat, List.length_append]
    exact hdrop.trans hib
  · change ((l.kind more).record ar).nextParsePos ≤ (c.mapPar fun _ => ar).lowerName.req.ib.length
    rw [record_pos, hlen]
    exact (parseHeaderLine_done_pos hp (.inl rfl)).2.1
  · refine ⟨(l.kind more).record ar, ?_, ?_, fun ys => .refl _⟩
    · have hstate : ((l.kind more).record ar).state = ar.state := by cases l.kind more <;> rfl
      exact hstate.trans (parseHeaderLine_done_pos hp (.inl rfl)).2.2
    · rw [record_pos, har, linesBytes_concat, List.length_append, ← hpos]
      rfl

theorem Conn.AtHeaders.next (h : c.AtHeaders line ls) (hp : parseHeaderLine c.req.ib c.req.par = (.ok, ar))
    (hk : (c.mapPar fun _ => ar).lowerName.kind.answer = none) :
    ∃ l, ((c.mapPar fun _ => ar).lowerName.mapPar (c.mapPar fun _ => ar).lowerName.kind.record).AtHeaders line
      (ls ++ [l]) := by
  obtain ⟨ar₀, hbegin, hpos, hp₀⟩ := h.done hp nofun
  obtain ⟨l, hl, hpre, har⟩ := parseHeaderLine_line hbegin hp₀
  exact ⟨l, h.take hp hl hpos hpre har hk⟩

theorem Conn.AtHeaders.takeEmpty (h : c.AtHeaders line ls) (hp : parseHeaderLine c.req.ib c.req.par = (.crlfLine, ar))
    {ws : List Byte} (hws : ∀ b ∈ ws, isBlank b = true) (hpre : emptyLine ws <+: c.req.ib.drop (linesBytes line ls).length) :
    ((c.mapPar fun _ => ar).setHandler (some .body)).AtBody line ls ws := by
  obtain ⟨ar₀, hbegin, hpos, hp₀⟩ := h.done hp nofun
  rw [← hpos] at hpre
  have hend := (parseHeaderLine_of_emptyLine hbegin hws hpre).2
  rw [hp₀, hpos] at hend
  have hframe := parseHeaderLine_frame hp
  rw [hpos, h.ib] at hpre
  refine ⟨rfl, ?_, hws, prefix_append_of_drop h.lines hpre, h.length, ?_, ?_⟩
  · change LinesRead line ls ar.owned
    rw [hframe.owned]
    exact h.read
  · change (linesBytes line ls ++ emptyLine ws).length + ar.bodyReceived = ar.nextParsePos
    rw [hframe.bodyReceived, h.bodyReceived, hend, List.length_append]
    rfl
  · exact (parseHeaderLine_done_pos hp (.inr rfl)).2.1

theorem Conn.AtHeaders.crlfLine (h : c.AtHeaders line ls) (hp : parseHeaderLine c.req.ib c.req.par = (.crlfLine, ar)) :
    ∃ ws, ((c.mapPar fun _ => ar).setHandler (some .body)).AtBody line ls ws := by
  obtain ⟨ar₀, hbegin, hpos, hp₀⟩ := h.done hp nofun
  obtain ⟨ws, hws, hpre⟩ := parseHeaderLine_empty hbegin hp₀
  exact ⟨ws, h.takeEmpty hp hws (hpos ▸ hpre)⟩

end Headers

/-! ### The body -/

section Body

variable {env : Env} {c : Conn} {line : RequestLine} {ls : List HeaderLine} {ws : List Byte} {ar : ParseArchive}

theorem Conn.AtBody.rest (h : c.AtBody line ls ws) : ∃ rest,
    (⟨line, ls, ws, rest⟩ : WholeRequest).bytes = c.ghost.received ∧
      rest.length = c.req.ib.length - (linesBytes line ls ++ emptyLine ws).length := by
  obtain ⟨rest, hrest⟩ := h.lines
  refine ⟨rest, ?_, ?_⟩
  · rw [← hrest]
    simp [WholeRequest.bytes, linesBytes]
  · rw [h.length, ← hrest, List.length_append]
    omega

/-- The archive after the bytes of the body in the buffer have been counted. -/
def ParseArchive.countBody (data : List Byte) (ar : ParseArchive) : ParseArchive :=
  { ar with bodyReceived := ar.bodyReceived + (data.length - ar.nextParsePos), nextParsePos := data.length }

/-- **The ends of `parse_header_body_identity`.** -/
theorem parseHeaderBodyIdentity_cases (data : List Byte) (ar : ParseArchive) :
    (ar.contentLength ≤ 0 ∧ parseHeaderBodyIdentity data ar = (.ok, ar)) ∨
      (ar.contentLength ≤ ((ar.countBody data).bodyReceived : ℤ) ∧
        parseHeaderBodyIdentity data ar = (.ok, ar.countBody data)) ∨
      parseHeaderBodyIdentity data ar = (.again, ar.countBody data) := by
  unfold parseHeaderBodyIdentity
  by_cases hnone : ar.contentLength ≤ 0
  · rw [if_pos hnone]
    exact .inl ⟨hnone, rfl⟩
  · rw [if_neg hnone]
    by_cases hall : ((ar.countBody data).bodyReceived : ℤ) ≥ ar.contentLength
    · exact .inr (.inl ⟨hall, if_pos hall⟩)
    · exact .inr (.inr (if_neg hall))

theorem parseHeaderBodyIdentity_again {data : List Byte} {ar ar' : ParseArchive}
    (h : parseHeaderBodyIdentity data ar = (.again, ar')) :
    ar' = ar.countBody data ∧ 0 < ar.contentLength ∧ ((ar.countBody data).bodyReceived : ℤ) < ar.contentLength := by
  unfold parseHeaderBodyIdentity at h
  by_cases hnone : ar.contentLength ≤ 0
  · rw [if_pos hnone] at h
    cases h
  · rw [if_neg hnone] at h
    by_cases hall : ((ar.countBody data).bodyReceived : ℤ) ≥ ar.contentLength
    · cases (if_pos hall).symm.trans h
    · obtain ⟨-, heq⟩ := Prod.mk.inj ((if_neg hall).symm.trans h)
      exact ⟨heq.symm, not_le.mp hnone, not_le.mp hall⟩

theorem Conn.AtBody.again (h : c.AtBody line ls ws) (hp : parseHeaderBodyIdentity c.req.ib c.req.par = (.again, ar)) :
    (c.mapPar fun _ => ar).AtBody line ls ws := by
  have howned := parseHeaderBodyIdentity_owned c.req.ib c.req.par
  rw [hp] at howned
  obtain ⟨rfl, -, -⟩ := parseHeaderBodyIdentity_again hp
  refine ⟨h.handler, ?_, h.blanks, h.lines, h.length, ?_, le_rfl⟩
  · rw [mapPar_par, howned]
    exact h.read
  · have hcounted := h.counted
    have hpos := h.pos
    simp only [mapPar_par, ParseArchive.countBody]
    omega

theorem Conn.AtBody.ok (h : c.AtBody line ls ws) (hp : parseHeaderBodyIdentity c.req.ib c.req.par = (.ok, ar)) :
    ∃ w, (c.mapPar fun _ => ar).Holds w := by
  have howned := parseHeaderBodyIdentity_owned c.req.ib c.req.par
  rw [hp] at howned
  obtain ⟨rest, hbytes, hlen⟩ := h.rest
  refine ⟨⟨line, ls, ws, rest⟩, hbytes, h.blanks, ?_, ?_⟩
  · rw [mapPar_par, howned]
    exact h.read
  · rcases parseHeaderBodyIdentity_cases c.req.ib c.req.par with ⟨hnone, heq⟩ | ⟨hall, heq⟩ | heq <;> rw [hp] at heq
    · obtain rfl := (Prod.ext_iff.mp heq).2
      exact fun hcl => absurd hcl (not_lt.mpr hnone)
    · obtain rfl := (Prod.ext_iff.mp heq).2
      have hcounted := h.counted
      have hpos := h.pos
      intro _
      simp only [mapPar_par, ParseArchive.countBody] at hall ⊢
      omega
    · cases heq

end Body

/-! ### More bytes -/

section Receive

variable {c : Conn}

theorem receive_length (c : Conn) (bs : List Byte) : (c.receive bs).req.ib.length = c.req.ib.length + bs.length ∧
    (c.receive bs).ghost.received.length = c.ghost.received.length + bs.length :=
  ⟨List.length_append, List.length_append⟩

theorem Conn.AtLine.receive (h : c.AtLine) (bs : List Byte) : (c.receive bs).AtLine where
  handler := h.handler
  ib := congrArg (· ++ bs) h.ib
  pos := by
    have hpos := h.pos
    rw [(receive_length c bs).1]
    exact hpos.trans (Nat.le_add_right _ _)
  pending := h.pending
  same ys := by
    have hsame := h.same (bs ++ ys)
    rw [← List.append_assoc] at hsame
    exact hsame

theorem Conn.AtHeaders.receive {line : RequestLine} {ls : List HeaderLine} (h : c.AtHeaders line ls) (bs : List Byte) :
    (c.receive bs).AtHeaders line ls := by
  have hle := h.lines.length_le
  have hle' : (linesBytes line ls).length ≤ c.req.ib.length := by
    rw [h.length]
    exact hle
  obtain ⟨ar₀, hst, hpos, hsame⟩ := h.same
  refine ⟨h.handler, h.read, h.bodyReceived, h.lines.trans (List.prefix_append _ _), ?_, ?_, ?_, ar₀, hst, hpos,
    ?_⟩
  · change (c.req.ib ++ bs).drop _ = (c.ghost.received ++ bs).drop _
    rw [List.drop_append_of_le_length hle', List.drop_append_of_le_length hle, h.ib]
  · change (c.req.ib ++ bs).length = (c.ghost.received ++ bs).length
    rw [List.length_append, List.length_append, h.length]
  · refine h.pos.trans ?_
    change c.req.ib.length ≤ (c.req.ib ++ bs).length
    rw [List.length_append]
    exact Nat.le_add_right _ _
  · intro ys
    have hsame := hsame (bs ++ ys)
    rw [← List.append_assoc] at hsame
    exact hsame

theorem Conn.AtBody.receive {line : RequestLine} {ls : List HeaderLine} {ws : List Byte} (h : c.AtBody line ls ws)
    (bs : List Byte) : (c.receive bs).AtBody line ls ws := by
  refine ⟨h.handler, h.read, h.blanks, h.lines.trans (List.prefix_append _ _), ?_, h.counted, ?_⟩
  · rw [(receive_length c bs).1, (receive_length c bs).2, h.length]
  · rw [(receive_length c bs).1]
    exact h.pos.trans (Nat.le_add_right _ _)

theorem Conn.Accepting.receive (h : c.Accepting) (bs : List Byte) : (c.receive bs).Accepting := by
  obtain ⟨hclean, h | ⟨line, ls, h⟩ | ⟨line, ls, ws, h⟩⟩ := h
  · exact ⟨⟨hclean.status, hclean.answers⟩, .inl (h.receive bs)⟩
  · exact ⟨⟨hclean.status, hclean.answers⟩, .inr (.inl ⟨line, ls, h.receive bs⟩)⟩
  · exact ⟨⟨hclean.status, hclean.answers⟩, .inr (.inr ⟨line, ls, ws, h.receive bs⟩)⟩

theorem fresh_atLine {c : Conn} (hreq : c.req = .fresh) (hreceived : c.ghost.received = []) : c.AtLine := by
  refine ⟨by rw [hreq]; rfl, ?_, ?_, ?_, ?_⟩
  · rw [hreq, hreceived]
    rfl
  · rw [hreq]
    exact le_rfl
  · rw [hreq]
    exact fun _ => rfl
  · rw [hreq]
    exact fun ys => .refl _

theorem fresh_accepting {c : Conn} (hreq : c.req = .fresh) (hreceived : c.ghost.received = [])
    (hanswers : c.ghost.answers = []) : c.Accepting :=
  ⟨⟨by rw [hreq]; rfl, hanswers⟩, .inl (fresh_atLine hreq hreceived)⟩

end Receive

/-! ### The handlers -/

theorem answer_ne_ok {k : LineKind} {code : ℕ} (h : k.answer = some code) : code ≠ 200 := by
  cases k <;> cases h <;> decide

section Handlers

variable {env : Env} {c c' : Conn} {st : Status}

theorem assembleErr_rejected (h : 200 ∉ c.ghost.answers) {code : ℕ} (hcode : code ≠ 200) :
    (responseAssembleErrBuffer env c code).2.Rejected := by
  rw [assembleErr_eq]
  exact ⟨hcode, by simp, by simp [h, hcode.symm]⟩

/-- After an error no response has the status code 200. -/
theorem rejected_scanInv (env : Env) : ScanInv env fun _ c => c.Rejected where
  parse _ _ _ h _ := ⟨h.status, h.answered, h.answers⟩
  error _ _ hcode h := assembleErr_rejected h.answers hcode
  path _ _ _ _ h := ⟨h.status, h.answered, h.answers⟩
  resource _ c file _ h := by
    have hframe := openResource_frame c file
    exact ⟨by rw [hframe.req]; exact h.status, by rw [hframe.ghost]; exact h.answered,
      by rw [hframe.ghost]; exact h.answers⟩
  record _ _ _ _ h := ⟨h.status, h.answered, h.answers⟩
  refuse _ _ c _ hk h := assembleErr_rejected (c := c.lowerName.mapPar _) h.answers (answer_ne_ok hk)
  body _ _ h := ⟨h.status, h.answered, h.answers⟩
  wait _ h := h
  answer c h := by
    refine ⟨h.status, List.append_ne_nil_of_right_ne_nil _ (by simp), ?_⟩
    change 200 ∉ c.ghost.answers ++ [c.req.statusCode]
    simp [h.answers, h.status.symm]
  coding _ h := assembleErr_rejected h.answers (by omega)

/-- Where a request can be while it is handled. -/
def Conn.Progress (c : Conn) : Prop := c.Accepting ∨ c.Rejected ∨ c.Served

theorem Conn.Clean.not_mem (h : c.Clean) : 200 ∉ c.ghost.answers := by simp [h.answers]

theorem requestLine_progress (hclean : c.Clean) (h : c.AtLine) (hcall : requestHandleRequestLine env c = .ok (st, c')) :
    c'.Progress := by
  rcases requestHandleRequestLine_cases hcall with ⟨ar, hp, hres⟩ | ⟨ar, code, -, -, hres, hcode⟩ |
    ⟨ar, b, p, hp, hmajor, hminor, hb, hend, ⟨-, hres⟩ | ⟨file, -, hres⟩⟩ <;> obtain ⟨-, rfl⟩ := Prod.ext_iff.mp hres
  · exact .inl ⟨⟨hclean.status, hclean.answers⟩, .inl (h.again hp)⟩
  · exact .inr (.inl (assembleErr_rejected (c := c.mapPar _) hclean.not_mem hcode))
  · exact .inr (.inl (assembleErr_rejected (c := ((c.mapPar _).acceptVersion).closePath p) hclean.not_mem (by omega)))
  · obtain ⟨line, hline⟩ := h.headers hp ⟨hmajor, hminor⟩ hb hend file
    have hframe := openResource_frame ((c.mapPar fun _ => ar).acceptVersion.closePath p) file
    refine .inl ⟨⟨?_, ?_⟩, .inr (.inl ⟨line, [], hline⟩)⟩
    · rw [hframe.req]
      exact hclean.status
    · rw [hframe.ghost]
      exact hclean.answers

theorem headers_progress (env : Env) (hclean : c.Clean) (h : ∃ line ls, c.AtHeaders line ls) :
    (requestHandleHeaders env c).2.Progress := by
  refine requestHandleHeaders_rule (fun c => c.Clean ∧ (∃ line ls, c.AtHeaders line ls) ∨ c.Rejected)
    (fun res => res.2.Progress) ?_ ?_ ?_ ?_ (.inl ⟨hclean, h⟩)
  · rintro c ar h hp
    rw [handleHeader_eq]
    cases hk : (c.mapPar fun _ => ar).lowerName.kind.answer with
    | none =>
      rcases h with ⟨hclean, line, ls, h⟩ | h
      · obtain ⟨l, hl⟩ := h.next hp hk
        exact .inl ⟨⟨hclean.status, hclean.answers⟩, line, ls ++ [l], hl⟩
      · exact .inr ⟨h.status, h.answered, h.answers⟩
    | some code =>
      have hnot : 200 ∉ c.ghost.answers := h.elim (fun h => h.1.not_mem) Conn.Rejected.answers
      exact .inr (assembleErr_rejected (c := (c.mapPar _).lowerName.mapPar _) hnot (answer_ne_ok hk))
  · rintro c ar (⟨hclean, line, ls, h⟩ | h) hp
    · exact .inl ⟨⟨hclean.status, hclean.answers⟩, .inr (.inl ⟨line, ls, h.again hp⟩)⟩
    · exact .inr (.inl ⟨h.status, h.answered, h.answers⟩)
  · rintro c ar h hp
    have hnot : 200 ∉ c.ghost.answers := h.elim (fun h => h.1.not_mem) Conn.Rejected.answers
    exact .inr (.inl (assembleErr_rejected (c := c.mapPar _) hnot (by omega)))
  · rintro c ar (⟨hclean, line, ls, h⟩ | h) hp
    · obtain ⟨ws, hws⟩ := h.crlfLine hp
      exact .inl ⟨⟨hclean.status, hclean.answers⟩, .inr (.inr ⟨line, ls, ws, hws⟩)⟩
    · exact .inr (.inl ⟨h.status, h.answered, h.answers⟩)

theorem body_progress (env : Env) (hclean : c.Clean) {line : RequestLine} {ls : List HeaderLine} {ws : List Byte}
    (h : c.AtBody line ls ws) : (requestHandleBody env c).2.Progress := by
  rcases requestHandleBody_cases env c with ⟨ar, -, hp, hres⟩ | ⟨ar, -, hp, hres⟩ | ⟨hte, -⟩
  · rw [hres]
    exact .inl ⟨⟨hclean.status, hclean.answers⟩, .inr (.inr ⟨line, ls, ws, h.again hp⟩)⟩
  · rw [hres]
    obtain ⟨w, hw⟩ := h.ok hp
    exact .inr (.inr ⟨rfl, w, hw.bytes, hw.blanks, hw.read, hw.body⟩)
  · exact absurd h.read.identity hte

theorem call_progress (h : c.Progress) {hd : ReqHandler} (hhd : c.req.reqHandler = some hd)
    (hcall : hd.call env c = .ok (st, c')) : c'.Progress := by
  rcases h with ⟨hclean, h | ⟨line, ls, h⟩ | ⟨line, ls, ws, h⟩⟩ | h | h
  · cases h.handler.symm.trans hhd
    exact requestLine_progress hclean h hcall
  · cases h.handler.symm.trans hhd
    have hprogress := headers_progress env hclean ⟨line, ls, h⟩
    rw [show requestHandleHeaders env c = (st, c') from Except.ok.inj hcall] at hprogress
    exact hprogress
  · cases h.handler.symm.trans hhd
    have hprogress := body_progress env hclean h
    rw [show requestHandleBody env c = (st, c') from Except.ok.inj hcall] at hprogress
    exact hprogress
  · rcases call_scan (rejected_scanInv env) hhd h hcall with ⟨-, -, h'⟩ | ⟨-, h'⟩ <;> exact .inr (.inl h')
  · cases h.handler.symm.trans hhd

end Handlers

end Lotos
