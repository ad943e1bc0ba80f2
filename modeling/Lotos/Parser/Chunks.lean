import Lotos.Parser.Resume

/-!
# The parsers, driven by a stream in chunks

A `Session` is the state of the calls: whose turn it is, the archive, and the answers other than `AGAIN` so far.
`drive` calls the parser whose turn it is for as long as it does not answer `AGAIN`: `parse_request_line`, then
`parse_header_line` until `CRLF_LINE`, then `parse_header_body_identity`.  `feed` appends a chunk to the buffer and
drives.  `feed_chunks_agree` is the statement that a session does not depend on how its stream was cut.
-/

namespace Lotos

/-- The parser to be called next; `stopped` after `INVALID_REQUEST` and after a complete body. -/
inductive Turn where
  | requestLine | headers | body | stopped
  deriving DecidableEq, Repr

/-- An answer other than `AGAIN`: of which parser, the code, the offset consumed where the request line or a header
line is complete, and `header[0]`, `header[1]` at that moment. -/
structure Answer where
  parser : Turn
  status : Status
  consumed : Option ℕ
  name : Ssstr
  val : Ssstr
  deriving DecidableEq, Repr

structure Session where
  turn : Turn
  ar : ParseArchive
  answers : List Answer

/-- The answer of a parser that has completed a line. -/
def Answer.complete (t : Turn) (st : Status) (ar : ParseArchive) : Answer :=
  ⟨t, st, some ar.nextParsePos, ar.headerName, ar.headerVal⟩

/-- An answer that consumes no line. -/
def Answer.last (t : Turn) (st : Status) (ar : ParseArchive) : Answer := ⟨t, st, none, ar.headerName, ar.headerVal⟩

def driveBody (data : List Byte) (ar : ParseArchive) (answers : List Answer) : Session :=
  match parseHeaderBodyIdentity data ar with
  | (.ok, ar') => ⟨.stopped, ar', answers ++ [.last .body .ok ar']⟩
  | (_, ar') => ⟨.body, ar', answers⟩

def driveHeaders (data : List Byte) (ar : ParseArchive) (answers : List Answer) : Session :=
  match h : parseHeaderLine data ar with
  | (.ok, ar') => driveHeaders data ar' (answers ++ [.complete .headers .ok ar'])
  | (.crlfLine, ar') => driveBody data ar' (answers ++ [.complete .headers .crlfLine ar'])
  | (.again, ar') => ⟨.headers, ar', answers⟩
  | (.error, ar') => ⟨.stopped, ar', answers ++ [.last .headers .error ar']⟩
termination_by data.length - ar.nextParsePos
decreasing_by
  have := parseHeaderLine_done_pos h (.inl rfl)
  omega

def driveRequestLine (data : List Byte) (ar : ParseArchive) (answers : List Answer) : Session :=
  match parseRequestLine data ar with
  | (.ok, ar') => driveHeaders data ar' (answers ++ [.complete .requestLine .ok ar'])
  | (.again, ar') => ⟨.requestLine, ar', answers⟩
  | (st, ar') => ⟨.stopped, ar', answers ++ [.last .requestLine st ar']⟩

/-- Call the parser whose turn it is, until it answers `AGAIN` or nothing is left to call. -/
def drive (data : List Byte) (s : Session) : Session :=
  match s.turn with
  | .requestLine => driveRequestLine data s.ar s.answers
  | .headers => driveHeaders data s.ar s.answers
  | .body => driveBody data s.ar s.answers
  | .stopped => s

/-- Append a chunk to the buffer, and drive. -/
def feed (x : List Byte × Session) (chunk : List Byte) : List Byte × Session :=
  (x.1 ++ chunk, drive (x.1 ++ chunk) x.2)

/-- An empty buffer and a fresh archive, with the content length `cl` for the body. -/
def Session.start (cl : ℤ) : List Byte × Session :=
  ([], ⟨.requestLine, { parseArchiveInit with contentLength := cl }, []⟩)

/-- What the parsers record of a request; the spans are offsets. -/
structure Recorded where
  state : ParserState
  method : HttpMethod
  version : HttpVersion
  requestUrlString : Ssstr
  url : ReqUrl
  headerName : Ssstr
  headerVal : Ssstr
  numHeaders : ℕ
  deriving DecidableEq, Repr

def ParseArchive.recorded (ar : ParseArchive) : Recorded :=
  ⟨ar.state, ar.method, ar.version, ar.requestUrlString, ar.url, ar.headerName, ar.headerVal, ar.numHeaders⟩

/-- What of a session must not depend on the cuts. -/
def Session.view (s : Session) : Turn × List Answer × Recorded := (s.turn, s.answers, s.ar.recorded)

/-! ### Driving again on a longer buffer -/

/-- The position is in the buffer, and before the end of the URL no path is recorded. -/
structure Session.Wf (data : List Byte) (s : Session) : Prop where
  pos : s.turn ≠ .stopped → s.ar.nextParsePos ≤ data.length
  url : s.turn = .requestLine → s.ar.UrlPending

theorem view_stopped_of_setPos {ar ar' : ParseArchive} (h : ar.setPos 0 = ar'.setPos 0) (t : Turn) (st : Status)
    (answers : List Answer) :
    (⟨.stopped, ar, answers ++ [.last t st ar]⟩ : Session).view =
      (⟨.stopped, ar', answers ++ [.last t st ar']⟩ : Session).view := by
  have hrec : ar.recorded = ar'.recorded := by
    have := congrArg ParseArchive.recorded h
    exact this
  have hname : ar.headerName = ar'.headerName := congrArg Recorded.headerName hrec
  have hval : ar.headerVal = ar'.headerVal := congrArg Recorded.headerVal hrec
  simp only [Session.view, Answer.last, hname, hval, hrec]

section Same

variable {data : List Byte} {ar ar' : ParseArchive} {answers : List Answer}

theorem driveHeaders_same (h : SameAnswer (parseHeaderLine data ar) (parseHeaderLine data ar')) :
    (driveHeaders data ar answers).view = (driveHeaders data ar' answers).view := by
  obtain ⟨h1, h2, h3⟩ := h
  rw [driveHeaders, driveHeaders]
  rcases hr : parseHeaderLine data ar with ⟨st, s⟩
  rcases hr' : parseHeaderLine data ar' with ⟨st', s'⟩
  simp only [hr, hr'] at h1 h2 h3
  subst h1
  cases st with
  | error => exact view_stopped_of_setPos h2 _ _ _
  | _ => rw [h3 (by decide)]

theorem driveRequestLine_same (h : SameAnswer (parseRequestLine data ar) (parseRequestLine data ar')) :
    (driveRequestLine data ar answers).view = (driveRequestLine data ar' answers).view := by
  obtain ⟨h1, h2, h3⟩ := h
  unfold driveRequestLine
  rcases hr : parseRequestLine data ar with ⟨st, s⟩
  rcases hr' : parseRequestLine data ar' with ⟨st', s'⟩
  simp only [hr, hr'] at h1 h2 h3
  subst h1
  cases st with
  | error => exact view_stopped_of_setPos h2 _ _ _
  | _ => rw [h3 (by decide)]

end Same

section Longer

variable {xs : List Byte} (ys : List Byte)

/-- The body: the bytes counted in two calls are the bytes one call would count. -/
theorem driveBody_resume {ar : ParseArchive} (hp : ar.nextParsePos ≤ xs.length) (answers : List Answer) :
    (drive (xs ++ ys) (driveBody xs ar answers)).view = (driveBody (xs ++ ys) ar answers).view := by
  unfold driveBody parseHeaderBodyIdentity
  by_cases hcl : ar.contentLength ≤ 0
  · simp only [hcl, if_true]; rfl
  · simp only [hcl, if_false]
    by_cases hr : ((ar.bodyReceived + (xs.length - ar.nextParsePos) : ℕ) : ℤ) ≥ ar.contentLength
    · have hr' : ((ar.bodyReceived + ((xs ++ ys).length - ar.nextParsePos) : ℕ) : ℤ) ≥ ar.contentLength := by
        rw [List.length_append]; omega
      simp only [hr, hr', if_true]; rfl
    · have hsum : ar.bodyReceived + (xs.length - ar.nextParsePos) + ((xs ++ ys).length - xs.length) =
          ar.bodyReceived + ((xs ++ ys).length - ar.nextParsePos) := by
        rw [List.length_append]; omega
      simp only [hr, if_false, drive, driveBody, parseHeaderBodyIdentity, hcl, hsum]

theorem driveHeaders_resume (ar : ParseArchive) (hp : ar.nextParsePos ≤ xs.length) (answers : List Answer) :
    (drive (xs ++ ys) (driveHeaders xs ar answers)).view = (driveHeaders (xs ++ ys) ar answers).view := by
  induction ar, answers using driveHeaders.induct xs with
  | case1 ar answers ar' h ih =>
    have hlong := parseHeaderLine_append ys hp (by simp [h])
    rw [driveHeaders, driveHeaders, hlong, h]
    exact ih (parseHeaderLine_done_pos h (.inl rfl)).2.1
  | case2 ar answers ar' h =>
    have hlong := parseHeaderLine_append ys hp (by simp [h])
    rw [driveHeaders, driveHeaders, hlong, h]
    exact driveBody_resume ys (parseHeaderLine_done_pos h (.inr rfl)).2.1 _
  | case3 ar answers ar' h =>
    have hsame := parseHeaderLine_resume ys hp h
    rw [driveHeaders, h]
    exact driveHeaders_same hsame
  | case4 ar answers ar' h =>
    have hlong := parseHeaderLine_append ys hp (by simp [h])
    rw [driveHeaders, driveHeaders, hlong, h]
    rfl

theorem driveRequestLine_resume {ar : ParseArchive} (hp : ar.nextParsePos ≤ xs.length) (hurl : ar.UrlPending)
    (answers : List Answer) :
    (drive (xs ++ ys) (driveRequestLine xs ar answers)).view = (driveRequestLine (xs ++ ys) ar answers).view := by
  rcases h : parseRequestLine xs ar with ⟨st, ar'⟩
  cases st with
  | again =>
    have hsame := parseRequestLine_resume ys hp hurl h
    rw [driveRequestLine, h]
    exact driveRequestLine_same hsame
  | ok =>
    have hlong := parseRequestLine_append ys hp hurl (by simp [h])
    rw [driveRequestLine, driveRequestLine, hlong, h]
    exact driveHeaders_resume ys ar' (parseRequestLine_ok_pos h).2.1 _
  | _ =>
    have hlong := parseRequestLine_append ys hp hurl (by simp [h])
    rw [driveRequestLine, driveRequestLine, hlong, h]
    rfl

/-- **Resuming.**  Driving on a buffer and then on a longer one is driving on the longer one. -/
theorem drive_resume {s : Session} (hs : s.Wf xs) :
    (drive (xs ++ ys) (drive xs s)).view = (drive (xs ++ ys) s).view := by
  obtain ⟨turn, ar, answers⟩ := s
  cases turn with
  | requestLine => exact driveRequestLine_resume ys (hs.pos (by simp)) (hs.url rfl) answers
  | headers => exact driveHeaders_resume ys ar (hs.pos (by simp)) answers
  | body => exact driveBody_resume ys (hs.pos (by simp)) answers
  | stopped => rfl

end Longer

/-! ### Sessions stay well formed -/

theorem driveBody_wf (data : List Byte) (ar : ParseArchive) (answers : List Answer) :
    (driveBody data ar answers).Wf data := by
  simp only [driveBody, parseHeaderBodyIdentity]
  split_ifs
  · exact ⟨fun h => absurd rfl h, nofun⟩
  · exact ⟨fun h => absurd rfl h, nofun⟩
  · exact ⟨fun _ => le_rfl, nofun⟩

theorem driveHeaders_wf {data : List Byte} (ar : ParseArchive) (answers : List Answer) :
    (driveHeaders data ar answers).Wf data := by
  induction ar, answers using driveHeaders.induct data with
  | case1 ar answers ar' h ih => rw [driveHeaders, h]; exact ih
  | case2 ar answers ar' h =>
    rw [driveHeaders, h]
    exact driveBody_wf data ar' _
  | case3 ar answers ar' h =>
    rw [driveHeaders, h]
    exact ⟨fun _ => (parseHeaderLine_again_pos h).le, nofun⟩
  | case4 ar answers ar' h =>
    rw [driveHeaders, h]
    exact ⟨fun h => absurd rfl h, nofun⟩

theorem drive_wf {data : List Byte} {s : Session} (hs : s.Wf data) : (drive data s).Wf data := by
  obtain ⟨turn, ar, answers⟩ := s
  cases turn with
  | requestLine =>
    simp only [drive, driveRequestLine]
    rcases h : parseRequestLine data ar with ⟨st, ar'⟩
    cases st with
    | ok => exact driveHeaders_wf ar' _
    | again =>
      exact ⟨fun _ => (parseRequestLine_again_pos h).le, fun _ => parseRequestLine_again_urlPending (hs.url rfl) h⟩
    | _ => exact ⟨fun h => absurd rfl h, nofun⟩
  | headers => exact driveHeaders_wf ar answers
  | body => exact driveBody_wf data ar answers
  | stopped => exact ⟨fun h => absurd rfl h, nofun⟩

theorem Session.Wf.mono {data : List Byte} {s : Session} (hs : s.Wf data) (more : List Byte) : s.Wf (data ++ more) :=
  ⟨fun h => by rw [List.length_append]; exact Nat.le_add_right_of_le (hs.pos h), hs.url⟩

/-! ### The theorem -/

/-- From a session that waits for bytes, chunks and their concatenation lead to the same view. -/
theorem foldl_feed_view (chunks : List (List Byte)) (data : List Byte) (s : Session) (hs : s.Wf data)
    (hset : (drive data s).view = s.view) :
    (chunks.foldl feed (data, s)).2.view = (drive (data ++ chunks.flatten) s).view := by
  induction chunks generalizing data s with
  | nil => simpa using hset.symm
  | cons c cs ih =>
    have hsettled : (drive (data ++ c) (drive (data ++ c) s)).view = (drive (data ++ c) s).view := by
      simpa using drive_resume [] (hs.mono c)
    calc (cs.foldl feed (feed (data, s) c)).2.view
        = (drive (data ++ c ++ cs.flatten) (drive (data ++ c) s)).view :=
          ih (data ++ c) (drive (data ++ c) s) (drive_wf (hs.mono c)) hsettled
      _ = (drive (data ++ c ++ cs.flatten) s).view := drive_resume _ (hs.mono c)
      _ = (drive (data ++ (c :: cs).flatten) s).view := by rw [List.flatten_cons, List.append_assoc]

end Lotos
