import Lotos.Bytes
import Lotos.Lib.Scan

/-!
# The HTTP parser (`http_parser.h`, `http_parser.c`)

The three parsers work on the bytes received so far and on an archive `parse_archive` that keeps the state of
the machine between calls.  `data` is the content of the input buffer, so `buffer_end(b)` is `data.length`, and
a pointer into the buffer is an offset.

The `for` loops over `p` are runs of a scanner (`Lib/Scan`): `rlStep`, `hdStep` and `urlStep` are the loop
bodies, one branch for each `case` label.
-/

namespace Lotos

/-- `http_method` -/
inductive HttpMethod where
  | delete | get | head | post | put | invalid
  deriving DecidableEq, Repr

/-- `http_version`, two `unsigned short`. -/
structure HttpVersion where
  httpMajor : ℕ
  httpMinor : ℕ
  deriving DecidableEq, Repr

/-- `req_url` -/
structure ReqUrl where
  absPath : Ssstr
  queryString : Ssstr
  mimeExtension : Ssstr
  deriving DecidableEq, Repr

/-- `parser_state` -/
inductive ParserState where
  | rlBegin | rlMethod | rlSpBeforeUrl | rlUrl | rlSpBeforeVersion
  | rlVersionH | rlVersionHT | rlVersionHTT | rlVersionHTTP | rlVersionHTTPSlash
  | rlVersionMajor | rlVersionDot | rlVersionMinor | rlCrAfterVersion | rlLfAfterVersion
  | hdBegin | hdName | hdColon | hdSpBeforeVal | hdVal | hdCrAfterVal | hdLfAfterVal
  | urlBegin | urlAbsPath | urlQuery | urlEnd
  deriving DecidableEq, Repr

/-- `transfer_encoding_t` -/
inductive TransferEncoding where
  | identity | chunked | compress | deflate | gzip
  deriving DecidableEq, Repr

/-- The members of `request_headers_t`. -/
inductive HeaderSlot where
  | cacheControl | connection | date | transferEncoding | accept | acceptCharset | acceptEncoding
  | acceptLanguage | cookie | host | ifModifiedSince | ifUnmodifiedSince | maxForwards | range | referer
  | userAgent | contentLength
  deriving DecidableEq, Repr

/-- `parse_archive` -/
structure ParseArchive where
  method : HttpMethod
  version : HttpVersion
  requestUrlString : Ssstr
  url : ReqUrl
  keepAlive : Bool
  contentLength : ℤ
  transferEncoding : TransferEncoding
  /-- `request_headers_t`, by member -/
  reqHeaders : HeaderSlot → Ssstr
  numHeaders : ℕ
  /-- `header[0]` -/
  headerName : Ssstr
  /-- `header[1]` -/
  headerVal : Ssstr
  nextParsePos : ℕ
  state : ParserState
  methodBegin : Option ℕ
  urlBegin : Option ℕ
  headerLineBegin : Option ℕ
  headerColonPos : Option ℕ
  headerValBegin : Option ℕ
  headerValEnd : Option ℕ
  bodyReceived : ℕ
  bufferSent : ℕ
  isCrlfLine : Bool
  responseDone : Bool
  errReq : Bool

/-- `parse_archive_init`: everything zero, which is `HTTP_DELETE` for the method, `S_RL_BEGIN` for the state and
`TE_IDENTITY` for the coding, but for the three members it sets. -/
def parseArchiveInit : ParseArchive where
  method := .delete
  version := ⟨0, 0⟩
  requestUrlString := .init
  url := ⟨.init, .init, .init⟩
  keepAlive := false
  contentLength := -1
  transferEncoding := .identity
  reqHeaders := fun _ => .init
  numHeaders := 0
  headerName := .init
  headerVal := .init
  nextParsePos := 0
  state := .rlBegin
  methodBegin := none
  urlBegin := none
  headerLineBegin := none
  headerColonPos := none
  headerValBegin := none
  headerValEnd := none
  bodyReceived := 0
  bufferSent := 0
  isCrlfLine := true
  responseDone := false
  errReq := false

/-! ### The method and the URL -/

/-- How a parser's loop is left before the end of the buffer: by `goto`, or by `return INVALID_REQUEST`. -/
inductive Exit where
  | done | invalid
  deriving DecidableEq, Repr

/-- `parse_method`, on the bytes between `begin` and `end`. -/
def parseMethod (m : List Byte) : HttpMethod :=
  match m.length with
  | 3 => if m = str "GET" then .get else if m = str "PUT" then .put else .invalid
  | 4 => if m = str "POST" then .post else if m = str "HEAD" then .head else .invalid
  | 6 => if m = str "DELETE" then .delete else .invalid
  | _ => .invalid

/-- The locals `begin` and `curr_state` of `parse_url`, and the archive. -/
structure UrlScan where
  beginPos : ℕ
  currState : ParserState
  ar : ParseArchive

/-- The body of the first loop of `parse_url`. -/
def urlStep (p : ℕ) (ch : Byte) (s : UrlScan) : Scan.Step UrlScan Exit :=
  match s.currState with
  | .urlBegin => if ch = SLASH then .next { s with currState := .urlAbsPath } else .halt .invalid s
  | .urlAbsPath =>
    if ch = SP then
      .next { s with
        currState := .urlEnd
        ar := { s.ar with
          url := { s.ar.url with
            absPath := ⟨.buf s.beginPos, (p : ℤ) - s.beginPos⟩
            queryString := ⟨.buf p, 0⟩ } } }
    else if ch = QUESTION then
      .next {
        beginPos := p + 1
        currState := .urlQuery
        ar := { s.ar with
          url := { s.ar.url with absPath := ⟨.buf s.beginPos, (p : ℤ) - s.beginPos⟩ } } }
    else .next s
  | .urlQuery =>
    if ch = SP then
      .next { s with
        currState := .urlEnd
        ar := { s.ar with
          url := { s.ar.url with queryString := ⟨.buf s.beginPos, (p : ℤ) - s.beginPos⟩ } } }
    else .next s
  -- `goto parse_extension`
  | .urlEnd => .halt .done s
  | _ => .next s

/-- The second loop of `parse_url`: from `begin + n` down to `begin`, not included, look for the last `.` of the
last path component. -/
def extensionPos (data : List Byte) (begin : ℕ) : ℕ → Option ℕ
  | 0 => none
  | n + 1 =>
    let ch := data.getD (begin + (n + 1)) NUL
    if ch = DOT then some (begin + (n + 1)) else if ch = SLASH then none else extensionPos data begin n

/-- `parse_extension:` of `parse_url`.  With `abs_path` unset the loop starts at its own end, `NULL`. -/
def parseExtension (data : List Byte) (ar : ParseArchive) : ParseArchive :=
  match ar.url.absPath.str with
  | .buf b =>
    match extensionPos data b ar.url.absPath.len.toNat with
    | some p =>
      { ar with url := { ar.url with mimeExtension := ⟨.buf (p + 1), b + ar.url.absPath.len - p - 1⟩ } }
    | none => ar
  | _ => ar

/-- The first loop of `parse_url(begin, end, ar)` reads the bytes from `begin` to `end`, both included. -/
def urlScan (data : List Byte) (b e : ℕ) (ar : ParseArchive) : Scan.Result UrlScan Exit :=
  Scan.run urlStep b (slice data b (e + 1))
    ⟨b, .urlBegin, { ar with requestUrlString := ⟨.buf b, (e : ℤ) - b⟩ }⟩

/-- `parse_url(begin, end, ar)` -/
def parseUrl (data : List Byte) (b e : ℕ) (ar : ParseArchive) : Status × ParseArchive :=
  match urlScan data b e ar with
  | .halt .invalid _ s => (.error, s.ar)
  | .halt .done _ s => (.ok, parseExtension data s.ar)
  | .again s => (.ok, parseExtension data s.ar)

/-! ### The request line -/

/-- `v = v * 10 + ch - '0'` in an `unsigned short`. -/
def accDigit (v : ℕ) (ch : Byte) : ℕ := (v * 10 + (ch.toNat - 0x30)) % 2 ^ 16

/-- `case S_RL_METHOD:` -/
def rlMethodStep (data : List Byte) (p : ℕ) (ch : Byte) (ar : ParseArchive) : Scan.Step ParseArchive Exit :=
  if isAlpha ch then .next ar
  else if ch = SP then
    let method := parseMethod (slice data (ar.methodBegin.getD 0) p)
    if method = .invalid then .halt .invalid { ar with method := method }
    else .next { ar with method := method, state := .rlSpBeforeUrl }
  else .halt .invalid ar

/-- The `case`s of the version's letters: go on to `st` if `cond`. -/
def expect (cond : Bool) (st : ParserState) (ar : ParseArchive) : Scan.Step ParseArchive Exit :=
  if cond then .next { ar with state := st } else .halt .invalid ar

/-- The body of the loop of `parse_request_line`. -/
def rlStep (data : List Byte) (p : ℕ) (ch : Byte) (ar : ParseArchive) : Scan.Step ParseArchive Exit :=
  match ar.state with
  | .rlBegin =>
    -- falls through to `S_RL_METHOD` with the same byte
    if isAlpha ch then rlMethodStep data p ch { ar with methodBegin := some p, state := .rlMethod }
    else .halt .invalid ar
  | .rlMethod => rlMethodStep data p ch ar
  | .rlSpBeforeUrl =>
    if isBlank ch then .next ar
    else if isEol ch then .halt .invalid ar
    else .next { ar with state := .rlUrl, urlBegin := some p }
  | .rlUrl =>
    if isBlank ch then
      match parseUrl data (ar.urlBegin.getD 0) p { ar with state := .rlSpBeforeVersion } with
      | (.ok, ar') => .next ar'
      -- `return url_status`, and `ERROR` is `INVALID_REQUEST`
      | (_, ar') => .halt .invalid ar'
    else if isEol ch then .halt .invalid ar
    else .next ar
  | .rlSpBeforeVersion =>
    if isBlank ch then .next ar else expect (isLetter 0x48 ch) .rlVersionH ar
  | .rlVersionH => expect (isLetter 0x54 ch) .rlVersionHT ar
  | .rlVersionHT => expect (isLetter 0x54 ch) .rlVersionHTT ar
  | .rlVersionHTT => expect (isLetter 0x50 ch) .rlVersionHTTP ar
  | .rlVersionHTTP => expect (ch == SLASH) .rlVersionHTTPSlash ar
  | .rlVersionHTTPSlash =>
    if isDigit ch then
      .next { ar with
        version := { ar.version with httpMajor := accDigit ar.version.httpMajor ch }
        state := .rlVersionMajor }
    else .halt .invalid ar
  | .rlVersionMajor =>
    if isDigit ch then
      let ar := { ar with version := { ar.version with httpMajor := accDigit ar.version.httpMajor ch } }
      if ar.version.httpMajor > 1 then .halt .invalid ar else .next ar
    else expect (ch == DOT) .rlVersionDot ar
  | .rlVersionDot =>
    if isDigit ch then
      .next { ar with
        version := { ar.version with httpMinor := accDigit ar.version.httpMinor ch }
        state := .rlVersionMinor }
    else .halt .invalid ar
  | .rlVersionMinor =>
    if isDigit ch then
      let ar := { ar with version := { ar.version with httpMinor := accDigit ar.version.httpMinor ch } }
      if ar.version.httpMinor > 1 then .halt .invalid ar else .next ar
    else expect (ch == CR) .rlCrAfterVersion ar
  | .rlCrAfterVersion =>
    if ch = LF then .halt .done { ar with state := .rlLfAfterVersion } else .halt .invalid ar
  -- no `case` for the other states
  | _ => .next ar

/-- The loop of `parse_request_line`. -/
def rlScan (data : List Byte) (ar : ParseArchive) : Scan.Result ParseArchive Exit :=
  Scan.run (rlStep data) ar.nextParsePos (data.drop ar.nextParsePos) ar

/-- What follows the loop of `parse_request_line`. -/
def rlFinish (data : List Byte) : Scan.Result ParseArchive Exit → Status × ParseArchive
  | .again ar => (.again, { ar with nextParsePos := data.length })
  | .halt .done p ar => (.ok, { ar with nextParsePos := p + 1, state := .hdBegin })
  | .halt .invalid _ ar => (.invalidRequest, ar)

/-- `parse_request_line` -/
def parseRequestLine (data : List Byte) (ar : ParseArchive) : Status × ParseArchive :=
  rlFinish data (rlScan data ar)

/-! ### The header lines -/

/-- The body of the loop of `parse_header_line`. -/
def hdStep (p : ℕ) (ch : Byte) (ar : ParseArchive) : Scan.Step ParseArchive Exit :=
  match ar.state with
  | .hdBegin =>
    if isNameChar ch then
      .next { ar with state := .hdName, headerLineBegin := some p, isCrlfLine := false }
    else if ch = CR then .next { ar with state := .hdCrAfterVal, isCrlfLine := true }
    else if isBlank ch then .next ar
    else .halt .invalid ar
  | .hdName =>
    if isNameChar ch then .next ar
    else if ch = COLON then .next { ar with state := .hdColon, headerColonPos := some p }
    else .halt .invalid ar
  | .hdColon =>
    if isBlank ch then .next { ar with state := .hdSpBeforeVal }
    else if isEol ch then .halt .invalid ar
    else .next { ar with state := .hdVal, headerValBegin := some p }
  | .hdSpBeforeVal =>
    if isBlank ch then .next ar
    else if isEol ch then .halt .invalid ar
    else .next { ar with state := .hdVal, headerValBegin := some p }
  | .hdVal =>
    if ch = CR then .next { ar with headerValEnd := some p, state := .hdCrAfterVal }
    else if ch = LF then .next { ar with state := .hdLfAfterVal }
    else .next ar
  | .hdCrAfterVal =>
    if ch = LF then .halt .done { ar with state := .hdLfAfterVal } else .halt .invalid ar
  -- no `case` for the other states, `S_HD_LF_AFTER_VAL` among them
  | _ => .next ar

/-- `HEADER_SET(header, str_beg, str_end)`; the two positions are `NULL` together. -/
def headerSet (b e : Option ℕ) : Ssstr := ⟨.ofPos b, (e.getD 0 : ℤ) - b.getD 0⟩

/-- The loop of `parse_header_line`. -/
def hdScan (data : List Byte) (ar : ParseArchive) : Scan.Result ParseArchive Exit :=
  Scan.run hdStep ar.nextParsePos (data.drop ar.nextParsePos) ar

/-- What follows the loop of `parse_header_line`. -/
def hdFinish (data : List Byte) : Scan.Result ParseArchive Exit → Status × ParseArchive
  | .again ar => (.again, { ar with nextParsePos := data.length })
  | .halt .done p ar =>
    (if ar.isCrlfLine then .crlfLine else .ok,
      { ar with
        nextParsePos := p + 1
        state := .hdBegin
        numHeaders := ar.numHeaders + 1
        headerName := headerSet ar.headerLineBegin ar.headerColonPos
        headerVal := headerSet ar.headerValBegin ar.headerValEnd })
  | .halt .invalid _ ar => (.invalidRequest, ar)

/-- `parse_header_line` -/
def parseHeaderLine (data : List Byte) (ar : ParseArchive) : Status × ParseArchive :=
  hdFinish data (hdScan data ar)

/-! ### The body -/

/-- `parse_header_body_identity` -/
def parseHeaderBodyIdentity (data : List Byte) (ar : ParseArchive) : Status × ParseArchive :=
  if ar.contentLength ≤ 0 then (.ok, ar)
  else
    let ar := { ar with
      bodyReceived := ar.bodyReceived + (data.length - ar.nextParsePos)
      nextParsePos := data.length }
    if (ar.bodyReceived : ℤ) ≥ ar.contentLength then (.ok, ar) else (.again, ar)

end Lotos
