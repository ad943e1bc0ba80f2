import Lotos.Parser.Resume
import Lotos.Strings

/-!
# Requests and responses (`request.c`, `response.c`)

`Conn` is a connection as the handlers see it: its `request_t`, the two bits `EPOLLIN` and `EPOLLOUT` of its event mask,
and a record of what has happened on it (`Ghost`), which no function reads.

What the world answers is a parameter: `Env` has the file system, the date and the error page, `RecvResult` and
`SendResult` are the results of `recv`, and of `send` and `sendfile`.  A list of results that ends is a call that would
block.  `epoll_ctl` succeeds.

A buffer is its content; `Server.Held` has the blocks as well, where `buffer_cat` puts them in memory.  A descriptor that
`openat` returns is a number that has not been used before on the connection.
-/

namespace Lotos

/-! ### The state -/

/-- What stops the process. -/
inductive Fault where
  /-- `abs_path.str` is `NULL` where it is read -/
  | nullPath
  /-- the loop that closes the path by a `NUL` has left the buffer -/
  | overrun
  /-- `req_handler` is `NULL` where it is called -/
  | nullHandler
  deriving DecidableEq, Repr

/-- The values of `req_handler` other than `NULL`. -/
inductive ReqHandler where
  | requestLine | headers | body
  deriving DecidableEq, Repr

/-- The values of `res_handler`. -/
inductive ResHandler where
  | sendBuffer | sendFile
  deriving DecidableEq, Repr

/-- `request_t` -/
structure Request where
  ib : List Byte
  ob : List Byte
  par : ParseArchive
  /-- `none` is `-1` -/
  resourceFd : Option ℕ
  resourceSize : ℤ
  statusCode : ℕ
  /-- `none` is `NULL` -/
  reqHandler : Option ReqHandler
  resHandler : ResHandler
  /-- what is left to read of the open file -/
  resource : List Byte

/-- What has happened on the connection. -/
structure Ghost where
  /-- the bytes received since the last reset -/
  received : List Byte
  /-- the status codes of the responses assembled since the last reset -/
  answers : List ℕ
  /-- `response_assemble_err_buffer` has been executed -/
  failed : Bool
  /-- the number of resets -/
  resets : ℕ
  /-- the descriptors that `openat` has returned, and those given to `close` -/
  opened : List ℕ
  closed : List ℕ
  /-- the bytes handed to the socket since the last reset -/
  wire : List Byte

structure Conn where
  req : Request
  epollIn : Bool
  epollOut : Bool
  nextFd : ℕ
  ghost : Ghost

/-- What `openat` opens: a regular file, or a directory with the size `fstat` tells and its `index.html`. -/
inductive File where
  | regular (content : List Byte)
  | dir (size : ℕ) (index : Option (List Byte))
  deriving DecidableEq, Repr

/-- `error.html`, around its `%s`.  It is mapped into memory, and read there as a C string. -/
structure ErrPage where
  pre : List Byte
  post : List Byte
  /-- the memory behind the pages of the mapping, as `snprintf` prints it -/
  beyond : List Byte

/-- The size of a page of memory. -/
def pageSize : ℕ := 4096

/-- `raw_page_size` -/
def ErrPage.size (page : ErrPage) : ℕ := page.pre.length + 2 + page.post.length

/-- What `raw_err_page` goes on with behind the file: the rest of its last page is zero, but there is no rest if the size is
a multiple of that of a page. -/
def ErrPage.tail (page : ErrPage) : List Byte := if page.size % pageSize = 0 then cString page.beyond else []

structure Env where
  openat : List Byte → Option File
  /-- the line that `strftime` writes -/
  date : List Byte
  errPage : ErrPage

/-- `BUFSIZ` -/
def bufsiz : ℕ := 8192

namespace Conn

def mapReq (c : Conn) (f : Request → Request) : Conn := { c with req := f c.req }

def mapPar (c : Conn) (f : ParseArchive → ParseArchive) : Conn := c.mapReq fun r => { r with par := f r.par }

def mapGhost (c : Conn) (f : Ghost → Ghost) : Conn := { c with ghost := f c.ghost }

def setHandler (c : Conn) (h : Option ReqHandler) : Conn := c.mapReq fun r => { r with reqHandler := h }

/-- `connection_disable_in` and then `connection_enable_out` -/
def turnOut (c : Conn) : Conn := { c with epollIn := false, epollOut := true }

/-- `connection_disable_out` -/
def disableOut (c : Conn) : Conn := { c with epollOut := false }

/-- `connection_disable_out` and then `connection_enable_in` -/
def turnIn (c : Conn) : Conn := { c with epollOut := false, epollIn := true }

/-- `openat` returns a descriptor. -/
def openFd (c : Conn) : Conn :=
  { c.mapGhost fun g => { g with opened := g.opened ++ [c.nextFd] } with nextFd := c.nextFd + 1 }

/-- `close(fd)` -/
def closeFd (c : Conn) (fd : ℕ) : Conn := c.mapGhost fun g => { g with closed := g.closed ++ [fd] }

end Conn

/-! ### The response -/

/-- `HTTP_STATUS_MAP` -/
def statusMap : List (ℕ × String) := [
  (100, "Continue"), (101, "Switching Protocols"), (102, "Processing"), (200, "OK"), (201, "Created"),
  (202, "Accepted"), (203, "Non - Authoritative Information"), (204, "No Content"), (205, "Reset Content"),
  (206, "Partial Content"), (207, "Multi - Status"), (208, "Already Reported"), (226, "IM Used"),
  (300, "Multiple Choices"), (301, "Moved Permanently"), (302, "Found"), (303, "See Other"), (304, "Not Modified"),
  (305, "Use Proxy"), (307, "Temporary Redirect"), (308, "Permanent Redirect"), (400, "Bad Request"),
  (401, "Unauthorized"), (402, "Payment Required"), (403, "Forbidden"), (404, "Not Found"),
  (405, "Method Not Allowed"), (406, "Not Acceptable"), (407, "Proxy Authentication Required"),
  (408, "Request Timeout"), (409, "Conflict"), (410, "Gone"), (411, "Length Required"), (412, "Precondition Failed"),
  (413, "Payload Too Large"), (414, "URI Too Long"), (415, "Unsupported Media Type"), (416, "Range Not Satisfiable"),
  (417, "Expectation Failed"), (421, "Misdirected Request"), (422, "Unprocessable Entity"), (423, "Locked"),
  (424, "Failed Dependency"), (426, "Upgrade Required"), (428, "Precondition Required"), (429, "Too Many Requests"),
  (431, "Request Header Fields Too Large"), (451, "Unavailable For Legal Reasons"), (500, "Internal Server Error"),
  (501, "Not Implemented"), (502, "Bad Gateway"), (503, "Service Unavailable"), (504, "Gateway Timeout"),
  (505, "HTTP Version Not Supported"), (506, "Variant Also Negotiates"), (507, "Insufficient Storage"),
  (508, "Loop Detected"), (510, "Not Extended"), (511, "Network Authentication Required")]

/-- `status_table`, with the number before the text. -/
def statusTable (code : ℕ) : Option (List Byte) :=
  (statusMap.lookup code).map fun text => str (toString code) ++ SP :: str text

/-- `mime_list` -/
def mimeList : List (String × String) := [
  ("word", "application/msword"), ("pdf", "application/pdf"), ("zip", "application/zip"),
  ("js", "application/javascript"), ("gif", "image/gif"), ("jpeg", "image/jpeg"), ("jpg", "image/jpeg"),
  ("png", "image/png"), ("css", "text/css"), ("html", "text/html"), ("htm", "text/html"), ("txt", "text/plain"),
  ("xml", "text/xml"), ("svg", "image/svg+xml"), ("mp4", "video/mp4")]

/-- `mime_dict`, after `mime_dict_init` -/
def mimeDict : Dict (List Byte) :=
  mimeList.foldl (fun d e => dictPut [] d (.ofConst (str e.1)) (str e.2)) .init

namespace Request

def append (r : Request) (bs : List Byte) : Request := { r with ob := r.ob ++ bs }

/-- `response_append_status_line` -/
def responseAppendStatusLine (r : Request) : Request :=
  r.append ((if r.par.version.httpMinor = 1 then str "HTTP/1.1 " else str "HTTP/1.0 ") ++
    (statusTable r.statusCode).getD [] ++ CRLF)

/-- `response_append_date` -/
def responseAppendDate (env : Env) (r : Request) : Request := r.append env.date

/-- `response_append_server` -/
def responseAppendServer (r : Request) : Request := r.append (str "Server: " ++ str "lotos/0.1" ++ CRLF)

/-- `response_append_content_type` -/
def responseAppendContentType (r : Request) : Request :=
  let contentType :=
    if r.par.errReq then str "text/html"
    else (dictGet r.ib mimeDict r.par.url.mimeExtension).getD (str "text/html")
  r.append (str "Content-Type: " ++ contentType ++ CRLF)

/-- The error page that `snprintf` renders, before it is cut to the size of its buffer. -/
def errPageText (env : Env) (r : Request) : List Byte :=
  env.errPage.pre ++ (statusTable r.statusCode).getD (str "(null)") ++ env.errPage.post ++ env.errPage.tail

/-- `response_append_content_length` -/
def responseAppendContentLength (env : Env) (r : Request) : Request :=
  let len : ℤ := if r.par.errReq then (errPageText env r).length else r.resourceSize
  r.append (str "Content-Length: " ++ str (toString len) ++ CRLF)

/-- `response_append_connection` -/
def responseAppendConnection (r : Request) : Request :=
  r.append ((if r.par.keepAlive then str "Connection: keep-alive" else str "Connection: close") ++ CRLF)

/-- `response_append_crlf` -/
def responseAppendCrlf (r : Request) : Request := r.append CRLF

/-- `err_page_render_buf`, as `buffer_cat_cstr` appends it. -/
def errPageRenderBuf (env : Env) (r : Request) : List Byte := cString ((errPageText env r).take (bufsiz - 1))

/-- `response_assemble_buffer` -/
def responseAssembleBuffer (env : Env) (r : Request) : Request :=
  ((((((r.responseAppendStatusLine).responseAppendDate env).responseAppendServer).responseAppendContentType
    ).responseAppendContentLength env).responseAppendConnection).responseAppendCrlf

/-- The request as `response_assemble_err_buffer` marks it. -/
def markErr (r : Request) (code : ℕ) : Request :=
  { r with reqHandler := none, par := { r.par with errReq := true }, statusCode := code }

/-- The request with `keep_alive` taken back. -/
def dropKeepAlive (r : Request) : Request := { r with par := { r.par with keepAlive := false } }

/-- What `response_assemble_err_buffer` does to the request before it turns to the mask. -/
def assembleErr (env : Env) (r : Request) (code : ℕ) : Request :=
  let r := (((((r.markErr code).responseAppendStatusLine).responseAppendDate env).responseAppendServer
    ).responseAppendContentType).responseAppendContentLength env
  let r := (r.dropKeepAlive.responseAppendConnection).responseAppendCrlf
  r.append (r.errPageRenderBuf env)

end Request

/-- The record of a response. -/
def Conn.answered (c : Conn) (code : ℕ) : Conn := c.mapGhost fun g => { g with answers := g.answers ++ [code] }

/-- `response_assemble_buffer` on a connection, with its record. -/
def responseAssembleBuffer (env : Env) (c : Conn) : Conn :=
  (c.mapReq fun r => r.responseAssembleBuffer env).answered c.req.statusCode

/-- `response_assemble_err_buffer` -/
def responseAssembleErrBuffer (env : Env) (c : Conn) (code : ℕ) : Status × Conn :=
  let c := ((c.mapReq fun r => r.assembleErr env code).answered code).mapGhost fun g => { g with failed := true }
  (.ok, c.turnOut.mapPar fun ar => { ar with responseDone := true })

/-! ### The request line -/

/-- Where the loop `while (*p != ' ' && *p != '?') p++` stops, from `p` on. -/
def pathEnd (data : List Byte) (p : ℕ) : Option ℕ :=
  ((data.drop p).findIdx? fun ch => ch == SP || ch == QUESTION).map (p + ·)

/-- The path that `openat` gets, once the path in the buffer has its `NUL`. -/
def relativePath (data : List Byte) (b : ℕ) (len : ℤ) : List Byte :=
  if len = 1 ∧ data.getD b NUL = SLASH then str "./" else cString (data.drop (b + 1))

/-- The resource of a request: `resource_fd` and `resource_size` are set, and the headers are next. -/
def Conn.setResource (c : Conn) (fd : Option ℕ) (size : ℕ) (content : List Byte) : Conn :=
  c.mapReq fun r => { r with
    resourceFd := fd
    resourceSize := toInt size
    resource := content
    reqHandler := some .headers }

/-- What follows a successful `openat` in `request_handle_request_line`.  The test after the `openat` of `index.html` is
on the descriptor of the directory, which is not `-1`; so without an `index.html` the request goes on, with
`resource_fd` equal to `-1` and the size of the directory. -/
def openResource (c : Conn) : File → Conn
  | .regular content => c.openFd.setResource (some c.nextFd) content.length content
  | .dir size index =>
    let html (c : Conn) : Conn := c.mapPar fun ar =>
      { ar with url := { ar.url with mimeExtension := .ofConst (str "html") } }
    match index with
    | some content =>
      html ((c.openFd.openFd.closeFd c.nextFd).setResource (some (c.nextFd + 1)) content.length content)
    | none => html ((c.openFd.closeFd c.nextFd).setResource none size [])

/-- `keep_alive` as the version has it. -/
def Conn.acceptVersion (c : Conn) : Conn :=
  c.mapPar fun ar => { ar with keepAlive := decide (ar.version.httpMajor = 1 ∧ ar.version.httpMinor = 1) }

/-- The assignment `*p = '\0'`. -/
def Conn.closePath (c : Conn) (p : ℕ) : Conn := c.mapReq fun r => { r with ib := r.ib.set p NUL }

/-- The end of `request_handle_request_line`: the check of the path. -/
def requestHandlePath (env : Env) (c : Conn) : Except Fault (Status × Conn) :=
  match c.req.par.url.absPath.str with
  | .buf b =>
    match pathEnd c.req.ib b with
    | none => .error .overrun
    | some p =>
      let c := c.closePath p
      match env.openat (relativePath c.req.ib b c.req.par.url.absPath.len) with
      | none => .ok (responseAssembleErrBuffer env c 404)
      | some file => .ok (.ok, openResource c file)
  | _ => .error .nullPath

/-- `request_handle_request_line` -/
def requestHandleRequestLine (env : Env) (c : Conn) : Except Fault (Status × Conn) :=
  match parseRequestLine c.req.ib c.req.par with
  | (.again, ar) => .ok (.again, c.mapPar fun _ => ar)
  | (.ok, ar) =>
    if ar.version.httpMajor > 1 ∨ ar.version.httpMinor > 1 then
      .ok (responseAssembleErrBuffer env (c.mapPar fun _ => ar) 505)
    else requestHandlePath env (c.mapPar fun _ => ar).acceptVersion
  | (_, ar) => .ok (responseAssembleErrBuffer env (c.mapPar fun _ => ar) 400)

/-! ### The headers -/

/-- The functions in `hf_list`. -/
inductive HeaderFunc where
  | base | connection | contentLength | transferEncoding
  deriving DecidableEq, Repr

/-- `hf_list` -/
def hfList : List (String × HeaderFunc × HeaderSlot) := [
  ("accept", .base, .accept), ("accept-charset", .base, .acceptCharset), ("accept-encoding", .base, .acceptEncoding),
  ("accept-language", .base, .acceptLanguage), ("cache-control", .base, .cacheControl),
  ("content-length", .contentLength, .contentLength), ("connection", .connection, .connection),
  ("cookie", .base, .cookie), ("date", .base, .date), ("host", .base, .host),
  ("if-modified-since", .base, .ifModifiedSince), ("if-unmodified-since", .base, .ifUnmodifiedSince),
  ("max-forwards", .base, .maxForwards), ("range", .base, .range), ("referer", .base, .referer),
  ("transfer-encoding", .transferEncoding, .transferEncoding), ("user-agent", .base, .userAgent)]

/-- `header_handler_dict`, after `header_handler_dict_init` -/
def headerHandlerDict : Dict (HeaderFunc × HeaderSlot) :=
  hfList.foldl (fun d e => dictPut [] d (.ofConst (str e.1)) e.2) .init

/-- `request_handle_hd_base` -/
def requestHandleHdBase (c : Conn) (slot : HeaderSlot) : Conn :=
  c.mapPar fun ar => { ar with reqHeaders := Function.update ar.reqHeaders slot ar.headerVal }

/-- `request_handle_hd_connection` -/
def requestHandleHdConnection (env : Env) (c : Conn) (slot : HeaderSlot) : Status × Conn :=
  let c := requestHandleHdBase c slot
  let connection := c.req.par.reqHeaders .connection
  if ssstrCaseequal c.req.ib connection (str "keep-alive") then (.ok, c.mapPar fun ar => { ar with keepAlive := true })
  else if ssstrCaseequal c.req.ib connection (str "close") then (.ok, c.mapPar fun ar => { ar with keepAlive := false })
  else responseAssembleErrBuffer env c 400

/-- `request_handle_hd_content_length` -/
def requestHandleHdContentLength (env : Env) (c : Conn) (slot : HeaderSlot) : Status × Conn :=
  let c := requestHandleHdBase c slot
  let len := atoi ((c.req.par.reqHeaders .contentLength).mem c.req.ib)
  if len ≤ 0 then responseAssembleErrBuffer env c 400
  else (.ok, c.mapPar fun ar => { ar with contentLength := len })

/-- `request_handle_hd_transfer_encoding` -/
def requestHandleHdTransferEncoding (env : Env) (c : Conn) (slot : HeaderSlot) : Status × Conn :=
  let c := requestHandleHdBase c slot
  let coding := c.req.par.reqHeaders .transferEncoding
  let refuse (te : TransferEncoding) :=
    responseAssembleErrBuffer env (c.mapPar fun ar => { ar with transferEncoding := te }) 501
  if ssstrCaseequal c.req.ib coding (str "chunked") then refuse .chunked
  else if ssstrCaseequal c.req.ib coding (str "compress") then refuse .compress
  else if ssstrCaseequal c.req.ib coding (str "deflate") then refuse .deflate
  else if ssstrCaseequal c.req.ib coding (str "gzip") then refuse .gzip
  else if ssstrCaseequal c.req.ib coding (str "identity") then refuse .identity
  else responseAssembleErrBuffer env c 400

/-- The call `func(r, offset)` of `request_handle_headers`. -/
def HeaderFunc.call (env : Env) (c : Conn) (slot : HeaderSlot) : HeaderFunc → Status × Conn
  | .base => (.ok, requestHandleHdBase c slot)
  | .connection => requestHandleHdConnection env c slot
  | .contentLength => requestHandleHdContentLength env c slot
  | .transferEncoding => requestHandleHdTransferEncoding env c slot

/-- What `request_handle_headers` does with a complete header. -/
def handleHeader (env : Env) (c : Conn) : Status × Conn :=
  let c := c.mapReq fun r => { r with ib := ssstrTolower r.ib r.par.headerName }
  match dictGet c.req.ib headerHandlerDict c.req.par.headerName with
  | none => (.ok, c)
  | some (func, slot) => func.call env c slot

/-! ### What the handlers leave alone -/

@[simp] theorem mapPar_par (c : Conn) (f : ParseArchive → ParseArchive) : (c.mapPar f).req.par = f c.req.par := rfl

@[simp] theorem mapPar_ib (c : Conn) (f : ParseArchive → ParseArchive) : (c.mapPar f).req.ib = c.req.ib := rfl

section AssembleErr

variable (env : Env) (c : Conn) (code : ℕ)

theorem Request.assembleErr_eq (r : Request) : r.assembleErr env code = { r with
    ob := (r.assembleErr env code).ob
    par := { r.par with errReq := true, keepAlive := false }
    statusCode := code
    reqHandler := none } := rfl

/-- **What an error response does**, but for the bytes it appends to `ob`. -/
theorem assembleErr_eq : responseAssembleErrBuffer env c code = (.ok, { c with
    req := { c.req with
      ob := (c.req.assembleErr env code).ob
      par := { c.req.par with errReq := true, keepAlive := false, responseDone := true }
      statusCode := code
      reqHandler := none }
    epollIn := false
    epollOut := true
    ghost := { c.ghost with answers := c.ghost.answers ++ [code], failed := true } }) := by
  have hreq := Request.assembleErr_eq env code c.req
  simp only [responseAssembleErrBuffer, Conn.mapReq]
  generalize c.req.assembleErr env code = r at hreq ⊢
  rw [hreq]
  rfl

@[simp] theorem assembleErr_status : (responseAssembleErrBuffer env c code).1 = .ok := rfl

@[simp] theorem assembleErr_ib : (responseAssembleErrBuffer env c code).2.req.ib = c.req.ib := by rw [assembleErr_eq]

@[simp] theorem assembleErr_par : (responseAssembleErrBuffer env c code).2.req.par =
    { c.req.par with errReq := true, keepAlive := false, responseDone := true } := by rw [assembleErr_eq]

@[simp] theorem assembleErr_handler : (responseAssembleErrBuffer env c code).2.req.reqHandler = none := by
  rw [assembleErr_eq]

end AssembleErr

@[simp] theorem hdBase_ib (c : Conn) (slot : HeaderSlot) : (requestHandleHdBase c slot).req.ib = c.req.ib := rfl

@[simp] theorem hdBase_pos (c : Conn) (slot : HeaderSlot) :
    (requestHandleHdBase c slot).req.par.nextParsePos = c.req.par.nextParsePos := rfl

theorem call_frame (env : Env) (c : Conn) (slot : HeaderSlot) (func : HeaderFunc) :
    (func.call env c slot).2.req.ib = c.req.ib ∧
      (func.call env c slot).2.req.par.nextParsePos = c.req.par.nextParsePos := by
  cases func with
  | base => exact ⟨rfl, rfl⟩
  | connection =>
    simp only [HeaderFunc.call, requestHandleHdConnection]
    split_ifs <;> simp
  | contentLength =>
    simp only [HeaderFunc.call, requestHandleHdContentLength]
    split_ifs <;> simp
  | transferEncoding =>
    simp only [HeaderFunc.call, requestHandleHdTransferEncoding]
    split_ifs <;> simp

theorem handleHeader_pos (env : Env) (c : Conn) :
    (handleHeader env c).2.req.ib.length = c.req.ib.length ∧
      (handleHeader env c).2.req.par.nextParsePos = c.req.par.nextParsePos := by
  unfold handleHeader
  simp only
  split
  · exact ⟨ssstrTolower_length _ _, rfl⟩
  · rename_i func slot _
    have hframe := call_frame env (c.mapReq fun r => { r with ib := ssstrTolower r.ib r.par.headerName }) slot func
    exact ⟨by rw [hframe.1]; exact ssstrTolower_length _ _, hframe.2⟩

/-! ### The handlers -/

/-- `request_handle_headers` -/
def requestHandleHeaders (env : Env) (c : Conn) : Status × Conn :=
  match _h : parseHeaderLine c.req.ib c.req.par with
  | (.again, ar) => (.again, c.mapPar fun _ => ar)
  | (.error, ar) => responseAssembleErrBuffer env (c.mapPar fun _ => ar) 400
  | (.crlfLine, ar) => (.ok, (c.mapPar fun _ => ar).setHandler (some .body))
  | (.ok, ar) =>
    match _hh : handleHeader env (c.mapPar fun _ => ar) with
    | (.ok, c') => requestHandleHeaders env c'
    | (_, c') => (.ok, c')
termination_by c.req.ib.length - c.req.par.nextParsePos
decreasing_by
  have hnext := parseHeaderLine_done_pos _h (.inl rfl)
  have hpos := handleHeader_pos env (c.mapPar fun _ => ar)
  rw [_hh] at hpos
  simp only [mapPar_ib, mapPar_par] at hpos
  omega

/-- `request_handle_body` -/
def requestHandleBody (env : Env) (c : Conn) : Status × Conn :=
  match c.req.par.transferEncoding with
  | .identity =>
    match parseHeaderBodyIdentity c.req.ib c.req.par with
    | (.again, ar) => (.again, c.mapPar fun _ => ar)
    | (.ok, ar) => (.ok, responseAssembleBuffer env (((c.mapPar fun _ => ar).turnOut).setHandler none))
    | (_, ar) => responseAssembleErrBuffer env (c.mapPar fun _ => ar) 501
  | _ => responseAssembleErrBuffer env c 501

/-- The call `r->req_handler(r)`. -/
def ReqHandler.call (env : Env) (c : Conn) : ReqHandler → Except Fault (Status × Conn)
  | .requestLine => requestHandleRequestLine env c
  | .headers => .ok (requestHandleHeaders env c)
  | .body => .ok (requestHandleBody env c)

/-- How many handlers are still to come. -/
def handlerRank : Option ReqHandler → ℕ
  | some .requestLine => 3
  | some .headers => 2
  | some .body => 1
  | none => 0

theorem handleHeader_status (env : Env) (c : Conn) : (handleHeader env c).1 = .ok := by
  unfold handleHeader
  simp only
  split
  · rfl
  · rename_i func slot _
    cases func with
    | base => rfl
    | connection =>
      simp only [HeaderFunc.call, requestHandleHdConnection]
      split_ifs <;> simp
    | contentLength =>
      simp only [HeaderFunc.call, requestHandleHdContentLength]
      split_ifs <;> simp
    | transferEncoding =>
      simp only [HeaderFunc.call, requestHandleHdTransferEncoding]
      split_ifs <;> simp

section Headers

variable {env : Env} {c : Conn} {ar : ParseArchive}

theorem requestHandleHeaders_again (h : parseHeaderLine c.req.ib c.req.par = (.again, ar)) :
    requestHandleHeaders env c = (.again, c.mapPar fun _ => ar) := by
  rw [requestHandleHeaders, h]

theorem requestHandleHeaders_error (h : parseHeaderLine c.req.ib c.req.par = (.error, ar)) :
    requestHandleHeaders env c = responseAssembleErrBuffer env (c.mapPar fun _ => ar) 400 := by
  rw [requestHandleHeaders, h]

theorem requestHandleHeaders_crlfLine (h : parseHeaderLine c.req.ib c.req.par = (.crlfLine, ar)) :
    requestHandleHeaders env c = (.ok, (c.mapPar fun _ => ar).setHandler (some .body)) := by
  rw [requestHandleHeaders, h]

theorem requestHandleHeaders_ok (h : parseHeaderLine c.req.ib c.req.par = (.ok, ar)) :
    requestHandleHeaders env c = requestHandleHeaders env (handleHeader env (c.mapPar fun _ => ar)).2 := by
  have hh : handleHeader env (c.mapPar fun _ => ar) = (.ok, (handleHeader env (c.mapPar fun _ => ar)).2) :=
    Prod.ext (handleHeader_status env _) rfl
  rw [requestHandleHeaders, h]
  simp only
  split
  · rename_i heq
    rw [heq]
  · rename_i hne heq
    rw [hh] at heq
    exact absurd (Prod.ext_iff.mp heq).1.symm hne

/-- **The loop of the headers.**  What holds of the connection, is kept by every header, and gives the result at the three
ends of the loop, holds of the result of `request_handle_headers`. -/
theorem requestHandleHeaders_rule (P : Conn → Prop) (Q : Status × Conn → Prop)
    (hline : ∀ c ar, P c → parseHeaderLine c.req.ib c.req.par = (.ok, ar) →
      P (handleHeader env (c.mapPar fun _ => ar)).2)
    (hagain : ∀ c ar, P c → parseHeaderLine c.req.ib c.req.par = (.again, ar) → Q (.again, c.mapPar fun _ => ar))
    (herror : ∀ c ar, P c → parseHeaderLine c.req.ib c.req.par = (.error, ar) →
      Q (responseAssembleErrBuffer env (c.mapPar fun _ => ar) 400))
    (hcrlf : ∀ c ar, P c → parseHeaderLine c.req.ib c.req.par = (.crlfLine, ar) →
      Q (.ok, (c.mapPar fun _ => ar).setHandler (some .body)))
    (hc : P c) : Q (requestHandleHeaders env c) := by
  induction hn : c.req.ib.length - c.req.par.nextParsePos using Nat.strong_induction_on generalizing c with
  | _ n ih =>
    rcases h : parseHeaderLine c.req.ib c.req.par with ⟨_ | _ | _ | _, ar⟩
    · have hnext := parseHeaderLine_done_pos h (.inl rfl)
      have hpos := handleHeader_pos env (c.mapPar fun _ => ar)
      simp only [mapPar_ib, mapPar_par] at hpos
      rw [requestHandleHeaders_ok h]
      exact ih _ (by omega) (hline c ar hc h) rfl
    · rw [requestHandleHeaders_again h]
      exact hagain c ar hc h
    · rw [requestHandleHeaders_crlfLine h]
      exact hcrlf c ar hc h
    · rw [requestHandleHeaders_error h]
      exact herror c ar hc h

end Headers

/-- **The ends of `request_handle_request_line`.** -/
theorem requestHandleRequestLine_cases {env : Env} {c : Conn} {res : Status × Conn}
    (h : requestHandleRequestLine env c = .ok res) :
    (∃ ar, parseRequestLine c.req.ib c.req.par = (.again, ar) ∧ res = (.again, c.mapPar fun _ => ar)) ∨
    (∃ ar code, (parseRequestLine c.req.ib c.req.par).1 ≠ .again ∧ (parseRequestLine c.req.ib c.req.par).2 = ar ∧
      res = responseAssembleErrBuffer env (c.mapPar fun _ => ar) code ∧ code ≠ 200) ∨
    ∃ ar b p, parseRequestLine c.req.ib c.req.par = (.ok, ar) ∧
      ar.version.httpMajor ≤ 1 ∧ ar.version.httpMinor ≤ 1 ∧
      ar.url.absPath.str = .buf b ∧ pathEnd c.req.ib b = some p ∧
      let c₁ := ((c.mapPar fun _ => ar).acceptVersion).closePath p
      let found := env.openat (relativePath c₁.req.ib b ar.url.absPath.len)
      (found = none ∧ res = responseAssembleErrBuffer env c₁ 404) ∨
        ∃ file, found = some file ∧ res = (.ok, openResource c₁ file) := by
  unfold requestHandleRequestLine at h
  rcases hp : parseRequestLine c.req.ib c.req.par with ⟨_ | _ | _ | _, ar⟩ <;> rw [hp] at h <;> simp only at h
  · split_ifs at h with hver
    · exact .inr (.inl ⟨ar, 505, by simp, rfl, (Except.ok.inj h).symm, by omega⟩)
    · rw [not_or, not_lt, not_lt] at hver
      unfold requestHandlePath at h
      split at h
      · rename_i b hb
        split at h
        · cases h
        · rename_i p hend
          refine .inr (.inr ⟨ar, b, p, rfl, hver.1, hver.2, hb, hend, ?_⟩)
          simp only at h
          split at h
          · rename_i hnone
            exact .inl ⟨hnone, (Except.ok.inj h).symm⟩
          · rename_i file hsome
            exact .inr ⟨file, hsome, (Except.ok.inj h).symm⟩
      · cases h
  · exact .inl ⟨ar, rfl, (Except.ok.inj h).symm⟩
  · exact .inr (.inl ⟨ar, 400, by simp, rfl, (Except.ok.inj h).symm, by omega⟩)
  · exact .inr (.inl ⟨ar, 400, by simp, rfl, (Except.ok.inj h).symm, by omega⟩)

theorem openResource_handler (c : Conn) (file : File) : (openResource c file).req.reqHandler = some .headers := by
  rcases file with content | ⟨size, _ | content⟩ <;> rfl

/-- **The ends of `request_handle_body`.** -/
theorem requestHandleBody_cases (env : Env) (c : Conn) :
    (∃ ar, c.req.par.transferEncoding = .identity ∧ parseHeaderBodyIdentity c.req.ib c.req.par = (.again, ar) ∧
      requestHandleBody env c = (.again, c.mapPar fun _ => ar)) ∨
    (∃ ar, c.req.par.transferEncoding = .identity ∧ parseHeaderBodyIdentity c.req.ib c.req.par = (.ok, ar) ∧
      requestHandleBody env c =
        (.ok, responseAssembleBuffer env (((c.mapPar fun _ => ar).turnOut).setHandler none))) ∨
    (c.req.par.transferEncoding ≠ .identity ∧ requestHandleBody env c = responseAssembleErrBuffer env c 501) := by
  unfold requestHandleBody
  cases hte : c.req.par.transferEncoding with
  | identity =>
    have hans : (parseHeaderBodyIdentity c.req.ib c.req.par).1 = .ok ∨
        (parseHeaderBodyIdentity c.req.ib c.req.par).1 = .again := by
      simp only [parseHeaderBodyIdentity]
      split_ifs <;> simp
    rcases hp : parseHeaderBodyIdentity c.req.ib c.req.par with ⟨st, ar⟩
    rw [hp] at hans
    rcases hans with rfl | rfl
    · exact .inr (.inl ⟨ar, rfl, rfl, rfl⟩)
    · exact .inl ⟨ar, rfl, rfl, rfl⟩
  | _ => exact .inr (.inr ⟨by decide, rfl⟩)

/-- A handler that answers `OK` leaves fewer handlers to come. -/
theorem call_rank {env : Env} {c c' : Conn} {hd : ReqHandler} (h : hd.call env c = .ok (.ok, c')) :
    handlerRank c'.req.reqHandler < handlerRank (some hd) := by
  cases hd with
  | requestLine =>
    rcases requestHandleRequestLine_cases h with ⟨ar, -, hres⟩ | ⟨ar, code, -, -, hres, -⟩ |
      ⟨ar, b, p, -, -, -, -, -, ⟨-, hres⟩ | ⟨file, -, hres⟩⟩ <;> obtain ⟨hst, rfl⟩ := Prod.ext_iff.mp hres
    · cases hst
    · rw [assembleErr_handler]
      decide
    · rw [assembleErr_handler]
      decide
    · simp only [openResource_handler]
      decide
  | headers =>
    have hrule : (requestHandleHeaders env c).1 = .ok →
        handlerRank (requestHandleHeaders env c).2.req.reqHandler < handlerRank (some .headers) := by
      refine requestHandleHeaders_rule (fun _ => True)
        (fun res => res.1 = .ok → handlerRank res.2.req.reqHandler < handlerRank (some .headers))
        (fun _ _ _ _ => trivial) ?_ ?_ ?_ trivial
      · intro c ar _ _ hst
        cases hst
      · intro c ar _ _ _
        rw [assembleErr_handler]
        decide
      · intro c ar _ _ _
        exact Nat.lt_succ_self 1
    rw [ReqHandler.call, Except.ok.injEq] at h
    rw [h] at hrule
    exact hrule rfl
  | body =>
    rw [ReqHandler.call, Except.ok.injEq] at h
    rcases requestHandleBody_cases env c with ⟨ar, -, -, hres⟩ | ⟨ar, -, -, hres⟩ | ⟨-, hres⟩ <;> rw [h] at hres <;>
      obtain ⟨hst, rfl⟩ := Prod.ext_iff.mp hres
    · cases hst
    · exact Nat.zero_lt_one
    · rw [assembleErr_handler]
      decide

/-- The loop of `request_handle`. -/
def handlerLoop (env : Env) (c : Conn) : Except Fault (Status × Conn) :=
  match _hhd : c.req.reqHandler with
  | none => .error .nullHandler
  | some hd =>
    match _hcall : hd.call env c with
    | .error e => .error e
    | .ok (.ok, c') => if c'.req.reqHandler ≠ none then handlerLoop env c' else .ok (.ok, c')
    | .ok (st, c') => .ok (st, c')
termination_by handlerRank c.req.reqHandler
decreasing_by
  rw [_hhd]
  exact call_rank _hcall

/-- A result of `recv`. -/
inductive RecvResult where
  | data (bs : List Byte)
  | again
  | error
  deriving DecidableEq, Repr

/-- Bytes are appended to `ib`. -/
def Conn.receive (c : Conn) (bs : List Byte) : Conn :=
  (c.mapReq fun r => { r with ib := r.ib ++ bs }).mapGhost fun g => { g with received := g.received ++ bs }

/-- `request_recv`; `recv` returns `0` when the client has closed. -/
def requestRecv (c : Conn) : List RecvResult → Status × Conn
  | [] => (.again, c)
  | .data bs :: rest =>
    if bs.length = 0 then (.ok, c)
    else requestRecv (c.receive bs) rest
  | .again :: _ => (.again, c)
  | .error :: _ => (.error, c)

/-- `request_handle` -/
def requestHandle (env : Env) (recvs : List RecvResult) (c : Conn) : Except Fault (Status × Conn) :=
  match requestRecv c recvs with
  | (.again, c') => handlerLoop env c'
  | (_, c') => .ok (.error, c')

/-! ### Sending -/

/-- A result of `send` or `sendfile`: at most `k` bytes are taken. -/
inductive SendResult where
  | sent (k : ℕ)
  | again
  | error
  deriving DecidableEq, Repr

/-- `response_send` -/
def responseSend (c : Conn) : List SendResult → Status × Conn
  | [] => (.again, c)
  | .sent k :: rest =>
    let bs := (c.req.ob.drop c.req.par.bufferSent).take k
    if bs.length = 0 then
      (.ok, c.mapReq fun r => { r with ob := [], par := { r.par with bufferSent := 0 } })
    else
      responseSend ((c.mapPar fun ar => { ar with bufferSent := ar.bufferSent + bs.length }).mapGhost fun g =>
        { g with wire := g.wire ++ bs }) rest
  | .again :: _ => (.again, c)
  | .error :: _ => (.error, c)

/-- `response_handle_send_buffer` -/
def responseHandleSendBuffer (c : Conn) (sends : List SendResult) : Status × Conn :=
  match responseSend c sends with
  | (.ok, c') =>
    if c'.req.resourceFd ≠ none then (.ok, c'.mapReq fun r => { r with resHandler := .sendFile })
    else (.ok, (c'.mapPar fun ar => { ar with responseDone := true }).disableOut)
  | (st, c') => (st, c')

/-- The third argument of `sendfile`, an `int` passed as a `size_t`. -/
def sendfileCount (size : ℤ) : ℕ := (size % 2 ^ 64).toNat

/-- `response_handle_send_file` -/
def responseHandleSendFile (c : Conn) : List SendResult → Status × Conn
  | [] => (.again, c)
  | .sent k :: rest =>
    let bs := c.req.resource.take (min k (sendfileCount c.req.resourceSize))
    if bs.length = 0 then
      (.ok, (c.mapPar fun ar => { ar with responseDone := true }).closeFd (c.req.resourceFd.getD 0))
    else
      responseHandleSendFile ((c.mapReq fun r => { r with resource := r.resource.drop bs.length }).mapGhost fun g =>
        { g with wire := g.wire ++ bs }) rest
  | .again :: _ => (.again, c)
  | .error :: _ => (.error, c)

/-- The call `r->res_handler(r)`, with the results of `send` and of `sendfile`. -/
def ResHandler.call (sends files : List SendResult) (c : Conn) : ResHandler → Status × Conn
  | .sendBuffer => responseHandleSendBuffer c sends
  | .sendFile => responseHandleSendFile c files

/-- The members of a request that `request_init` and `request_reset` set. -/
def Request.fresh : Request where
  ib := []
  ob := []
  par := parseArchiveInit
  resourceFd := none
  resourceSize := 0
  statusCode := 200
  reqHandler := some .requestLine
  resHandler := .sendBuffer
  resource := []

/-- `request_reset` -/
def requestReset (c : Conn) : Conn :=
  (c.mapReq fun _ => .fresh).mapGhost fun g => { g with received := [], answers := [], wire := [], resets := g.resets + 1 }

theorem responseHandleSendFile_done {c c' : Conn} {files : List SendResult}
    (h : responseHandleSendFile c files = (.ok, c')) : c'.req.par.responseDone = true := by
  induction files generalizing c with
  | nil => cases h
  | cons r rest ih =>
    cases r with
    | sent k =>
      simp only [responseHandleSendFile] at h
      split_ifs at h
      · obtain ⟨-, rfl⟩ := Prod.ext_iff.mp h
        rfl
      · exact ih h
    | _ => cases h

/-- The rank of a handler of the response. -/
def ResHandler.rank : ResHandler → ℕ
  | .sendBuffer => 1
  | .sendFile => 0

/-- The loop of `response_handle` goes round only from the buffer to the file. -/
theorem resHandler_rank {sends files : List SendResult} {c c' : Conn}
    (h : c.req.resHandler.call sends files c = (.ok, c')) (hdone : ¬ c'.req.par.responseDone = true) :
    c'.req.resHandler.rank < c.req.resHandler.rank := by
  cases hh : c.req.resHandler with
  | sendBuffer =>
    rw [hh] at h
    simp only [ResHandler.call, responseHandleSendBuffer] at h
    split at h
    · split_ifs at h
      · obtain ⟨-, rfl⟩ := Prod.ext_iff.mp h
        exact Nat.zero_lt_one
      · obtain ⟨-, rfl⟩ := Prod.ext_iff.mp h
        exact absurd rfl hdone
    · rename_i hne _
      obtain ⟨hst, -⟩ := Prod.ext_iff.mp h
      exact absurd hst hne
  | sendFile =>
    rw [hh] at h
    exact absurd (responseHandleSendFile_done h) hdone

/-- The loop of `response_handle`. -/
def responseLoop (sends files : List SendResult) (c : Conn) : Status × Conn :=
  match _hcall : c.req.resHandler.call sends files c with
  | (.ok, c') => if _hdone : c'.req.par.responseDone = true then (.ok, c') else responseLoop sends files c'
  | (st, c') => (st, c')
termination_by c.req.resHandler.rank
decreasing_by exact resHandler_rank _hcall _hdone

/-- `response_handle` -/
def responseHandle (sends files : List SendResult) (c : Conn) : Status × Conn :=
  match responseLoop sends files c with
  | (status, c') =>
    if c'.req.par.responseDone then
      if c'.req.par.keepAlive then (status, (requestReset c').turnIn) else (.error, c')
    else (status, c')

end Lotos
