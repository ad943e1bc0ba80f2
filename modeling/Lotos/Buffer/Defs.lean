import Lotos.Request.Defs

/-!
# Buffers in memory (`buffer.c`)

A `buffer_t` is known by its address, and `realloc` may move it: the block at the old address is then gone.  `Store` has the
blocks that are allocated.  `bufferCat` takes the answer of `realloc`, in case it has to be called; a call with an address at
which there is no block is a fault.

`Buffers` is what a request has to do with its two buffers: `r->ib` and `r->ob`, and the positions in the input buffer that
`parse_archive` keeps.  A `BufferCall` is one of the calls on them: a turn of the loop of `request_recv`, a function
`response_append_*`, `request_reset`, or the `buffer_clear` in `response_send`.
-/

namespace Lotos

/-- The address of a `buffer_t`. -/
abbrev Handle := ℕ

/-- `buffer_t` -/
structure Buffer where
  len : ℤ
  free : ℤ
  /-- the memory of `buf` -/
  mem : List Byte

/-- The blocks that are allocated. -/
abbrev Store := Handle → Option Buffer

inductive BufferFault where
  /-- there is no block at the address -/
  | dangling
  deriving DecidableEq, Repr

/-- `BUFFER_LIMIT` -/
def bufferLimit : ℕ := bufsiz * 250

/-- A value as a `size_t`. -/
def sizeT (v : ℤ) : ℤ := v % 2 ^ 64

/-- `buffer_new`, on the memory that `malloc` has returned. -/
def bufferNew (initlen : ℕ) (mem : List Byte) : Buffer := ⟨0, initlen, mem.set 0 NUL⟩

/-- `buffer_clear` -/
def bufferClear (b : Buffer) : Buffer := { b with free := toInt (b.free + b.len), len := 0 }

/-- `memcpy` to the end of what is used, and a `NUL` after it. -/
def Buffer.copyIn (b : Buffer) (bs : List Byte) : List Byte :=
  overwrite (overwrite b.mem b.len.toNat bs) (b.len.toNat + bs.length) [NUL]

/-- The bytes that are used. -/
def Buffer.bytes (b : Buffer) : List Byte := b.mem.take b.len.toNat

/-- As many bytes are written over those that are used. -/
def Buffer.rewrite (b : Buffer) (bs : List Byte) : Buffer := { b with mem := overwrite b.mem 0 bs }

/-- The branch of `buffer_cat` without `realloc`. -/
def Buffer.fill (b : Buffer) (bs : List Byte) : Buffer where
  len := toInt (b.len + bs.length)
  free := toInt (b.free - bs.length)
  mem := b.copyIn bs

/-- `new_len` -/
def Buffer.newLen (b : Buffer) (bs : List Byte) : ℕ :=
  let newLen := b.len.toNat + bs.length
  if newLen < bufferLimit then newLen * 2 else newLen + bufferLimit

/-- The block that `realloc` returns; `more` is what the memory that is new has in it. -/
def Buffer.resize (b : Buffer) (size : ℕ) (more : ℕ → Byte) : Buffer :=
  { b with mem := b.mem.take size ++ (List.range (size - b.mem.length)).map more }

/-- The branch of `buffer_cat` with `realloc`, on the block that it returns. -/
def Buffer.grow (b : Buffer) (bs : List Byte) (more : ℕ → Byte) : Buffer where
  len := toInt (b.len + bs.length)
  free := toInt (b.newLen bs - toInt (b.len + bs.length))
  mem := (b.resize (b.newLen bs + 1) more).copyIn bs

/-- An answer of `realloc`: the address, or `NULL`, and what the memory that is new has in it. -/
structure Realloc where
  addr : Option Handle
  more : ℕ → Byte

/-- What `malloc(sizeof(buffer_t) + BUFSIZ + 1)` returns for `buffer_init`, with anything in it. -/
def mallocMem (more : ℕ → Byte) : List Byte := (List.range (bufsiz + 1)).map more

/-- `realloc` fails. -/
def Realloc.null : Realloc := ⟨none, fun _ => NUL⟩

/-- `buffer_cat`, and `buffer_cat_cstr` with the bytes of the string; the result is `none` for `NULL`. -/
def bufferCat (st : Store) (pb : Handle) (bs : List Byte) (ra : Realloc) : Except BufferFault (Option Handle × Store) :=
  match st pb with
  | none => .error .dangling
  | some b =>
    -- `nbyte <= buffer_avail(pb)`
    if bs.length ≤ sizeT b.free then .ok (some pb, Function.update st pb (some (b.fill bs)))
    else
      match ra.addr with
      | none => .ok (none, st)
      | some npb => .ok (some npb, Function.update (Function.update st pb none) npb (some (b.grow bs ra.more)))

/-! ### The buffers of a request -/

/-- A position in the input buffer that `parse_archive` keeps, with the byte there when it was saved. -/
structure SavedPos where
  handle : Handle
  offset : ℕ
  byte : Option Byte

structure Buffers where
  store : Store
  ib : Handle
  /-- `none` is `NULL` -/
  ob : Option Handle
  saved : List SavedPos
  /-- what the last calls of `buffer_cat` have returned -/
  ibLast : Option Handle
  obLast : Option Handle
  /-- the bytes received since the last reset -/
  received : List Byte
  /-- the bytes appended since `ob` was last cleared -/
  appended : List Byte

/-- A function `response_append_*`, with what it appends; `errPage` is the append at the end of
`response_assemble_err_buffer`. -/
inductive Helper where
  | statusLine (minor : ℕ) (status : Option (List Byte))
  | date (line : List Byte)
  | server
  | contentType (text : List Byte)
  | contentLength (len : ℤ)
  | connection (keepAlive : Bool)
  | crlf
  | errPage (page : List Byte)

/-- The strings that the function appends one after the other, by `buffer_cat_cstr`. -/
def Helper.pieces : Helper → List (List Byte)
  | .statusLine minor status =>
    (if minor = 1 then str "HTTP/1.1 " else str "HTTP/1.0 ") :: (status.toList ++ [CRLF])
  | .date line => [line]
  | .server => [str "Server: ", str "lotos/0.1" ++ CRLF]
  | .contentType text => [str "Content-Type: ", text, CRLF]
  | .contentLength len => [str "Content-Length: " ++ str (toString len) ++ CRLF]
  | .connection keepAlive => [if keepAlive then str "Connection: keep-alive" else str "Connection: close", CRLF]
  | .crlf => [CRLF]
  | .errPage page => [page]

/-- `r->ob = buffer_cat_cstr(b, bs)` -/
def Buffers.catOb (s : Buffers) (b : Option Handle) (bs : List Byte) (ra : Realloc) : Except BufferFault Buffers :=
  match b with
  | none => .error .dangling
  | some b =>
    match bufferCat s.store b bs ra with
    | .error e => .error e
    | .ok (h, st) => .ok { s with store := st, ob := h, obLast := h, appended := s.appended ++ bs }

/-- The appends of a function `response_append_*`, all on its local `b`; `ras` are the answers of `realloc`. -/
def Buffers.catEach (s : Buffers) (b : Option Handle) : List (List Byte) → List Realloc → Except BufferFault Buffers
  | [], _ => .ok s
  | bs :: rest, ras =>
    match s.catOb b bs (ras.headD .null) with
    | .error e => .error e
    | .ok s => s.catEach b rest ras.tail

/-- `strftime` writes nothing that counts, and returns 0, if the line and its `NUL` do not fit. -/
def Buffer.strftime (b : Buffer) (line : List Byte) : Buffer :=
  if line.length < sizeT b.free then
    { len := toInt (b.len + line.length), free := toInt (b.free - line.length), mem := b.copyIn line }
  else b

/-- `response_append_date` -/
def Buffers.appendDate (s : Buffers) (line : List Byte) : Except BufferFault Buffers :=
  match s.ob with
  | none => .error .dangling
  | some h =>
    match s.store h with
    | none => .error .dangling
    | some b => .ok { s with store := Function.update s.store h (some (b.strftime line)), appended := s.appended ++ line }

/-- `buffer_clear` on the buffer at an address. -/
def Store.clear (st : Store) (h : Handle) : Except BufferFault Store :=
  match st h with
  | none => .error .dangling
  | some b => .ok (Function.update st h (some (bufferClear b)))

inductive BufferCall where
  /-- `recv` has delivered a chunk -/
  | recv (chunk : List Byte) (ra : Realloc)
  /-- a parser keeps the position of a byte -/
  | save (offset : ℕ)
  | append (f : Helper) (ras : List Realloc)
  | clearOb
  | reset

/-- `buffer_clear(r->ob)` -/
def Buffers.clearOb (s : Buffers) : Except BufferFault Buffers :=
  match s.ob with
  | none => .error .dangling
  | some h =>
    match s.store.clear h with
    | .error e => .error e
    | .ok st => .ok { s with store := st, appended := [] }

/-- The effect of a call.  `request_recv` does not look at what `buffer_cat` returns. -/
def Buffers.apply (s : Buffers) : BufferCall → Except BufferFault Buffers
  | .recv chunk ra =>
    match bufferCat s.store s.ib chunk ra with
    | .error e => .error e
    | .ok (h, st) => .ok { s with store := st, ibLast := h, received := s.received ++ chunk }
  | .save offset => .ok { s with saved := ⟨s.ib, offset, s.received[offset]?⟩ :: s.saved }
  | .append (.date line) _ => s.appendDate line
  | .append f ras => s.catEach s.ob f.pieces ras
  | .clearOb => s.clearOb
  | .reset =>
    match s.store.clear s.ib with
    | .error e => .error e
    | .ok st => ({ s with store := st, received := [], saved := [⟨s.ib, 0, none⟩] } : Buffers).clearOb

/-- The buffers after `request_init`, whatever is in the memory. -/
def Buffers.init (ib ob : Handle) (ibMem obMem : List Byte) : Buffers where
  store := fun h => if h = ib then some (bufferNew bufsiz ibMem) else if h = ob then some (bufferNew bufsiz obMem) else none
  ib := ib
  ob := some ob
  saved := [⟨ib, 0, none⟩]
  ibLast := some ib
  obLast := some ob
  received := []
  appended := []

/-! ### The functions of the response, by their appends -/

section Response

variable (env : Env) (r : Request)

/-- The calls of `response_assemble_buffer`. -/
def Request.assembleHelpers : List Helper :=
  [.statusLine r.par.version.httpMinor (statusTable r.statusCode), .date env.date, .server,
    .contentType (if r.par.errReq then str "text/html"
      else (dictGet r.ib mimeDict r.par.url.mimeExtension).getD (str "text/html")),
    .contentLength (if r.par.errReq then (r.errPageText env).length else r.resourceSize),
    .connection r.par.keepAlive, .crlf]

/-- The calls of `response_assemble_err_buffer`; `keep_alive` has been taken back before `response_append_connection`. -/
def Request.errHelpers : List Helper := r.dropKeepAlive.assembleHelpers env ++ [.errPage (r.errPageRenderBuf env)]

/-- What a list of calls appends. -/
def appendedBy (fs : List Helper) : List Byte := fs.flatMap fun f => f.pieces.flatten

theorem statusLine_pieces (minor : ℕ) (status : Option (List Byte)) : (Helper.statusLine minor status).pieces.flatten =
    (if minor = 1 then str "HTTP/1.1 " else str "HTTP/1.0 ") ++ status.getD [] ++ CRLF := by
  cases status <;> simp [Helper.pieces]

theorem responseAssembleBuffer_ob : (r.responseAssembleBuffer env).ob = r.ob ++ appendedBy (r.assembleHelpers env) := by
  simp only [appendedBy, Request.assembleHelpers, List.flatMap_cons, List.flatMap_nil, statusLine_pieces]
  simp only [Helper.pieces, List.flatten_cons, List.flatten_nil, List.append_nil, Request.responseAssembleBuffer,
    Request.responseAppendStatusLine, Request.responseAppendDate, Request.responseAppendServer,
    Request.responseAppendContentType, Request.responseAppendContentLength, Request.responseAppendConnection,
    Request.responseAppendCrlf, Request.append, Request.errPageText, List.append_assoc]

theorem assembleErr_ob (code : ℕ) :
    (r.assembleErr env code).ob = r.ob ++ appendedBy ((r.markErr code).errHelpers env) := by
  simp only [appendedBy, Request.errHelpers, Request.assembleHelpers, List.flatMap_append, List.flatMap_cons,
    List.flatMap_nil, statusLine_pieces]
  simp only [Helper.pieces, List.flatten_cons, List.flatten_nil, List.append_nil, Request.assembleErr, Request.markErr,
    Request.dropKeepAlive, Request.responseAppendStatusLine, Request.responseAppendDate, Request.responseAppendServer,
    Request.responseAppendContentType, Request.responseAppendContentLength, Request.responseAppendConnection,
    Request.responseAppendCrlf, Request.append, Request.errPageText, Request.errPageRenderBuf, List.append_assoc, if_true]
  rfl

end Response

end Lotos
