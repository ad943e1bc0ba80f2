import Lotos.Request.Path
import Lotos.Request.Reuse
import Lotos.Request.Slots

/-!
# A valid request arrives

`WholeRequest.Valid` is a request that the server answers by 200 and after which it keeps the connection.
`handlerLoop_awaits` says what `request_handle` does while such a request arrives, in whatever batches: as long as a byte of
it is missing the answer is `AGAIN`, and with the last byte the response is assembled, which is always the same.

What the response is made of is fixed by the request line (`Conn.offer`), but for `keep_alive`; the header lines only write
into the buffer behind it.
-/

namespace Lotos

/-! ### Valid requests -/

/-- A request that is answered by 200 on a connection that is kept: its path leads to a file, and its body is as long as its
last `Content-Length` says. -/
structure WholeRequest.Valid (env : Env) (w : WholeRequest) : Prop where
  grammar : w.Grammar
  acceptable : w.Acceptable
  keepAlive : keepAliveOf w.line w.headers = true
  delimited : w.line.Delimited
  found : env.openat w.line.target ≠ none
  body : match lastNamed w.headers "content-length" with
    | some l => atoi l.value = w.rest.length
    | none => w.rest = []

theorem WholeRequest.Acceptable.kind {w : WholeRequest} (h : w.Acceptable) {l : HeaderLine} (hl : l ∈ w.headers)
    (more : List Byte) : (l.kind more).answer = none := by
  cases hconn : l.named "connection" with
  | true =>
    rw [kind_connection_eq more hconn]
    rcases h.connection l hl hconn with hkeep | hclose
    · rw [if_pos hkeep]
      rfl
    · rw [if_pos hclose]
      split_ifs <;> rfl
  | false =>
    cases hlen : l.named "content-length" with
    | true =>
      have hpos := h.length l hl hlen
      have hatoi : atoi (l.value ++ CR :: more) = atoi l.value := atoi_append_line (solid_of_atoi_pos hpos)
      rw [kind_contentLength_eq more hlen, hatoi, if_neg (by omega)]
      rfl
    | false => rcases kind_other more hconn hlen (h.coding l hl) with hkind | ⟨slot, hkind⟩ <;> rw [hkind] <;> rfl

/-! ### What a response is made of -/

/-- What `response_assemble_buffer` reads, but for `keep_alive`, and the content of the file. -/
structure Offer where
  minor : ℕ
  statusCode : ℕ
  errReq : Bool
  contentType : Option (List Byte)
  size : ℤ
  content : List Byte
  ob : List Byte

def Conn.offer (c : Conn) : Offer where
  minor := c.req.par.version.httpMinor
  statusCode := c.req.statusCode
  errReq := c.req.par.errReq
  contentType := dictGet c.req.ib mimeDict c.req.par.url.mimeExtension
  size := c.req.resourceSize
  content := c.req.resource
  ob := c.req.ob

/-- The response on a connection that is kept. -/
def Offer.reply (env : Env) (o : Offer) : List Byte :=
  o.ob ++ appendedBy [.statusLine o.minor (statusTable o.statusCode), .date env.date, .server,
    .contentType (o.contentType.getD (str "text/html")), .contentLength o.size, .connection true, .crlf]

theorem assembleBuffer_reply (env : Env) {c : Conn} (herr : c.req.par.errReq = false) (hkeep : c.req.par.keepAlive = true) :
    (responseAssembleBuffer env c).req.ob = c.offer.reply env := by
  change (c.req.responseAssembleBuffer env).ob = _
  rw [responseAssembleBuffer_ob]
  unfold Request.assembleHelpers
  rw [herr, hkeep]
  rfl

theorem dictGet_mimeDict_congr {data data' : List Byte} {s : Ssstr} (h : s.bytes data' = s.bytes data) :
    dictGet data' mimeDict s = dictGet data mimeDict s := by
  have hinit : ∀ data : List Byte, dictGet data (Dict.init : Dict (List Byte)) s = none := by
    intro data
    simp [dictGet, Dict.init]
  rw [mimeDict_eq]
  by_cases hnull : s.str = .null
  · rw [dictGet_foldl_null _ _ _ hnull (hinit _), dictGet_foldl_null _ _ _ hnull (hinit _)]
  · rw [dictGet_foldl _ _ _ hnull, dictGet_foldl _ _ _ hnull, h, hinit, hinit]

/-- The members of a request, other than those of `par`, that are in the offer. -/
def Request.settled (r : Request) : ℕ × ℤ × List Byte × List Byte := (r.statusCode, r.resourceSize, r.resource, r.ob)

/-- What is written behind the request line changes nothing in the offer. -/
theorem Conn.offer_frame {c c' : Conn} {q : ℕ} (hreq : c'.req.settled = c.req.settled)
    (hurl : c'.req.par.url = c.req.par.url) (hversion : c'.req.par.version = c.req.par.version)
    (herr : c'.req.par.errReq = c.req.par.errReq) (hmime : c.req.par.url.mimeExtension.InBounds q)
    (hq : q ≤ c.req.ib.length) (hlen : c.req.ib.length ≤ c'.req.ib.length) (htake : c'.req.ib.take q = c.req.ib.take q) :
    c'.offer = c.offer := by
  have htype : dictGet c'.req.ib mimeDict c'.req.par.url.mimeExtension =
      dictGet c.req.ib mimeDict c.req.par.url.mimeExtension := by
    rw [hurl]
    exact dictGet_mimeDict_congr (bytes_eq_of_take htake hq hmime hlen)
  obtain ⟨hcode, hreq⟩ := Prod.mk.inj hreq
  obtain ⟨hsize, hreq⟩ := Prod.mk.inj hreq
  obtain ⟨hcontent, hob⟩ := Prod.mk.inj hreq
  unfold Conn.offer
  rw [htype, hversion, herr, hcode, hsize, hcontent, hob]

/-! ### The request line -/

/-- A connection that has just been made. -/
def Conn.init : Conn := ⟨.fresh, true, false, 0, ⟨[], [], false, 0, [], [], []⟩⟩

/-- The archive after a request line. -/
def RequestLine.taken (l : RequestLine) : ParseArchive :=
  { l.archive l.bytes with nextParsePos := l.bytes.length, state := .hdBegin }

/-- The connection after a request line, on which nothing else has been received. -/
def RequestLine.served (l : RequestLine) (file : File) : Conn :=
  openResource (((Conn.init.receive l.bytes).mapPar fun _ => l.taken).acceptVersion.closePath l.pathStop) file

section Line

variable {env : Env} {c : Conn} {line : RequestLine} {file : File} {data future : List Byte} {ar ar' : ParseArchive}
  {st : Status}

/-- A request line is taken alike whatever follows it. -/
theorem parseRequestLine_taken (hline : line.Grammar) (hpre : line.bytes <+: data) :
    parseRequestLine data parseArchiveInit = (.ok, line.taken) := by
  obtain ⟨more, rfl⟩ := hpre
  have htaken := parseRequestLine_of_grammar hline (List.prefix_refl line.bytes)
  rw [parseRequestLine_append more (Nat.zero_le _) (fun _ => rfl) (by rw [htaken]; nofun), htaken]
  rfl

theorem taken_eq (hline : line.Grammar) (hpre : line.bytes <+: data) :
    line.taken = { line.archive data with nextParsePos := line.bytes.length, state := .hdBegin } := by
  have hok := parseRequestLine_taken hline hpre
  rw [parseRequestLine_of_grammar hline hpre] at hok
  exact (Prod.ext_iff.mp hok).2.symm

/-- An answer while a request line arrives is that of the line, which is then in the buffer. -/
theorem line_ahead (hline : line.Grammar) (hpre : line.bytes <+: data ++ future)
    (hsame : SameAnswer (parseRequestLine data ar) (parseRequestLine data parseArchiveInit))
    (hp : parseRequestLine data ar = (st, ar')) (hne : st ≠ .again) :
    st = .ok ∧ ar' = line.taken ∧ line.bytes <+: data := by
  rw [hp] at hsame
  have hpending : parseArchiveInit.UrlPending := fun _ => rfl
  have hstatus : (parseRequestLine data parseArchiveInit).1 ≠ .again := by
    rw [← hsame.1]
    exact hne
  have hlong := parseRequestLine_append future (Nat.zero_le data.length) hpending hstatus
  rw [parseRequestLine_taken hline hpre] at hlong
  obtain rfl : st = .ok := by
    have hst := hsame.1
    rw [← hlong] at hst
    exact hst
  have heq := hsame.eq nofun
  rw [← hlong] at heq
  have hend : line.bytes.length ≤ data.length := (parseRequestLine_ok_pos hlong.symm).2.1
  exact ⟨rfl, (Prod.ext_iff.mp heq).2.symm, List.prefix_of_prefix_length_le hpre (List.prefix_append _ _) hend⟩

theorem line_again (hline : line.Grammar) (hpre : line.bytes <+: data ++ future)
    (hsame : SameAnswer (parseRequestLine data ar) (parseRequestLine data parseArchiveInit))
    (hp : parseRequestLine data ar = (.again, ar')) : future ≠ [] := by
  rintro rfl
  rw [List.append_nil] at hpre
  rw [hp, parseRequestLine_taken hline hpre] at hsame
  cases hsame.1

theorem requestLine_served (hline : line.Grammar) (hpre : line.bytes <+: c.req.ib) (hdelim : line.Delimited)
    (hversion : decimal line.major ≤ 1 ∧ decimal line.minor ≤ 1)
    (hp : parseRequestLine c.req.ib c.req.par = (.ok, line.taken)) (hfile : env.openat line.target = some file) :
    requestHandleRequestLine env c =
      .ok (.ok, openResource ((c.mapPar fun _ => line.taken).acceptVersion.closePath line.pathStop) file) := by
  have htaken := taken_eq hline hpre
  obtain ⟨hbuf, hend, hrel⟩ := archive_path hline hpre hdelim
  have hmajor : ¬ (line.taken.version.httpMajor > 1 ∨ line.taken.version.httpMinor > 1) := by
    rw [not_or]
    exact ⟨not_lt.mpr hversion.1, not_lt.mpr hversion.2⟩
  rw [requestHandleRequestLine, hp]
  simp only
  rw [if_neg hmajor, requestHandlePath]
  have hurl : (c.mapPar fun _ => line.taken).acceptVersion.req.par.url = (line.archive c.req.ib).url := by
    change line.taken.url = _
    rw [htaken]
  rw [hurl, hbuf]
  simp only
  rw [show (c.mapPar fun _ => line.taken).acceptVersion.req.ib = c.req.ib from rfl, hend]
  simp only
  have hclosed : ((c.mapPar fun _ => line.taken).acceptVersion.closePath line.pathStop).req.ib =
      c.req.ib.set line.pathStop NUL := rfl
  have hclosedUrl : ((c.mapPar fun _ => line.taken).acceptVersion.closePath line.pathStop).req.par.url =
      (line.archive c.req.ib).url := hurl
  rw [hclosed, hclosedUrl, hrel, hfile]

end Line

/-! ### Behind the request line -/

/-- What the response is made of has been settled by the request line. -/
structure Conn.Serving (c : Conn) (o : Offer) (line : RequestLine) (ls : List HeaderLine) : Prop where
  offer : c.offer = o
  mime : c.req.par.url.mimeExtension.InBounds line.bytes.length
  within : line.bytes.length ≤ c.req.ib.length
  unset : lastNamed ls "content-length" = none → c.req.par.contentLength = -1

/-- Nothing has been recorded. -/
structure Conn.Untouched (c : Conn) : Prop where
  statusCode : c.req.statusCode = 200
  ob : c.req.ob = []
  contentLength : c.req.par.contentLength = -1
  errReq : c.req.par.errReq = false

section Serving

variable {c : Conn} {o : Offer} {line : RequestLine} {ls : List HeaderLine} {ar : ParseArchive} {st : Status}

theorem openResource_settled {c c' : Conn} (hcode : c'.req.statusCode = c.req.statusCode) (hob : c'.req.ob = c.req.ob)
    (hurl : c'.req.par.url = c.req.par.url) (file : File) :
    (openResource c' file).req.settled = (openResource c file).req.settled ∧
      (openResource c' file).req.par.url = (openResource c file).req.par.url := by
  let html (u : ReqUrl) : ReqUrl := { u with mimeExtension := .ofConst (str "html") }
  unfold openResource Conn.setResource
  rcases file with content | ⟨size, _ | content⟩ <;> simp only <;> generalize toInt _ = n
  · exact ⟨congrArg₂ (fun code ob => (code, n, content, ob)) hcode hob, hurl⟩
  · exact ⟨congrArg₂ (fun code ob => (code, n, [], ob)) hcode hob, congrArg html hurl⟩
  · exact ⟨congrArg₂ (fun code ob => (code, n, content, ob)) hcode hob, congrArg html hurl⟩

theorem openResource_mime (file : File) {q : ℕ} (h : c.req.par.url.mimeExtension.InBounds q) :
    (openResource c file).req.par.url.mimeExtension.InBounds q := by
  unfold openResource Conn.setResource
  rcases file with content | ⟨size, _ | content⟩ <;> simp only <;> generalize toInt _ = n
  · exact h
  · exact nofun
  · exact nofun

theorem Conn.Untouched.serving (h : c.Untouched) (hline : line.Grammar) (hpre : line.bytes <+: c.req.ib)
    (hdelim : line.Delimited) (file : File) :
    (openResource ((c.mapPar fun _ => line.taken).acceptVersion.closePath line.pathStop) file).Serving
      (line.served file).offer line [] := by
  obtain ⟨hbuf, hend, -⟩ := archive_path hline (List.prefix_refl line.bytes) hdelim
  have hlt : line.pathStop < line.bytes.length := pathEnd_lt hbuf hend hline
  have hmime : line.taken.url.mimeExtension.InBounds line.bytes.length := by
    have hatLine : (Conn.init.receive line.bytes).AtLine := (fresh_atLine rfl rfl).receive _
    have hp : parseRequestLine (Conn.init.receive line.bytes).req.ib (Conn.init.receive line.bytes).req.par =
        (.ok, line.taken) := parseRequestLine_taken hline (List.prefix_refl _)
    exact (hatLine.path hp).2.1
  set c₁ := (c.mapPar fun _ => line.taken).acceptVersion.closePath line.pathStop with hc₁
  set d₁ := ((Conn.init.receive line.bytes).mapPar fun _ => line.taken).acceptVersion.closePath line.pathStop with hd₁
  have hframe := openResource_frame c₁ file
  have hframe' := openResource_frame d₁ file
  obtain ⟨hsettled, hurl⟩ := @openResource_settled d₁ c₁ h.statusCode h.ob rfl file
  have hib : (openResource c₁ file).req.ib = c.req.ib.set line.pathStop NUL := by
    rw [hframe.req]
    rfl
  have hib' : (openResource d₁ file).req.ib = line.bytes.set line.pathStop NUL := by
    rw [hframe'.req]
    rfl
  have hlen : (openResource c₁ file).req.ib.length = c.req.ib.length := by rw [hib, List.length_set]
  have hlen' : (openResource d₁ file).req.ib.length = line.bytes.length := by rw [hib', List.length_set]
  have hpar : (openResource c₁ file).req.par = { c₁.req.par with url := (openResource c₁ file).req.par.url } := by
    rw [hframe.req]
  have hpar' : (openResource d₁ file).req.par = { d₁.req.par with url := (openResource d₁ file).req.par.url } := by
    rw [hframe'.req]
  have hmime' : (openResource d₁ file).req.par.url.mimeExtension.InBounds line.bytes.length := openResource_mime file hmime
  refine ⟨?_, ?_, ?_, ?_⟩
  · refine Conn.offer_frame hsettled hurl ?_ ?_ hmime' hlen'.ge ?_ ?_
    · change (openResource c₁ file).req.par.version = (openResource d₁ file).req.par.version
      rw [hpar, hpar']
      rfl
    · change (openResource c₁ file).req.par.errReq = (openResource d₁ file).req.par.errReq
      rw [hpar, hpar']
      rfl
    · change (openResource d₁ file).req.ib.length ≤ (openResource c₁ file).req.ib.length
      rw [hlen, hlen']
      exact hpre.length_le
    · obtain ⟨more, hmore⟩ := hpre
      change (openResource c₁ file).req.ib.take _ = (openResource d₁ file).req.ib.take _
      rw [hib, hib', ← hmore, List.set_append_left _ _ hlt, List.take_left' List.length_set,
        List.take_of_length_le (by rw [List.length_set])]
  · rw [hurl]
    exact hmime'
  · rw [hlen]
    exact hpre.length_le
  · intro _
    rw [hpar]
    exact congrArg Owned.contentLength (archive_owned line line.bytes line.bytes.length).1

theorem Conn.Serving.receive (h : c.Serving o line ls) (bs : List Byte) : (c.receive bs).Serving o line ls := by
  have hlen : c.req.ib.length ≤ (c.receive bs).req.ib.length := by
    rw [(receive_length c bs).1]
    exact Nat.le_add_right _ _
  refine ⟨Eq.trans ?_ h.offer, h.mime, h.within.trans hlen, h.unset⟩
  exact Conn.offer_frame rfl rfl rfl rfl h.mime h.within hlen (List.take_append_of_le_length h.within)

theorem Conn.Serving.mapPar (h : c.Serving o line ls) (hurl : ar.url = c.req.par.url)
    (hversion : ar.version = c.req.par.version) (howned : ar.owned = c.req.par.owned) :
    (c.mapPar fun _ => ar).Serving o line ls := by
  refine ⟨Eq.trans ?_ h.offer, ?_, h.within, ?_⟩
  · exact Conn.offer_frame rfl hurl hversion (congrArg Owned.errReq howned) h.mime h.within le_rfl rfl
  · rw [mapPar_par, hurl]
    exact h.mime
  · intro hnone
    exact (congrArg Owned.contentLength howned).trans (h.unset hnone)

theorem Conn.Serving.parse (h : c.Serving o line ls) (hp : parseHeaderLine c.req.ib c.req.par = (st, ar)) :
    (c.mapPar fun _ => ar).Serving o line ls := by
  have hframe := parseHeaderLine_frame hp
  exact h.mapPar hframe.url hframe.version hframe.owned

theorem Conn.Serving.take (h : c.Serving o line ls) (hp : parseHeaderLine c.req.ib c.req.par = (.ok, ar)) {l : HeaderLine}
    {ar₀ : ParseArchive} (hpos : ar₀.nextParsePos = (linesBytes line ls).length)
    (hpre : l.bytes <+: c.req.ib.drop ar₀.nextParsePos) (har : ar = l.taken ar₀)
    (hk : (c.mapPar fun _ => ar).lowerName.kind.answer = none) :
    ((c.mapPar fun _ => ar).lowerName.mapPar (c.mapPar fun _ => ar).lowerName.kind.record).Serving o line (ls ++ [l]) := by
  obtain ⟨⟨more, hkind⟩, -⟩ := kind_of_line (c := c.mapPar fun _ => ar) hpre har
  have hparse := h.parse hp
  have hlen : (c.mapPar fun _ => ar).lowerName.req.ib.length = c.req.ib.length := ssstrTolower_length _ _
  have htake : (c.mapPar fun _ => ar).lowerName.req.ib.take line.bytes.length = c.req.ib.take line.bytes.length := by
    have hname : ar.headerName = ⟨.buf (l.namePos ar₀.nextParsePos), l.name.length⟩ := by
      rw [har]
      rfl
    have hline := line_length hpre
    have hbytes : line.bytes.length ≤ (linesBytes line ls).length := (List.prefix_append _ _).length_le
    rw [show (c.mapPar fun _ => ar).lowerName.req.ib = ssstrTolower c.req.ib ar.headerName from rfl, hname]
    refine ssstrTolower_take ?_ (by omega)
    simp only [HeaderLine.namePos]
    omega
  rw [hkind] at hk ⊢
  have hrecord : ((l.kind more).record ar).url = ar.url ∧ ((l.kind more).record ar).version = ar.version ∧
      ((l.kind more).record ar).errReq = ar.errReq := by
    cases l.kind more <;> exact ⟨rfl, rfl, rfl⟩
  refine ⟨Eq.trans ?_ hparse.offer, ?_, hlen.symm ▸ h.within, ?_⟩
  · exact Conn.offer_frame rfl hrecord.1 hrecord.2.1 hrecord.2.2 hparse.mime h.within hlen.ge htake
  · change ((l.kind more).record ar).url.mimeExtension.InBounds _
    rw [hrecord.1]
    exact hparse.mime
  · intro hnone
    rw [lastNamed_concat] at hnone
    split_ifs at hnone with hname
    exact (record_contentLength ar hk (by simpa using hname)).trans (hparse.unset hnone)

end Serving

/-! ### While a request arrives -/

/-- A connection that has received the beginning of a request; `future` is what is still to come of it. -/
structure Conn.Awaits (c : Conn) (w : WholeRequest) (o : Offer) (future : List Byte) : Prop where
  clean : c.Clean
  epollIn : c.epollIn = true
  epollOut : c.epollOut = false
  bytes : c.ghost.received ++ future = w.bytes
  stage : (c.AtLine ∧ c.Untouched) ∨
    (∃ done todo, w.headers = done ++ todo ∧ c.AtHeaders w.line done ∧ c.Serving o w.line done) ∨
    (c.AtBody w.line w.headers w.blanks ∧ c.Serving o w.line w.headers)

/-- The request has been answered, on a connection that is kept. -/
structure Conn.Replied (c : Conn) (env : Env) (o : Offer) : Prop where
  handler : c.req.reqHandler = none
  answers : c.ghost.answers = [200]
  keepAlive : c.req.par.keepAlive = true
  epollIn : c.epollIn = false
  epollOut : c.epollOut = true
  ob : c.req.ob = o.reply env
  content : c.req.resource = o.content

/-- The two ends of `request_handle` while a request arrives. -/
def Awaited (env : Env) (w : WholeRequest) (o : Offer) (future : List Byte) (res : Status × Conn) : Prop :=
  (res.1 = .again ∧ res.2.Awaits w o future ∧ future ≠ []) ∨ (res.1 = .ok ∧ res.2.Replied env o ∧ future = [])

section Awaits

variable {env : Env} {c : Conn} {w : WholeRequest} {file : File} {o : Offer} {future : List Byte}

theorem Conn.Awaits.receive {batch : List Byte} (h : c.Awaits w o (batch ++ future)) :
    (c.receive batch).Awaits w o future := by
  refine ⟨⟨h.clean.status, h.clean.answers⟩, h.epollIn, h.epollOut, ?_, ?_⟩
  · rw [← h.bytes, ← List.append_assoc]
    rfl
  · rcases h.stage with ⟨hline, hun⟩ | ⟨done, todo, hsplit, hheaders, hserving⟩ | ⟨hbody, hserving⟩
    · exact .inl ⟨hline.receive batch, ⟨hun.statusCode, hun.ob, hun.contentLength, hun.errReq⟩⟩
    · exact .inr (.inl ⟨done, todo, hsplit, hheaders.receive batch, hserving.receive batch⟩)
    · exact .inr (.inr ⟨hbody.receive batch, hserving.receive batch⟩)

theorem Conn.AtBody.contentLength (hw : w.Valid env) (h : c.AtBody w.line w.headers w.blanks)
    (hs : c.Serving o w.line w.headers) :
    (c.req.par.contentLength = -1 ∧ w.rest = []) ∨
    (0 < c.req.par.contentLength ∧ c.req.par.contentLength = w.rest.length) := by
  have hbody := hw.body
  cases hlast : lastNamed w.headers "content-length" with
  | none =>
    rw [hlast] at hbody
    exact .inl ⟨hs.unset hlast, hbody⟩
  | some l =>
    rw [hlast] at hbody
    obtain ⟨hl, hname⟩ := lastNamed_mem hlast
    have hpos := hw.acceptable.length l hl hname
    have hlen : c.req.par.contentLength = atoi l.value := h.read.contentLength l hlast (solid_of_atoi_pos hpos)
    exact .inr ⟨hlen.symm ▸ hpos, hlen.trans hbody⟩

theorem Conn.AtBody.missing (h : c.AtBody w.line w.headers w.blanks) (hbytes : c.ghost.received ++ future = w.bytes) :
    (c.req.par.countBody c.req.ib).bodyReceived + future.length = w.rest.length := by
  have htotal := congrArg List.length hbytes
  have hlen := h.length
  have hcounted := h.counted
  have hpos := h.pos
  simp only [WholeRequest.bytes, linesBytes, ParseArchive.countBody, List.length_append] at htotal hcounted ⊢
  omega

theorem body_awaits (hw : w.Valid env) (ho : o.errReq = false) (h : c.Awaits w o future)
    (hbody : c.AtBody w.line w.headers w.blanks) (hs : c.Serving o w.line w.headers) :
    Awaited env w o future (requestHandleBody env c) := by
  have hmissing := hbody.missing h.bytes
  have hlength := hbody.contentLength hw hs
  rcases requestHandleBody_cases env c with ⟨ar, -, hp, hres⟩ | ⟨ar, -, hp, hres⟩ | ⟨hte, -⟩
  · rw [hres]
    obtain ⟨rfl, hpos, hless⟩ := parseHeaderBodyIdentity_again hp
    refine .inl ⟨rfl, ⟨⟨h.clean.status, h.clean.answers⟩, h.epollIn, h.epollOut, h.bytes,
      .inr (.inr ⟨hbody.again hp, hs.mapPar rfl rfl rfl⟩)⟩, ?_⟩
    rintro rfl
    rw [List.length_nil] at hmissing
    rcases hlength with ⟨hneg, -⟩ | ⟨-, hlen⟩ <;> omega
  · rw [hres]
    obtain ⟨hurl, hversion, howned⟩ : ar.url = c.req.par.url ∧ ar.version = c.req.par.version ∧
        ar.owned = c.req.par.owned := by
      rcases parseHeaderBodyIdentity_cases c.req.ib c.req.par with ⟨-, heq⟩ | ⟨-, heq⟩ | heq <;>
        rw [hp] at heq <;> cases heq <;> exact ⟨rfl, rfl, rfl⟩
    have hserving := hs.mapPar hurl hversion howned
    set c₁ := (c.mapPar fun _ => ar).turnOut.setHandler none with hc₁
    have hoffer : c₁.offer = o := hserving.offer
    have herr : c₁.req.par.errReq = false := (congrArg Offer.errReq hoffer).trans ho
    have hkeep : c₁.req.par.keepAlive = true := by
      refine (congrArg Owned.keepAlive howned).trans ?_
      rw [hbody.read.keepAlive]
      exact hw.keepAlive
    refine .inr ⟨rfl, ⟨rfl, ?_, hkeep, rfl, rfl, ?_, ?_⟩, ?_⟩
    · change c.ghost.answers ++ [c.req.statusCode] = [200]
      rw [h.clean.answers, h.clean.status]
      rfl
    · rw [assembleBuffer_reply env herr hkeep, hoffer]
    · exact congrArg Offer.content hoffer
    · rw [← List.length_eq_zero_iff]
      rcases hlength with ⟨-, hrest⟩ | ⟨hpos, hlen⟩
      · rw [hrest, List.length_nil] at hmissing
        omega
      · rcases parseHeaderBodyIdentity_cases c.req.ib c.req.par with ⟨hnone, -⟩ | ⟨hall, -⟩ | heq
        · omega
        · omega
        · rw [hp] at heq
          cases heq
  · exact absurd hbody.read.identity hte

theorem Conn.AtHeaders.ahead {done todo : List HeaderLine} (h : c.AtHeaders w.line done) (hsplit : w.headers = done ++ todo)
    (hbytes : c.ghost.received ++ future = w.bytes) : c.req.ib.drop (linesBytes w.line done).length ++ future =
      todo.flatMap HeaderLine.bytes ++ (emptyLine w.blanks ++ w.rest) := by
  have htotal : w.bytes = linesBytes w.line done ++ (todo.flatMap HeaderLine.bytes ++ (emptyLine w.blanks ++ w.rest)) := by
    simp [WholeRequest.bytes, linesBytes, hsplit]
  rw [h.ib, ← List.drop_append_of_le_length h.lines.length_le, hbytes, htotal, List.drop_left]

section Lines

variable {done todo : List HeaderLine} {ar : ParseArchive}

theorem WholeRequest.Valid.lines (hw : w.Valid env) (hsplit : w.headers = done ++ todo) : ∀ l ∈ todo, l.Grammar := by
  intro l hl
  exact hw.grammar.headers l (hsplit ▸ List.mem_append_right _ hl)

theorem Conn.AtHeaders.answer (h : c.AtHeaders w.line done) (hw : w.Valid env) (hsplit : w.headers = done ++ todo)
    (hbytes : c.ghost.received ++ future = w.bytes) {st : Status} (hp : parseHeaderLine c.req.ib c.req.par = (st, ar))
    (hne : st ≠ .again) :
    (todo = [] ∧ st = .crlfLine ∧ emptyLine w.blanks <+: c.req.ib.drop (linesBytes w.line done).length) ∨
      ∃ l todo' ar₀, todo = l :: todo' ∧ st = .ok ∧ ar₀.nextParsePos = (linesBytes w.line done).length ∧
        ar = l.taken ar₀ ∧ l.bytes <+: c.req.ib.drop ar₀.nextParsePos := by
  obtain ⟨ar₀, hbegin, hpos, hsame⟩ := h.same
  have hsame := hsame []
  rw [List.append_nil] at hsame
  have hahead := h.ahead hsplit hbytes
  have hle : ar₀.nextParsePos ≤ c.req.ib.length := by
    rw [hpos, h.length]
    exact h.lines.length_le
  rw [← hpos] at hahead ⊢
  rcases answer_ahead hbegin hle hsame (hw.lines hsplit) hw.grammar.blanks hahead hp hne with hcrlf |
    ⟨l, todo', htodo, hok, har, hpre⟩
  · exact .inl hcrlf
  · exact .inr ⟨l, todo', ar₀, htodo, hok, rfl, har, hpre⟩

theorem Conn.AtHeaders.future_ne_nil (h : c.AtHeaders w.line done) (hw : w.Valid env) (hsplit : w.headers = done ++ todo)
    (hbytes : c.ghost.received ++ future = w.bytes) (hp : parseHeaderLine c.req.ib c.req.par = (.again, ar)) :
    future ≠ [] := by
  obtain ⟨ar₀, hbegin, hpos, hsame⟩ := h.same
  have hsame := hsame []
  rw [List.append_nil] at hsame
  have hahead := h.ahead hsplit hbytes
  rw [← hpos] at hahead
  exact again_ahead hbegin hsame (hw.lines hsplit) hw.grammar.blanks hahead hp

end Lines

theorem headers_awaits (hw : w.Valid env) (h : c.Awaits w o future) {done todo : List HeaderLine}
    (hsplit : w.headers = done ++ todo) (hheaders : c.AtHeaders w.line done) (hs : c.Serving o w.line done) :
    ((requestHandleHeaders env c).1 = .again ∧ (requestHandleHeaders env c).2.Awaits w o future ∧ future ≠ []) ∨
      ((requestHandleHeaders env c).1 = .ok ∧ (requestHandleHeaders env c).2.Awaits w o future ∧
        (requestHandleHeaders env c).2.AtBody w.line w.headers w.blanks ∧
        (requestHandleHeaders env c).2.Serving o w.line w.headers) := by
  let P : Conn → Prop := fun c => c.Awaits w o future ∧
    ∃ done todo, w.headers = done ++ todo ∧ c.AtHeaders w.line done ∧ c.Serving o w.line done
  refine requestHandleHeaders_rule P (fun res => (res.1 = .again ∧ res.2.Awaits w o future ∧ future ≠ []) ∨
    (res.1 = .ok ∧ res.2.Awaits w o future ∧ res.2.AtBody w.line w.headers w.blanks ∧ res.2.Serving o w.line w.headers))
    ?_ ?_ ?_ ?_ ⟨h, done, todo, hsplit, hheaders, hs⟩
  · rintro c ar ⟨h, done, todo, hsplit, hheaders, hs⟩ hp
    rcases hheaders.answer hw hsplit h.bytes hp nofun with ⟨-, hst, -⟩ | ⟨l, todo', ar₀, rfl, -, hpos, har, hpre⟩
    · cases hst
    · have hl : l ∈ w.headers := hsplit ▸ List.mem_append_right _ List.mem_cons_self
      obtain ⟨⟨more, hkind⟩, -⟩ := kind_of_line (c := c.mapPar fun _ => ar) hpre har
      have hk : (c.mapPar fun _ => ar).lowerName.kind.answer = none := by
        rw [hkind]
        exact hw.acceptable.kind hl more
      have hnext := hheaders.take hp (hw.grammar.headers l hl) hpos hpre har hk
      have hserving := hs.take hp hpos hpre har hk
      have hsplit' : w.headers = (done ++ [l]) ++ todo' := by simp [hsplit]
      rw [handleHeader_eq, hk]
      exact ⟨⟨⟨h.clean.status, h.clean.answers⟩, h.epollIn, h.epollOut, h.bytes,
        .inr (.inl ⟨_, _, hsplit', hnext, hserving⟩)⟩, _, _, hsplit', hnext, hserving⟩
  · rintro c ar ⟨h, done, todo, hsplit, hheaders, hs⟩ hp
    exact .inl ⟨rfl, ⟨⟨h.clean.status, h.clean.answers⟩, h.epollIn, h.epollOut, h.bytes,
      .inr (.inl ⟨done, todo, hsplit, hheaders.again hp, hs.parse hp⟩)⟩, hheaders.future_ne_nil hw hsplit h.bytes hp⟩
  · rintro c ar ⟨h, done, todo, hsplit, hheaders, hs⟩ hp
    rcases hheaders.answer hw hsplit h.bytes hp nofun with ⟨-, hst, -⟩ | ⟨-, -, -, -, hst, -⟩ <;> cases hst
  · rintro c ar ⟨h, done, todo, hsplit, hheaders, hs⟩ hp
    rcases hheaders.answer hw hsplit h.bytes hp nofun with ⟨rfl, -, hpre⟩ | ⟨-, -, -, -, hst, -⟩
    · rw [List.append_nil] at hsplit
      rw [← hsplit] at hheaders hs hpre
      have hbody := hheaders.takeEmpty hp hw.grammar.blanks hpre
      have hserving : ((c.mapPar fun _ => ar).setHandler (some .body)).Serving o w.line w.headers :=
        ⟨(hs.parse hp).offer, (hs.parse hp).mime, (hs.parse hp).within, (hs.parse hp).unset⟩
      exact .inr ⟨rfl, ⟨⟨h.clean.status, h.clean.answers⟩, h.epollIn, h.epollOut, h.bytes,
        .inr (.inr ⟨hbody, hserving⟩)⟩, hbody, hserving⟩
    · cases hst

theorem requestLine_awaits (hw : w.Valid env) (hfile : env.openat w.line.target = some file)
    (h : c.Awaits w (w.line.served file).offer future) (hline : c.AtLine) (hun : c.Untouched) :
    ∃ st c', requestHandleRequestLine env c = .ok (st, c') ∧ c'.Awaits w (w.line.served file).offer future ∧
      ((st = .again ∧ future ≠ []) ∨
        (st = .ok ∧ c'.AtHeaders w.line [] ∧ c'.Serving (w.line.served file).offer w.line [])) := by
  have hsame := hline.same []
  rw [List.append_nil] at hsame
  have hpre : w.line.bytes <+: c.req.ib ++ future := by
    rw [hline.ib, h.bytes]
    exact List.prefix_append _ _
  rcases hp : parseRequestLine c.req.ib c.req.par with ⟨st, ar⟩
  by_cases hst : st = .again
  · subst hst
    have hcall : requestHandleRequestLine env c = .ok (.again, c.mapPar fun _ => ar) := by rw [requestHandleRequestLine, hp]
    have howned := (parseRequestLine_owned hp).1
    refine ⟨.again, _, hcall, ⟨⟨h.clean.status, h.clean.answers⟩, h.epollIn, h.epollOut, h.bytes, .inl ⟨hline.again hp, ?_⟩⟩,
      .inl ⟨rfl, line_again hw.grammar.line hpre hsame hp⟩⟩
    exact ⟨hun.statusCode, hun.ob, (congrArg Owned.contentLength howned).trans hun.contentLength,
      (congrArg Owned.errReq howned).trans hun.errReq⟩
  · obtain ⟨rfl, rfl, hpre⟩ := line_ahead hw.grammar.line hpre hsame hp hst
    have hcall := requestLine_served hw.grammar.line hpre hw.delimited hw.acceptable.version hp hfile
    have hserving := hun.serving hw.grammar.line hpre hw.delimited file
    have hheaders : (openResource ((c.mapPar fun _ => w.line.taken).acceptVersion.closePath w.line.pathStop) file).AtHeaders
        w.line [] := by
      have htaken := taken_eq hw.grammar.line hpre
      obtain ⟨hbuf, hend, -⟩ := archive_path hw.grammar.line hpre hw.delimited
      refine hline.take hw.grammar.line hpre htaken hw.acceptable.version ?_ hend file
      rw [htaken]
      exact hbuf
    have hframe := openResource_frame ((c.mapPar fun _ => w.line.taken).acceptVersion.closePath w.line.pathStop) file
    refine ⟨.ok, _, hcall, ⟨⟨?_, ?_⟩, ?_, ?_, ?_, .inr (.inl ⟨[], w.headers, rfl, hheaders, hserving⟩)⟩,
      .inr ⟨rfl, hheaders, hserving⟩⟩
    · rw [hframe.req]
      exact h.clean.status
    · rw [hframe.ghost]
      exact h.clean.answers
    · rw [hframe.epollIn]
      exact h.epollIn
    · rw [hframe.epollOut]
      exact h.epollOut
    · rw [hframe.ghost]
      exact h.bytes

theorem handlerLoop_body (hw : w.Valid env) (ho : o.errReq = false) (h : c.Awaits w o future)
    (hbody : c.AtBody w.line w.headers w.blanks) (hs : c.Serving o w.line w.headers) :
    ∃ res, handlerLoop env c = .ok res ∧ Awaited env w o future res := by
  have hawaited := body_awaits hw ho h hbody hs
  refine ⟨requestHandleBody env c, ?_, hawaited⟩
  rw [handlerLoop_some hbody.handler]
  refine nextRound_stop ?_
  rintro ⟨hst, hhandler⟩
  rcases hawaited with ⟨hagain, -⟩ | ⟨-, hreplied, -⟩
  · rw [hagain] at hst
    cases hst
  · exact hhandler hreplied.handler

theorem handlerLoop_headers (hw : w.Valid env) (ho : o.errReq = false) (h : c.Awaits w o future)
    {done todo : List HeaderLine} (hsplit : w.headers = done ++ todo) (hheaders : c.AtHeaders w.line done)
    (hs : c.Serving o w.line done) :
    ∃ res, handlerLoop env c = .ok res ∧ Awaited env w o future res := by
  have hcall := headers_awaits hw h hsplit hheaders hs
  rw [handlerLoop_some hheaders.handler]
  change ∃ res, nextRound (handlerLoop env) (requestHandleHeaders env c) = .ok res ∧ Awaited env w o future res
  generalize requestHandleHeaders env c = res at hcall ⊢
  rcases hcall with ⟨hst, hawaits, hne⟩ | ⟨hst, hawaits, hbody, hserving⟩
  · refine ⟨res, nextRound_stop ?_, .inl ⟨hst, hawaits, hne⟩⟩
    rintro ⟨hok, -⟩
    rw [hst] at hok
    cases hok
  · rw [nextRound_go ⟨hst, by rw [hbody.handler]; nofun⟩]
    exact handlerLoop_body hw ho hawaits hbody hserving

theorem served_errReq (line : RequestLine) (file : File) : (line.served file).offer.errReq = false := by
  change (line.served file).req.par.errReq = false
  rw [RequestLine.served, (openResource_frame _ file).req]
  exact congrArg Owned.errReq (archive_owned line line.bytes line.bytes.length).1

/-- **While a valid request arrives.**  As long as a byte of it is missing the loop of the handlers answers `AGAIN`, and with
the last byte it assembles the response. -/
theorem handlerLoop_awaits (hw : w.Valid env) (hfile : env.openat w.line.target = some file)
    (h : c.Awaits w (w.line.served file).offer future) :
    ∃ res, handlerLoop env c = .ok res ∧ Awaited env w (w.line.served file).offer future res := by
  have ho := served_errReq w.line file
  rcases h.stage with ⟨hline, hun⟩ | ⟨done, todo, hsplit, hheaders, hs⟩ | ⟨hbody, hs⟩
  · obtain ⟨st, c', hcall, hawaits, hnext⟩ := requestLine_awaits hw hfile h hline hun
    rw [handlerLoop_some hline.handler, ReqHandler.call, hcall]
    change ∃ res, nextRound (handlerLoop env) (st, c') = .ok res ∧ Awaited env w _ future res
    rcases hnext with ⟨rfl, hne⟩ | ⟨rfl, hheaders, hs⟩
    · exact ⟨_, nextRound_stop (by rintro ⟨⟨⟩, -⟩), .inl ⟨rfl, hawaits, hne⟩⟩
    · rw [nextRound_go ⟨rfl, by rw [hheaders.handler]; exact Option.some_ne_none _⟩]
      exact handlerLoop_headers hw ho hawaits (List.nil_append _).symm hheaders hs
  · exact handlerLoop_headers hw ho h hsplit hheaders hs
  · exact handlerLoop_body hw ho h hbody hs

theorem fresh_awaits (w : WholeRequest) (o : Offer) (hreq : c.req = .fresh) (hreceived : c.ghost.received = [])
    (hanswers : c.ghost.answers = []) (hin : c.epollIn = true) (hout : c.epollOut = false) : c.Awaits w o w.bytes := by
  refine ⟨⟨by rw [hreq]; rfl, hanswers⟩, hin, hout, ?_, .inl ⟨fresh_atLine hreq hreceived, ?_⟩⟩
  · rw [hreceived]
    rfl
  · constructor <;> rw [hreq] <;> rfl

/-- The response to a request that arrives in one batch on a connection that has just been made: what is assembled, and the
content of the file. -/
def WholeRequest.reply (env : Env) (w : WholeRequest) : List Byte × List Byte :=
  match handlerLoop env (Conn.init.receive w.bytes) with
  | .ok (_, c) => (c.req.ob, c.req.resource)
  | .error _ => ([], [])

/-- The response does not depend on how the request arrives. -/
theorem Conn.Replied.reply (hw : w.Valid env) (hfile : env.openat w.line.target = some file)
    (h : c.Replied env (w.line.served file).offer) : (c.req.ob, c.req.resource) = w.reply env := by
  have hfresh : (Conn.init.receive w.bytes).Awaits w (w.line.served file).offer [] := by
    have hinit : Conn.init.Awaits w (w.line.served file).offer (w.bytes ++ []) := by
      rw [List.append_nil]
      exact fresh_awaits w _ rfl rfl rfl rfl rfl
    exact hinit.receive
  obtain ⟨⟨st, c₀⟩, hloop, hawaited⟩ := handlerLoop_awaits hw hfile hfresh
  unfold WholeRequest.reply
  rw [hloop]
  rcases hawaited with ⟨-, -, hne⟩ | ⟨-, h₀, -⟩
  · exact absurd rfl hne
  · exact Prod.ext (h.ob.trans h₀.ob.symm) (h.content.trans h₀.content.symm)

end Awaits

end Lotos
