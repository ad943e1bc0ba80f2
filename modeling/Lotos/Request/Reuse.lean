import Lotos.Buffer.Defs
import Lotos.Request.History
import Lotos.Request.Memory

/-!
# Past the end of the buffer

What the memory holds past `len` makes no difference to `request_handle`.

`Conn.extend` puts more bytes after those of the input buffer.  While a request is read every function stops before them
(`loopIn_extend`): the loop over the path stops at the space or the question mark that `parse_url` has seen, and `atoi` and
`strncasecmp` at the `NUL` that `buffer_cat` has written.
-/

namespace Lotos

/-! ### More bytes after the buffer -/

def Conn.extend (c : Conn) (more : List Byte) : Conn := c.mapReq fun r => { r with ib := r.ib ++ more }

/-- The result of a handler, with more bytes after the buffer. -/
def extendRes (more : List Byte) (res : Status × Conn) : Status × Conn := (res.1, res.2.extend more)

section Extend

variable (env : Env) (c : Conn) (more : List Byte)

@[simp] theorem extend_par : (c.extend more).req.par = c.req.par := rfl

@[simp] theorem extend_ib : (c.extend more).req.ib = c.req.ib ++ more := rfl

@[simp] theorem extend_handler : (c.extend more).req.reqHandler = c.req.reqHandler := rfl

theorem extend_mapPar (f : ParseArchive → ParseArchive) : (c.extend more).mapPar f = (c.mapPar f).extend more := rfl

theorem assembleErr_extend (code : ℕ) :
    responseAssembleErrBuffer env (c.extend more) code = extendRes more (responseAssembleErrBuffer env c code) := rfl

theorem openResource_extend (file : File) : openResource (c.extend more) file = (openResource c file).extend more := by
  unfold openResource Conn.setResource
  rcases file with content | ⟨size, _ | content⟩ <;> simp only <;> generalize toInt _ = n <;> rfl

theorem finishHeader_extend (ans : Option ℕ) :
    finishHeader env (c.extend more) ans = extendRes more (finishHeader env c ans) := by
  cases ans with
  | none => rfl
  | some code => exact assembleErr_extend env c more code

theorem mimeDict_eq : mimeDict = (mimeList.map fun e => (e.1, str e.2)).foldl
    (fun d e => dictPut [] d (.ofConst (str e.1)) e.2) .init := by
  rw [mimeDict, List.foldl_map]

theorem responseAssembleBuffer_extend (hmime : c.req.par.url.mimeExtension.InBounds c.req.ib.length) :
    responseAssembleBuffer env (c.extend more) = (responseAssembleBuffer env c).extend more := by
  have hdict : dictGet (c.req.ib ++ more) mimeDict c.req.par.url.mimeExtension =
      dictGet c.req.ib mimeDict c.req.par.url.mimeExtension := by
    rw [mimeDict_eq]
    exact dictGet_foldl_append more _ hmime
  have hreq : ((c.extend more).req.responseAssembleBuffer env) =
      { c.req.responseAssembleBuffer env with ib := c.req.ib ++ more } := by
    have hob : ((c.extend more).req.responseAssembleBuffer env).ob = (c.req.responseAssembleBuffer env).ob := by
      rw [responseAssembleBuffer_ob, responseAssembleBuffer_ob]
      simp only [Request.assembleHelpers, extend_ib, extend_par, hdict]
      rfl
    rw [show (c.extend more).req.responseAssembleBuffer env =
      { c.req.responseAssembleBuffer env with
        ib := c.req.ib ++ more, ob := ((c.extend more).req.responseAssembleBuffer env).ob } from rfl, hob]
  unfold responseAssembleBuffer
  simp only [Conn.mapReq, hreq]
  rfl

end Extend

/-! ### The end of the path -/

section Path

variable {data : List Byte} {b p : ℕ}

theorem pathEnd_bounds (h : pathEnd data b = some p) : b ≤ p ∧ p < data.length := by
  obtain ⟨i, hi, rfl⟩ := Option.map_eq_some_iff.mp h
  have hlt := (List.findIdx?_eq_some_iff_findIdx_eq.mp hi).1
  rw [List.length_drop] at hlt
  omega

theorem pathEnd_append (more : List Byte) (h : pathEnd data b = some p) : pathEnd (data ++ more) b = some p := by
  have hb := pathEnd_bounds h
  unfold pathEnd at h ⊢
  obtain ⟨i, hi, rfl⟩ := Option.map_eq_some_iff.mp h
  rw [List.drop_append_of_le_length (by omega), List.findIdx?_append, hi]
  rfl

theorem relativePath_append (stale : List Byte) (hb : b < data.length) (len : ℤ) :
    relativePath (data ++ NUL :: stale) b len = relativePath data b len := by
  unfold relativePath
  rw [List.getD_append _ _ _ _ hb, List.drop_append_of_le_length hb, cString_append_nul]

theorem requestHandlePath_extend (env : Env) (c : Conn) (stale : List Byte)
    (hpath : ∀ b, c.req.par.url.absPath.str = .buf b → pathEnd c.req.ib b ≠ none) :
    requestHandlePath env (c.extend (NUL :: stale)) = (requestHandlePath env c).map (extendRes (NUL :: stale)) := by
  unfold requestHandlePath
  rw [extend_par]
  cases hstr : c.req.par.url.absPath.str with
  | buf b =>
    obtain ⟨p, hp⟩ := Option.ne_none_iff_exists'.mp (hpath b hstr)
    have hbounds := pathEnd_bounds hp
    have hclose : (c.extend (NUL :: stale)).closePath p = (c.closePath p).extend (NUL :: stale) := by
      have hset : (c.req.ib ++ NUL :: stale).set p NUL = c.req.ib.set p NUL ++ NUL :: stale :=
        List.set_append_left _ _ hbounds.2
      simp only [Conn.closePath, Conn.extend, Conn.mapReq, hset]
    have hrel : ∀ len, relativePath ((c.closePath p).req.ib ++ NUL :: stale) b len =
        relativePath (c.closePath p).req.ib b len := by
      intro len
      refine relativePath_append stale ?_ len
      rw [show (c.closePath p).req.ib.length = c.req.ib.length from List.length_set]
      omega
    simp only [extend_ib, pathEnd_append (NUL :: stale) hp, hp, hclose, hrel, extend_par]
    cases env.openat (relativePath (c.closePath p).req.ib b (c.closePath p).req.par.url.absPath.len) with
    | none =>
      rw [assembleErr_extend]
      rfl
    | some file =>
      simp only [openResource_extend]
      rfl
  | null => rfl
  | const => rfl

end Path

/-! ### A header line -/

section Line

variable {data : List Byte} {val : Ssstr}

theorem mem_append (more : List Byte) (hval : ∀ p, val.str = .buf p → p ≤ data.length) (hbuf : ∃ p, val.str = .buf p) :
    val.mem (data ++ more) = val.mem data ++ more := by
  obtain ⟨p, hp⟩ := hbuf
  rw [Ssstr.mem, Ssstr.mem, hp]
  exact List.drop_append_of_le_length (hval p hp)

theorem ssstrCaseequal_append (stale : List Byte) (hval : ∀ p, val.str = .buf p → p ≤ data.length) {cstr : List Byte}
    (hcstr : NUL ∉ cstr.map toLower) : ssstrCaseequal (data ++ NUL :: stale) val cstr = ssstrCaseequal data val cstr := by
  by_cases hbuf : ∃ p, val.str = .buf p
  · unfold ssstrCaseequal
    have hlen : cstr.length = (cstr.map toLower).length := (List.length_map toLower).symm
    rw [mem_append _ hval hbuf, Bool.eq_iff_iff, beq_iff_eq, beq_iff_eq, hlen]
    exact take_append_stop_iff (by decide) hcstr
  · have hmem : ∀ data, val.mem data = val.mem [] := by
      intro data
      unfold Ssstr.mem
      cases hstr : val.str with
      | buf p => exact absurd ⟨p, hstr⟩ hbuf
      | _ => rfl
    unfold ssstrCaseequal
    rw [hmem, hmem data]

theorem atoi_mem_append (stale : List Byte) (hval : ∀ p, val.str = .buf p → p ≤ data.length) :
    atoi (val.mem (data ++ NUL :: stale)) = atoi (val.mem data) := by
  by_cases hbuf : ∃ p, val.str = .buf p
  · rw [mem_append _ hval hbuf, atoi_append_nul]
  · unfold Ssstr.mem
    cases hstr : val.str with
    | buf p => exact absurd ⟨p, hstr⟩ hbuf
    | _ => rfl

/-- What a handler of `hf_list` takes a value for does not depend on what follows the buffer. -/
theorem kind_append (stale : List Byte) (hval : ∀ p, val.str = .buf p → p ≤ data.length) (slot : HeaderSlot)
    (func : HeaderFunc) : func.kind (data ++ NUL :: stale) val slot = func.kind data val slot := by
  have hword : ∀ w : String, NUL ∉ (str w).map toLower →
      ssstrCaseequal (data ++ NUL :: stale) val (str w) = ssstrCaseequal data val (str w) :=
    fun w hw => ssstrCaseequal_append stale hval hw
  cases func with
  | base => rfl
  | connection =>
    rw [HeaderFunc.kind, HeaderFunc.kind, hword "keep-alive" (by decide +kernel), hword "close" (by decide +kernel)]
  | contentLength => rw [HeaderFunc.kind, HeaderFunc.kind, atoi_mem_append stale hval]
  | transferEncoding =>
    rw [HeaderFunc.kind, HeaderFunc.kind, codingOf, codingOf, hword "chunked" (by decide +kernel),
      hword "compress" (by decide +kernel), hword "deflate" (by decide +kernel), hword "gzip" (by decide +kernel),
      hword "identity" (by decide +kernel)]

theorem lowerName_extend {c : Conn} (more : List Byte) (hname : c.req.par.headerName.InBounds c.req.ib.length) :
    (c.extend more).lowerName = c.lowerName.extend more := by
  simp only [Conn.lowerName, Conn.extend, Conn.mapReq, ssstrTolower_append more hname]

theorem handleHeader_extend (env : Env) {c : Conn} (stale : List Byte)
    (hname : c.req.par.headerName.InBounds c.req.ib.length)
    (hval : ∀ p, c.req.par.headerVal.str = .buf p → p ≤ c.req.ib.length) :
    handleHeader env (c.extend (NUL :: stale)) = extendRes (NUL :: stale) (handleHeader env c) := by
  have hlen : c.lowerName.req.ib.length = c.req.ib.length := ssstrTolower_length _ _
  have hkind : (c.lowerName.extend (NUL :: stale)).kind = c.lowerName.kind := by
    have hname' : c.lowerName.req.par.headerName.InBounds c.lowerName.req.ib.length := by
      rw [hlen]
      exact hname
    simp only [Conn.kind, kindOf, extend_ib, extend_par, bytes_append _ hname', lineKind]
    cases headerEntry (c.lowerName.req.par.headerName.bytes c.lowerName.req.ib) with
    | none => rfl
    | some x =>
      simp only
      rw [kind_append stale (by rw [hlen]; exact hval)]
  rw [handleHeader_eq, handleHeader_eq, lowerName_extend _ hname, hkind, extend_mapPar]
  exact finishHeader_extend env _ _ _

end Line

/-! ### The stages of a request -/

/-- Header lines are being read, whatever has been answered. -/
structure Conn.HeaderPending (c : Conn) : Prop where
  ne : c.req.ib ≠ []
  pos : c.req.par.nextParsePos ≤ c.req.ib.length
  mime : c.req.par.url.mimeExtension.InBounds c.req.ib.length
  same : ∃ ar₀, ar₀.state = .hdBegin ∧
    ∀ ys, SameAnswer (parseHeaderLine (c.req.ib ++ ys) c.req.par) (parseHeaderLine (c.req.ib ++ ys) ar₀)

/-- The body is being read. -/
structure Conn.BodyPending (c : Conn) : Prop where
  ne : c.req.ib ≠ []
  mime : c.req.par.url.mimeExtension.InBounds c.req.ib.length

/-- Where the reading of a request is. -/
def Conn.Stage (c : Conn) : Prop :=
  match c.req.reqHandler with
  | some .requestLine => c.AtLine
  | some .headers => c.HeaderPending
  | some .body => c.BodyPending
  | none => True

theorem Conn.Stage.of_none {c : Conn} (h : c.req.reqHandler = none) : c.Stage := by
  rw [Conn.Stage, h]
  trivial

theorem Conn.Stage.of_body {c : Conn} (h : c.req.reqHandler = some .body) (hc : c.BodyPending) : c.Stage := by
  rw [Conn.Stage, h]
  exact hc

theorem Conn.Stage.of_headers {c : Conn} (h : c.req.reqHandler = some .headers) (hc : c.HeaderPending) : c.Stage := by
  rw [Conn.Stage, h]
  exact hc

theorem Conn.Stage.receive {c : Conn} (h : c.Stage) (bs : List Byte) : (c.receive bs).Stage := by
  have hlen : c.req.ib.length ≤ (c.req.ib ++ bs).length := by
    rw [List.length_append]
    exact Nat.le_add_right _ _
  rw [Conn.Stage] at h ⊢
  rw [show (c.receive bs).req.reqHandler = c.req.reqHandler from rfl]
  cases hhd : c.req.reqHandler with
  | none => trivial
  | some hd =>
    rw [hhd] at h
    cases hd with
    | requestLine => exact Conn.AtLine.receive h bs
    | headers =>
      have h : c.HeaderPending := h
      obtain ⟨ar₀, hst, hsame⟩ := h.same
      refine ⟨?_, h.pos.trans hlen, h.mime.mono hlen, ar₀, hst, ?_⟩
      · exact List.append_ne_nil_of_left_ne_nil h.ne _
      · intro ys
        have hsame := hsame (bs ++ ys)
        rw [← List.append_assoc] at hsame
        exact hsame
    | body =>
      have h : c.BodyPending := h
      exact ⟨List.append_ne_nil_of_left_ne_nil h.ne _, h.mime.mono hlen⟩

section Stages

variable {env : Env} {c : Conn} {ar : ParseArchive}

theorem Conn.HeaderPending.spans (h : c.HeaderPending) (hp : parseHeaderLine c.req.ib c.req.par = (.ok, ar)) :
    ar.headerName.InBounds c.req.ib.length ∧ ar.headerVal.InBounds c.req.ib.length := by
  obtain ⟨ar₀, hbegin, hsame⟩ := h.same
  have hsame := hsame []
  rw [List.append_nil, hp] at hsame
  have hp₀ := hsame.eq nofun
  obtain ⟨l, -, hpre, rfl⟩ := parseHeaderLine_line hbegin hp₀
  have hlen := line_length hpre
  have hbytes : l.bytes.length = l.indent.length + (l.name.length + (1 + (l.blanks.length + (l.value.length + 2)))) := by
    simp [HeaderLine.bytes, CRLF]
    omega
  refine ⟨?_, ?_⟩
  · rintro _ ⟨⟩
    simp only [HeaderLine.taken, Int.toNat_natCast]
    omega
  · rintro _ ⟨⟩
    simp only [HeaderLine.taken, Int.toNat_natCast, HeaderLine.valPos, HeaderLine.colonPos, HeaderLine.namePos]
    omega

theorem Conn.HeaderPending.next (env : Env) (h : c.HeaderPending) (hp : parseHeaderLine c.req.ib c.req.par = (.ok, ar)) :
    (handleHeader env (c.mapPar fun _ => ar)).2.HeaderPending := by
  have hpos := handleHeader_pos env (c.mapPar fun _ => ar)
  simp only [mapPar_ib, mapPar_par] at hpos
  have hdone := parseHeaderLine_done_pos hp (.inl rfl)
  have hurl := (parseHeaderLine_frame hp).url
  have hpar : (handleHeader env (c.mapPar fun _ => ar)).2.req.par.url = ar.url ∧
      (handleHeader env (c.mapPar fun _ => ar)).2.req.par.state = ar.state := by
    rw [handleHeader_eq]
    generalize (c.mapPar fun _ => ar).lowerName.kind = k
    cases k.answer with
    | none => cases k <;> exact ⟨rfl, rfl⟩
    | some code =>
      simp only [finishHeader, assembleErr_par]
      cases k <;> exact ⟨rfl, rfl⟩
  refine ⟨?_, ?_, ?_, _, hpar.2.trans hdone.2.2, fun ys => .refl _⟩
  · intro hnil
    have hlen := hpos.1
    rw [hnil] at hlen
    exact h.ne (List.length_eq_zero_iff.mp hlen.symm)
  · rw [hpos.1, hpos.2]
    exact hdone.2.1
  · rw [hpos.1, hpar.1, hurl]
    exact h.mime

theorem Conn.HeaderPending.again (h : c.HeaderPending) (hp : parseHeaderLine c.req.ib c.req.par = (.again, ar)) :
    (c.mapPar fun _ => ar).HeaderPending := by
  have hurl := (parseHeaderLine_frame hp).url
  obtain ⟨ar₀, hst, hsame⟩ := h.same
  refine ⟨h.ne, (parseHeaderLine_again_pos hp).le, ?_, ar₀, hst,
    fun ys => (parseHeaderLine_resume ys h.pos hp).trans (hsame ys)⟩
  rw [mapPar_par, mapPar_ib, hurl]
  exact h.mime

/-! ### The handlers -/

theorem parseRequestLineIn_append (more : List Byte) (har : ar.UrlPending) :
    parseRequestLineIn (c.req.ib ++ more) c.req.ib.length ar = parseRequestLine c.req.ib ar := by
  unfold parseRequestLineIn
  rw [List.take_left, rlScan_prefix more har]
  rfl

theorem Conn.AtLine.path (h : c.AtLine) (hp : parseRequestLine c.req.ib c.req.par = (.ok, ar)) :
    (∀ b, ar.url.absPath.str = .buf b → pathEnd c.req.ib b ≠ none) ∧ ar.url.mimeExtension.InBounds c.req.ib.length ∧
      c.req.ib ≠ [] := by
  obtain ⟨line, hline, hpre, rfl⟩ := h.ok hp
  have hlen := hpre.length_le
  have hsep := List.length_pos_of_ne_nil hline.sep.1
  have hbytes : line.urlPos + line.url.length + 1 ≤ line.bytes.length := by
    simp only [RequestLine.bytes, RequestLine.urlPos, List.length_append, List.length_cons]
    omega
  refine ⟨?_, ?_, ?_⟩
  · intro b hb
    obtain ⟨rfl, x, hx, hstop⟩ := parseUrl_absPath { parseArchiveInit with
      methodBegin := some 0
      method := line.method
      urlBegin := some line.urlPos
      state := .rlSpBeforeVersion } rfl hb
    unfold pathEnd
    rw [Ne, Option.map_eq_none_iff, List.findIdx?_eq_none_iff]
    intro hall
    have hmem : x ∈ c.req.ib.drop line.urlPos := List.mem_of_mem_take hx
    have := hall x hmem
    rcases hstop with rfl | rfl <;> simp at this
  · refine Ssstr.InBounds.mono (n := line.urlPos + line.url.length + 1) ?_ (hbytes.trans hlen)
    exact parseUrl_mimeExtension rfl rfl
  · intro hnil
    rw [hnil] at hlen
    simp only [List.length_nil] at hlen
    omega

theorem requestLineIn_extend (h : c.AtLine) (rest : List Byte) (hrest : c.req.ib ≠ [] → ∃ stale, rest = NUL :: stale) :
    requestLineIn env c.req.ib.length (c.extend rest) = (requestHandleRequestLine env c).map (extendRes rest) := by
  unfold requestLineIn requestHandleRequestLine
  rw [extend_ib, extend_par, parseRequestLineIn_append rest h.pending]
  rcases hp : parseRequestLine c.req.ib c.req.par with ⟨_ | _ | _ | _, ar⟩ <;> simp only
  · obtain ⟨hpath, -, hne⟩ := h.path hp
    obtain ⟨stale, rfl⟩ := hrest hne
    split_ifs
    · rw [extend_mapPar, assembleErr_extend]
      rfl
    · exact requestHandlePath_extend env (c.mapPar fun _ => ar).acceptVersion stale hpath
  · rfl
  · rw [extend_mapPar, assembleErr_extend]
    rfl
  · rw [extend_mapPar, assembleErr_extend]
    rfl

theorem requestLine_stage (h : c.AtLine) {res : Status × Conn} (hcall : requestHandleRequestLine env c = .ok res) :
    res.2.Stage ∧ res.2.req.ib.length = c.req.ib.length := by
  rcases requestHandleRequestLine_cases hcall with ⟨ar, hp, rfl⟩ | ⟨ar, code, -, -, rfl, -⟩ |
    ⟨ar, b, p, hp, hmajor, hminor, hb, hend, ⟨-, rfl⟩ | ⟨file, -, rfl⟩⟩
  · have hline := h.again hp
    refine ⟨?_, rfl⟩
    rw [Conn.Stage, hline.handler]
    exact hline
  · exact ⟨.of_none (assembleErr_handler _ _ _), by rw [assembleErr_ib]; rfl⟩
  · exact ⟨.of_none (assembleErr_handler _ _ _), by rw [assembleErr_ib]; exact List.length_set⟩
  · obtain ⟨line, hheaders⟩ := h.headers hp ⟨hmajor, hminor⟩ hb hend file
    obtain ⟨-, hmime, hne⟩ := h.path hp
    have hib : (openResource ((c.mapPar fun _ => ar).acceptVersion.closePath p) file).req.ib = c.req.ib.set p NUL := by
      rw [(openResource_frame _ file).req]
      rfl
    have hlen : (openResource ((c.mapPar fun _ => ar).acceptVersion.closePath p) file).req.ib.length = c.req.ib.length := by
      rw [hib, List.length_set]
    refine ⟨.of_headers hheaders.handler ⟨?_, hheaders.pos, ?_, ?_⟩, hlen⟩
    · intro hnil
      rw [hnil] at hlen
      exact hne (List.length_eq_zero_iff.mp hlen.symm)
    · rw [hlen]
      rcases file with content | ⟨size, _ | content⟩
      · exact hmime
      · rintro _ ⟨⟩
      · rintro _ ⟨⟩
    · obtain ⟨ar₀, hst, -, hsame⟩ := hheaders.same
      exact ⟨ar₀, hst, hsame⟩

theorem headersIn_extend (h : c.HeaderPending) (stale : List Byte)
    (hh : c.req.reqHandler = some .headers ∨ c.req.reqHandler = none) :
    headersIn env c.req.ib.length (c.extend (NUL :: stale)) = extendRes (NUL :: stale) (requestHandleHeaders env c) ∧
      (requestHandleHeaders env c).2.Stage ∧ (requestHandleHeaders env c).2.req.ib.length = c.req.ib.length := by
  induction hn : c.req.ib.length - c.req.par.nextParsePos using Nat.strong_induction_on generalizing c with
  | _ n ih =>
    have htake : (c.extend (NUL :: stale)).req.ib.take c.req.ib.length = c.req.ib := List.take_left
    have hparse : parseHeaderLine ((c.extend (NUL :: stale)).req.ib.take c.req.ib.length) (c.extend (NUL :: stale)).req.par =
        parseHeaderLine c.req.ib c.req.par := by rw [htake, extend_par]
    rcases hp : parseHeaderLine c.req.ib c.req.par with ⟨_ | _ | _ | _, ar⟩ <;> rw [hp] at hparse
    · have hnext := parseHeaderLine_done_pos hp (.inl rfl)
      have hpos := handleHeader_pos env (c.mapPar fun _ => ar)
      simp only [mapPar_ib, mapPar_par] at hpos
      obtain ⟨hname, hval⟩ := h.spans hp
      have hhandler : (handleHeader env (c.mapPar fun _ => ar)).2.req.reqHandler = some .headers ∨
          (handleHeader env (c.mapPar fun _ => ar)).2.req.reqHandler = none := by
        rw [handleHeader_eq]
        cases (c.mapPar fun _ => ar).lowerName.kind.answer with
        | none => exact hh
        | some code => exact .inr (assembleErr_handler _ _ _)
      obtain ⟨heq, hstage, hlen⟩ := ih _ (by omega) (h.next env hp) hhandler rfl
      have hstart : ∀ p, (c.mapPar fun _ => ar).req.par.headerVal.str = .buf p → p ≤ (c.mapPar fun _ => ar).req.ib.length :=
        fun p hp => hval.start hp
      rw [requestHandleHeaders_ok hp, headersIn_ok hparse, extend_mapPar, handleHeader_extend env stale hname hstart]
      rw [hpos.1] at heq hlen
      exact ⟨heq, hstage, hlen⟩
    · rw [requestHandleHeaders_again hp, headersIn_again hparse]
      refine ⟨rfl, ?_, rfl⟩
      rcases hh with hh | hh
      · exact .of_headers hh (h.again hp)
      · exact .of_none hh
    · have hurl := (parseHeaderLine_frame hp).url
      rw [requestHandleHeaders_crlfLine hp, headersIn_crlfLine hparse]
      refine ⟨rfl, .of_body rfl ⟨h.ne, ?_⟩, rfl⟩
      change ar.url.mimeExtension.InBounds c.req.ib.length
      rw [hurl]
      exact h.mime
    · rw [requestHandleHeaders_error hp, headersIn_error hparse, extend_mapPar, assembleErr_extend]
      exact ⟨rfl, .of_none (assembleErr_handler _ _ _), by rw [assembleErr_ib]; rfl⟩

section Body

variable {len : ℕ}

theorem bodyIn_again (hte : c.req.par.transferEncoding = .identity)
    (hp : parseHeaderBodyIdentity (c.req.ib.take len) c.req.par = (.again, ar)) :
    bodyIn env len c = (.again, c.mapPar fun _ => ar) := by
  simp only [bodyIn, hte, hp]

theorem bodyIn_ok (hte : c.req.par.transferEncoding = .identity)
    (hp : parseHeaderBodyIdentity (c.req.ib.take len) c.req.par = (.ok, ar)) :
    bodyIn env len c = (.ok, responseAssembleBuffer env (((c.mapPar fun _ => ar).turnOut).setHandler none)) := by
  simp only [bodyIn, hte, hp]

theorem bodyIn_coding (hte : c.req.par.transferEncoding ≠ .identity) :
    bodyIn env len c = responseAssembleErrBuffer env c 501 := by
  unfold bodyIn
  split
  · rename_i hid
    exact absurd hid hte
  · rfl

end Body

theorem assembleBuffer_ib (env : Env) (c : Conn) : (responseAssembleBuffer env c).req.ib = c.req.ib := rfl

theorem bodyIn_extend (h : c.BodyPending) (hh : c.req.reqHandler = some .body) (more : List Byte) :
    bodyIn env c.req.ib.length (c.extend more) = extendRes more (requestHandleBody env c) ∧
      (requestHandleBody env c).2.Stage ∧ (requestHandleBody env c).2.req.ib.length = c.req.ib.length := by
  have htake : (c.extend more).req.ib.take c.req.ib.length = c.req.ib := List.take_left
  have hurl : (parseHeaderBodyIdentity c.req.ib c.req.par).2.url = c.req.par.url := by
    rcases parseHeaderBodyIdentity_cases c.req.ib c.req.par with ⟨-, heq⟩ | ⟨-, heq⟩ | heq <;> rw [heq] <;> rfl
  have hparse : parseHeaderBodyIdentity ((c.extend more).req.ib.take c.req.ib.length) (c.extend more).req.par =
      parseHeaderBodyIdentity c.req.ib c.req.par := by rw [htake, extend_par]
  rcases requestHandleBody_cases env c with ⟨ar, hte, hp, hres⟩ | ⟨ar, hte, hp, hres⟩ | ⟨hte, hres⟩ <;> rw [hres] <;>
    rw [← extend_par c more] at hte
  · rw [hp] at hparse hurl
    rw [bodyIn_again hte hparse]
    refine ⟨rfl, .of_body hh ⟨h.ne, ?_⟩, rfl⟩
    rw [mapPar_par, mapPar_ib, hurl]
    exact h.mime
  · rw [hp] at hparse hurl
    rw [bodyIn_ok hte hparse]
    set c₁ := ((c.mapPar fun _ => ar).turnOut).setHandler none with hc₁
    have hmime : c₁.req.par.url.mimeExtension.InBounds c₁.req.ib.length := by
      change ar.url.mimeExtension.InBounds c.req.ib.length
      rw [hurl]
      exact h.mime
    refine ⟨congrArg (Prod.mk Status.ok) (responseAssembleBuffer_extend env c₁ more hmime), .of_none rfl, ?_⟩
    rw [assembleBuffer_ib]
    rfl
  · rw [bodyIn_coding hte, assembleErr_extend]
    exact ⟨rfl, .of_none (assembleErr_handler _ _ _), by rw [assembleErr_ib]⟩

/-! ### What the handlers write -/

/-- The values of the headers are in the buffer, and nothing that was in `ob` has been taken back. -/
structure Conn.Written (ob₀ : List Byte) (c : Conn) : Prop where
  headers : ∀ slot, (c.req.par.reqHeaders slot).InBounds c.req.ib.length
  ob : ob₀ <+: c.req.ob

variable {ob₀ : List Byte}

theorem Conn.Written.parse (h : c.Written ob₀) (howned : ar.owned = c.req.par.owned) :
    (c.mapPar fun _ => ar).Written ob₀ := by
  refine ⟨?_, h.ob⟩
  have hheaders : ar.reqHeaders = c.req.par.reqHeaders := congrArg Owned.reqHeaders howned
  rw [mapPar_par, hheaders]
  exact h.headers

theorem Conn.Written.assembleErr (h : c.Written ob₀) (env : Env) (code : ℕ) :
    (responseAssembleErrBuffer env c code).2.Written ob₀ := by
  rw [assembleErr_eq]
  refine ⟨h.headers, h.ob.trans ?_⟩
  rw [assembleErr_ob]
  exact List.prefix_append _ _

theorem Conn.Written.handleHeader (h : c.Written ob₀) (env : Env) (hval : c.req.par.headerVal.InBounds c.req.ib.length) :
    (handleHeader env c).2.Written ob₀ := by
  have hlen : c.lowerName.req.ib.length = c.req.ib.length := ssstrTolower_length _ _
  have hset : ∀ slot slot', (Function.update c.req.par.reqHeaders slot c.req.par.headerVal slot').InBounds
      c.req.ib.length := by
    intro slot slot'
    rcases eq_or_ne slot' slot with rfl | hne
    · rw [Function.update_self]
      exact hval
    · rw [Function.update_of_ne hne]
      exact h.headers slot'
  have hrecord : (c.lowerName.mapPar c.lowerName.kind.record).Written ob₀ := by
    refine ⟨?_, h.ob⟩
    rw [mapPar_ib, hlen, mapPar_par]
    cases c.lowerName.kind with
    | unknown => exact h.headers
    | _ => exact hset _
  rw [handleHeader_eq]
  cases c.lowerName.kind.answer with
  | none => exact hrecord
  | some code => exact hrecord.assembleErr env code

theorem requestLine_written (h : c.Written ob₀) {res : Status × Conn} (hcall : requestHandleRequestLine env c = .ok res) :
    res.2.Written ob₀ := by
  have howned : (parseRequestLine c.req.ib c.req.par).2.owned = c.req.par.owned := (parseRequestLine_owned rfl).1
  rcases requestHandleRequestLine_cases hcall with ⟨ar, hp, rfl⟩ | ⟨ar, code, -, hp, rfl, -⟩ |
    ⟨ar, b, p, hp, -, -, -, -, hres⟩ <;> rw [hp] at howned
  · exact h.parse howned
  · exact (h.parse howned).assembleErr env code
  · have hclose : ((c.mapPar fun _ => ar).acceptVersion.closePath p).Written ob₀ := by
      refine ⟨?_, h.ob⟩
      change ∀ slot, (ar.reqHeaders slot).InBounds (c.req.ib.set p NUL).length
      rw [List.length_set]
      exact (h.parse howned).headers
    rcases hres with ⟨-, rfl⟩ | ⟨file, -, rfl⟩
    · exact hclose.assembleErr env 404
    · have hframe := openResource_frame ((c.mapPar fun _ => ar).acceptVersion.closePath p) file
      refine ⟨?_, ?_⟩
      · rw [hframe.req]
        exact hclose.headers
      · rw [hframe.req]
        exact hclose.ob

theorem headers_written (env : Env) (hc : c.HeaderPending) (h : c.Written ob₀) :
    (requestHandleHeaders env c).2.Written ob₀ := by
  refine requestHandleHeaders_rule (fun c => c.HeaderPending ∧ c.Written ob₀) (fun res => res.2.Written ob₀) ?_ ?_ ?_ ?_
    ⟨hc, h⟩
  · rintro c ar ⟨hc, h⟩ hp
    exact ⟨hc.next env hp, (h.parse (parseHeaderLine_frame hp).owned).handleHeader env (hc.spans hp).2⟩
  · rintro c ar ⟨-, h⟩ hp
    exact h.parse (parseHeaderLine_frame hp).owned
  · rintro c ar ⟨-, h⟩ hp
    exact (h.parse (parseHeaderLine_frame hp).owned).assembleErr env 400
  · rintro c ar ⟨-, h⟩ hp
    have hpar := h.parse (parseHeaderLine_frame hp).owned
    exact ⟨hpar.headers, hpar.ob⟩

theorem body_written (env : Env) (h : c.Written ob₀) : (requestHandleBody env c).2.Written ob₀ := by
  have howned := parseHeaderBodyIdentity_owned c.req.ib c.req.par
  rcases requestHandleBody_cases env c with ⟨ar, -, hp, hres⟩ | ⟨ar, -, hp, hres⟩ | ⟨-, hres⟩ <;> rw [hres]
  · rw [hp] at howned
    exact h.parse howned
  · rw [hp] at howned
    have hpar := h.parse howned
    refine ⟨hpar.headers, hpar.ob.trans ?_⟩
    change c.req.ob <+: (Request.responseAssembleBuffer env _).ob
    rw [responseAssembleBuffer_ob]
    exact List.prefix_append _ _
  · exact h.assembleErr env 501

theorem call_written (hc : c.Stage) (h : c.Written ob₀) {hd : ReqHandler} (hhd : c.req.reqHandler = some hd)
    {res : Status × Conn} (hcall : hd.call env c = .ok res) : res.2.Written ob₀ := by
  rw [Conn.Stage, hhd] at hc
  cases hd with
  | requestLine => exact requestLine_written h hcall
  | headers =>
    cases hcall
    exact headers_written env hc h
  | body =>
    cases hcall
    exact body_written env h

/-! ### The loop of the handlers -/

theorem loopIn_none {len : ℕ} (h : c.req.reqHandler = none) : loopIn env len c = .error .nullHandler := by
  rw [loopIn, h]

theorem loopIn_some {len : ℕ} {hd : ReqHandler} (h : c.req.reqHandler = some hd) :
    loopIn env len c = (hd.callIn env len c).bind (nextRound (loopIn env len)) := by
  rw [loopIn]
  split
  · rename_i hnone
    cases hnone.symm.trans h
  · rename_i hd' hhd
    obtain rfl : hd' = hd := Option.some.inj (hhd.symm.trans h)
    split
    · rename_i e he
      rw [he]
      rfl
    · rename_i c₁ hc₁
      rw [hc₁]
      simp [Except.bind, nextRound]
    · rename_i st₁ c₁ hne hc₁
      rw [hc₁]
      exact (nextRound_stop fun hand => hne hand.1).symm

/-- What follows the buffer, once something has been received. -/
def Conn.Closed (c : Conn) (rest : List Byte) : Prop := c.req.ib ≠ [] → ∃ stale, rest = NUL :: stale

theorem callIn_extend (env : Env) (hc : c.Stage) {rest : List Byte} (hrest : c.Closed rest) {hd : ReqHandler}
    (hhd : c.req.reqHandler = some hd) :
    hd.callIn env c.req.ib.length (c.extend rest) = (hd.call env c).map (extendRes rest) ∧
      ∀ res, hd.call env c = .ok res → res.2.Stage ∧ res.2.req.ib.length = c.req.ib.length := by
  rw [Conn.Stage, hhd] at hc
  cases hd with
  | requestLine => exact ⟨requestLineIn_extend hc rest hrest, fun res hcall => requestLine_stage hc hcall⟩
  | headers =>
    have hc : c.HeaderPending := hc
    obtain ⟨stale, rfl⟩ := hrest hc.ne
    obtain ⟨heq, hstage⟩ := @headersIn_extend env c hc stale (.inl hhd)
    refine ⟨congrArg Except.ok heq, ?_⟩
    rintro _ ⟨⟩
    exact hstage
  | body =>
    obtain ⟨heq, hstage⟩ := @bodyIn_extend env c hc hhd rest
    refine ⟨congrArg Except.ok heq, ?_⟩
    rintro _ ⟨⟩
    exact hstage

/-- **What follows the buffer makes no difference.**  The handlers, on a memory of which they have read a part, do what they
do on that part. -/
theorem loopIn_extend (hc : c.Stage) {rest : List Byte} (hrest : c.Closed rest) :
    loopIn env c.req.ib.length (c.extend rest) = (handlerLoop env c).map (extendRes rest) ∧
      ∀ res, handlerLoop env c = .ok res → res.2.Stage ∧ res.2.req.ib.length = c.req.ib.length := by
  induction hn : handlerRank c.req.reqHandler using Nat.strong_induction_on generalizing c with
  | _ n ih =>
    cases hhd : c.req.reqHandler with
    | none =>
      rw [handlerLoop_none hhd, loopIn_none ((extend_handler c rest).trans hhd)]
      refine ⟨rfl, ?_⟩
      rintro _ ⟨⟩
    | some hd =>
      obtain ⟨heq, hstage⟩ := callIn_extend env hc hrest hhd
      rw [handlerLoop_some hhd, loopIn_some ((extend_handler c rest).trans hhd), heq]
      cases hcall : hd.call env c with
      | error e =>
        refine ⟨rfl, ?_⟩
        rintro _ ⟨⟩
      | ok res =>
        obtain ⟨st, c₁⟩ := res
        obtain ⟨hc₁, hlen⟩ := hstage _ hcall
        change nextRound (loopIn env c.req.ib.length) (st, c₁.extend rest) =
          (nextRound (handlerLoop env) (st, c₁)).map (extendRes rest) ∧
            ∀ res, nextRound (handlerLoop env) (st, c₁) = .ok res → _
        by_cases hgo : st = .ok ∧ c₁.req.reqHandler ≠ none
        · rw [nextRound_go hgo, nextRound_go hgo]
          obtain ⟨rfl, -⟩ := hgo
          have hrank := call_rank hcall
          rw [← hhd, hn] at hrank
          have hrest₁ : c₁.Closed rest := by
            intro hne
            refine hrest fun hnil => hne ?_
            rw [hnil] at hlen
            exact List.length_eq_zero_iff.mp hlen
          obtain ⟨heq₁, hstage₁⟩ := ih _ hrank hc₁ hrest₁ rfl
          rw [hlen] at heq₁ hstage₁
          exact ⟨heq₁, hstage₁⟩
        · rw [nextRound_stop hgo, nextRound_stop hgo]
          refine ⟨rfl, ?_⟩
          rintro _ ⟨⟩
          exact ⟨hc₁, hlen⟩

theorem handlerLoop_written (hc : c.Stage) (h : c.Written ob₀) {res : Status × Conn} (hloop : handlerLoop env c = .ok res) :
    res.2.Written ob₀ := by
  have hcall : ∀ c c' hd st, (c.Stage ∧ c.Written ob₀) → c.req.reqHandler = some hd →
      ReqHandler.call env c hd = .ok (st, c') → c'.Stage ∧ c'.Written ob₀ := by
    rintro c c' hd st ⟨hc, h⟩ hhd hcall
    have hclosed : c.Closed [NUL] := fun _ => ⟨[], rfl⟩
    exact ⟨((callIn_extend env hc hclosed hhd).2 _ hcall).1, call_written hc h hhd hcall⟩
  exact (handlerLoop_inv (fun c => c.Stage ∧ c.Written ob₀) hcall ⟨hc, h⟩ hloop).2

end Stages

end Lotos
