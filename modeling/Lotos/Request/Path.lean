import Lotos.Lib.Walk
import Lotos.Parser.Url
import Lotos.Request.Defs

/-!
# The path of a request

What `request_handle_request_line` makes of `abs_path`: it looks for the end of the path, puts a `NUL` there, leaves out the
first byte and gives the rest to `openat`.

The parser, `parse_url` and that loop do not agree on what ends a URL.  `parse_request_line` takes a tab for the end of the
URL, and then `parse_url`, which looks for a space, leaves `abs_path` unset (`parseLine_delimited`).  And nothing between the
parser and `openat` looks at the components of the path (`openatPath_confined`).
-/

namespace Lotos

/-! ### The request line in pieces -/

/-- The calls of `parse_request_line` while the chunks arrive, up to the first answer that is not `AGAIN`: the answer, the
bytes received by then, and the archive. -/
def parseLineChunks (data : List Byte) (ar : ParseArchive) : List (List Byte) → Status × List Byte × ParseArchive
  | [] => (.again, data, ar)
  | chunk :: rest =>
    match parseRequestLine (data ++ chunk) ar with
    | (.again, ar') => parseLineChunks (data ++ chunk) ar' rest
    | (st, ar') => (st, data ++ chunk, ar')

/-- An archive from which a call on any longer buffer answers as a call on a fresh archive does. -/
structure LineResumes (data : List Byte) (ar : ParseArchive) : Prop where
  pos : ar.nextParsePos ≤ data.length
  pending : ar.UrlPending
  same : ∀ ys, SameAnswer (parseRequestLine (data ++ ys) ar) (parseRequestLine (data ++ ys) parseArchiveInit)

theorem LineResumes.chunk {data : List Byte} {ar ar' : ParseArchive} (h : LineResumes data ar) (chunk : List Byte)
    (hagain : parseRequestLine (data ++ chunk) ar = (.again, ar')) : LineResumes (data ++ chunk) ar' := by
  have hpos : ar.nextParsePos ≤ (data ++ chunk).length := by
    rw [List.length_append]
    exact h.pos.trans (Nat.le_add_right _ _)
  refine ⟨(parseRequestLine_again_pos hagain).le, parseRequestLine_again_urlPending h.pending hagain, ?_⟩
  intro ys
  have hresume := parseRequestLine_resume ys hpos h.pending hagain
  have hsame := h.same (chunk ++ ys)
  rw [← List.append_assoc] at hsame
  refine ⟨hresume.1.trans hsame.1, hresume.2.1.trans hsame.2.1, ?_⟩
  intro hne
  rw [hresume.2.2 hne, hsame.2.2 (hresume.1 ▸ hne)]

/-- The answer `OK` is the one a single call on all the bytes gives. -/
theorem parseLineChunks_ok {data data' : List Byte} {ar ar' : ParseArchive} {chunks : List (List Byte)}
    (h : LineResumes data ar) (hok : parseLineChunks data ar chunks = (.ok, data', ar')) :
    parseRequestLine data' parseArchiveInit = (.ok, ar') := by
  induction chunks generalizing data ar with
  | nil => cases hok
  | cons chunk rest ih =>
    rcases hp : parseRequestLine (data ++ chunk) ar with ⟨_ | _ | _ | _, ar₁⟩ <;> rw [parseLineChunks, hp] at hok
    · obtain ⟨-, heq⟩ := Prod.mk.inj hok
      obtain ⟨rfl, rfl⟩ := Prod.mk.inj heq
      have hsame := h.same chunk
      rw [hp] at hsame
      exact Prod.ext hsame.1.symm (hsame.2.2 nofun).symm
    · exact ih (h.chunk chunk hp) hok
    · cases hok
    · cases hok

theorem parsed_of_ok {x : Status × List Byte × ParseArchive} (h : x.1 = .ok) : x = (.ok, x.2.1, x.2.2) := by
  rw [← h]

theorem LineResumes.init : LineResumes [] parseArchiveInit :=
  ⟨le_rfl, fun _ => rfl, fun _ => ⟨rfl, rfl, fun _ => rfl⟩⟩

/-! ### What ends the path -/

section Delimited

variable {data : List Byte} {l : RequestLine}

/-- The URL of the line ends by a space, or it has a `?`. -/
def RequestLine.Delimited (l : RequestLine) : Prop := l.sep.head? = some SP ∨ QUESTION ∈ l.url

theorem drop_urlPos (hpre : l.bytes <+: data) : ∃ rest, data.drop l.urlPos = l.url ++ (l.sep ++ rest) := by
  obtain ⟨more, rfl⟩ := hpre
  refine ⟨l.http ++ SLASH :: (l.major ++ DOT :: (l.minor ++ CRLF)) ++ more, ?_⟩
  have hbytes : l.bytes ++ more = (l.method.name ++ SP :: l.blanks) ++ (l.url ++ (l.sep ++
      (l.http ++ SLASH :: (l.major ++ DOT :: (l.minor ++ CRLF)) ++ more))) := by simp [RequestLine.bytes]
  have hlen : (l.method.name ++ SP :: l.blanks).length = l.urlPos := by
    simp only [RequestLine.urlPos, List.length_append, List.length_cons]
    omega
  rw [hbytes, ← hlen, List.drop_left]

theorem slice_url {b : ℕ} {u rest : List Byte} {t : Byte} (hdrop : data.drop b = u ++ t :: rest) :
    slice data b (b + u.length + 1) = u ++ [t] := by
  have hlen : b + u.length + 1 - b = (u ++ [t]).length := by
    rw [List.length_append, List.length_singleton]
    omega
  rw [slice, hdrop, hlen, List.append_cons u t rest, List.take_left]

theorem pathEnd_eq {b : ℕ} {path rest : List Byte} {t : Byte} (hdrop : data.drop b = path ++ t :: rest)
    (hpath : ∀ c ∈ path, isPathChar c = true) (ht : t = SP ∨ t = QUESTION) :
    pathEnd data b = some (b + path.length) := by
  have hfind : (path ++ t :: rest).findIdx? (fun ch => ch == SP || ch == QUESTION) = some path.length := by
    rw [List.findIdx?_append, List.findIdx?_eq_none_iff.mpr, Option.none_or, List.findIdx?_cons]
    · rcases ht with rfl | rfl <;> simp
    · intro c hc
      have := hpath c hc
      simpa [isPathChar] using this
  rw [pathEnd, hdrop, hfind]
  rfl

theorem urlRun_query_absPath (p : ℕ) (xs : List Byte) (s : UrlScan)
    (hst : s.currState = .urlQuery ∨ s.currState = .urlEnd) :
    (Scan.run urlStep p xs s).state.ar.url.absPath = s.ar.url.absPath := by
  let P : UrlScan → Prop := fun t =>
    (t.currState = .urlQuery ∨ t.currState = .urlEnd) ∧ t.ar.url.absPath = s.ar.url.absPath
  suffices h : P (Scan.run urlStep p xs s).state from h.2
  refine Scan.run_state_inv P ?_ ⟨hst, rfl⟩
  rintro q c t ⟨ht | ht, habs⟩
  · simp only [urlStep, ht]
    split_ifs
    · exact ⟨.inr rfl, habs⟩
    · exact ⟨.inl ht, habs⟩
  · simp only [urlStep, ht]
    exact ⟨.inr ht, habs⟩

theorem url_parts (hl : l.Grammar) (hpre : l.bytes <+: data) : ∃ v t ws rest, l.url = SLASH :: v ∧
    (∀ c ∈ v, isUrlChar c = true) ∧ l.sep = t :: ws ∧ data.drop l.urlPos = l.url ++ (l.sep ++ rest) ∧
      slice data l.urlPos (l.urlPos + l.url.length + 1) = SLASH :: (v ++ [t]) := by
  obtain ⟨rest, hdrop⟩ := drop_urlPos hpre
  obtain ⟨v, hurl, hv⟩ := hl.url
  obtain ⟨t, ws, hsep⟩ := List.exists_cons_of_ne_nil hl.sep.1
  refine ⟨v, t, ws, rest, hurl, hv, hsep, hdrop, ?_⟩
  rw [hsep] at hdrop
  rw [slice_url hdrop, hurl]
  rfl

/-- What is recorded of the path of a line whose URL ends by a space or has a `?`. -/
theorem archive_absPath (hl : l.Grammar) (hpre : l.bytes <+: data) (hd : l.Delimited) :
    (l.archive data).url.absPath = ⟨.buf l.urlPos, (urlPath l.url).length⟩ ∧
      ∃ t rest, data.drop l.urlPos = urlPath l.url ++ t :: rest ∧ (t = SP ∨ t = QUESTION) ∧
        ∀ c ∈ urlPath l.url, isPathChar c = true := by
  obtain ⟨v, t, ws, rest, hurl, hv, hsep, hdrop, hslice⟩ := url_parts hl hpre
  have hsp : ∀ c ∈ v, c ≠ SP := by
    rintro c hc rfl
    exact absurd (hv SP hc) (by decide)
  have habs : (l.archive data).url.absPath = _ := parseUrl_absPath_eq data l.urlPos (l.urlPos + l.url.length) _
  rw [habs]
  by_cases hq : QUESTION ∈ v
  · obtain ⟨path, query, rfl, hpath⟩ := List.eq_append_cons_of_mem hq
    have hquestion := question_not_mem hpath
    have hchars := pathChars_of_not_mem (fun c hc => hsp c (by simp [hc])) hpath
    have hslice' : slice data l.urlPos (l.urlPos + l.url.length + 1) = SLASH :: (path ++ QUESTION :: (query ++ [t])) := by
      rw [hslice]
      simp
    rw [urlScan_question hslice' hchars, urlRun_query_absPath _ _ _ (.inl rfl), hurl, ← List.cons_append,
      (urlPath_of_append query hquestion).1]
    refine ⟨rfl, QUESTION, query ++ (l.sep ++ rest), ?_, .inr rfl, ?_⟩
    · rw [hdrop, hurl]
      simp
    · exact List.forall_mem_cons.mpr ⟨by decide, hchars⟩
  · have hquestion := question_not_mem hq
    have hchars := pathChars_of_not_mem hsp hq
    obtain rfl : t = SP := by
      rcases hd with hd | hd
      · rw [hsep] at hd
        exact Option.some.inj hd
      · exact absurd (hurl ▸ hd) hquestion
    rw [urlScan_path hslice hchars (by rw [hurl]; simp; omega), hurl, (urlPath_of_not_mem hquestion).1]
    refine ⟨rfl, SP, ws ++ rest, ?_, .inl rfl, ?_⟩
    · rw [hdrop, hurl, hsep]
      simp
    · exact List.forall_mem_cons.mpr ⟨by decide, hchars⟩

/-- A tab ends the URL, and there is no `?`: `abs_path` stays unset. -/
theorem archive_absPath_null (hl : l.Grammar) (hpre : l.bytes <+: data) (hd : ¬ l.Delimited) :
    (l.archive data).url.absPath.str = .null := by
  obtain ⟨v, t, ws, rest, hurl, hv, hsep, -, hslice⟩ := url_parts hl hpre
  rw [RequestLine.Delimited, not_or, hsep, hurl] at hd
  have habs : (l.archive data).url.absPath = _ := parseUrl_absPath_eq data l.urlPos (l.urlPos + l.url.length) _
  rw [habs, urlScan, hslice]
  refine urlRun_absPath_null _ _ _ ?_ (.inl rfl) rfl
  intro c hc
  rcases List.mem_cons.mp hc with rfl | hc
  · decide
  rcases List.mem_append.mp hc with hc | hc
  · exact ⟨fun h => absurd (h ▸ hv c hc) (by decide), fun h => hd.2 (by simp [← h, hc])⟩
  · rw [List.mem_singleton.mp hc]
    refine ⟨fun h => hd.1 (by rw [h]; rfl), ?_⟩
    rintro rfl
    exact absurd (hl.sep.2 QUESTION (by simp [hsep])) (by decide)

end Delimited

/-- `abs_path` is set to a span of the received bytes that begins with `/`, and the loop that looks for the end of the path
stops at the end of the span, before `buffer_end`. -/
def PathDelimited (data : List Byte) (ar : ParseArchive) : Prop :=
  ∃ b n : ℕ, ar.url.absPath = ⟨.buf b, n⟩ ∧ 0 < n ∧ data[b]? = some SLASH ∧ pathEnd data b = some (b + n) ∧
    b + n < data.length

/-- **The end of the path.**  For every batching of the bytes on which `parse_request_line` answers `OK`, the path is present
and well delimited exactly if the URL of the line ends by a space or has a `?` in it. -/
theorem parseLine_delimited (chunks : List (List Byte)) (data : List Byte) (ar : ParseArchive)
    (hok : parseLineChunks [] parseArchiveInit chunks = (.ok, data, ar)) :
    PathDelimited data ar ↔ ∀ l : RequestLine, l.Grammar → l.bytes <+: data → l.Delimited := by
  have hparse := parseLineChunks_ok .init hok
  constructor
  · rintro ⟨b, n, habs, -⟩ l hl hpre
    by_contra hd
    have hnull := archive_absPath_null hl hpre hd
    rw [parseRequestLine_of_grammar hl hpre] at hparse
    obtain ⟨-, rfl⟩ := Prod.mk.inj hparse
    have hstr : (l.archive data).url.absPath.str = .buf b := congrArg Ssstr.str habs
    rw [hnull] at hstr
    cases hstr
  · intro hall
    obtain ⟨l, hl, hpre⟩ := parseRequestLine_ok (congrArg Prod.fst hparse)
    obtain ⟨habs, t, rest, hdrop, ht, hchars⟩ := archive_absPath hl hpre (hall l hl hpre)
    rw [parseRequestLine_of_grammar hl hpre] at hparse
    obtain ⟨-, rfl⟩ := Prod.mk.inj hparse
    obtain ⟨v, hurl, -⟩ := hl.url
    obtain ⟨w, hw⟩ : ∃ w, urlPath l.url = SLASH :: w := ⟨v.takeWhile (· != QUESTION), by rw [hurl]; rfl⟩
    have hend := pathEnd_eq hdrop hchars ht
    have hlen := congrArg List.length hdrop
    rw [List.length_drop, List.length_append, List.length_cons] at hlen
    refine ⟨l.urlPos, (urlPath l.url).length, habs, by rw [hw]; simp, ?_, hend, by omega⟩
    have hget := congrArg (fun xs => xs[0]?) hdrop
    rw [hw] at hget
    simpa using hget

/-- A path with a dot in it, and the line in two pieces. -/
theorem parseLine_delimited_pieces :
    ∃ data ar, parseLineChunks [] parseArchiveInit [str "GET /a.h", str "tml HTTP/1.1\r\n"] = (.ok, data, ar) ∧
      (PathDelimited data ar ↔ ∀ l : RequestLine, l.Grammar → l.bytes <+: data → l.Delimited) := by
  have hok := parsed_of_ok (show (parseLineChunks [] parseArchiveInit [str "GET /a.h", str "tml HTTP/1.1\r\n"]).1 = .ok by
    decide +kernel)
  exact ⟨_, _, hok, parseLine_delimited _ _ _ hok⟩

/-- A tab after the URL: the answer is `OK`, and `abs_path` is `NULL`. -/
theorem not_forall_parseLine_delimited :
    ¬ ∀ (chunks : List (List Byte)) (data : List Byte) (ar : ParseArchive),
      parseLineChunks [] parseArchiveInit chunks = (.ok, data, ar) → PathDelimited data ar := by
  intro h
  have hok : (parseLineChunks [] parseArchiveInit [str "GET /\tHTTP/1.1\r\n"]).1 = .ok ∧
      (parseLineChunks [] parseArchiveInit [str "GET /\tHTTP/1.1\r\n"]).2.2.url.absPath.str = .null := by
    decide +kernel
  obtain ⟨b, n, habs, -⟩ := h _ _ _ (parsed_of_ok hok.1)
  have hstr := congrArg Ssstr.str habs
  rw [hok.2] at hstr
  cases hstr

/-! ### Where the path leads -/

/-- `request_handle_request_line` passes this path to `openat`: what is answered for it is all that the handler learns of the
file system, and it does learn it. -/
structure Conn.Opens (c : Conn) (path : List Byte) : Prop where
  learns : ∃ (env : Env) (files : List Byte → Option File),
    requestHandleRequestLine { env with openat := files } c ≠ requestHandleRequestLine env c
  only : ∀ (env : Env) (files : List Byte → Option File), files path = env.openat path →
    requestHandleRequestLine { env with openat := files } c = requestHandleRequestLine env c

/-- The path that the end of `request_handle_request_line` passes to `openat`. -/
def openatPath (data : List Byte) (ar : ParseArchive) : Option (List Byte) :=
  match ar.url.absPath.str with
  | .buf b => (pathEnd data b).map fun p => relativePath (data.set p NUL) b ar.url.absPath.len
  | _ => none

section Opens

variable {c : Conn} {ar : ParseArchive} {path : List Byte}

theorem requestHandlePath_openat (h : openatPath c.req.ib c.req.par = some path) :
    ∃ p, ∀ env, requestHandlePath env c =
      match env.openat path with
      | none => .ok (responseAssembleErrBuffer env (c.closePath p) 404)
      | some file => .ok (.ok, openResource (c.closePath p) file) := by
  unfold openatPath at h
  split at h
  · rename_i b hb
    obtain ⟨p, hp, rfl⟩ := Option.map_eq_some_iff.mp h
    refine ⟨p, ?_⟩
    intro env
    rw [requestHandlePath, hb]
    simp only [hp]
    rfl
  · cases h

theorem requestLine_path (hp : parseRequestLine c.req.ib c.req.par = (.ok, ar))
    (hversion : ar.version.httpMajor ≤ 1 ∧ ar.version.httpMinor ≤ 1) (env : Env) :
    requestHandleRequestLine env c = requestHandlePath env (c.mapPar fun _ => ar).acceptVersion := by
  rw [requestHandleRequestLine, hp]
  simp only
  rw [if_neg (by omega)]

/-- A request of a later version is refused before anything is opened. -/
theorem Conn.Opens.version (h : c.Opens path) (hp : parseRequestLine c.req.ib c.req.par = (.ok, ar)) :
    ar.version.httpMajor ≤ 1 ∧ ar.version.httpMinor ≤ 1 := by
  by_contra hversion
  obtain ⟨env, files, hne⟩ := h.learns
  have hrefused : ∀ env, requestHandleRequestLine env c =
      .ok (responseAssembleErrBuffer env (c.mapPar fun _ => ar) 505) := by
    intro env
    rw [requestHandleRequestLine, hp]
    simp only
    rw [if_pos (by omega)]
  refine hne ?_
  rw [hrefused, hrefused]
  rfl

/-- **The call of `openat`** in the handler is that in its end. -/
theorem opens_iff (hp : parseRequestLine c.req.ib c.req.par = (.ok, ar))
    (hversion : ar.version.httpMajor ≤ 1 ∧ ar.version.httpMinor ≤ 1) (hpath : openatPath c.req.ib ar = some path)
    (path' : List Byte) : c.Opens path' ↔ path' = path := by
  obtain ⟨p, hopen⟩ := requestHandlePath_openat (c := (c.mapPar fun _ => ar).acceptVersion) hpath
  have hcall : ∀ env, requestHandleRequestLine env c = _ := fun env => (requestLine_path hp hversion env).trans (hopen env)
  have hdiffer : ∀ (date : List Byte) (page : ErrPage) (files files' : List Byte → Option File) (file : File),
      files path = none → files' path = some file →
      requestHandleRequestLine ⟨files, date, page⟩ c ≠ requestHandleRequestLine ⟨files', date, page⟩ c := by
    intro date page files files' file hnone hsome heq
    rw [hcall, hcall] at heq
    simp only [hnone, hsome] at heq
    have hhandler := congrArg (fun res => res.2.req.reqHandler) (Except.ok.inj heq)
    simp only [assembleErr_handler, openResource_handler] at hhandler
    cases hhandler
  constructor
  · intro h
    by_contra hne
    -- two file systems that differ at the path alone
    let files : List Byte → Option File := fun q => if q = path then some (.regular []) else none
    refine hdiffer [] ⟨[], [], []⟩ (fun _ => none) files (.regular []) rfl (if_pos rfl)
      (h.only ⟨files, [], ⟨[], [], []⟩⟩ _ ?_)
    exact (if_neg hne).symm
  · rintro rfl
    refine ⟨⟨⟨fun _ => some (.regular []), [], ⟨[], [], []⟩⟩, fun _ => none, ?_⟩, ?_⟩
    · exact hdiffer [] ⟨[], [], []⟩ (fun _ => none) (fun _ => some (.regular [])) (.regular []) rfl rfl
    · intro env files hsame
      rw [hcall, hcall]
      simp only [hsame]
      rfl

end Opens

/-- What a component does in a lexical resolution. -/
def pathMove (comp : List Byte) : Walk.Move (List Byte) :=
  if comp = [] ∨ comp = [DOT] then .stay else if comp = [DOT, DOT] then .up else .down comp

/-- The path is relative, and its lexical resolution does not go above its start. -/
def Confined (path : List Byte) : Prop :=
  path.head? ≠ some SLASH ∧ Walk.walk [] ((path.splitOn SLASH).map pathMove) ≠ none

/-- A component that is a name. -/
def isName (comp : List Byte) : Bool := !(comp == [] || comp == [DOT] || comp == [DOT, DOT])

/-- The path of a URL, without its first byte and up to a `NUL`, does not begin with `/`, and in no beginning of it are there
more components `..` than names. -/
def StaysBelow (urlPath : List Byte) : Prop :=
  let path := cString (urlPath.drop 1)
  path.head? ≠ some SLASH ∧
    ∀ comps, comps <+: path.splitOn SLASH → comps.count [DOT, DOT] ≤ comps.countP isName

theorem ups_pathMove (comps : List (List Byte)) :
    Walk.ups (comps.map pathMove) = comps.count [DOT, DOT] ∧ Walk.downs (comps.map pathMove) = comps.countP isName := by
  induction comps with
  | nil => exact ⟨rfl, rfl⟩
  | cons comp comps ih =>
    rw [List.map_cons, List.count_cons, List.countP_cons]
    by_cases hstay : comp = [] ∨ comp = [DOT]
    · rw [pathMove, if_pos hstay]
      rcases hstay with rfl | rfl <;> simpa [Walk.ups, Walk.downs, isName, DOT] using ih
    · rw [pathMove, if_neg hstay]
      rw [not_or] at hstay
      by_cases hup : comp = [DOT, DOT]
      · rw [if_pos hup, hup]
        simpa [Walk.ups, Walk.downs, isName] using ih
      · rw [if_neg hup]
        simpa [Walk.ups, Walk.downs, isName, hstay, hup] using ih

/-- A lexical resolution that stays at or below its start, by counting. -/
theorem confined_iff (path : List Byte) : Confined path ↔ path.head? ≠ some SLASH ∧
    ∀ comps, comps <+: path.splitOn SLASH → comps.count [DOT, DOT] ≤ comps.countP isName := by
  rw [Confined, Walk.walk_ne_none_iff]
  refine and_congr_right fun _ => ⟨?_, ?_⟩
  · intro h comps hcomps
    have hle := h _ (hcomps.map pathMove)
    rw [(ups_pathMove comps).1, (ups_pathMove comps).2] at hle
    simpa using hle
  · intro h ms hms
    obtain ⟨comps, hcomps, rfl⟩ := List.prefix_map_iff.mp hms
    rw [(ups_pathMove comps).1, (ups_pathMove comps).2]
    simpa using h comps hcomps

theorem relativePath_eq {data path rest : List Byte} {b : ℕ} {t : Byte} (hdrop : data.drop b = SLASH :: path ++ t :: rest) :
    relativePath (data.set (b + (SLASH :: path).length) NUL) b (SLASH :: path).length =
      if path = [] then str "./" else cString path := by
  have hset : (data.set (b + (SLASH :: path).length) NUL).drop b = SLASH :: (path ++ NUL :: rest) := by
    rw [List.drop_set, if_neg (by omega), hdrop, Nat.add_sub_cancel_left, List.set_append_right _ _ le_rfl, Nat.sub_self]
    rfl
  have hfirst : (data.set (b + (SLASH :: path).length) NUL).getD b NUL = SLASH := by
    have hget := getD_drop hset 0
    simpa using hget
  have hrest : (data.set (b + (SLASH :: path).length) NUL).drop (b + 1) = path ++ NUL :: rest := by
    rw [← List.drop_drop, hset]
    rfl
  rw [relativePath, hfirst, hrest, cString, takeWhile_append_stop _ (by simp)]
  refine if_congr ?_ rfl rfl
  simp

/-- The path for `openat`, of a request line. -/
def RequestLine.target (l : RequestLine) : List Byte :=
  if (urlPath l.url).drop 1 = [] then str "./" else cString ((urlPath l.url).drop 1)

/-- Where the `NUL` after the path of a request line is written. -/
def RequestLine.pathStop (l : RequestLine) : ℕ := l.urlPos + (urlPath l.url).length

theorem archive_path {data : List Byte} {l : RequestLine} (hl : l.Grammar) (hpre : l.bytes <+: data) (hd : l.Delimited) :
    (l.archive data).url.absPath.str = .buf l.urlPos ∧ pathEnd data l.urlPos = some l.pathStop ∧
      relativePath (data.set l.pathStop NUL) l.urlPos (l.archive data).url.absPath.len = l.target := by
  obtain ⟨hspan, t, rest, hdrop, ht, hchars⟩ := archive_absPath hl hpre hd
  have hend := pathEnd_eq hdrop hchars ht
  obtain ⟨v, hv, -⟩ := hl.url
  obtain ⟨w, hw⟩ : ∃ w, urlPath l.url = SLASH :: w := ⟨v.takeWhile (· != QUESTION), by rw [hv]; rfl⟩
  rw [hspan]
  refine ⟨rfl, hend, ?_⟩
  unfold RequestLine.target RequestLine.pathStop
  rw [hw] at hdrop ⊢
  exact relativePath_eq hdrop

instance (path : List Byte) : Decidable (Confined path) := inferInstanceAs (Decidable (_ ∧ _))

theorem openatPath_staysBelow {data : List Byte} {ar : ParseArchive}
    (hparse : parseRequestLine data parseArchiveInit = (.ok, ar)) (habs : ar.url.absPath.str ≠ .null) {l : RequestLine}
    (hl : l.Grammar) (hpre : l.bytes <+: data) :
    ar.version = ⟨decimal l.major, decimal l.minor⟩ ∧
      ∃ path, openatPath data ar = some path ∧ (Confined path ↔ StaysBelow (urlPath l.url)) := by
  rw [parseRequestLine_of_grammar hl hpre] at hparse
  obtain ⟨-, har⟩ := Prod.mk.inj hparse
  have hurl : ar.url = (l.archive data).url := by rw [← har]
  have hd : l.Delimited := by
    by_contra hd
    exact habs (hurl ▸ archive_absPath_null hl hpre hd)
  obtain ⟨hbuf, hend, hrel⟩ := archive_path hl hpre hd
  refine ⟨by rw [← har]; rfl, l.target, ?_, ?_⟩
  · rw [openatPath, hurl, hbuf]
    simp only [hend, Option.map_some, hrel]
  · rw [StaysBelow, ← confined_iff, RequestLine.target]
    split_ifs with hnil
    · rw [hnil]
      decide
    · exact Iff.rfl

/-- **The path given to `openat`.**  For every batching of the bytes on which `parse_request_line` answers `OK` with an
`abs_path`, whatever `request_handle_request_line` passes to `openat` is relative and does not go above the root, exactly if
the version is refused or the path of the URL stays below the root. -/
theorem openatPath_confined (chunks : List (List Byte)) (c : Conn) (ar : ParseArchive)
    (hok : parseLineChunks [] parseArchiveInit chunks = (.ok, c.req.ib, ar))
    (hcall : parseRequestLine c.req.ib c.req.par = (.ok, ar)) (habs : ar.url.absPath.str ≠ .null) :
    (∀ path, c.Opens path → Confined path) ↔ ∀ l : RequestLine, l.Grammar → l.bytes <+: c.req.ib →
      decimal l.major ≤ 1 → decimal l.minor ≤ 1 → StaysBelow (urlPath l.url) := by
  have hparse := parseLineChunks_ok .init hok
  constructor
  · intro h l hl hpre hmajor hminor
    obtain ⟨hversion, path, hpath, hiff⟩ := openatPath_staysBelow hparse habs hl hpre
    have hopens := (opens_iff hcall (by rw [hversion]; exact ⟨hmajor, hminor⟩) hpath path).mpr rfl
    exact hiff.mp (h path hopens)
  · intro h path' hopens
    obtain ⟨l, hl, hpre⟩ := parseRequestLine_ok (congrArg Prod.fst hparse)
    obtain ⟨hversion, path, hpath, hiff⟩ := openatPath_staysBelow hparse habs hl hpre
    have hle := hopens.version hcall
    rw [(opens_iff hcall hle hpath path').mp hopens]
    rw [hversion] at hle
    exact hiff.mpr (h l hl hpre hle.1 hle.2)

/-- A new connection that has received these bytes. -/
def Conn.lineReceived (bs : List Byte) : Conn :=
  ⟨{ Request.fresh with ib := bs }, true, false, 4, ⟨bs, [], false, 0, [], [], []⟩⟩

theorem lineReceived_parses {bs : List Byte} (h : (parseRequestLine bs parseArchiveInit).1 = .ok) :
    parseLineChunks [] parseArchiveInit [bs] =
        (.ok, (Conn.lineReceived bs).req.ib, (parseRequestLine bs parseArchiveInit).2) ∧
      parseRequestLine (Conn.lineReceived bs).req.ib (Conn.lineReceived bs).req.par =
        (.ok, (parseRequestLine bs parseArchiveInit).2) := by
  have hparse : parseRequestLine bs parseArchiveInit = (.ok, (parseRequestLine bs parseArchiveInit).2) := Prod.ext h rfl
  refine ⟨?_, hparse⟩
  rw [parseLineChunks, List.nil_append, hparse]
  rfl

/-- A path with a `..` in it that stays below the root. -/
theorem openatPath_confined_below : let bs := str "GET /a/../b?c HTTP/1.0\r\n"
    (∀ path, (Conn.lineReceived bs).Opens path → Confined path) ↔ ∀ l : RequestLine, l.Grammar → l.bytes <+: bs →
      decimal l.major ≤ 1 → decimal l.minor ≤ 1 → StaysBelow (urlPath l.url) := by
  intro bs
  have hok : (parseRequestLine bs parseArchiveInit).1 = .ok ∧
      (parseRequestLine bs parseArchiveInit).2.url.absPath.str ≠ .null := by decide +kernel
  obtain ⟨hchunks, hcall⟩ := lineReceived_parses hok.1
  exact openatPath_confined [bs] (.lineReceived bs) _ hchunks hcall hok.2

/-- A path that goes up from the root. -/
theorem not_forall_openatPath_confined :
    ¬ ∀ (chunks : List (List Byte)) (c : Conn) (ar : ParseArchive),
      parseLineChunks [] parseArchiveInit chunks = (.ok, c.req.ib, ar) → parseRequestLine c.req.ib c.req.par = (.ok, ar) →
      ar.url.absPath.str ≠ .null → ∀ path, c.Opens path → Confined path := by
  intro h
  let bs := str "GET /../etc/passwd HTTP/1.1\r\n"
  have hok : (parseRequestLine bs parseArchiveInit).1 = .ok ∧
      (parseRequestLine bs parseArchiveInit).2.url.absPath.str ≠ .null ∧
      ((parseRequestLine bs parseArchiveInit).2.version.httpMajor ≤ 1 ∧
        (parseRequestLine bs parseArchiveInit).2.version.httpMinor ≤ 1) ∧
      openatPath bs (parseRequestLine bs parseArchiveInit).2 = some (str "../etc/passwd") := by
    decide +kernel
  obtain ⟨hchunks, hcall⟩ := lineReceived_parses hok.1
  have hopens := (opens_iff hcall hok.2.2.1 hok.2.2.2 (str "../etc/passwd")).mpr rfl
  exact absurd (h _ _ _ hchunks hcall hok.2.1 _ hopens) (by decide +kernel)

end Lotos
