import Lotos.Parser.Chunks
import Lotos.Parser.Url

/-!
# Positions and spans

Every position and every span that the parsers record lies within the bytes they have read.  `ParseArchive.Sound` says so for
the first `p` bytes, with what each state of the machines adds: which positions of the line are set, and in which order.
Each step carries it from its byte to the next one (`rlStep_sound`, `hdStep_sound`).

`Parsing` is a buffer with the parser whose turn it is.  Between the calls bytes are appended, and after the request line the
handlers may rewrite bytes in place and write their own members of the archive.
-/

namespace Lotos

/-- A span of the first `n` bytes, of a length that is not negative. -/
structure Ssstr.Within (n : ℕ) (s : Ssstr) : Prop where
  len : 0 ≤ s.len
  bound : s.InBounds n

theorem Ssstr.Within.mono {n m : ℕ} {s : Ssstr} (h : s.Within n) (hnm : n ≤ m) : s.Within m := ⟨h.len, h.bound.mono hnm⟩

theorem Ssstr.init_within (n : ℕ) : Ssstr.init.Within n := ⟨le_rfl, nofun⟩

theorem buf_within {b e n : ℕ} (hb : b ≤ e) (he : e ≤ n) : (⟨.buf b, (e : ℤ) - b⟩ : Ssstr).Within n := by
  refine ⟨by simp only; omega, ?_⟩
  rintro _ ⟨⟩
  simp only
  omega

/-! ### The URL -/

section Url

variable {data : List Byte} {b e : ℕ}

/-- `abs_path` as the first loop of `parse_url` sets it: up to a space or a question mark. -/
def PathSet (data : List Byte) (b q : ℕ) (s : Ssstr) : Prop :=
  s = .init ∨ ∃ k, b ≤ k ∧ k < q ∧ (data[k]? = some SP ∨ data[k]? = some QUESTION) ∧ s = ⟨.buf b, (k : ℤ) - b⟩

theorem PathSet.within {q : ℕ} {s : Ssstr} (h : PathSet data b q s) : s.Within q := by
  rcases h with rfl | ⟨k, hb, hk, -, rfl⟩
  · exact Ssstr.init_within q
  · exact buf_within hb hk.le

/-- The state of the first loop of `parse_url` at the byte `q`. -/
structure UrlScan.Sound (data : List Byte) (b q : ℕ) (s : UrlScan) : Prop where
  start : s.beginPos ≤ q
  first : s.currState = .urlBegin ∨ s.currState = .urlAbsPath → s.beginPos = b
  path : PathSet data b q s.ar.url.absPath
  query : s.ar.url.queryString.Within q
  mime : s.ar.url.mimeExtension = .init

theorem UrlScan.Sound.mono {q q' : ℕ} {s : UrlScan} (h : s.Sound data b q) (hq : q ≤ q') : s.Sound data b q' := by
  refine ⟨h.start.trans hq, h.first, ?_, h.query.mono hq, h.mime⟩
  rcases h.path with hnull | ⟨k, hb, hk, hat, heq⟩
  · exact .inl hnull
  · exact .inr ⟨k, hb, by omega, hat, heq⟩

end Url

/-! ### The archive -/

/-- The spans that the parsers record. -/
def ParseArchive.spans (ar : ParseArchive) : List Ssstr :=
  [ar.requestUrlString, ar.url.absPath, ar.url.queryString, ar.url.mimeExtension, ar.headerName, ar.headerVal]

/-- Two positions of a line that are set together, the second after the first. -/
def Paired (p : ℕ) : Option ℕ → Option ℕ → Prop
  | none, none => True
  | some b, some e => b ≤ e ∧ e ≤ p
  | _, _ => False

/-- The four positions of a header line. -/
def ParseArchive.LineSet (p : ℕ) (ar : ParseArchive) : Prop :=
  Paired p ar.headerLineBegin ar.headerColonPos ∧ Paired p ar.headerValBegin ar.headerValEnd

/-- What is set of the line that is being read. -/
def ParseArchive.Placed (p : ℕ) (ar : ParseArchive) : Prop :=
  match ar.state with
  | .rlBegin | .rlMethod | .rlSpBeforeUrl => ar.url = ⟨.init, .init, .init⟩ ∧ ar.LineSet p
  | .rlUrl => (∃ b, ar.urlBegin = some b) ∧ ar.url = ⟨.init, .init, .init⟩ ∧ ar.LineSet p
  | .hdName => ∃ b ≤ p, ar.headerLineBegin = some b
  | .hdColon | .hdSpBeforeVal => Paired p ar.headerLineBegin ar.headerColonPos
  | .hdVal => Paired p ar.headerLineBegin ar.headerColonPos ∧ ∃ b ≤ p, ar.headerValBegin = some b
  | .hdLfAfterVal => True
  | _ => ar.LineSet p

/-- Everything that is recorded lies within the first `p` bytes. -/
structure ParseArchive.InRange (p : ℕ) (ar : ParseArchive) : Prop where
  method : ∀ b, ar.methodBegin = some b → b < p
  url : ∀ b, ar.urlBegin = some b → b < p
  spans : ∀ s ∈ ar.spans, s.Within p

structure ParseArchive.Sound (p : ℕ) (ar : ParseArchive) : Prop extends ar.InRange p where
  placed : ar.Placed p

section Archive

variable {p q : ℕ} {ar : ParseArchive}

theorem Paired.mono {b e : Option ℕ} (h : Paired p b e) (hpq : p ≤ q) : Paired q b e := by
  cases b <;> cases e <;> first | exact h | exact ⟨h.1, h.2.trans hpq⟩

theorem Paired.within {b e : Option ℕ} (h : Paired p b e) : (headerSet b e).Within p := by
  cases b <;> cases e
  · exact Ssstr.init_within p
  · exact h.elim
  · exact h.elim
  · exact buf_within h.1 h.2

theorem Placed.mono (h : ar.Placed p) (hpq : p ≤ q) : ar.Placed q := by
  have hline : ar.LineSet p → ar.LineSet q := fun h => ⟨h.1.mono hpq, h.2.mono hpq⟩
  cases hst : ar.state <;> simp only [ParseArchive.Placed, hst] at h ⊢
  case hdName =>
    obtain ⟨b, hb, heq⟩ := h
    exact ⟨b, hb.trans hpq, heq⟩
  case hdVal =>
    obtain ⟨hname, b, hb, heq⟩ := h
    exact ⟨hname.mono hpq, b, hb.trans hpq, heq⟩
  case rlUrl => exact ⟨h.1, h.2.1, hline h.2.2⟩
  all_goals first
    | exact ⟨h.1, hline h.2⟩
    | exact hline h
    | exact h.mono hpq

theorem ParseArchive.Sound.mono (h : ar.Sound p) (hpq : p ≤ q) : ar.Sound q :=
  ⟨⟨fun b hb => (h.method b hb).trans_le hpq, fun b hb => (h.url b hb).trans_le hpq,
    fun s hs => (h.spans s hs).mono hpq⟩, Placed.mono h.placed hpq⟩

variable {data : List Byte} {c : Byte}

end Archive

/-! ### The calls -/

section Calls

variable {data : List Byte} {ar : ParseArchive}

/-- What a call of a parser leaves: a position that has not gone back, and everything within the bytes of the buffer; within
those it has consumed, unless it was the last call. -/
structure CallSound (data : List Byte) (ar : ParseArchive) (res : Status × ParseArchive) : Prop where
  advance : ar.nextParsePos ≤ res.2.nextParsePos
  bound : res.2.nextParsePos ≤ data.length
  buffer : res.2.InRange data.length
  consumed : res.1 ≠ .error → res.2.Sound res.2.nextParsePos

end Calls

/-! ### Runs -/

/-- The buffer, the parser whose turn it is, and the archive. -/
structure Parsing where
  data : List Byte
  turn : Turn
  ar : ParseArchive

/-- The turn after an answer: of `parse_request_line` until `OK`, then of `parse_header_line` until `CRLF_LINE`, then of the
parser of the body. -/
def Turn.after : Turn → Status → Turn
  | .requestLine, .again => .requestLine
  | .requestLine, .ok => .headers
  | .headers, .again => .headers
  | .headers, .ok => .headers
  | .headers, .crlfLine => .body
  | .body, .again => .body
  | _, _ => .stopped

/-- What the handlers do to the archive: they write the members they own, and `mime_extension` is set to a constant. -/
def ParseArchive.Rewritten (ar ar' : ParseArchive) : Prop :=
  ∃ (keepAlive responseDone errReq : Bool) (contentLength : ℤ) (te : TransferEncoding) (reqHeaders : HeaderSlot → Ssstr)
    (bufferSent : ℕ) (mime : Ssstr), (mime = ar.url.mimeExtension ∨ ∃ c, mime = ⟨.const c, c.length⟩) ∧
    ar' = { ar with
      keepAlive := keepAlive
      responseDone := responseDone
      errReq := errReq
      contentLength := contentLength
      transferEncoding := te
      reqHeaders := reqHeaders
      bufferSent := bufferSent
      url := { ar.url with mimeExtension := mime } }

/-- A step: `buffer_cat`, a call of the parser whose turn it is, or what a handler does after the request line; it leaves the
number of bytes in the buffer. -/
inductive Parsing.Step : Parsing → Parsing → Prop
  | cat (data turn ar) (bs : List Byte) : Step ⟨data, turn, ar⟩ ⟨data ++ bs, turn, ar⟩
  | requestLine (data ar) : Step ⟨data, .requestLine, ar⟩
      ⟨data, Turn.requestLine.after (parseRequestLine data ar).1, (parseRequestLine data ar).2⟩
  | headers (data ar) : Step ⟨data, .headers, ar⟩
      ⟨data, Turn.headers.after (parseHeaderLine data ar).1, (parseHeaderLine data ar).2⟩
  | body (data ar) : Step ⟨data, .body, ar⟩
      ⟨data, Turn.body.after (parseHeaderBodyIdentity data ar).1, (parseHeaderBodyIdentity data ar).2⟩
  | rewrite (data turn ar) {data' : List Byte} {ar' : ParseArchive} : turn ≠ .requestLine → data'.length = data.length →
      ar.Rewritten ar' → Step ⟨data, turn, ar⟩ ⟨data', turn, ar'⟩

/-- The states reached from `parse_archive_init` with an empty buffer. -/
def Parsing.Reached (s : Parsing) : Prop := Relation.ReflTransGen Parsing.Step ⟨[], .requestLine, parseArchiveInit⟩ s

/-- Everything that is recorded is within the bytes received; while there is a parser to be called, within those consumed. -/
structure Parsing.Sound (s : Parsing) : Prop where
  bound : s.ar.nextParsePos ≤ s.data.length
  buffer : s.ar.InRange s.data.length
  consumed : s.turn ≠ .stopped → s.ar.Sound s.ar.nextParsePos
  urlEnd : s.turn = .headers ∨ s.turn = .body → s.ar.state.beforeUrlEnd = false

section Runs

variable {s s' : Parsing}

theorem ParseArchive.Rewritten.inRange {ar ar' : ParseArchive} (h : ar.Rewritten ar') {p : ℕ} (hs : ar.InRange p) :
    ar'.InRange p := by
  obtain ⟨_, _, _, _, _, _, _, mime, hmime, rfl⟩ := h
  refine ⟨hs.method, hs.url, ?_⟩
  intro span hspan
  simp only [ParseArchive.spans, List.mem_cons, List.not_mem_nil, or_false] at hspan
  have hold : ∀ s ∈ ar.spans, s.Within p := hs.spans
  simp only [ParseArchive.spans, List.forall_mem_cons] at hold
  obtain ⟨hurl, hpath, hquery, hext, hname, hval, -⟩ := hold
  rcases hspan with rfl | rfl | rfl | rfl | rfl | rfl
  · exact hurl
  · exact hpath
  · exact hquery
  · rcases hmime with rfl | ⟨c, rfl⟩
    · exact hext
    · exact ⟨Int.natCast_nonneg _, nofun⟩
  · exact hname
  · exact hval

theorem ParseArchive.Rewritten.pos {ar ar' : ParseArchive} (h : ar.Rewritten ar') :
    ar'.nextParsePos = ar.nextParsePos ∧ ar'.state = ar.state := by
  obtain ⟨_, _, _, _, _, _, _, _, -, rfl⟩ := h
  exact ⟨rfl, rfl⟩

/-- After the URL the members that the handlers write are no part of what the states ask for. -/
theorem ParseArchive.Rewritten.sound {ar ar' : ParseArchive} (h : ar.Rewritten ar') {p : ℕ}
    (hst : ar.state.beforeUrlEnd = false) (hs : ar.Sound p) : ar'.Sound p := by
  refine ⟨h.inRange hs.toInRange, ?_⟩
  have hplaced := hs.placed
  obtain ⟨_, _, _, _, _, _, _, mime, -, rfl⟩ := h
  cases hstate : ar.state <;> rw [hstate] at hst <;> (try cases hst) <;>
    simp only [ParseArchive.Placed, hstate] at hplaced ⊢ <;> exact hplaced

theorem CallSound.sound {data : List Byte} {ar : ParseArchive} {res : Status × ParseArchive} (h : CallSound data ar res)
    {turn : Turn} (hstop : res.1 = .error → turn = .stopped)
    (hurl : turn = .headers ∨ turn = .body → res.2.state.beforeUrlEnd = false) : Parsing.Sound ⟨data, turn, res.2⟩ :=
  ⟨h.bound, h.buffer, fun hturn => h.consumed fun herr => hturn (hstop herr), hurl⟩

end Runs

end Lotos
