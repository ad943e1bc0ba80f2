import Lotos.Parser.RequestLine
import Lotos.Parser.HeaderLine
import Lotos.Request.Headers

/-!
# A whole request

`WholeRequest` is a request as the bytes on the wire have it: a request line, header lines, an empty line, and what
follows.  `WholeRequest.Acceptable` says what a request has to be for a response with status code 200, in terms of these
parts alone.

`kind_of_line` reads the kind of a line, which the handlers find in the buffer, off the parts of the line.
-/

namespace Lotos

/-! ### The parts -/

/-- The name of the line, whatever its case. -/
def HeaderLine.named (l : HeaderLine) (name : String) : Bool := decide (l.name.map toLower = str name)

/-- The value begins with a word, given in lower case, whatever its case. -/
def HeaderLine.startsWith (l : HeaderLine) (word : String) : Bool :=
  decide ((l.value.take (str word).length).map toLower = str word)

/-- The last line of a name. -/
def lastNamed (ls : List HeaderLine) (name : String) : Option HeaderLine := (ls.filter fun l => l.named name).getLast?

structure WholeRequest where
  line : RequestLine
  headers : List HeaderLine
  blanks : List Byte
  rest : List Byte

def WholeRequest.bytes (w : WholeRequest) : List Byte :=
  w.line.bytes ++ (w.headers.flatMap HeaderLine.bytes ++ (emptyLine w.blanks ++ w.rest))

structure WholeRequest.Grammar (w : WholeRequest) : Prop where
  line : w.line.Grammar
  headers : ∀ l ∈ w.headers, l.Grammar
  blanks : ∀ c ∈ w.blanks, isBlank c = true

/-- `keep_alive` by the last `Connection`, or by the version. -/
def keepAliveOf (line : RequestLine) (ls : List HeaderLine) : Bool :=
  match lastNamed ls "connection" with
  | some l => l.startsWith "keep-alive"
  | none => decide (decimal line.major = 1 ∧ decimal line.minor = 1)

/-- What a request that is answered by 200 has to be. -/
structure WholeRequest.Acceptable (w : WholeRequest) : Prop where
  version : decimal w.line.major ≤ 1 ∧ decimal w.line.minor ≤ 1
  coding : ∀ l ∈ w.headers, l.named "transfer-encoding" = false
  connection : ∀ l ∈ w.headers, l.named "connection" = true →
    l.startsWith "keep-alive" = true ∨ l.startsWith "close" = true
  length : ∀ l ∈ w.headers, l.named "content-length" = true → 0 < atoi l.value
  body : ∀ l, lastNamed w.headers "content-length" = some l → atoi l.value ≤ w.rest.length

/-- The bytes received are an acceptable request, and `keep_alive` is what it says. -/
def SoundRequest (received : List Byte) (keepAlive : Bool) : Prop :=
  ∃ w : WholeRequest, w.Grammar ∧ w.bytes = received ∧ w.Acceptable ∧ keepAlive = keepAliveOf w.line w.headers

/-- The bytes of the lines. -/
def linesBytes (line : RequestLine) (ls : List HeaderLine) : List Byte := line.bytes ++ ls.flatMap HeaderLine.bytes

/-- There is something else than white space in a value. -/
def HeaderLine.solid (l : HeaderLine) : Prop := ∃ c ∈ l.value, isSpace c = false

/-- No `Content-Length` among the header lines has a value of white space alone. -/
def SolidLengths (received : List Byte) : Prop :=
  ∀ (line : RequestLine) (ls : List HeaderLine), line.Grammar → (∀ l ∈ ls, l.Grammar) → linesBytes line ls <+: received →
    ∀ l ∈ ls, l.named "content-length" = true → l.solid

theorem solid_of_atoi_pos {l : HeaderLine} (h : 0 < atoi l.value) : l.solid := by
  by_contra hblank
  have hspace : ∀ c ∈ l.value, isSpace c = true := by
    intro c hc
    by_contra hns
    exact hblank ⟨c, hc, by simpa using hns⟩
  rw [atoi_space hspace] at h
  exact lt_irrefl 0 h

theorem lastNamed_concat (ls : List HeaderLine) (l : HeaderLine) (name : String) :
    lastNamed (ls ++ [l]) name = if l.named name then some l else lastNamed ls name := by
  unfold lastNamed
  cases h : l.named name <;> simp [List.filter_append, h]

theorem lastNamed_mem {ls : List HeaderLine} {name : String} {l : HeaderLine} (h : lastNamed ls name = some l) :
    l ∈ ls ∧ l.named name = true := by
  have hmem := List.mem_of_getLast? h
  exact ⟨(List.mem_filter.mp hmem).1, by simpa using (List.mem_filter.mp hmem).2⟩

/-! ### The kind of a line -/

/-- What a handler of `hf_list` takes for the memory from the value on. -/
def HeaderFunc.memKind (mem : List Byte) (slot : HeaderSlot) (f : HeaderFunc) : LineKind :=
  f.kind mem ⟨.buf 0, 0⟩ slot

theorem kind_eq_memKind (data : List Byte) (val : Ssstr) (slot : HeaderSlot) (f : HeaderFunc) :
    f.kind data val slot = f.memKind (val.mem data) slot := by
  cases f <;> rfl

theorem headerEntry_special :
    headerEntry (str "connection") = some (.connection, .connection) ∧
      headerEntry (str "content-length") = some (.contentLength, .contentLength) ∧
      headerEntry (str "transfer-encoding") = some (.transferEncoding, .transferEncoding) := by
  decide +kernel

/-- The kind of a line, from its parts and the bytes that follow it. -/
def HeaderLine.kind (l : HeaderLine) (more : List Byte) : LineKind :=
  match headerEntry (l.name.map toLower) with
  | none => .unknown
  | some (func, slot) => func.memKind (l.value ++ CR :: more) slot

theorem caseequal_line (l : HeaderLine) (more : List Byte) {word : String} (hword : CR ∉ str word)
    (hlower : (str word).map toLower = str word) :
    ssstrCaseequal (l.value ++ CR :: more) ⟨.buf 0, 0⟩ (str word) = l.startsWith word := by
  unfold ssstrCaseequal HeaderLine.startsWith
  rw [hlower, Ssstr.mem]
  simp only [List.drop_zero]
  rw [Bool.eq_iff_iff, beq_iff_eq, decide_eq_true_eq]
  exact take_append_stop_iff (by decide) hword

section Kind

variable {l : HeaderLine} {more : List Byte}

theorem kind_connection_eq (more : List Byte) (hname : l.named "connection" = true) : l.kind more =
    if l.startsWith "keep-alive" then .keepAlive else if l.startsWith "close" then .close else .badConnection := by
  unfold HeaderLine.kind
  rw [of_decide_eq_true hname, headerEntry_special.1]
  simp only [HeaderFunc.memKind, HeaderFunc.kind]
  rw [caseequal_line l more (by decide +kernel) (by decide +kernel),
    caseequal_line l more (by decide +kernel) (by decide +kernel)]

theorem kind_connection (hname : l.named "connection" = true) (hk : (l.kind more).answer = none) :
    (l.startsWith "keep-alive" = true ∧ l.kind more = .keepAlive) ∨
      (l.startsWith "keep-alive" = false ∧ l.startsWith "close" = true ∧ l.kind more = .close) := by
  rw [kind_connection_eq more hname] at hk ⊢
  cases hkeep : l.startsWith "keep-alive" with
  | true => exact .inl ⟨rfl, rfl⟩
  | false =>
    rw [hkeep] at hk
    cases hclose : l.startsWith "close" with
    | true => exact .inr ⟨rfl, rfl, rfl⟩
    | false =>
      rw [hclose] at hk
      cases hk

theorem kind_contentLength_eq (more : List Byte) (hname : l.named "content-length" = true) : l.kind more =
    if atoi (l.value ++ CR :: more) ≤ 0 then .badLength else .length (atoi (l.value ++ CR :: more)) := by
  unfold HeaderLine.kind
  rw [of_decide_eq_true hname, headerEntry_special.2.1]
  rfl

theorem kind_contentLength (hname : l.named "content-length" = true) (hk : (l.kind more).answer = none) :
    0 < atoi (l.value ++ CR :: more) ∧ l.kind more = .length (atoi (l.value ++ CR :: more)) := by
  rw [kind_contentLength_eq more hname] at hk ⊢
  split_ifs at hk ⊢ with hle
  · cases hk
  · exact ⟨not_le.mp hle, rfl⟩

theorem kind_transferEncoding (hk : (l.kind more).answer = none) : l.named "transfer-encoding" = false := by
  by_contra hname
  rw [Bool.not_eq_false] at hname
  unfold HeaderLine.kind at hk
  rw [of_decide_eq_true hname, headerEntry_special.2.2] at hk
  simp only [HeaderFunc.memKind, HeaderFunc.kind, codingOf] at hk
  split_ifs at hk <;> cases hk

theorem kind_other (more : List Byte) (hconn : l.named "connection" = false) (hlen : l.named "content-length" = false)
    (hcoding : l.named "transfer-encoding" = false) : l.kind more = .unknown ∨ ∃ slot, l.kind more = .plain slot := by
  unfold HeaderLine.kind
  cases hentry : headerEntry (l.name.map toLower) with
  | none => exact .inl rfl
  | some x =>
    obtain ⟨func, slot⟩ := x
    obtain ⟨e, he, hname, hx⟩ := headerEntry_mem hentry
    have hspecial := hfList_special e he
    rw [hx] at hspecial
    have hne : ∀ {name : String}, l.named name = false → e.1 ≠ name := by
      rintro name hl rfl
      exact absurd hname.symm (of_decide_eq_false hl)
    cases func with
    | base => exact .inr ⟨slot, rfl⟩
    | connection => exact absurd (congrArg Prod.fst (hspecial.1 rfl)) (hne hconn)
    | contentLength => exact absurd (congrArg Prod.fst (hspecial.2.1 rfl)) (hne hlen)
    | transferEncoding => exact absurd (congrArg Prod.fst (hspecial.2.2 rfl)) (hne hcoding)

theorem record_contentLength (ar : ParseArchive) (hk : (l.kind more).answer = none)
    (hlen : l.named "content-length" = false) : ((l.kind more).record ar).contentLength = ar.contentLength := by
  cases hconn : l.named "connection" with
  | true => rcases kind_connection hconn hk with ⟨-, hkind⟩ | ⟨-, -, hkind⟩ <;> rw [hkind] <;> rfl
  | false => rcases kind_other more hconn hlen (kind_transferEncoding hk) with hkind | ⟨slot, hkind⟩ <;> rw [hkind] <;> rfl

end Kind

/-! ### A line in the buffer -/

section Buffer

variable {data : List Byte} {ar : ParseArchive} {l : HeaderLine}

theorem line_mem {p : ℕ} (hpre : l.bytes <+: data.drop p) :
    data.drop (l.valPos p) = l.value ++ CR :: (data.drop (l.valPos p)).drop (l.value.length + 1) := by
  obtain ⟨rest, hrest⟩ := hpre
  have hdrop : data.drop (l.valPos p) = l.value ++ CR :: (LF :: rest) := by
    have hpos : l.valPos p = p + (l.indent ++ (l.name ++ COLON :: l.blanks)).length := by
      simp only [HeaderLine.valPos, HeaderLine.colonPos, HeaderLine.namePos, List.length_append, List.length_cons]
      omega
    rw [hpos, ← List.drop_drop, ← hrest]
    refine (congrArg (List.drop _) ?_).trans (List.drop_left' rfl)
    simp [HeaderLine.bytes, CRLF]
  rw [hdrop]
  simp

theorem line_length {p : ℕ} (hpre : l.bytes <+: data.drop p) :
    l.namePos p + l.name.length ≤ p + l.bytes.length ∧ p + l.bytes.length ≤ data.length := by
  have hlen := hpre.length_le
  simp only [HeaderLine.bytes, List.length_append, List.length_cons, List.length_drop, HeaderLine.namePos] at hlen ⊢
  omega

/-- **The kind of a line in the buffer** is that of its parts, and the lower case of its name changes nothing after the
line. -/
theorem kind_of_line {c : Conn} (hpre : l.bytes <+: c.req.ib.drop ar.nextParsePos) (hpar : c.req.par = l.taken ar) :
    (∃ more, c.lowerName.kind = l.kind more) ∧
      c.lowerName.req.ib.drop (ar.nextParsePos + l.bytes.length) = c.req.ib.drop (ar.nextParsePos + l.bytes.length) := by
  obtain ⟨hname, -⟩ := line_spans hpre
  obtain ⟨hend, hlen⟩ := line_length hpre
  have hib : c.lowerName.req.ib = ssstrTolower c.req.ib ⟨.buf (l.namePos ar.nextParsePos), l.name.length⟩ := by
    rw [show c.lowerName.req.ib = ssstrTolower c.req.ib c.req.par.headerName from rfl, hpar]
    rfl
  have hdrop : ∀ q, l.namePos ar.nextParsePos + l.name.length ≤ q → c.lowerName.req.ib.drop q = c.req.ib.drop q := by
    intro q hq
    rw [hib]
    exact ssstrTolower_drop hq (by omega)
  have hbytes : (⟨.buf (l.namePos ar.nextParsePos), l.name.length⟩ : Ssstr).bytes c.lowerName.req.ib =
      l.name.map toLower := by
    rw [hib, ssstrTolower_bytes (by omega), hname]
  have hmem : (⟨.buf (l.valPos ar.nextParsePos), l.value.length⟩ : Ssstr).mem c.lowerName.req.ib =
      l.value ++ CR :: (c.req.ib.drop (l.valPos ar.nextParsePos)).drop (l.value.length + 1) := by
    rw [← line_mem hpre, ← hdrop (l.valPos ar.nextParsePos) (by simp only [HeaderLine.valPos, HeaderLine.colonPos]; omega)]
    rfl
  refine ⟨⟨(c.req.ib.drop (l.valPos ar.nextParsePos)).drop (l.value.length + 1), ?_⟩, hdrop _ hend⟩
  have hpar' : c.lowerName.req.par = l.taken ar := hpar
  unfold Conn.kind kindOf lineKind HeaderLine.kind
  rw [hpar', if_neg (by simp [HeaderLine.taken])]
  rw [show (l.taken ar).headerName = ⟨.buf (l.namePos ar.nextParsePos), l.name.length⟩ from rfl, hbytes,
    show (l.taken ar).headerVal = ⟨.buf (l.valPos ar.nextParsePos), l.value.length⟩ from rfl]
  cases headerEntry (l.name.map toLower) with
  | none => rfl
  | some x =>
    obtain ⟨func, slot⟩ := x
    simp only
    rw [kind_eq_memKind, hmem]

end Buffer

/-! ### Only one reading -/

section Unique

variable {data : List Byte} {ws : List Byte}

/-- An archive at the beginning of a line, and of the buffer. -/
def lineStart : ParseArchive := { parseArchiveInit with state := .hdBegin }

theorem line_ne_emptyLine {l : HeaderLine} (hl : l.Grammar) (hws : ∀ c ∈ ws, isBlank c = true) (hpre : l.bytes <+: data)
    (hempty : emptyLine ws <+: data) : False := by
  have hok : parseHeaderLine data lineStart = (.ok, l.taken lineStart) := parseHeaderLine_of_line rfl hl hpre
  have hcrlf : (parseHeaderLine data lineStart).1 = .crlfLine :=
    (@parseHeaderLine_of_emptyLine data lineStart rfl ws hws hempty).1
  rw [hok] at hcrlf
  cases hcrlf

/-- Two header lines that the same bytes begin with have the same length, name and value. -/
theorem line_unique {l l' : HeaderLine} (hl : l.Grammar) (hl' : l'.Grammar) (hpre : l.bytes <+: data)
    (hpre' : l'.bytes <+: data) : l.bytes.length = l'.bytes.length ∧ l.name = l'.name ∧ l.value = l'.value := by
  have htaken : l.taken lineStart = l'.taken lineStart := by
    have hok : parseHeaderLine data lineStart = (.ok, l.taken lineStart) := parseHeaderLine_of_line rfl hl hpre
    have hok' : parseHeaderLine data lineStart = (.ok, l'.taken lineStart) := parseHeaderLine_of_line rfl hl' hpre'
    exact (Prod.ext_iff.mp (hok.symm.trans hok')).2
  have hpos := congrArg ParseArchive.nextParsePos htaken
  have hname := congrArg (fun ar : ParseArchive => ar.headerName.bytes data) htaken
  have hval := congrArg (fun ar : ParseArchive => ar.headerVal.bytes data) htaken
  obtain ⟨hn, hv⟩ := @line_spans data 0 l hpre
  obtain ⟨hn', hv'⟩ := @line_spans data 0 l' hpre'
  exact ⟨Nat.add_left_cancel hpos, hn.symm.trans (hname.trans hn'), hv.symm.trans (hval.trans hv')⟩

/-- Header lines that begin a block of header lines are lines of the block. -/
theorem lines_unique {ls ls' : List HeaderLine} (hls : ∀ l ∈ ls, l.Grammar) (hls' : ∀ l ∈ ls', l.Grammar)
    (hws : ∀ c ∈ ws, isBlank c = true) (hpre : ls.flatMap HeaderLine.bytes ++ emptyLine ws <+: data)
    (hpre' : ls'.flatMap HeaderLine.bytes <+: data) :
    ∀ l' ∈ ls', ∃ l ∈ ls, l.name = l'.name ∧ l.value = l'.value := by
  induction ls' generalizing ls data with
  | nil => simp
  | cons l' ls' ih =>
    rw [List.flatMap_cons] at hpre'
    have hline' := (List.prefix_append _ _).trans hpre'
    cases ls with
    | nil => exact (line_ne_emptyLine (hls' l' (by simp)) hws hline' (by simpa using hpre)).elim
    | cons l ls =>
      rw [List.flatMap_cons, List.append_assoc] at hpre
      have hline := (List.prefix_append _ _).trans hpre
      obtain ⟨hlen, hname, hval⟩ := line_unique (hls l (by simp)) (hls' l' (by simp)) hline hline'
      have hdrop : ∀ {xs ys : List Byte}, xs ++ ys <+: data → ys <+: data.drop xs.length := by
        rintro xs ys ⟨t, rfl⟩
        simp
      have hrest := ih (fun l hl => hls l (List.mem_cons_of_mem _ hl)) (fun l hl => hls' l (List.mem_cons_of_mem _ hl))
        (hdrop hpre) (hlen ▸ hdrop hpre')
      intro k hk
      rcases List.mem_cons.mp hk with rfl | hk
      · exact ⟨l, by simp, hname, hval⟩
      · obtain ⟨l₁, hl₁, h₁⟩ := hrest k hk
        exact ⟨l₁, List.mem_cons_of_mem _ hl₁, h₁⟩

theorem requestLine_unique {line line' : RequestLine} (h : line.Grammar) (h' : line'.Grammar) (hpre : line.bytes <+: data)
    (hpre' : line'.bytes <+: data) : line.bytes.length = line'.bytes.length := by
  have hok := parseRequestLine_of_grammar h hpre
  rw [parseRequestLine_of_grammar h' hpre'] at hok
  exact (congrArg (fun r : Status × ParseArchive => r.2.nextParsePos) hok).symm

/-- In an acceptable request no `Content-Length` has a value of white space alone. -/
theorem SoundRequest.solidLengths {received : List Byte} {keepAlive : Bool} (h : SoundRequest received keepAlive) :
    SolidLengths received := by
  obtain ⟨w, hw, rfl, hacc, -⟩ := h
  intro line ls hline hls hpre l hl hname
  have hwline : w.line.bytes <+: w.bytes := List.prefix_append _ _
  have hlen := requestLine_unique hline hw.line ((List.prefix_append _ _).trans hpre) hwline
  -- after the request line the header lines are those of `w`
  have hblock : w.headers.flatMap HeaderLine.bytes ++ emptyLine w.blanks <+: w.bytes.drop w.line.bytes.length := by
    refine ⟨w.rest, ?_⟩
    simp [WholeRequest.bytes]
  have hblock' : ls.flatMap HeaderLine.bytes <+: w.bytes.drop w.line.bytes.length := by
    obtain ⟨t, ht⟩ := hpre
    refine ⟨t, ?_⟩
    rw [← ht, ← hlen]
    simp [linesBytes]
  obtain ⟨k, hk, hkname, hkval⟩ := lines_unique hw.headers hls hw.blanks hblock hblock' l hl
  refine solid_of_atoi_pos ?_
  rw [← hkval]
  refine hacc.length k hk ?_
  unfold HeaderLine.named
  rw [hkname]
  exact hname

end Unique

end Lotos
