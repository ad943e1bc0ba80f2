import Lotos.Parser.Resume

/-!
# The language of the header block

`HeaderLine` is a header line as the grammar has it, in its parts.  As for the request line, the rules `line_*` say what
the rest of the input looks like if the loop of `parse_header_line` reaches `done` from a given state;
`hdScan_done_iff` puts them together: from `S_HD_BEGIN` the loop ends either a header line or an empty line, and the flag
`isCRLF_LINE` tells which.

`headerLines` is the sequence of calls of `parse_header_line` on one buffer, up to the first answer other than `OK`.
-/

namespace Lotos

/-! ### The grammar -/

/-- The parts of a header line `indent NAME ':' blanks VALUE CR LF`. -/
structure HeaderLine where
  indent : List Byte
  name : List Byte
  blanks : List Byte
  value : List Byte

def HeaderLine.bytes (l : HeaderLine) : List Byte :=
  l.indent ++ (l.name ++ COLON :: (l.blanks ++ (l.value ++ CRLF)))

structure HeaderLine.Grammar (l : HeaderLine) : Prop where
  indent : ∀ c ∈ l.indent, isBlank c = true
  name : l.name ≠ [] ∧ ∀ c ∈ l.name, isNameChar c = true
  blanks : ∀ c ∈ l.blanks, isBlank c = true
  value : ∃ c cs, l.value = c :: cs ∧ isBlank c = false ∧ ∀ k ∈ l.value, isEol k = false

/-- An empty line, but for blanks. -/
def emptyLine (ws : List Byte) : List Byte := ws ++ CRLF

/-! ### From the states to the input -/

section Done

variable {xs : List Byte} {p q : ℕ} {ar ar' : ParseArchive}

theorem line_crAfterVal (hst : ar.state = .hdCrAfterVal) :
    Scan.run hdStep p xs ar = .halt .done q ar' ↔
      ∃ rest, xs = LF :: rest ∧ q = p ∧ ar' = { ar with state := .hdLfAfterVal } := by
  cases xs with
  | nil => simp
  | cons c cs =>
    by_cases hc : c = LF
    · rw [Scan.run_cons_halt (r := .done) (t := { ar with state := .hdLfAfterVal }) (by simp [hdStep, hst, hc])]
      simp [hc, eq_comm]
    · rw [Scan.run_cons_halt (r := .invalid) (t := ar) (by simp [hdStep, hst, hc])]
      simp [hc]

/-- `S_HD_LF_AFTER_VAL` has no `case`: the loop runs to the end of the buffer. -/
theorem run_lfAfterVal (hst : ar.state = .hdLfAfterVal) : Scan.run hdStep p xs ar = .again ar := by
  induction xs generalizing p with
  | nil => rfl
  | cons c cs ih => rw [Scan.run_cons_next (t := ar) (by simp [hdStep, hst]), ih]

theorem line_val (hst : ar.state = .hdVal) :
    Scan.run hdStep p xs ar = .halt .done q ar' ↔
      ∃ vs rest, xs = vs ++ CR :: LF :: rest ∧ (∀ k ∈ vs, isEol k = false) ∧ q = p + vs.length + 1 ∧
        ar' = { ar with headerValEnd := some (p + vs.length), state := .hdLfAfterVal } := by
  rw [Scan.halt_iff_while_of_ne (fun c => !isEol c) (fun _ c => c == CR)
    (fun q _ => { ar with headerValEnd := some q, state := .hdCrAfterVal })
    (fun q c hc => by
      simp only [isEol, Bool.not_eq_true', Bool.or_eq_false_iff, beq_eq_false_iff_ne] at hc
      simp [hdStep, hst, hc])
    (fun q c _ hcond => by simp only [beq_iff_eq] at hcond; simp [hdStep, hst, hcond])
    (fun k c cs hc hcond => by
      -- a bare line feed in the value: the machine is stuck
      simp only [isEol, Bool.not_eq_false', Bool.or_eq_true, beq_iff_eq, beq_eq_false_iff_ne] at hc hcond
      obtain rfl := hc.resolve_left hcond
      rw [Scan.run_cons_next (t := { ar with state := .hdLfAfterVal }) (by simp [hdStep, hst, hcond]), run_lfAfterVal rfl]
      simp)]
  constructor
  · rintro ⟨vs, c, rest, rfl, hvs, -, hc, hrun⟩
    obtain rfl : c = CR := by simpa using hc
    obtain ⟨rest, rfl, rfl, rfl⟩ := (line_crAfterVal rfl).mp hrun
    exact ⟨vs, rest, rfl, by simpa using hvs, rfl, rfl⟩
  · rintro ⟨vs, rest, rfl, hvs, rfl, rfl⟩
    exact ⟨vs, CR, LF :: rest, rfl, by simpa using hvs, by decide, by simp,
      (line_crAfterVal rfl).mpr ⟨rest, rfl, rfl, rfl⟩⟩

theorem line_spBeforeVal (hst : ar.state = .hdSpBeforeVal) :
    Scan.run hdStep p xs ar = .halt .done q ar' ↔
      ∃ ws c rest, xs = ws ++ c :: rest ∧ (∀ k ∈ ws, isBlank k = true) ∧ isBlank c = false ∧ isEol c = false ∧
        Scan.run hdStep (p + ws.length + 1) rest
          { ar with state := .hdVal, headerValBegin := some (p + ws.length) } = .halt .done q ar' := by
  rw [Scan.halt_iff_while isBlank (fun _ c => !isEol c)
    (fun q _ => { ar with state := .hdVal, headerValBegin := some q })
    (fun q c hc => by simp [hdStep, hst, hc])
    (fun q c hc hcond => by simp only [Bool.not_eq_true'] at hcond; simp [hdStep, hst, hc, hcond])
    (fun q c hc hcond => by
      simp only [Bool.not_eq_false'] at hcond
      exact ⟨.invalid, ar, by simp [hdStep, hst, hc, hcond], by rintro ⟨⟩⟩)]
  simp only [Bool.not_eq_true']

/-- After the colon the first blank only changes the state. -/
theorem line_colon (hst : ar.state = .hdColon) :
    Scan.run hdStep p xs ar = .halt .done q ar' ↔
      ∃ ws c rest, xs = ws ++ c :: rest ∧ (∀ k ∈ ws, isBlank k = true) ∧ isBlank c = false ∧ isEol c = false ∧
        Scan.run hdStep (p + ws.length + 1) rest
          { ar with state := .hdVal, headerValBegin := some (p + ws.length) } = .halt .done q ar' := by
  -- a colon followed by `xs` behaves as a blank before the value, at every byte
  have hsame : Scan.run hdStep p xs ar = .halt .done q ar' ↔
      Scan.run hdStep p xs { ar with state := .hdSpBeforeVal } = .halt .done q ar' := by
    cases xs with
    | nil => simp
    | cons c cs =>
      cases hb : isBlank c with
      | true =>
        rw [Scan.run_cons_next (t := { ar with state := .hdSpBeforeVal }) (by simp [hdStep, hst, hb]),
          Scan.run_cons_next (t := { ar with state := .hdSpBeforeVal }) (by simp [hdStep, hb])]
      | false =>
        cases he : isEol c with
        | true =>
          rw [Scan.run_cons_halt (r := .invalid) (t := ar) (by simp [hdStep, hst, hb, he]),
            Scan.run_cons_halt (r := .invalid) (t := { ar with state := .hdSpBeforeVal }) (by simp [hdStep, hb, he])]
          simp
        | false =>
          rw [Scan.run_cons_next (t := { ar with state := .hdVal, headerValBegin := some p })
              (by simp [hdStep, hst, hb, he]),
            Scan.run_cons_next (t := { ar with state := .hdVal, headerValBegin := some p })
              (by simp [hdStep, hb, he])]
  rw [hsame, line_spBeforeVal rfl]

theorem line_name (hst : ar.state = .hdName) :
    Scan.run hdStep p xs ar = .halt .done q ar' ↔
      ∃ ns rest, xs = ns ++ COLON :: rest ∧ (∀ k ∈ ns, isNameChar k = true) ∧
        Scan.run hdStep (p + ns.length + 1) rest
          { ar with state := .hdColon, headerColonPos := some (p + ns.length) } = .halt .done q ar' := by
  rw [Scan.halt_iff_while isNameChar (fun _ c => c == COLON)
    (fun q _ => { ar with state := .hdColon, headerColonPos := some q })
    (fun q c hc => by simp [hdStep, hst, hc])
    (fun q c hc hcond => by simp only [beq_iff_eq] at hcond; subst hcond; simp [hdStep, hst, hc])
    (fun q c hc hcond => by
      simp only [beq_eq_false_iff_ne] at hcond
      exact ⟨.invalid, ar, by simp [hdStep, hst, hc, hcond], by rintro ⟨⟩⟩)]
  constructor
  · rintro ⟨ns, c, rest, rfl, hns, -, hc, hrun⟩
    obtain rfl : c = COLON := by simpa using hc
    exact ⟨ns, rest, rfl, hns, hrun⟩
  · rintro ⟨ns, rest, rfl, hns, hrun⟩
    exact ⟨ns, COLON, rest, rfl, hns, by decide, by simp, hrun⟩

/-- The first byte that is not a blank: of a name, or the end of an empty line. -/
theorem line_begin (hst : ar.state = .hdBegin) :
    Scan.run hdStep p xs ar = .halt .done q ar' ↔
      ∃ ws c rest, xs = ws ++ c :: rest ∧ (∀ k ∈ ws, isBlank k = true) ∧
        ((isNameChar c = true ∧ Scan.run hdStep (p + ws.length + 1) rest
            { ar with state := .hdName, headerLineBegin := some (p + ws.length), isCrlfLine := false } =
            .halt .done q ar') ∨
          (c = CR ∧ Scan.run hdStep (p + ws.length + 1) rest
            { ar with state := .hdCrAfterVal, isCrlfLine := true } = .halt .done q ar')) := by
  have hname : isNameChar CR = false := by decide
  have hblank : ∀ c, isNameChar c = true → isBlank c = false := by
    intro c hc
    by_contra hb
    simp only [isBlank, Bool.not_eq_false, Bool.or_eq_true, beq_iff_eq] at hb
    rcases hb with rfl | rfl <;> exact absurd hc (by decide)
  rw [Scan.halt_iff_while isBlank (fun _ c => isNameChar c || c == CR)
    (fun q c => if isNameChar c then { ar with state := .hdName, headerLineBegin := some q, isCrlfLine := false }
      else { ar with state := .hdCrAfterVal, isCrlfLine := true })
    (fun q c hc => by
      have hn : isNameChar c = false := by
        by_contra h
        simp only [Bool.not_eq_false] at h
        rw [hblank c h] at hc
        cases hc
      have hcr : c ≠ CR := by rintro rfl; exact absurd hc (by decide)
      simp [hdStep, hst, hc, hn, hcr])
    (fun q c _ hcond => by
      cases hn : isNameChar c with
      | true => simp [hdStep, hst, hn]
      | false =>
        obtain rfl : c = CR := by simpa [hn] using hcond
        simp [hdStep, hst, hname])
    (fun q c hc hcond => by
      simp only [Bool.or_eq_false_iff, beq_eq_false_iff_ne] at hcond
      exact ⟨.invalid, ar, by simp [hdStep, hst, hc, hcond.1, hcond.2], by rintro ⟨⟩⟩)]
  constructor
  · rintro ⟨ws, c, rest, rfl, hws, -, hcond, hrun⟩
    refine ⟨ws, c, rest, rfl, hws, ?_⟩
    cases hn : isNameChar c with
    | true =>
      rw [hn] at hrun
      exact .inl ⟨rfl, hrun⟩
    | false =>
      rw [hn] at hrun hcond
      exact .inr ⟨by simpa using hcond, hrun⟩
  · rintro ⟨ws, c, rest, rfl, hws, ⟨hn, hrun⟩ | ⟨rfl, hrun⟩⟩
    · exact ⟨ws, c, rest, rfl, hws, hblank c hn, by simp [hn], by rw [hn]; exact hrun⟩
    · exact ⟨ws, CR, rest, rfl, hws, by decide, by decide, by rw [hname]; exact hrun⟩

end Done

/-! ### The accepted lines -/

section Lines

variable {data xs : List Byte} {p q : ℕ} {ar ar' : ParseArchive}

/-- Where the name, the colon, the value and the end of the line stand, for a line that begins at `p`. -/
def HeaderLine.namePos (l : HeaderLine) (p : ℕ) : ℕ := p + l.indent.length

def HeaderLine.colonPos (l : HeaderLine) (p : ℕ) : ℕ := l.namePos p + l.name.length

def HeaderLine.valPos (l : HeaderLine) (p : ℕ) : ℕ := l.colonPos p + 1 + l.blanks.length

def HeaderLine.valEnd (l : HeaderLine) (p : ℕ) : ℕ := l.valPos p + l.value.length

/-- The archive at the end of a line that begins at `p`: all four saved positions are of this line. -/
def HeaderLine.archive (l : HeaderLine) (p : ℕ) (ar : ParseArchive) : ParseArchive :=
  { ar with
    headerLineBegin := some (l.namePos p)
    headerColonPos := some (l.colonPos p)
    headerValBegin := some (l.valPos p)
    headerValEnd := some (l.valEnd p)
    isCrlfLine := false
    state := .hdLfAfterVal }

/-- **The language of the header block.**  From `S_HD_BEGIN` the loop of `parse_header_line` reaches `done` exactly on the
inputs that begin with a header line or with an empty line, at its last byte. -/
theorem hdRun_done_iff (hst : ar.state = .hdBegin) :
    Scan.run hdStep p xs ar = .halt .done q ar' ↔
      (∃ l : HeaderLine, l.Grammar ∧ l.bytes <+: xs ∧ q + 1 = p + l.bytes.length ∧ ar' = l.archive p ar) ∨
        ∃ ws, (∀ c ∈ ws, isBlank c = true) ∧ emptyLine ws <+: xs ∧ q + 1 = p + (emptyLine ws).length ∧
          ar' = { ar with isCrlfLine := true, state := .hdLfAfterVal } := by
  rw [line_begin hst]
  constructor
  · rintro ⟨ws, c, rest, rfl, hws, ⟨hn, hrun₁⟩ | ⟨rfl, hrun⟩⟩
    · left
      obtain ⟨ns, r₁, rfl, hns, hrun₂⟩ := (line_name rfl).mp hrun₁
      obtain ⟨bs, v, r₂, rfl, hbs, hv, hve, hrun₃⟩ := (line_colon rfl).mp hrun₂
      obtain ⟨vs, r₃, rfl, hvs, rfl, rfl⟩ := (line_val rfl).mp hrun₃
      refine ⟨⟨ws, c :: ns, bs, v :: vs⟩, ⟨hws, ⟨by simp, by simpa [hn] using hns⟩, hbs, v, vs, rfl, hv,
        by simpa [hve] using hvs⟩, ⟨r₃, ?_⟩, ?_, ?_⟩
      · simp [HeaderLine.bytes, CRLF]
      · simp only [HeaderLine.bytes, CRLF, List.length_append, List.length_cons, List.length_nil]
        omega
      · simp only [HeaderLine.archive, HeaderLine.valEnd, HeaderLine.valPos, HeaderLine.colonPos, HeaderLine.namePos,
          List.length_cons]
        congr 2 <;> omega
    · right
      obtain ⟨rest, rfl, rfl, rfl⟩ := (line_crAfterVal rfl).mp hrun
      refine ⟨ws, hws, ⟨rest, by simp [emptyLine, CRLF]⟩, ?_, rfl⟩
      simp [emptyLine, CRLF]
      omega
  · rintro (⟨l, hl, ⟨rest, rfl⟩, hq, rfl⟩ | ⟨ws, hws, ⟨rest, rfl⟩, hq, rfl⟩)
    · obtain ⟨hname, hnames⟩ := hl.name
      obtain ⟨c, ns, hcns⟩ := List.exists_cons_of_ne_nil hname
      obtain ⟨v, vs, hvvs, hv, hve⟩ := hl.value
      rw [hcns] at hnames
      rw [hvvs] at hve
      have hnlen := congrArg List.length hcns
      have hvlen := congrArg List.length hvvs
      rw [List.length_cons] at hnlen hvlen
      refine ⟨l.indent, c, ns ++ COLON :: (l.blanks ++ v :: (vs ++ CR :: LF :: rest)), ?_, hl.indent,
        .inl ⟨hnames c (by simp), ?_⟩⟩
      · simp [HeaderLine.bytes, CRLF, hcns, hvvs]
      refine (line_name rfl).mpr ⟨ns, _, rfl, fun k hk => hnames k (List.mem_cons_of_mem _ hk), ?_⟩
      refine (line_colon rfl).mpr ⟨l.blanks, v, _, rfl, hl.blanks, hv, hve v (by simp), ?_⟩
      refine (line_val rfl).mpr ⟨vs, rest, rfl, fun k hk => hve k (List.mem_cons_of_mem _ hk), ?_, ?_⟩
      · simp only [HeaderLine.bytes, CRLF, List.length_append, List.length_cons, List.length_nil] at hq
        omega
      · simp only [HeaderLine.archive, HeaderLine.valEnd, HeaderLine.valPos, HeaderLine.colonPos, HeaderLine.namePos]
        congr 2 <;> omega
    · refine ⟨ws, CR, LF :: rest, by simp [emptyLine, CRLF], hws, .inr ⟨rfl, ?_⟩⟩
      refine (line_crAfterVal rfl).mpr ⟨rest, rfl, ?_, rfl⟩
      simp [emptyLine, CRLF] at hq
      omega

/-- The archive after the call that takes the line. -/
def HeaderLine.taken (l : HeaderLine) (ar : ParseArchive) : ParseArchive :=
  { l.archive ar.nextParsePos ar with
    nextParsePos := ar.nextParsePos + l.bytes.length
    state := .hdBegin
    numHeaders := ar.numHeaders + 1
    headerName := ⟨.buf (l.namePos ar.nextParsePos), l.name.length⟩
    headerVal := ⟨.buf (l.valPos ar.nextParsePos), l.value.length⟩ }

theorem parseHeaderLine_of_line (hst : ar.state = .hdBegin) {l : HeaderLine} (hl : l.Grammar)
    (hpre : l.bytes <+: data.drop ar.nextParsePos) : parseHeaderLine data ar = (.ok, l.taken ar) := by
  have hpos : 0 < l.bytes.length := by
    simp only [HeaderLine.bytes, List.length_append, List.length_cons]
    omega
  have hscan : hdScan data ar = .halt .done (ar.nextParsePos + l.bytes.length - 1) (l.archive ar.nextParsePos ar) :=
    (hdRun_done_iff hst).mpr (.inl ⟨l, hl, hpre, by omega, rfl⟩)
  unfold parseHeaderLine
  rw [hscan]
  simp only [hdFinish, HeaderLine.taken, HeaderLine.archive, headerSet, Ptr.ofPos, Option.getD_some, HeaderLine.valEnd,
    HeaderLine.colonPos, Nat.sub_add_cancel (show 1 ≤ ar.nextParsePos + l.bytes.length by omega)]
  push_cast
  simp only [add_sub_cancel_left]

theorem parseHeaderLine_of_emptyLine (hst : ar.state = .hdBegin) {ws : List Byte} (hws : ∀ c ∈ ws, isBlank c = true)
    (hpre : emptyLine ws <+: data.drop ar.nextParsePos) :
    (parseHeaderLine data ar).1 = .crlfLine ∧
      (parseHeaderLine data ar).2.nextParsePos = ar.nextParsePos + (emptyLine ws).length := by
  have hpos : 0 < (emptyLine ws).length := by simp [emptyLine, CRLF]
  have hscan : hdScan data ar = .halt .done (ar.nextParsePos + (emptyLine ws).length - 1)
      { ar with isCrlfLine := true, state := .hdLfAfterVal } :=
    (hdRun_done_iff hst).mpr (.inr ⟨ws, hws, hpre, by omega, rfl⟩)
  unfold parseHeaderLine
  rw [hscan]
  exact ⟨rfl, Nat.sub_add_cancel (by omega)⟩

theorem parseHeaderLine_done (hst : ar.state = .hdBegin)
    (h : (parseHeaderLine data ar).1 = .ok ∨ (parseHeaderLine data ar).1 = .crlfLine) :
    ((parseHeaderLine data ar).1 = .ok ∧ ∃ l : HeaderLine, l.Grammar ∧ l.bytes <+: data.drop ar.nextParsePos) ∨
      ((parseHeaderLine data ar).1 = .crlfLine ∧
        ∃ ws, (∀ c ∈ ws, isBlank c = true) ∧ emptyLine ws <+: data.drop ar.nextParsePos) := by
  rcases hs : hdScan data ar with s | ⟨_ | _, q, s⟩
  · simp [parseHeaderLine, hs, hdFinish] at h
  · rcases (hdRun_done_iff hst).mp hs with ⟨l, hl, hpre, -⟩ | ⟨ws, hws, hpre, -⟩
    · exact .inl ⟨by rw [parseHeaderLine_of_line hst hl hpre], l, hl, hpre⟩
    · exact .inr ⟨(parseHeaderLine_of_emptyLine hst hws hpre).1, ws, hws, hpre⟩
  · simp [parseHeaderLine, hs, hdFinish] at h

theorem parseHeaderLine_line (hst : ar.state = .hdBegin) {ar' : ParseArchive} (h : parseHeaderLine data ar = (.ok, ar')) :
    ∃ l : HeaderLine, l.Grammar ∧ l.bytes <+: data.drop ar.nextParsePos ∧ ar' = l.taken ar := by
  rcases parseHeaderLine_done hst (.inl (by rw [h])) with ⟨-, l, hl, hpre⟩ | ⟨hcrlf, -⟩
  · have htaken := parseHeaderLine_of_line hst hl hpre
    rw [h] at htaken
    exact ⟨l, hl, hpre, (Prod.mk.inj htaken).2⟩
  · rw [h] at hcrlf
    cases hcrlf

theorem parseHeaderLine_empty (hst : ar.state = .hdBegin) {ar' : ParseArchive}
    (h : parseHeaderLine data ar = (.crlfLine, ar')) :
    ∃ ws, (∀ c ∈ ws, isBlank c = true) ∧ emptyLine ws <+: data.drop ar.nextParsePos := by
  rcases parseHeaderLine_done hst (.inr (by rw [h])) with ⟨hok, -⟩ | ⟨-, hws⟩
  · rw [h] at hok
    cases hok
  · exact hws

theorem line_spans {l : HeaderLine} (hpre : l.bytes <+: data.drop p) :
    (⟨.buf (l.namePos p), l.name.length⟩ : Ssstr).bytes data = l.name ∧
      (⟨.buf (l.valPos p), l.value.length⟩ : Ssstr).bytes data = l.value := by
  have hp : p ≤ data.length := by
    by_contra h
    rw [List.drop_eq_nil_of_le (by omega)] at hpre
    have := hpre.length_le
    simp only [HeaderLine.bytes, List.length_append, List.length_cons, List.length_nil] at this
    omega
  obtain ⟨rest, hrest⟩ := hpre
  have hdata : data = data.take p ++ (l.bytes ++ rest) := by rw [hrest, List.take_append_drop]
  have htake : (data.take p).length = p := List.length_take_of_le hp
  constructor
  · refine slice_eq_of_append (data.take p ++ l.indent)
      (COLON :: (l.blanks ++ (l.value ++ CRLF)) ++ rest) ?_ ?_ (by simp)
    · conv_lhs => rw [hdata]
      simp [HeaderLine.bytes]
    · simp only [List.length_append, htake, HeaderLine.namePos]
  · refine slice_eq_of_append (data.take p ++ l.indent ++ (l.name ++ COLON :: l.blanks))
      (CRLF ++ rest) ?_ ?_ (by simp)
    · conv_lhs => rw [hdata]
      simp [HeaderLine.bytes]
    · simp only [List.length_append, List.length_cons, htake, HeaderLine.namePos, HeaderLine.colonPos, HeaderLine.valPos]
      omega

end Lines

/-! ### Repeated calls -/

/-- The calls of `parse_header_line` on one buffer: the archives after the calls that answered `OK`, then the first other
answer, with its archive. -/
def headerLines (data : List Byte) (ar : ParseArchive) : List ParseArchive × Status × ParseArchive :=
  match _h : parseHeaderLine data ar with
  | (.ok, ar') =>
    let rest := headerLines data ar'
    (ar' :: rest.1, rest.2)
  | (st, ar') => ([], st, ar')
termination_by data.length - ar.nextParsePos
decreasing_by
  have := parseHeaderLine_done_pos _h (.inl rfl)
  omega

section HeaderLines

variable {data : List Byte} {ar ar' : ParseArchive}

theorem headerLines_ok (h : parseHeaderLine data ar = (.ok, ar')) :
    headerLines data ar = (ar' :: (headerLines data ar').1, (headerLines data ar').2) := by
  rw [headerLines, h]

theorem headerLines_last {st : Status} (h : parseHeaderLine data ar = (st, ar')) (hst : st ≠ .ok) :
    headerLines data ar = ([], st, ar') := by
  rw [headerLines, h]
  cases st <;> first | rfl | exact absurd rfl hst

/-- A block of header lines and an empty line, read line by line. -/
theorem headerLines_block (ls : List HeaderLine) (hls : ∀ l ∈ ls, l.Grammar) {ws : List Byte}
    (hws : ∀ c ∈ ws, isBlank c = true) (hst : ar.state = .hdBegin)
    (hpre : ls.flatMap HeaderLine.bytes ++ emptyLine ws <+: data.drop ar.nextParsePos) :
    (headerLines data ar).1.map (fun a => (a.headerName.bytes data, a.headerVal.bytes data)) =
        ls.map (fun l => (l.name, l.value)) ∧
      (headerLines data ar).2.1 = .crlfLine ∧
      (headerLines data ar).2.2.nextParsePos =
        ar.nextParsePos + (ls.flatMap HeaderLine.bytes ++ emptyLine ws).length := by
  induction ls generalizing ar with
  | nil =>
    obtain ⟨hcrlf, hpos⟩ := parseHeaderLine_of_emptyLine hst hws (by simpa using hpre)
    rw [headerLines_last (Prod.ext hcrlf rfl) nofun]
    exact ⟨rfl, rfl, by simpa using hpos⟩
  | cons l ls ih =>
    rw [List.flatMap_cons, List.append_assoc] at hpre
    have hline : l.bytes <+: data.drop ar.nextParsePos := (List.prefix_append _ _).trans hpre
    have hok := parseHeaderLine_of_line hst (hls l (by simp)) hline
    obtain ⟨hname, hval⟩ := line_spans hline
    have hrest : ls.flatMap HeaderLine.bytes ++ emptyLine ws <+: data.drop (ar.nextParsePos + l.bytes.length) := by
      obtain ⟨rest, hrest⟩ := hpre
      refine ⟨rest, ?_⟩
      rw [← List.drop_drop, ← hrest]
      simp
    rw [headerLines_ok hok]
    obtain ⟨h1, h2, h3⟩ := @ih (l.taken ar) (fun l hl => hls l (List.mem_cons_of_mem _ hl)) rfl hrest
    refine ⟨?_, h2, ?_⟩
    · rw [List.map_cons, List.map_cons, h1]
      exact congrArg₂ List.cons (Prod.ext hname hval) rfl
    · rw [h3, List.flatMap_cons, show (l.taken ar).nextParsePos = ar.nextParsePos + l.bytes.length from rfl]
      simp only [List.length_append]
      omega

end HeaderLines

/-! ### The theorem -/

/-- An archive that a successful `parse_request_line`, or a successful `parse_header_line`, has left. -/
def AfterLine (ar : ParseArchive) : Prop :=
  ∃ data ar₀, parseRequestLine data ar₀ = (.ok, ar) ∨ parseHeaderLine data ar₀ = (.ok, ar)

theorem AfterLine.state {ar : ParseArchive} (h : AfterLine ar) : ar.state = .hdBegin := by
  obtain ⟨data, ar₀, h | h⟩ := h
  · exact (parseRequestLine_ok_pos h).2.2
  · exact (parseHeaderLine_done_pos h (.inl rfl)).2.2

/-- **The header-block grammar.**  After a successful call, whatever bytes follow `next_parse_pos`, `parse_header_line`
answers `OK` exactly if they begin with a header line, and `CRLF_LINE` exactly if they begin with an empty line; it then
stands at the end of that line, and `header[0]`, `header[1]` are the name and the value of a header line.  So the calls on
a block of header lines followed by an empty line return the lines in order, and then `CRLF_LINE`. -/
theorem parseHeaderLine_grammar (data : List Byte) (ar : ParseArchive) (har : AfterLine ar) :
    ((parseHeaderLine data ar).1 = .ok ↔
      ∃ l : HeaderLine, l.Grammar ∧ l.bytes <+: data.drop ar.nextParsePos) ∧
    (∀ l : HeaderLine, l.Grammar → l.bytes <+: data.drop ar.nextParsePos →
      let ar' := (parseHeaderLine data ar).2
      ar'.headerName.bytes data = l.name ∧ ar'.headerVal.bytes data = l.value ∧
        ar'.headerName = ⟨.buf (l.namePos ar.nextParsePos), l.name.length⟩ ∧
        ar'.headerVal = ⟨.buf (l.valPos ar.nextParsePos), l.value.length⟩ ∧
        ar'.nextParsePos = ar.nextParsePos + l.bytes.length) ∧
    ((parseHeaderLine data ar).1 = .crlfLine ↔
      ∃ ws, (∀ c ∈ ws, isBlank c = true) ∧ emptyLine ws <+: data.drop ar.nextParsePos) ∧
    (∀ ws, (∀ c ∈ ws, isBlank c = true) → emptyLine ws <+: data.drop ar.nextParsePos →
      (parseHeaderLine data ar).2.nextParsePos = ar.nextParsePos + (emptyLine ws).length) ∧
    ∀ ls : List HeaderLine, (∀ l ∈ ls, l.Grammar) → ∀ ws, (∀ c ∈ ws, isBlank c = true) →
      ls.flatMap HeaderLine.bytes ++ emptyLine ws <+: data.drop ar.nextParsePos →
      (headerLines data ar).1.map (fun a => (a.headerName.bytes data, a.headerVal.bytes data)) =
          ls.map (fun l => (l.name, l.value)) ∧
        (headerLines data ar).2.1 = .crlfLine ∧
        (headerLines data ar).2.2.nextParsePos =
          ar.nextParsePos + (ls.flatMap HeaderLine.bytes ++ emptyLine ws).length := by
  have hst := har.state
  refine ⟨⟨?_, ?_⟩, ?_, ⟨?_, ?_⟩, ?_, ?_⟩
  · intro h
    obtain ⟨l, hl, hpre, -⟩ := parseHeaderLine_line hst (Prod.ext h rfl)
    exact ⟨l, hl, hpre⟩
  · rintro ⟨l, hl, hpre⟩
    rw [parseHeaderLine_of_line hst hl hpre]
  · intro l hl hpre
    obtain ⟨hname, hval⟩ := line_spans hpre
    rw [parseHeaderLine_of_line hst hl hpre]
    exact ⟨hname, hval, rfl, rfl, rfl⟩
  · exact fun h => parseHeaderLine_empty hst (Prod.ext h rfl)
  · rintro ⟨ws, hws, hpre⟩
    exact (parseHeaderLine_of_emptyLine hst hws hpre).1
  · exact fun ws hws hpre => (parseHeaderLine_of_emptyLine hst hws hpre).2
  · exact fun ls hls ws hws hpre => headerLines_block ls hls hws hst hpre

/-- The line `Host: a`, after the request line `GET / HTTP/1.1`. -/
theorem parseHeaderLine_host :
    let data := str "GET / HTTP/1.1\r\nHost: a\r\n\r\n"
    let ar := (parseRequestLine data parseArchiveInit).2
    (parseHeaderLine data ar).1 = .ok ∧ (parseHeaderLine data ar).2.headerVal.bytes data = str "a" ∧
      (headerLines data ar).2.1 = .crlfLine := by
  intro data ar
  have har : AfterLine ar := ⟨data, parseArchiveInit, .inl (Prod.ext (by decide +kernel) rfl)⟩
  have hg := parseHeaderLine_grammar data ar har
  have hl : (⟨[], str "Host", [SP], str "a"⟩ : HeaderLine).Grammar :=
    ⟨by simp, by decide +kernel, by decide +kernel, 0x61, [], by decide +kernel, by decide +kernel, by decide +kernel⟩
  refine ⟨hg.1.mpr ⟨_, hl, by decide +kernel⟩, (hg.2.1 _ hl (by decide +kernel)).2.1, ?_⟩
  exact (hg.2.2.2.2 [⟨[], str "Host", [SP], str "a"⟩] (by simpa using hl) [] (by simp) (by decide +kernel)).2.1

end Lotos
