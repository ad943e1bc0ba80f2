import Lotos.Parser.Chunks
import Lotos.Parser.HeaderLine
import Lotos.Parser.RequestLine

/-!
# `AGAIN` of `parse_header_line`

`AGAIN` is meant to say that the input is legal so far and not complete.  From six states of the header parser that is so:
each has a continuation that ends the line.  `S_HD_LF_AFTER_VAL` is entered by a line feed in a value and has no `case`, so
from there the parser answers `AGAIN` whatever comes.

`BareLf` is the kind of input that leads there: complete lines, and then a header line with a line feed in its value.
-/

namespace Lotos

/-- A header line without its end. -/
def HeaderLine.text (l : HeaderLine) : List Byte := l.indent ++ (l.name ++ COLON :: (l.blanks ++ l.value))

/-- A request line and complete header lines, and then a header line whose value is followed by a line feed, without the
carriage return. -/
def BareLf (input : List Byte) : Prop :=
  ∃ (line : RequestLine) (ls : List HeaderLine) (l : HeaderLine) (rest : List Byte), line.Grammar ∧ (∀ l ∈ ls, l.Grammar) ∧
    l.Grammar ∧ input = line.bytes ++ (ls.flatMap HeaderLine.bytes ++ (l.text ++ LF :: rest))

/-- The parsers after the chunks; `parse_archive_init` leaves `-1` for the content length. -/
def parsed (chunks : List (List Byte)) : Session := (chunks.foldl feed (Session.start (-1))).2

/-- There are chunks that go on from here such that `parse_header_line` answers `OK` or `CRLF_LINE` on one of them. -/
def Continues (chunks : List (List Byte)) : Prop :=
  ∃ more, ∃ a ∈ (parsed (chunks ++ more)).answers.drop (parsed chunks).answers.length,
    a.parser = .headers ∧ (a.status = .ok ∨ a.status = .crlfLine)

/-! ### The states of the header parser -/

section Line

variable {xs : List Byte} {p : ℕ} {ar s : ParseArchive}

theorem HeaderLine.bytes_text (l : HeaderLine) : l.bytes = l.text ++ CRLF := by
  simp [HeaderLine.bytes, HeaderLine.text]

/-- Before the end of its value a line is in `S_HD_VAL`: only from there do a carriage return and a line feed end it. -/
theorem run_text (hst : ar.state = .hdBegin) {l : HeaderLine} (hl : l.Grammar) :
    ∃ s, Scan.run hdStep p l.text ar = .again s ∧ s.state = .hdVal := by
  have hpos : 0 < l.bytes.length := by rw [HeaderLine.bytes_text]; simp [CRLF]
  have hdone : Scan.run hdStep p l.bytes ar = .halt .done (p + l.bytes.length - 1) (l.archive p ar) :=
    (hdRun_done_iff hst).mpr (.inl ⟨l, hl, List.prefix_rfl, by omega, rfl⟩)
  rw [HeaderLine.bytes_text] at hdone
  cases hrun : Scan.run hdStep p l.text ar with
  | halt r q s =>
    have hq := Scan.halt_bounds hrun
    rw [Scan.run_append_halt hrun] at hdone
    cases hdone
    simp only [List.length_append, CRLF, List.length_cons] at hq
    omega
  | again s =>
    refine ⟨s, rfl, ?_⟩
    rw [Scan.run_append_again hrun] at hdone
    have hcr : isNameChar CR = false ∧ isBlank CR = false ∧ isEol CR = true ∧ CR ≠ COLON ∧ CR ≠ LF := by decide
    obtain ⟨hname, hblank, heol, hcolon, hlf⟩ := hcr
    cases hs : s.state <;> simp [CRLF, Scan.run, hdStep, hs, hname, hblank, heol, hcolon, hlf] at hdone
    case hdVal => rfl
    case hdBegin =>
      -- an empty line is ended from here as well, but this one is not empty
      have := congrArg ParseArchive.isCrlfLine hdone.2
      cases this

theorem run_text_lf (hst : ar.state = .hdBegin) {l : HeaderLine} (hl : l.Grammar) (rest : List Byte) :
    ∃ s, Scan.run hdStep p (l.text ++ LF :: rest) ar = .again s ∧ s.state = .hdLfAfterVal := by
  obtain ⟨s, hrun, hs⟩ := @run_text p ar hst l hl
  refine ⟨{ s with state := .hdLfAfterVal }, ?_, rfl⟩
  rw [Scan.run_append_again hrun,
    Scan.run_cons_next (t := { s with state := .hdLfAfterVal }) (by simp [hdStep, hs, show LF ≠ CR by decide]),
    run_lfAfterVal rfl]

/-- `S_HD_LF_AFTER_VAL` is entered without leaving the loop by a line feed in `S_HD_VAL` only. -/
theorem exists_lf (har : ar.state ≠ .hdLfAfterVal) (hrun : Scan.run hdStep p xs ar = .again s)
    (hs : s.state = .hdLfAfterVal) :
    ∃ pre post t, xs = pre ++ LF :: post ∧ Scan.run hdStep p pre ar = .again t ∧ t.state = .hdVal := by
  induction xs generalizing p ar with
  | nil =>
    cases hrun
    exact absurd hs har
  | cons c cs ih =>
    cases hstep : hdStep p c ar with
    | halt r t =>
      rw [Scan.run_cons_halt hstep] at hrun
      cases hrun
    | next t =>
      rw [Scan.run_cons_next hstep] at hrun
      by_cases ht : t.state = .hdLfAfterVal
      · have hval : ar.state = .hdVal ∧ c = LF := by
          cases hst : ar.state <;> simp only [hdStep, hst] at hstep
          case hdLfAfterVal => exact absurd hst har
          case hdVal =>
            split_ifs at hstep with hcr hlf
            · cases hstep
              cases ht
            · exact ⟨rfl, hlf⟩
            · cases hstep
              exact absurd ht har
          all_goals
            (try split_ifs at hstep) <;> cases hstep <;> first | exact absurd ht har | cases ht
        exact ⟨[], cs, ar, by rw [hval.2]; rfl, rfl, hval.1⟩
      · obtain ⟨pre, post, t', rfl, hpre, ht'⟩ := ih ht hrun
        exact ⟨c :: pre, post, t', rfl, by rw [Scan.run_cons_next hstep]; exact hpre, ht'⟩

/-- What was read of the line when the parser has run into `S_HD_LF_AFTER_VAL`: with a carriage return in front of the line
feed it would have been a header line. -/
theorem text_of_lfAfterVal (hst : ar.state = .hdBegin) (hrun : Scan.run hdStep p xs ar = .again s)
    (hs : s.state = .hdLfAfterVal) : ∃ l : HeaderLine, l.Grammar ∧ ∃ rest, xs = l.text ++ LF :: rest := by
  obtain ⟨pre, post, t, rfl, hpre, ht⟩ := exists_lf (by rw [hst]; decide) hrun hs
  have hdone : Scan.run hdStep p (pre ++ CRLF) ar =
      .halt .done (p + pre.length + 1) { t with headerValEnd := some (p + pre.length), state := .hdLfAfterVal } := by
    rw [Scan.run_append_again hpre]
    exact (line_val ht).mpr ⟨[], [], rfl, nofun, rfl, rfl⟩
  rcases (hdRun_done_iff hst).mp hdone with ⟨l, hl, hprefix, hlen, -⟩ | ⟨ws, hws, hprefix, hlen, -⟩
  · have heq : l.bytes = pre ++ CRLF := by
      refine hprefix.eq_of_length ?_
      simp only [List.length_append, CRLF, List.length_cons, List.length_nil]
      omega
    rw [HeaderLine.bytes_text] at heq
    exact ⟨l, hl, post, by rw [List.append_cancel_right heq]⟩
  · have heq : emptyLine ws = pre ++ CRLF := by
      refine hprefix.eq_of_length ?_
      simp only [List.length_append, CRLF, List.length_cons, List.length_nil]
      omega
    have hpre' : ws = pre := List.append_cancel_right heq
    have hskip : ∀ q, ∀ c ∈ pre, hdStep q c ar = .next ar := by
      intro q c hc
      have hblank := hws c (hpre' ▸ hc)
      have hother : isNameChar c = false ∧ c ≠ CR := by
        simp only [isBlank, Bool.or_eq_true, beq_iff_eq] at hblank
        rcases hblank with rfl | rfl <;> decide
      simp [hdStep, hst, hblank, hother.1, hother.2]
    have hrun' : Scan.run hdStep p (pre ++ []) ar = _ := Scan.run_append_skip hskip
    rw [List.append_nil, hpre] at hrun'
    cases hrun'
    rw [hst] at ht
    cases ht

/-- The states in which `parse_header_line` can be called. -/
def ParserState.ofHeader : ParserState → Bool
  | .hdBegin | .hdName | .hdColon | .hdSpBeforeVal | .hdVal | .hdCrAfterVal | .hdLfAfterVal => true
  | _ => false

theorem hdStep_ofHeader (q : ℕ) (c : Byte) (ar ar' : ParseArchive) (har : ar.state.ofHeader = true)
    (h : hdStep q c ar = .next ar') : ar'.state.ofHeader = true := by
  cases hst : ar.state <;> simp only [hdStep, hst] at h <;> rw [hst] at har
  all_goals
    (try split_ifs at h) <;> cases h <;> first | rfl | (rw [hst]; exact har)

/-- From every other state of the header parser there are bytes that end the line. -/
theorem exists_ending (har : ar.state.ofHeader = true) (hne : ar.state ≠ .hdLfAfterVal) :
    ∃ more, ∀ p, ∃ q s, Scan.run hdStep p more ar = .halt .done q s := by
  have hval : ∀ p (ar : ParseArchive), ar.state = .hdVal → ∃ q s, Scan.run hdStep p CRLF ar = .halt .done q s :=
    fun p ar hst => ⟨_, _, (line_val hst).mpr ⟨[], [], rfl, nofun, rfl, rfl⟩⟩
  have hcolon : ∀ p (ar : ParseArchive), ar.state = .hdColon →
      ∃ q s, Scan.run hdStep p (0x61 :: CRLF) ar = .halt .done q s := by
    intro p ar hst
    rw [Scan.run_cons_next (t := { ar with state := .hdVal, headerValBegin := some p })
      (by simp [hdStep, hst, show isBlank 0x61 = false by decide, show isEol 0x61 = false by decide])]
    exact hval _ _ rfl
  cases hst : ar.state <;> rw [hst] at har hne
  case hdBegin =>
    refine ⟨CRLF, fun p => ?_⟩
    rw [CRLF, Scan.run_cons_next (t := { ar with state := .hdCrAfterVal, isCrlfLine := true })
      (by simp [hdStep, hst, show isNameChar CR = false by decide])]
    exact ⟨_, _, (line_crAfterVal rfl).mpr ⟨[], rfl, rfl, rfl⟩⟩
  case hdName =>
    refine ⟨COLON :: 0x61 :: CRLF, fun p => ?_⟩
    rw [Scan.run_cons_next (t := { ar with state := .hdColon, headerColonPos := some p })
      (by simp [hdStep, hst, show isNameChar COLON = false by decide])]
    exact hcolon _ _ rfl
  case hdColon => exact ⟨0x61 :: CRLF, fun p => hcolon p ar hst⟩
  case hdSpBeforeVal =>
    refine ⟨0x61 :: CRLF, fun p => ?_⟩
    rw [Scan.run_cons_next (t := { ar with state := .hdVal, headerValBegin := some p })
      (by simp [hdStep, hst, show isBlank 0x61 = false by decide, show isEol 0x61 = false by decide])]
    exact hval _ _ rfl
  case hdVal => exact ⟨CRLF, fun p => hval p ar hst⟩
  case hdCrAfterVal => exact ⟨[LF], fun p => ⟨_, _, (line_crAfterVal hst).mpr ⟨[], rfl, rfl, rfl⟩⟩⟩
  case hdLfAfterVal => exact absurd rfl hne
  all_goals cases har

end Line

/-! ### The calls on one buffer -/

section Drive

variable {data : List Byte} {ar : ParseArchive} {answers : List Answer}

theorem drop_of_line {l : HeaderLine} (hpre : l.bytes <+: data.drop ar.nextParsePos) :
    data.drop ar.nextParsePos = l.bytes ++ data.drop (l.taken ar).nextParsePos := by
  obtain ⟨rest, hrest⟩ := hpre
  rw [show (l.taken ar).nextParsePos = ar.nextParsePos + l.bytes.length from rfl, ← List.drop_drop, ← hrest,
    List.drop_left]

/-- The lines that were taken before the call that answered `AGAIN`, and that call. -/
theorem driveHeaders_waiting (hst : ar.state = .hdBegin) (hturn : (driveHeaders data ar answers).turn = .headers) :
    ∃ (ls : List HeaderLine) (ar₁ s : ParseArchive), (∀ l ∈ ls, l.Grammar) ∧ ar₁.state = .hdBegin ∧
      data.drop ar.nextParsePos = ls.flatMap HeaderLine.bytes ++ data.drop ar₁.nextParsePos ∧
      Scan.run hdStep ar₁.nextParsePos (data.drop ar₁.nextParsePos) ar₁ = .again s ∧
      (driveHeaders data ar answers).ar = s.setPos data.length := by
  induction ar, answers using driveHeaders.induct data with
  | case1 ar answers ar' h ih =>
    rw [driveHeaders, h] at hturn ⊢
    obtain ⟨l, hl, hpre, rfl⟩ := parseHeaderLine_line hst h
    obtain ⟨ls, ar₁, s, hls, hst₁, hdrop, hrun, hend⟩ := ih rfl hturn
    refine ⟨l :: ls, ar₁, s, List.forall_mem_cons.mpr ⟨hl, hls⟩, hst₁, ?_, hrun, hend⟩
    rw [drop_of_line hpre, hdrop, List.flatMap_cons, List.append_assoc]
  | case2 ar answers ar' h =>
    rw [driveHeaders, h] at hturn
    simp only [driveBody] at hturn
    split at hturn <;> cases hturn
  | case3 ar answers ar' h =>
    rw [driveHeaders, h]
    unfold parseHeaderLine at h
    cases hs : hdScan data ar with
    | again s =>
      rw [hs] at h
      cases h
      exact ⟨[], ar, s, List.forall_mem_nil _, hst, rfl, hs, rfl⟩
    | halt r q s =>
      rw [hs] at h
      exact absurd (congrArg Prod.fst h) (hdFinish_halt_ne_again _ _ _ _)
  | case4 ar answers ar' h =>
    rw [driveHeaders, h] at hturn
    cases hturn

theorem driveHeaders_bareLf (hst : ar.state = .hdBegin) {ls : List HeaderLine} (hls : ∀ l ∈ ls, l.Grammar) {l : HeaderLine}
    (hl : l.Grammar) {rest : List Byte}
    (hdrop : data.drop ar.nextParsePos = ls.flatMap HeaderLine.bytes ++ (l.text ++ LF :: rest)) :
    (driveHeaders data ar answers).turn = .headers ∧ (driveHeaders data ar answers).ar.state = .hdLfAfterVal := by
  induction ls generalizing ar answers with
  | nil =>
    obtain ⟨s, hrun, hs⟩ := @run_text_lf ar.nextParsePos ar hst l hl rest
    rw [List.flatMap_nil, List.nil_append] at hdrop
    have hline : parseHeaderLine data ar = (.again, s.setPos data.length) := by
      rw [parseHeaderLine, hdScan, hdrop, hrun]
      rfl
    rw [driveHeaders, hline]
    exact ⟨rfl, hs⟩
  | cons l' ls ih =>
    rw [List.flatMap_cons, List.append_assoc] at hdrop
    have hpre : l'.bytes <+: data.drop ar.nextParsePos := ⟨_, hdrop.symm⟩
    rw [driveHeaders, parseHeaderLine_of_line hst (hls l' List.mem_cons_self) hpre]
    refine @ih (l'.taken ar) _ rfl (fun l hl => hls l (List.mem_cons_of_mem _ hl)) ?_
    rw [drop_of_line hpre] at hdrop
    exact List.append_cancel_left hdrop

theorem driveBody_answers (data : List Byte) (ar : ParseArchive) (answers : List Answer) :
    answers <+: (driveBody data ar answers).answers := by
  unfold driveBody
  split
  · exact List.prefix_append _ _
  · exact List.prefix_rfl

theorem driveHeaders_answers (data : List Byte) (ar : ParseArchive) (answers : List Answer) :
    answers <+: (driveHeaders data ar answers).answers := by
  induction ar, answers using driveHeaders.induct data with
  | case1 ar answers ar' h ih =>
    rw [driveHeaders, h]
    exact (List.prefix_append _ _).trans ih
  | case2 ar answers ar' h =>
    rw [driveHeaders, h]
    exact (List.prefix_append _ _).trans (driveBody_answers _ _ _)
  | case3 ar answers ar' h =>
    rw [driveHeaders, h]
  | case4 ar answers ar' h =>
    rw [driveHeaders, h]
    exact List.prefix_append _ _

theorem driveHeaders_next {st : Status} {ar' : ParseArchive} (h : parseHeaderLine data ar = (st, ar'))
    (hst : st = .ok ∨ st = .crlfLine) :
    answers ++ [.complete .headers st ar'] <+: (driveHeaders data ar answers).answers := by
  rcases hst with rfl | rfl
  · rw [driveHeaders, h]
    exact driveHeaders_answers _ _ _
  · rw [driveHeaders, h]
    exact driveBody_answers _ _ _

theorem hdFinish_done (data : List Byte) (q : ℕ) (s : ParseArchive) :
    (hdFinish data (.halt .done q s)).1 = .ok ∨ (hdFinish data (.halt .done q s)).1 = .crlfLine := by
  simp only [hdFinish]
  split_ifs
  · exact .inr rfl
  · exact .inl rfl

end Drive

/-! ### The whole input -/

section Input

variable {input : List Byte} {chunks : List (List Byte)}

/-- The parsers on the whole input at once. -/
def parsedAtOnce (input : List Byte) : Session := drive input (Session.start (-1)).2

theorem start_wf (data : List Byte) : (Session.start (-1)).2.Wf data := ⟨fun _ => Nat.zero_le _, fun _ _ => rfl⟩

theorem parsed_view (chunks : List (List Byte)) : (parsed chunks).view = (parsedAtOnce chunks.flatten).view :=
  foldl_feed_view chunks [] (Session.start (-1)).2 (start_wf []) rfl

theorem parsed_append_view (chunks more : List (List Byte)) :
    (parsed (chunks ++ more)).view = (drive (chunks.flatten ++ more.flatten) (parsedAtOnce chunks.flatten)).view := by
  rw [parsed_view, List.flatten_append]
  exact (drive_resume more.flatten (start_wf chunks.flatten)).symm

theorem parsedAtOnce_line {line : RequestLine} (hline : line.Grammar) (hpre : line.bytes <+: input) :
    ∃ ar answers, parsedAtOnce input = driveHeaders input ar answers ∧ ar.state = .hdBegin ∧
      ar.nextParsePos = line.bytes.length := by
  have hok : parseRequestLine input (Session.start (-1)).2.ar = _ := parseRequestLine_of_grammar hline hpre
  let ar : ParseArchive := { line.archive input with nextParsePos := line.bytes.length, state := .hdBegin }
  refine ⟨ar, [.complete .requestLine .ok ar], ?_, rfl, rfl⟩
  change driveRequestLine input (Session.start (-1)).2.ar (Session.start (-1)).2.answers = _
  rw [driveRequestLine, hok]
  rfl

/-- The parsers wait for the rest of a header line: what they have taken, and the state of the archive. -/
theorem parsedAtOnce_waiting (hturn : (parsedAtOnce input).turn = .headers) :
    (parsedAtOnce input).ar.nextParsePos = input.length ∧ (parsedAtOnce input).ar.state.ofHeader = true ∧
      ((parsedAtOnce input).ar.state = .hdLfAfterVal ↔ BareLf input) := by
  have hline : (parseRequestLine input parseArchiveInit).1 = .ok := by
    change (driveRequestLine input parseArchiveInit []).turn = .headers at hturn
    rw [driveRequestLine] at hturn
    rcases h : parseRequestLine input parseArchiveInit with ⟨st, ar⟩
    rw [h] at hturn
    cases st <;> first | rfl | cases hturn
  obtain ⟨line, hgrammar, hpre⟩ := parseRequestLine_ok hline
  obtain ⟨ar, answers, hdrive, hst, hpos⟩ := parsedAtOnce_line hgrammar hpre
  rw [hdrive] at hturn
  obtain ⟨ls, ar₁, s, hls, hst₁, hdrop, hrun, hend⟩ := driveHeaders_waiting hst hturn
  rw [hdrive, hend]
  refine ⟨rfl, Scan.again_inv (fun ar => ar.state.ofHeader = true) hdStep_ofHeader (by rw [hst₁]; rfl) hrun, ?_, ?_⟩
  · intro hlf
    obtain ⟨l, hl, rest, hrest⟩ := text_of_lfAfterVal hst₁ hrun hlf
    refine ⟨line, ls, l, rest, hgrammar, hls, hl, ?_⟩
    rw [← hrest, ← hdrop, hpos]
    obtain ⟨tail, rfl⟩ := hpre
    rw [List.drop_left]
  · rintro ⟨line', ls', l, rest, hgrammar', hls', hl, heq⟩
    obtain ⟨ar', answers', hdrive', hst', hpos'⟩ := parsedAtOnce_line hgrammar' ⟨_, heq.symm⟩
    have hstuck := @driveHeaders_bareLf input ar' answers' hst' ls' hls' l hl rest (by rw [hpos', heq, List.drop_left])
    rw [← hdrive', hdrive, hend] at hstuck
    exact hstuck.2

theorem parsedAtOnce_bareLf (h : BareLf input) : (parsedAtOnce input).turn = .headers := by
  obtain ⟨line, ls, l, rest, hgrammar, hls, hl, heq⟩ := h
  obtain ⟨ar, answers, hdrive, hst, hpos⟩ := parsedAtOnce_line hgrammar ⟨_, heq.symm⟩
  rw [hdrive]
  exact (driveHeaders_bareLf hst hls hl (by rw [hpos, heq, List.drop_left])).1

theorem parseHeaderLine_more (hturn : (parsedAtOnce input).turn = .headers) (more : List Byte) :
    parseHeaderLine (input ++ more) (parsedAtOnce input).ar =
      hdFinish (input ++ more) (Scan.run hdStep input.length more (parsedAtOnce input).ar) := by
  rw [parseHeaderLine, hdScan, (parsedAtOnce_waiting hturn).1, List.drop_left]

theorem drive_waiting (hturn : (parsedAtOnce input).turn = .headers) (more : List Byte) :
    drive (input ++ more) (parsedAtOnce input) =
      driveHeaders (input ++ more) (parsedAtOnce input).ar (parsedAtOnce input).answers := by
  rw [drive, hturn]

/-- Whatever comes after a line feed in a value, there is no further answer. -/
theorem not_continues (h : BareLf chunks.flatten) : ¬ Continues chunks := by
  rintro ⟨more, a, ha, -⟩
  have hturn := parsedAtOnce_bareLf h
  have hagain : parseHeaderLine (chunks.flatten ++ more.flatten) (parsedAtOnce chunks.flatten).ar =
      (.again, (parsedAtOnce chunks.flatten).ar.setPos (chunks.flatten ++ more.flatten).length) := by
    rw [parseHeaderLine_more hturn, run_lfAfterVal ((parsedAtOnce_waiting hturn).2.2.mpr h)]
    rfl
  have hanswers : (parsed (chunks ++ more)).answers = (parsed chunks).answers := by
    have hlong := congrArg (·.2.1) (parsed_append_view chunks more)
    have hshort := congrArg (·.2.1) (parsed_view chunks)
    simp only [Session.view] at hlong hshort
    rw [hlong, hshort, drive_waiting hturn, driveHeaders, hagain]
  rw [hanswers, List.drop_length] at ha
  cases ha

theorem continues_of_waiting (hturn : (parsedAtOnce chunks.flatten).turn = .headers) (h : ¬ BareLf chunks.flatten) :
    Continues chunks := by
  obtain ⟨hpos, hheader, hlf⟩ := parsedAtOnce_waiting hturn
  obtain ⟨more, hmore⟩ := exists_ending hheader (mt hlf.mp h)
  obtain ⟨q, s, hrun⟩ := hmore chunks.flatten.length
  have hline := parseHeaderLine_more hturn more
  rw [hrun] at hline
  have hstatus := hdFinish_done (chunks.flatten ++ more) q s
  refine ⟨[more], .complete .headers _ (hdFinish (chunks.flatten ++ more) (.halt .done q s)).2, ?_, rfl, hstatus⟩
  have hlong := congrArg (·.2.1) (parsed_append_view chunks [more])
  have hshort := congrArg (·.2.1) (parsed_view chunks)
  simp only [Session.view, List.flatten_singleton] at hlong hshort
  obtain ⟨rest, hrest⟩ := @driveHeaders_next _ _ (parsedAtOnce chunks.flatten).answers _ _ hline hstatus
  rw [hlong, hshort, drive_waiting hturn, ← hrest, List.append_assoc, List.drop_left]
  exact List.mem_cons_self

end Input

/-- **`AGAIN` of `parse_header_line`.**  After any chunks on which `parse_header_line` has answered `AGAIN`, there are chunks
on which it answers `OK` or `CRLF_LINE` later just when no line feed without a carriage return stands in the value of the
header line that is being read. -/
theorem again_continues_iff (chunks : List (List Byte)) (hagain : (parsed chunks).turn = .headers) :
    Continues chunks ↔ ¬ BareLf chunks.flatten := by
  have hturn : (parsedAtOnce chunks.flatten).turn = .headers := by
    have := congrArg (·.1) (parsed_view chunks)
    exact this.symm.trans hagain
  constructor
  · intro hcont hbare
    exact not_continues hbare hcont
  · exact continues_of_waiting hturn

/-- In the middle of a value. -/
theorem again_continues_iff_value : Continues [str "GET / HTTP/1.1\r\nA: b"] := by
  have hagain : (parsed [str "GET / HTTP/1.1\r\nA: b"]).turn = .headers := by decide +kernel
  refine (again_continues_iff _ hagain).mpr fun hbare => ?_
  have hstate := (parsedAtOnce_waiting (parsedAtOnce_bareLf hbare)).2.2.mpr hbare
  exact absurd hstate (by decide +kernel)

/-- A line feed after the value. -/
theorem not_forall_again_continues :
    ¬ ∀ chunks : List (List Byte), (parsed chunks).turn = .headers → Continues chunks := by
  intro h
  have hbare : BareLf [str "GET / HTTP/1.1\r\nA: b\n"].flatten := by
    refine ⟨⟨.get, [], str "/", [SP], str "HTTP", str "1", str "1"⟩, [], ⟨[], str "A", [SP], str "b"⟩, [], ?_, nofun, ?_, ?_⟩
    · exact ⟨by decide, nofun, ⟨[], by decide +kernel, nofun⟩, by decide +kernel,
        ⟨0x48, 0x54, 0x54, 0x50, by decide +kernel, by decide, by decide, by decide, by decide⟩,
        .inl ⟨0x31, by decide, by decide +kernel⟩, .inl ⟨0x31, by decide, by decide +kernel⟩⟩
    · exact ⟨nofun, by decide +kernel, by decide +kernel, 0x62, [], by decide +kernel, by decide, by decide +kernel⟩
    · decide +kernel
  exact not_continues hbare (h _ (by decide +kernel))

end Lotos
