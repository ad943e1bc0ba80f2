import Lotos.Request.Accept

/-!
# The headers of a request by name

The calls of `request_handle_headers` for one header block, and what they leave in `req_headers`: for each member the value
of the last line of its name, as it was received.  The lines may be of any kind, also those that are answered by an error:
the loop goes on after them.

A value is recorded as a span of the buffer, and names are written into that buffer in lower case.  `Conn.InBlock` holds the
two together: what is written lies in the line that has just been read, behind all the spans recorded before, and before the
bytes that are read next.
-/

namespace Lotos

/-! ### The names of the members -/

/-- The name that `hf_list` gives to a member of `request_headers_t`. -/
def HeaderSlot.name (slot : HeaderSlot) : String := ((hfList.find? fun e => e.2.2 = slot).map Prod.fst).getD ""

theorem hfList_name : (∀ slot : HeaderSlot, ∃ func, (slot.name, func, slot) ∈ hfList) ∧
    ∀ e ∈ hfList, e.1 = e.2.2.name := by
  refine ⟨?_, by decide +kernel⟩
  intro slot
  have hfunc : ∃ func ∈ [HeaderFunc.base, .connection, .contentLength, .transferEncoding],
      (slot.name, func, slot) ∈ hfList := by
    cases slot <;> decide +kernel
  obtain ⟨func, -, hmem⟩ := hfunc
  exact ⟨func, hmem⟩

/-- No name stands in `hf_list` twice. -/
theorem hfList_injective : ∀ e ∈ hfList, ∀ e' ∈ hfList, str e.1 = str e'.1 → e.2.2 = e'.2.2 := by
  decide +kernel

section Names

variable {l : HeaderLine}

theorem named_of_entry {func : HeaderFunc} {slot : HeaderSlot} (h : headerEntry (l.name.map toLower) = some (func, slot))
    (s : HeaderSlot) : l.named s.name = decide (s = slot) := by
  obtain ⟨e, he, hname, hx⟩ := headerEntry_mem h
  obtain ⟨func', hs⟩ := hfList_name.1 s
  have hslot : e.2.2 = slot := congrArg Prod.snd hx
  unfold HeaderLine.named
  rw [← hname, decide_eq_decide]
  constructor
  · intro heq
    have hsame := hfList_injective e he _ hs heq
    exact hsame.symm.trans hslot
  · rintro rfl
    rw [← hslot, ← hfList_name.2 e he]

theorem named_of_no_entry (h : headerEntry (l.name.map toLower) = none) (s : HeaderSlot) : l.named s.name = false := by
  obtain ⟨func, hs⟩ := hfList_name.1 s
  unfold headerEntry at h
  rw [Option.map_eq_none_iff, List.find?_eq_none] at h
  have hne := h _ (List.mem_reverse.mpr hs)
  unfold HeaderLine.named
  rw [decide_eq_false_iff_not]
  intro heq
  exact hne (by simpa using heq.symm)

/-- **What a line changes in `req_headers`**: the member of its name, if there is one. -/
theorem record_reqHeaders (more : List Byte) (ar : ParseArchive) (s : HeaderSlot) :
    ((l.kind more).record ar).reqHeaders s = if l.named s.name then ar.headerVal else ar.reqHeaders s := by
  unfold HeaderLine.kind
  cases hentry : headerEntry (l.name.map toLower) with
  | none =>
    rw [named_of_no_entry hentry]
    rfl
  | some x =>
    obtain ⟨func, slot⟩ := x
    have hset : ((func.memKind (l.value ++ CR :: more) slot).record ar).reqHeaders =
        Function.update ar.reqHeaders slot ar.headerVal := by
      obtain ⟨hconn, hlen, hcoding⟩ := headerEntry_slot hentry
      cases func with
      | base => rfl
      | connection =>
        obtain rfl := hconn rfl
        simp only [HeaderFunc.memKind, HeaderFunc.kind]
        split_ifs <;> rfl
      | contentLength =>
        obtain rfl := hlen rfl
        simp only [HeaderFunc.memKind, HeaderFunc.kind]
        split_ifs <;> rfl
      | transferEncoding =>
        obtain rfl := hcoding rfl
        simp only [HeaderFunc.memKind, HeaderFunc.kind, codingOf]
        split_ifs <;> rfl
    simp only
    rw [hset, named_of_entry hentry, Function.update_apply]
    simp only [decide_eq_true_eq]

end Names

/-! ### The slots -/

/-- The position after lines that begin at `p`. -/
def blockEnd (p : ℕ) (ls : List HeaderLine) : ℕ := p + (ls.flatMap HeaderLine.bytes).length

theorem blockEnd_concat (p : ℕ) (ls : List HeaderLine) (l : HeaderLine) :
    blockEnd p (ls ++ [l]) = blockEnd p ls + l.bytes.length := by
  simp [blockEnd, Nat.add_assoc]

/-- A member of `req_headers` after lines that begin at `p`: the value of the last line of its name, where it stands in the
buffer, and with the bytes it has in the line; or nothing, if no line has that name. -/
def Conn.SlotHolds (c : Conn) (p : ℕ) (ls : List HeaderLine) (slot : HeaderSlot) : Prop :=
  (∃ before l after, ls = before ++ l :: after ∧ l.named slot.name = true ∧ (∀ l' ∈ after, l'.named slot.name = false) ∧
    c.req.par.reqHeaders slot = ⟨.buf (l.valPos (blockEnd p before)), l.value.length⟩ ∧
    (c.req.par.reqHeaders slot).bytes c.req.ib = l.value) ∨
  ((∀ l ∈ ls, l.named slot.name = false) ∧ c.req.par.reqHeaders slot = .init)

theorem bytes_eq_of_take {data data' : List Byte} {q : ℕ} (htake : data'.take q = data.take q) (hq : q ≤ data.length)
    {s : Ssstr} (hs : s.InBounds q) (hlen : data.length ≤ data'.length) : s.bytes data' = s.bytes data := by
  have hq' : q ≤ data'.length := hq.trans hlen
  have hs₁ : s.InBounds (data.take q).length := by
    rw [List.length_take_of_le hq]
    exact hs
  have hs₂ : s.InBounds (data'.take q).length := by
    rw [List.length_take_of_le hq']
    exact hs
  rw [← List.take_append_drop q data', bytes_append _ hs₂, htake, ← bytes_append (data.drop q) hs₁, List.take_append_drop]

theorem bytes_eq_of_drop {data data' : List Byte} {b : ℕ} {n : ℤ} (h : data'.drop b = data.drop b) :
    (⟨.buf b, n⟩ : Ssstr).bytes data' = (⟨.buf b, n⟩ : Ssstr).bytes data := by
  simp only [Ssstr.bytes, slice]
  rw [h]

section Slots

variable {c c' : Conn} {p : ℕ} {ls : List HeaderLine} {slot : HeaderSlot}

theorem value_inBounds (p : ℕ) (before after : List HeaderLine) (l : HeaderLine) :
    (⟨.buf (l.valPos (blockEnd p before)), l.value.length⟩ : Ssstr).InBounds (blockEnd p (before ++ l :: after)) := by
  intro b hb
  cases hb
  simp only [HeaderLine.valPos, HeaderLine.colonPos, HeaderLine.namePos, blockEnd, HeaderLine.bytes, List.flatMap_append,
    List.flatMap_cons, List.length_append, List.length_cons, CRLF]
  omega

/-- What is written behind the lines changes no slot. -/
theorem Conn.SlotHolds.frame (h : c.SlotHolds p ls slot) (hslot : c'.req.par.reqHeaders slot = c.req.par.reqHeaders slot)
    (hle : blockEnd p ls ≤ c.req.ib.length) (hlen : c.req.ib.length ≤ c'.req.ib.length)
    (htake : c'.req.ib.take (blockEnd p ls) = c.req.ib.take (blockEnd p ls)) : c'.SlotHolds p ls slot := by
  rcases h with ⟨before, l, after, rfl, hname, hafter, hspan, hbytes⟩ | ⟨hnone, hinit⟩
  · refine .inl ⟨before, l, after, rfl, hname, hafter, hslot.trans hspan, ?_⟩
    rw [hslot, bytes_eq_of_take htake hle ?_ hlen]
    · exact hbytes
    · rw [hspan]
      exact value_inBounds p before after l
  · exact .inr ⟨hnone, hslot.trans hinit⟩

theorem Conn.SlotHolds.other (h : c.SlotHolds p ls slot) {l : HeaderLine} (hname : l.named slot.name = false) :
    c.SlotHolds p (ls ++ [l]) slot := by
  have hforall : ∀ {ls' : List HeaderLine}, (∀ l' ∈ ls', l'.named slot.name = false) →
      ∀ l' ∈ ls' ++ [l], l'.named slot.name = false := by
    intro ls' hls' l' hl'
    rcases List.mem_append.mp hl' with hl' | hl'
    · exact hls' l' hl'
    · rw [List.mem_singleton.mp hl']
      exact hname
  rcases h with ⟨before, l₀, after, rfl, hname₀, hafter, hspan, hbytes⟩ | ⟨hnone, hinit⟩
  · exact .inl ⟨before, l₀, after ++ [l], by simp, hname₀, hforall hafter, hspan, hbytes⟩
  · exact .inr ⟨hforall hnone, hinit⟩

/-- The bytes of a slot are the value of the last line of its name. -/
theorem Conn.SlotHolds.bytes (h : c.SlotHolds p ls slot) {l : HeaderLine} (hlast : lastNamed ls slot.name = some l) :
    (c.req.par.reqHeaders slot).bytes c.req.ib = l.value := by
  unfold lastNamed at hlast
  rcases h with ⟨before, l₀, after, rfl, hname, hafter, -, hbytes⟩ | ⟨hnone, -⟩
  · have hrest : after.filter (fun l => l.named slot.name) = [] := by
      rw [List.filter_eq_nil_iff]
      intro l' hl'
      rw [hafter l' hl']
      decide
    have hpos : (l₀ :: after).filter (fun l => l.named slot.name) = [l₀] := by
      rw [List.filter_cons, if_pos hname, hrest]
    rw [List.filter_append, hpos, List.getLast?_concat] at hlast
    cases hlast
    exact hbytes
  · have hmem := lastNamed_mem hlast
    rw [hnone l hmem.1] at hmem
    exact absurd hmem.2 (by decide)

end Slots

/-! ### Among the lines of a block -/

/-- The lines `ls`, which begin at `p`, have been read: the slots hold their values, the bytes after them are those received,
and the archive is one from which the call on any longer buffer answers as a call at the beginning of the next line would. -/
structure Conn.InBlock (c : Conn) (p : ℕ) (ls : List HeaderLine) : Prop where
  within : blockEnd p ls ≤ c.req.ib.length
  pos : c.req.par.nextParsePos ≤ c.req.ib.length
  same : ∃ ar₀, ar₀.state = .hdBegin ∧ ar₀.nextParsePos = blockEnd p ls ∧
    ∀ ys, SameAnswer (parseHeaderLine (c.req.ib ++ ys) c.req.par) (parseHeaderLine (c.req.ib ++ ys) ar₀)
  slots : ∀ slot, c.SlotHolds p ls slot

section Block

variable {env : Env} {c : Conn} {p : ℕ} {ls : List HeaderLine} {ar : ParseArchive}

theorem Conn.InBlock.receive (h : c.InBlock p ls) (bs : List Byte) : (c.receive bs).InBlock p ls := by
  obtain ⟨ar₀, hst, hpos, hsame⟩ := h.same
  have hlen : c.req.ib.length ≤ (c.receive bs).req.ib.length := by
    rw [(receive_length c bs).1]
    exact Nat.le_add_right _ _
  refine ⟨h.within.trans hlen, h.pos.trans hlen, ⟨ar₀, hst, hpos, ?_⟩, ?_⟩
  · intro ys
    have hsame := hsame (bs ++ ys)
    rw [← List.append_assoc] at hsame
    exact hsame
  · intro slot
    exact (h.slots slot).frame rfl h.within hlen (List.take_append_of_le_length h.within)

theorem Conn.InBlock.again (h : c.InBlock p ls) (hp : parseHeaderLine c.req.ib c.req.par = (.again, ar)) :
    (c.mapPar fun _ => ar).InBlock p ls := by
  have howned := (parseHeaderLine_frame hp).owned
  obtain ⟨ar₀, hst, hpos, hsame⟩ := h.same
  refine ⟨h.within, (parseHeaderLine_again_pos hp).le,
    ⟨ar₀, hst, hpos, fun ys => (parseHeaderLine_resume ys h.pos hp).trans (hsame ys)⟩, ?_⟩
  intro slot
  exact (h.slots slot).frame (congrFun (congrArg Owned.reqHeaders howned) slot) h.within le_rfl rfl

theorem Conn.InBlock.finish (h : c.InBlock p ls) (hst : c.req.par.state = .hdBegin)
    (hpos : c.req.par.nextParsePos = blockEnd p ls) (answer : Option ℕ) : (finishHeader env c answer).2.InBlock p ls := by
  cases answer with
  | none => exact h
  | some code =>
    have hib : (finishHeader env c (some code)).2.req.ib = c.req.ib := assembleErr_ib env c code
    have hpar : (finishHeader env c (some code)).2.req.par =
        { c.req.par with errReq := true, keepAlive := false, responseDone := true } := assembleErr_par env c code
    refine ⟨by rw [hib]; exact h.within, by rw [hib, hpar]; exact h.pos, ⟨_, ?_, ?_, fun ys => .refl _⟩, ?_⟩
    · rw [hpar]
      exact hst
    · rw [hpar]
      exact hpos
    · intro slot
      refine (h.slots slot).frame ?_ h.within (by rw [hib]) (by rw [hib])
      rw [hpar]

theorem Conn.InBlock.slot_line (h : c.InBlock p ls) {st : Status} (hp : parseHeaderLine c.req.ib c.req.par = (st, ar))
    {l : HeaderLine} {ar₀ : ParseArchive} (hstart : ar₀.nextParsePos = blockEnd p ls) (har : ar = l.taken ar₀)
    (hpre : l.bytes <+: c.req.ib.drop ar₀.nextParsePos) (more : List Byte) (slot : HeaderSlot) :
    ((c.mapPar fun _ => ar).lowerName.mapPar (l.kind more).record).SlotHolds p (ls ++ [l]) slot := by
  have hline := line_length hpre
  have hslot := record_reqHeaders more ar slot (l := l)
  have hib : (c.mapPar fun _ => ar).lowerName.req.ib =
      ssstrTolower c.req.ib ⟨.buf (l.namePos ar₀.nextParsePos), l.name.length⟩ := by
    rw [har]
    rfl
  cases hnamed : l.named slot.name with
  | true =>
    have hval : ar.headerVal = ⟨.buf (l.valPos ar₀.nextParsePos), l.value.length⟩ := by
      rw [har]
      rfl
    rw [hnamed, if_pos rfl, hval] at hslot
    refine .inl ⟨ls, l, [], rfl, hnamed, by simp, ?_, ?_⟩
    · rw [← hstart]
      exact hslot
    · -- the name is before the value
      change Ssstr.bytes (c.mapPar fun _ => ar).lowerName.req.ib (((l.kind more).record ar).reqHeaders slot) = l.value
      rw [hslot, hib]
      refine (bytes_eq_of_drop (ssstrTolower_drop ?_ ?_)).trans (line_spans hpre).2
      · simp only [HeaderLine.valPos, HeaderLine.colonPos]
        omega
      · omega
  | false =>
    rw [hnamed, if_neg (by decide)] at hslot
    have hframe : ((c.mapPar fun _ => ar).lowerName.mapPar (l.kind more).record).SlotHolds p ls slot := by
      refine (h.slots slot).frame ?_ h.within (ssstrTolower_length _ _).ge ?_
      · exact hslot.trans (congrFun (congrArg Owned.reqHeaders (parseHeaderLine_frame hp).owned) slot)
      · change (c.mapPar fun _ => ar).lowerName.req.ib.take _ = _
        rw [hib, ← hstart]
        refine ssstrTolower_take (Nat.le_add_right _ _) ?_
        omega
    exact hframe.other hnamed

/-- **A line of the block**, in the buffer: it is dealt with, and the next line is read. -/
theorem Conn.InBlock.line (h : c.InBlock p ls) (hp : parseHeaderLine c.req.ib c.req.par = (.ok, ar)) {l : HeaderLine}
    {ar₀ : ParseArchive} (hstart : ar₀.nextParsePos = blockEnd p ls) (har : ar = l.taken ar₀)
    (hpre : l.bytes <+: c.req.ib.drop ar₀.nextParsePos) :
    (handleHeader env (c.mapPar fun _ => ar)).2.InBlock p (ls ++ [l]) := by
  obtain ⟨⟨more, hkind⟩, -⟩ := kind_of_line (c := c.mapPar fun _ => ar) hpre har
  obtain ⟨-, hend⟩ := line_length hpre
  have hlen : (c.mapPar fun _ => ar).lowerName.req.ib.length = c.req.ib.length := ssstrTolower_length _ _
  rw [handleHeader_eq, hkind]
  have hpos : ((l.kind more).record ar).nextParsePos = blockEnd p (ls ++ [l]) := by
    rw [record_pos, har, blockEnd_concat, ← hstart]
    rfl
  have hstate : ((l.kind more).record ar).state = .hdBegin := by
    have hrecord : ((l.kind more).record ar).state = ar.state := by cases l.kind more <;> rfl
    exact hrecord.trans (parseHeaderLine_done_pos hp (.inl rfl)).2.2
  have hwithin : blockEnd p (ls ++ [l]) ≤ c.req.ib.length := by
    rw [blockEnd_concat, ← hstart]
    exact hend
  refine Conn.InBlock.finish ⟨?_, ?_, ⟨_, hstate, hpos, fun ys => .refl _⟩, ?_⟩ hstate hpos _
  · exact hlen.symm ▸ hwithin
  · change ((l.kind more).record ar).nextParsePos ≤ (c.mapPar fun _ => ar).lowerName.req.ib.length
    rw [hpos, hlen]
    exact hwithin
  · exact fun slot => h.slot_line hp hstart har hpre more slot

theorem handleHeader_drop (env : Env) {l : HeaderLine} {ar₀ : ParseArchive}
    (hpre : l.bytes <+: c.req.ib.drop ar₀.nextParsePos)
    (har : ar = l.taken ar₀) : (handleHeader env (c.mapPar fun _ => ar)).2.req.ib.drop (ar₀.nextParsePos + l.bytes.length) =
      c.req.ib.drop (ar₀.nextParsePos + l.bytes.length) := by
  obtain ⟨-, hdrop⟩ := kind_of_line (c := c.mapPar fun _ => ar) hpre har
  rw [handleHeader_eq]
  cases (c.mapPar fun _ => ar).lowerName.kind.answer with
  | none => exact hdrop
  | some code =>
    rw [finishHeader, assembleErr_ib]
    exact hdrop

end Block

/-! ### The block ahead -/

/-- Some lines of a block have been read, and the rest of it is ahead, in the buffer or in the batches still to come. -/
def Conn.Ahead (c : Conn) (p : ℕ) (ls : List HeaderLine) (tail future : List Byte) : Prop :=
  ∃ done todo, ls = done ++ todo ∧ c.InBlock p done ∧
    c.req.ib.drop (blockEnd p done) ++ future = todo.flatMap HeaderLine.bytes ++ tail

section Ahead

variable {env : Env} {c : Conn} {p : ℕ} {ls done todo : List HeaderLine} {ar : ParseArchive} {ws rest future : List Byte}

/-- The answer at the beginning of a line, when the rest of a block is in the buffer. -/
theorem parse_ahead {data : List Byte} (hst : ar.state = .hdBegin) (htodo : ∀ l ∈ todo, l.Grammar)
    (hws : ∀ b ∈ ws, isBlank b = true)
    (hahead : data.drop ar.nextParsePos = todo.flatMap HeaderLine.bytes ++ (emptyLine ws ++ rest)) :
    (todo = [] ∧ (parseHeaderLine data ar).1 = .crlfLine) ∨
      ∃ l todo', todo = l :: todo' ∧ parseHeaderLine data ar = (.ok, l.taken ar) := by
  cases todo with
  | nil =>
    have hpre : emptyLine ws <+: data.drop ar.nextParsePos := ⟨rest, by rw [hahead]; rfl⟩
    exact .inl ⟨rfl, (parseHeaderLine_of_emptyLine hst hws hpre).1⟩
  | cons l todo' =>
    have hpre : l.bytes <+: data.drop ar.nextParsePos := by
      rw [hahead, List.flatMap_cons, List.append_assoc]
      exact List.prefix_append _ _
    exact .inr ⟨l, todo', rfl, parseHeaderLine_of_line hst (htodo l (by simp)) hpre⟩

section Answer

variable {data : List Byte} {ar₀ ar' : ParseArchive} {st : Status}

theorem answer_ahead (hst : ar₀.state = .hdBegin) (hle : ar₀.nextParsePos ≤ data.length)
    (hsame : SameAnswer (parseHeaderLine data ar) (parseHeaderLine data ar₀)) (htodo : ∀ l ∈ todo, l.Grammar)
    (hws : ∀ b ∈ ws, isBlank b = true)
    (hahead : data.drop ar₀.nextParsePos ++ future = todo.flatMap HeaderLine.bytes ++ (emptyLine ws ++ rest))
    (hp : parseHeaderLine data ar = (st, ar')) (hne : st ≠ .again) :
    (todo = [] ∧ st = .crlfLine ∧ emptyLine ws <+: data.drop ar₀.nextParsePos) ∨
      ∃ l todo', todo = l :: todo' ∧ st = .ok ∧ ar' = l.taken ar₀ ∧ l.bytes <+: data.drop ar₀.nextParsePos := by
  rw [hp] at hsame
  -- the answer does not depend on what comes after the line
  have hlong : parseHeaderLine (data ++ future) ar₀ = parseHeaderLine data ar₀ :=
    parseHeaderLine_append future hle (hsame.1 ▸ hne)
  have hdrop : (data ++ future).drop ar₀.nextParsePos = data.drop ar₀.nextParsePos ++ future :=
    List.drop_append_of_le_length hle
  have hbuffer : data.drop ar₀.nextParsePos <+: data.drop ar₀.nextParsePos ++ future := List.prefix_append _ _
  rcases parse_ahead hst htodo hws (hdrop.trans hahead) with ⟨rfl, hcrlf⟩ | ⟨l, todo', rfl, hok⟩
  · have hempty : emptyLine ws <+: data.drop ar₀.nextParsePos ++ future := ⟨rest, by rw [hahead]; rfl⟩
    have hend := (parseHeaderLine_of_emptyLine hst hws (hdrop ▸ hempty)).2
    rw [hlong] at hcrlf hend
    obtain rfl : st = .crlfLine := hsame.1.trans hcrlf
    have hpos := (parseHeaderLine_done_pos (Prod.ext hcrlf rfl) (.inr rfl)).2.1
    rw [hend] at hpos
    refine .inl ⟨rfl, rfl, List.prefix_of_prefix_length_le hempty hbuffer ?_⟩
    rw [List.length_drop]
    omega
  · have hline : l.bytes <+: data.drop ar₀.nextParsePos ++ future := by
      rw [hahead, List.flatMap_cons, List.append_assoc]
      exact List.prefix_append _ _
    rw [hlong] at hok
    obtain rfl : st = .ok := by
      have hstatus := hsame.1
      rw [hok] at hstatus
      exact hstatus
    have hend : ar₀.nextParsePos + l.bytes.length ≤ data.length := (parseHeaderLine_done_pos hok (.inl rfl)).2.1
    have heq := hsame.eq nofun
    rw [hok] at heq
    refine .inr ⟨l, todo', rfl, rfl, (Prod.ext_iff.mp heq).2.symm, List.prefix_of_prefix_length_le hline hbuffer ?_⟩
    rw [List.length_drop]
    omega

theorem again_ahead (hst : ar₀.state = .hdBegin) (hsame : SameAnswer (parseHeaderLine data ar) (parseHeaderLine data ar₀))
    (htodo : ∀ l ∈ todo, l.Grammar) (hws : ∀ b ∈ ws, isBlank b = true)
    (hahead : data.drop ar₀.nextParsePos ++ future = todo.flatMap HeaderLine.bytes ++ (emptyLine ws ++ rest))
    (hp : parseHeaderLine data ar = (.again, ar')) : future ≠ [] := by
  rintro rfl
  rw [hp] at hsame
  rw [List.append_nil] at hahead
  have hagain : (parseHeaderLine data ar₀).1 = .again := hsame.1.symm
  rcases parse_ahead hst htodo hws hahead with ⟨-, hcrlf⟩ | ⟨l, todo', -, hok⟩
  · rw [hcrlf] at hagain
    cases hagain
  · rw [hok] at hagain
    cases hagain

end Answer

theorem Conn.InBlock.answer (h : c.InBlock p done) (htodo : ∀ l ∈ todo, l.Grammar) (hws : ∀ b ∈ ws, isBlank b = true)
    (hahead : c.req.ib.drop (blockEnd p done) ++ future = todo.flatMap HeaderLine.bytes ++ (emptyLine ws ++ rest))
    {st : Status} (hp : parseHeaderLine c.req.ib c.req.par = (st, ar)) (hne : st ≠ .again) :
    (todo = [] ∧ st = .crlfLine) ∨ ∃ l todo' ar₀, todo = l :: todo' ∧ st = .ok ∧ ar₀.nextParsePos = blockEnd p done ∧
      ar = l.taken ar₀ ∧ l.bytes <+: c.req.ib.drop ar₀.nextParsePos := by
  obtain ⟨ar₀, hst, hpos, hsame⟩ := h.same
  have hsame := hsame []
  rw [List.append_nil] at hsame
  rw [← hpos] at hahead
  rcases answer_ahead hst (hpos ▸ h.within) hsame htodo hws hahead hp hne with ⟨hnil, hcrlf, -⟩ |
    ⟨l, todo', rfl, hok, har, hpre⟩
  · exact .inl ⟨hnil, hcrlf⟩
  · exact .inr ⟨l, todo', ar₀, rfl, hok, hpos, har, hpre⟩

theorem Conn.InBlock.future_ne_nil (h : c.InBlock p done) (htodo : ∀ l ∈ todo, l.Grammar)
    (hws : ∀ b ∈ ws, isBlank b = true)
    (hahead : c.req.ib.drop (blockEnd p done) ++ future = todo.flatMap HeaderLine.bytes ++ (emptyLine ws ++ rest))
    (hp : parseHeaderLine c.req.ib c.req.par = (.again, ar)) : future ≠ [] := by
  obtain ⟨ar₀, hst, hpos, hsame⟩ := h.same
  have hsame := hsame []
  rw [List.append_nil] at hsame
  rw [← hpos] at hahead
  exact again_ahead hst hsame htodo hws hahead hp

/-- **One call of `request_handle_headers`** in a block: it waits for the rest of the block, or it has read it all. -/
theorem requestHandleHeaders_ahead (env : Env) (hls : ∀ l ∈ ls, l.Grammar) (hws : ∀ b ∈ ws, isBlank b = true)
    (h : c.Ahead p ls (emptyLine ws ++ rest) future) :
    ((requestHandleHeaders env c).1 = .again ∧ future ≠ [] ∧
        (requestHandleHeaders env c).2.Ahead p ls (emptyLine ws ++ rest) future) ∨
      ((requestHandleHeaders env c).1 = .ok ∧ (requestHandleHeaders env c).2.req.reqHandler = some .body ∧
        ∀ slot, (requestHandleHeaders env c).2.SlotHolds p ls slot) := by
  have hsub : ∀ {done todo}, ls = done ++ todo → ∀ l ∈ todo, l.Grammar := by
    rintro done todo rfl l hl
    exact hls l (List.mem_append_right _ hl)
  refine requestHandleHeaders_rule (fun c => c.Ahead p ls (emptyLine ws ++ rest) future)
    (fun res => (res.1 = .again ∧ future ≠ [] ∧ res.2.Ahead p ls (emptyLine ws ++ rest) future) ∨
      (res.1 = .ok ∧ res.2.req.reqHandler = some .body ∧ ∀ slot, res.2.SlotHolds p ls slot)) ?_ ?_ ?_ ?_ h
  · rintro c ar ⟨done, todo, hsplit, hc, hahead⟩ hp
    rcases hc.answer (hsub hsplit) hws hahead hp nofun with ⟨-, hst⟩ | ⟨l, todo', ar₀, rfl, -, hpos, har, hpre⟩
    · cases hst
    · refine ⟨done ++ [l], todo', by rw [hsplit]; simp, hc.line hp hpos har hpre, ?_⟩
      rw [blockEnd_concat, ← hpos, handleHeader_drop env hpre har, ← List.drop_drop, hpos]
      have hle : l.bytes.length ≤ (c.req.ib.drop (blockEnd p done)).length := hpos ▸ hpre.length_le
      have hrest := congrArg (List.drop l.bytes.length) hahead
      rw [List.drop_append_of_le_length hle, List.flatMap_cons, List.append_assoc, List.drop_left] at hrest
      exact hrest
  · rintro c ar ⟨done, todo, hsplit, hc, hahead⟩ hp
    exact .inl ⟨rfl, hc.future_ne_nil (hsub hsplit) hws hahead hp, done, todo, hsplit, hc.again hp, hahead⟩
  · rintro c ar ⟨done, todo, hsplit, hc, hahead⟩ hp
    rcases hc.answer (hsub hsplit) hws hahead hp nofun with ⟨-, hst⟩ | ⟨-, -, -, -, hst, -⟩ <;> cases hst
  · rintro c ar ⟨done, todo, hsplit, hc, hahead⟩ hp
    rcases hc.answer (hsub hsplit) hws hahead hp nofun with ⟨rfl, -⟩ | ⟨-, -, -, -, hst, -⟩
    · rw [List.append_nil] at hsplit
      subst hsplit
      have howned := (parseHeaderLine_frame hp).owned
      refine .inr ⟨rfl, rfl, fun slot => ?_⟩
      exact (hc.slots slot).frame (congrFun (congrArg Owned.reqHeaders howned) slot) hc.within le_rfl rfl
    · cases hst

end Ahead

/-! ### The calls for a block -/

/-- The calls of `request_handle_headers` for one block: on what is in the buffer and then, for as long as it answers
`AGAIN`, after each batch that `request_recv` reads. -/
def headersCalls (env : Env) (c : Conn) : List (List Byte) → Status × Conn
  | [] => requestHandleHeaders env c
  | batch :: batches =>
    match requestHandleHeaders env c with
    | (.again, c') => headersCalls env (c'.receive batch) batches
    | res => res

/-- The connection as `request_handle_request_line` hands it on to `request_handle_headers`. -/
structure Conn.HeadersNext (c : Conn) : Prop where
  state : c.req.par.state = .hdBegin
  within : c.req.par.nextParsePos ≤ c.req.ib.length
  received : c.req.ib.drop c.req.par.nextParsePos = c.ghost.received.drop c.req.par.nextParsePos
  unset : ∀ slot, c.req.par.reqHeaders slot = .init

section Calls

variable {env : Env} {c : Conn}

theorem Conn.AtLine.headersNext (h : c.AtLine) (hunset : ∀ slot, c.req.par.reqHeaders slot = .init) {st : Status} {c' : Conn}
    (hcall : requestHandleRequestLine env c = .ok (st, c')) (hnext : c'.req.reqHandler = some .headers) :
    c'.HeadersNext := by
  rcases requestHandleRequestLine_cases hcall with ⟨ar, -, hres⟩ | ⟨ar, code, -, -, hres, -⟩ |
    ⟨ar, b, p, hp, -, -, hb, hend, ⟨-, hres⟩ | ⟨file, -, hres⟩⟩ <;> obtain ⟨-, rfl⟩ := Prod.ext_iff.mp hres
  · exact absurd (h.handler.symm.trans hnext) nofun
  · rw [assembleErr_handler] at hnext
    cases hnext
  · rw [assembleErr_handler] at hnext
    cases hnext
  · obtain ⟨line, hline, hpre, har⟩ := h.ok hp
    have howned := parseRequestLine_owned hp
    set c₁ := (c.mapPar fun _ => ar).acceptVersion.closePath p with hc₁
    have hframe := openResource_frame c₁ file
    have hib : (openResource c₁ file).req.ib = c.req.ib.set p NUL := by
      rw [hframe.req]
      rfl
    have hpar : (openResource c₁ file).req.par = { c₁.req.par with url := (openResource c₁ file).req.par.url } := by
      rw [hframe.req]
    have hreceived : (openResource c₁ file).ghost.received = c.ghost.received := by
      rw [hframe.ghost]
      rfl
    have hpos : (openResource c₁ file).req.par.nextParsePos = line.bytes.length := by
      rw [hpar]
      exact congrArg ParseArchive.nextParsePos har
    refine ⟨?_, ?_, ?_, ?_⟩
    · rw [hpar]
      exact congrArg ParseArchive.state har
    · rw [hpos, hib, List.length_set]
      exact hpre.length_le
    · rw [har] at hb
      rw [hpos, hib, hreceived, List.drop_set_of_lt (pathEnd_lt hb hend hline), h.ib]
    · intro slot
      rw [hpar]
      exact (congrFun (congrArg Owned.reqHeaders howned.1) slot).trans (hunset slot)

theorem Conn.HeadersNext.inBlock (h : c.HeadersNext) : c.InBlock c.req.par.nextParsePos [] where
  within := h.within
  pos := h.within
  same := ⟨c.req.par, h.state, rfl, fun ys => .refl _⟩
  slots slot := .inr ⟨by simp, h.unset slot⟩

theorem Conn.Ahead.receive {p : ℕ} {ls : List HeaderLine} {tail batch future : List Byte}
    (h : c.Ahead p ls tail (batch ++ future)) : (c.receive batch).Ahead p ls tail future := by
  obtain ⟨done, todo, hsplit, hc, hahead⟩ := h
  refine ⟨done, todo, hsplit, hc.receive batch, ?_⟩
  rw [← hahead, ← List.append_assoc]
  exact congrArg (· ++ future) (List.drop_append_of_le_length hc.within)

theorem headersCalls_ahead {p : ℕ} {ls : List HeaderLine} (hls : ∀ l ∈ ls, l.Grammar) {ws rest : List Byte}
    (hws : ∀ b ∈ ws, isBlank b = true) {batches : List (List Byte)}
    (h : c.Ahead p ls (emptyLine ws ++ rest) batches.flatten) : ∃ c', headersCalls env c batches = (.ok, c') ∧
      c'.req.reqHandler = some .body ∧ ∀ slot, c'.SlotHolds p ls slot := by
  induction batches generalizing c with
  | nil =>
    rcases requestHandleHeaders_ahead env hls hws h with ⟨-, hne, -⟩ | ⟨hst, hhandler, hslots⟩
    · exact absurd rfl hne
    · exact ⟨_, Prod.ext hst rfl, hhandler, hslots⟩
  | cons batch batches ih =>
    unfold headersCalls
    rcases hres : requestHandleHeaders env c with ⟨st, c'⟩
    have hcall := requestHandleHeaders_ahead env hls hws h
    rw [hres] at hcall
    rcases hcall with ⟨rfl, -, hnext⟩ | ⟨rfl, hhandler, hslots⟩
    · exact ih hnext.receive
    · exact ⟨c', rfl, hhandler, hslots⟩

/-- **Header dispatch.**  After the request line, a block of header lines and an empty line is read to its end, in whatever
batches it arrives, and each member of `req_headers` then holds the value of the last line of its name, byte for byte, and
nothing if there is no such line. -/
theorem headersCalls_slots (env : Env) (hc : c.HeadersNext) {ls : List HeaderLine} (hls : ∀ l ∈ ls, l.Grammar)
    {ws rest : List Byte} (hws : ∀ b ∈ ws, isBlank b = true) {batches : List (List Byte)}
    (hblock : c.ghost.received.drop c.req.par.nextParsePos ++ batches.flatten =
      ls.flatMap HeaderLine.bytes ++ (emptyLine ws ++ rest)) :
    ∃ c', headersCalls env c batches = (.ok, c') ∧ c'.req.reqHandler = some .body ∧
      ∀ slot, c'.SlotHolds c.req.par.nextParsePos ls slot := by
  have hahead : c.Ahead c.req.par.nextParsePos ls (emptyLine ws ++ rest) batches.flatten := by
    refine ⟨[], ls, rfl, hc.inBlock, ?_⟩
    rw [← hblock, ← hc.received]
    rfl
  exact headersCalls_ahead hls hws hahead

/-- Three lines in three batches. -/
def hostLines : List HeaderLine := [⟨[], str "Host", [SP], str "a"⟩, ⟨[], str "X-Y", [SP], str "b"⟩,
    ⟨[], str "hOST", [], str "cc"⟩]

theorem headersCalls_slots_host : ∃ env c₀ c c', requestHandleRequestLine env c₀ = .ok (.ok, c) ∧
    c₀.req.ib = str "GET / HTTP/1.1\r\nHost: a\r\nX-" ∧
    headersCalls env c [str "Y: b\r\nhOST:cc\r\n\r", str "\n"] = (.ok, c') ∧
    (c'.req.par.reqHeaders .host).bytes c'.req.ib = str "cc" := by
  let env : Env := ⟨fun _ => some (.regular []), [], ⟨[], [], []⟩⟩
  let c₀ : Conn := Conn.receive ⟨.fresh, true, false, 4, ⟨[], [], false, 0, [], [], []⟩⟩
    (str "GET / HTTP/1.1\r\nHost: a\r\nX-")
  have hcall : (requestHandleRequestLine env c₀).toOption.map
      (fun res => (res.1, res.2.req.reqHandler, res.2.ghost.received.drop res.2.req.par.nextParsePos)) =
        some (.ok, some .headers, str "Host: a\r\nX-") := by
    decide +kernel
  obtain ⟨⟨st, c⟩, hres, hc⟩ := Option.map_eq_some_iff.mp hcall
  obtain ⟨rfl, hhandler, hreceived⟩ : st = .ok ∧ c.req.reqHandler = some .headers ∧
      c.ghost.received.drop c.req.par.nextParsePos = str "Host: a\r\nX-" := by
    simpa using hc
  have hline : requestHandleRequestLine env c₀ = .ok (.ok, c) := by
    cases hr : requestHandleRequestLine env c₀ with
    | error e =>
      rw [hr] at hres
      cases hres
    | ok res =>
      rw [hr] at hres
      exact congrArg Except.ok (Option.some.inj hres)
  have hatLine : c₀.AtLine := (fresh_atLine rfl rfl).receive _
  have hgrammar : ∀ l ∈ hostLines, l.Grammar := by
    intro l hl
    rcases List.mem_cons.mp hl with rfl | hl
    · exact ⟨nofun, by decide +kernel, by decide +kernel, 0x61, [], by decide +kernel, by decide, by decide +kernel⟩
    rcases List.mem_cons.mp hl with rfl | hl
    · exact ⟨nofun, by decide +kernel, by decide +kernel, 0x62, [], by decide +kernel, by decide, by decide +kernel⟩
    rcases List.mem_singleton.mp hl with rfl
    exact ⟨nofun, by decide +kernel, nofun, 0x63, str "c", by decide +kernel, by decide, by decide +kernel⟩
  have hblock : c.ghost.received.drop c.req.par.nextParsePos ++ [str "Y: b\r\nhOST:cc\r\n\r", str "\n"].flatten =
      hostLines.flatMap HeaderLine.bytes ++ (emptyLine [] ++ []) := by
    rw [hreceived]
    decide +kernel
  have hblanks : ∀ b ∈ ([] : List Byte), isBlank b = true := nofun
  obtain ⟨c', hcalls, -, hslots⟩ :=
    headersCalls_slots env (hatLine.headersNext (fun _ => rfl) hline hhandler) hgrammar hblanks hblock
  exact ⟨env, c₀, c, c', hline, rfl, hcalls, (hslots .host).bytes (l := ⟨[], str "hOST", [], str "cc"⟩) rfl⟩

end Calls

end Lotos
