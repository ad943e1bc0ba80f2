import Lotos.Parser.RequestLine

/-!
# The parts of a URL (`parse_url`)

`parse_url` runs one byte past the URL, up to the blank that ends it.  Up to the first `?` the bytes are the path, and what
follows is the query; a second loop looks backwards, from the end of the path, for the last `.` of the last component.

`parseUrl_path` and `parseUrl_query` say what is recorded, without and with a `?`; `extensionPos_dot` and
`extensionPos_none` what the second loop finds.
-/

namespace Lotos

/-! ### The first loop -/

section First

variable {data : List Byte} {b : ℕ} {path query : List Byte} {ar : ParseArchive}

/-- A byte of a path: neither the blank that `parse_url` looks for nor `?`. -/
def isPathChar (c : Byte) : Bool := !(c == SP || c == QUESTION)

theorem isPathChar_iff {c : Byte} : isPathChar c = true ↔ c ≠ SP ∧ c ≠ QUESTION := by
  simp [isPathChar]

theorem question_not_mem {v : List Byte} (h : QUESTION ∉ v) : QUESTION ∉ SLASH :: v := by
  rw [List.mem_cons, not_or]
  exact ⟨by decide, h⟩

theorem pathChars_of_not_mem {v : List Byte} (hsp : ∀ c ∈ v, c ≠ SP) (h : QUESTION ∉ v) : ∀ c ∈ v, isPathChar c = true := by
  intro c hc
  exact isPathChar_iff.mpr ⟨hsp c hc, fun heq => h (heq ▸ hc)⟩

theorem urlRun_path (ys : List Byte) (s : UrlScan) (hst : s.currState = .urlBegin)
    (hpath : ∀ c ∈ path, isPathChar c = true) :
    Scan.run urlStep b (SLASH :: (path ++ ys)) s =
      Scan.run urlStep (b + 1 + path.length) ys { s with currState := .urlAbsPath } := by
  rw [Scan.run_cons_next (t := { s with currState := .urlAbsPath }) (by simp [urlStep, hst])]
  refine Scan.run_append_skip ?_
  intro q c hc
  obtain ⟨hsp, hquestion⟩ := isPathChar_iff.mp (hpath c hc)
  simp [urlStep, hsp, hquestion]

theorem urlRun_query (p : ℕ) (ys : List Byte) (s : UrlScan) (hst : s.currState = .urlQuery)
    (hquery : ∀ c ∈ query, c ≠ SP) :
    Scan.run urlStep p (query ++ ys) s = Scan.run urlStep (p + query.length) ys s := by
  refine Scan.run_append_skip ?_
  intro q c hc
  simp [urlStep, hst, hquery c hc]

/-- The archive with the span of the URL. -/
def ParseArchive.withUrl (ar : ParseArchive) (b e : ℕ) : ParseArchive :=
  { ar with requestUrlString := ⟨.buf b, (e : ℤ) - b⟩ }

/-- The archive with the two spans of a path and a query. -/
def ParseArchive.withPath (ar : ParseArchive) (absPath queryString : Ssstr) : ParseArchive :=
  { ar with url := { ar.url with absPath := absPath, queryString := queryString } }

theorem urlScan_path {e : ℕ} (hslice : slice data b (e + 1) = SLASH :: (path ++ [SP]))
    (hpath : ∀ c ∈ path, isPathChar c = true) (he : e = b + 1 + path.length) :
    urlScan data b e ar = .again ⟨b, .urlEnd,
      (ar.withUrl b e).withPath ⟨.buf b, path.length + 1⟩ ⟨.buf e, 0⟩⟩ := by
  rw [urlScan, hslice, urlRun_path _ _ rfl hpath, ← he]
  have hlen : (e : ℤ) - b = path.length + 1 := by omega
  simp [Scan.run, urlStep, ParseArchive.withUrl, ParseArchive.withPath, hlen]

/-- The path ends at the first `?`, whatever follows. -/
theorem urlScan_question {e : ℕ} {ys : List Byte} (hslice : slice data b (e + 1) = SLASH :: (path ++ QUESTION :: ys))
    (hpath : ∀ c ∈ path, isPathChar c = true) :
    urlScan data b e ar = Scan.run urlStep (b + 1 + path.length + 1) ys ⟨b + 1 + path.length + 1, .urlQuery,
      (ar.withUrl b e).withPath ⟨.buf b, path.length + 1⟩ ar.url.queryString⟩ := by
  rw [urlScan, hslice, urlRun_path _ _ rfl hpath]
  have hlen : ((b + 1 + path.length : ℕ) : ℤ) - b = path.length + 1 := by omega
  rw [Scan.run_cons_next (t := ⟨b + 1 + path.length + 1, .urlQuery,
    (ar.withUrl b e).withPath ⟨.buf b, path.length + 1⟩ ar.url.queryString⟩)]
  simp only [urlStep, if_neg (show QUESTION ≠ SP by decide), if_true, hlen]
  rfl

theorem urlScan_query {e : ℕ} (hslice : slice data b (e + 1) = SLASH :: (path ++ QUESTION :: (query ++ [SP])))
    (hpath : ∀ c ∈ path, isPathChar c = true) (hquery : ∀ c ∈ query, c ≠ SP) :
    urlScan data b e ar = .again ⟨b + 1 + path.length + 1, .urlEnd,
      (ar.withUrl b e).withPath ⟨.buf b, path.length + 1⟩ ⟨.buf (b + 1 + path.length + 1), query.length⟩⟩ := by
  rw [urlScan_question hslice hpath, urlRun_query _ _ _ rfl hquery]
  have hlen : ((b + 1 + path.length + 1 + query.length : ℕ) : ℤ) - (b + 1 + path.length + 1 : ℕ) = query.length := by
    omega
  simp only [Scan.run, urlStep, if_true, hlen]
  rfl

end First

/-! ### Where `abs_path` points to -/

section AbsPath

variable {data : List Byte} {b e : ℕ} {ar : ParseArchive}

theorem urlRun_absPath_null (p : ℕ) (xs : List Byte) (s : UrlScan) (hxs : ∀ c ∈ xs, c ≠ SP ∧ c ≠ QUESTION)
    (hst : s.currState = .urlBegin ∨ s.currState = .urlAbsPath) (hs : s.ar.url.absPath.str = .null) :
    (Scan.run urlStep p xs s).state.ar.url.absPath.str = .null := by
  induction xs generalizing p s with
  | nil => exact hs
  | cons c cs ih =>
    have hc := hxs c (by simp)
    have hcs : ∀ c ∈ cs, c ≠ SP ∧ c ≠ QUESTION := fun c hc => hxs c (List.mem_cons_of_mem _ hc)
    rcases hst with hst | hst
    · by_cases hslash : c = SLASH
      · rw [Scan.run_cons_next (t := { s with currState := .urlAbsPath }) (by simp [urlStep, hst, hslash])]
        exact ih _ _ hcs (.inr rfl) hs
      · rw [Scan.run_cons_halt (r := .invalid) (t := s) (by simp [urlStep, hst, hslash])]
        exact hs
    · rw [Scan.run_cons_next (t := s) (by simp [urlStep, hst, hc.1, hc.2])]
      exact ih _ _ hcs (.inr hst) hs

theorem urlScan_absPath (data : List Byte) (b e : ℕ) (har : ar.url.absPath.str = .null) :
    (urlScan data b e ar).state.ar.url.absPath.str = .null ∨ (urlScan data b e ar).state.ar.url.absPath.str = .buf b := by
  let P : UrlScan → Prop := fun s =>
    (s.ar.url.absPath.str = .null ∨ s.ar.url.absPath.str = .buf b) ∧
      (s.currState = .urlBegin ∨ s.currState = .urlAbsPath → s.beginPos = b)
  suffices h : P (urlScan data b e ar).state from h.1
  refine Scan.run_inv P ?_ ?_ ⟨.inl har, fun _ => rfl⟩
  · rintro q c s s' - - ⟨hs, hb⟩ h
    cases hst : s.currState <;> simp only [urlStep, hst] at h
    case urlBegin =>
      split_ifs at h
      cases h
      exact ⟨hs, fun _ => hb (.inl hst)⟩
    case urlAbsPath =>
      have hb := hb (.inr hst)
      split_ifs at h <;> cases h
      · exact ⟨.inr (congrArg Ptr.buf hb), by simp⟩
      · exact ⟨.inr (congrArg Ptr.buf hb), by simp⟩
      · exact ⟨hs, fun _ => hb⟩
    case urlQuery =>
      split_ifs at h <;> cases h
      · exact ⟨hs, by simp⟩
      · exact ⟨hs, hb⟩
    all_goals cases h <;> exact ⟨hs, hb⟩
  · rintro q c s r s' - - hs h
    rw [urlStep] at h
    split at h <;> (try split_ifs at h) <;> cases h <;> exact hs

theorem parseExtension_frame (data : List Byte) (ar : ParseArchive) : parseExtension data ar = { ar with
    url := { ar.url with mimeExtension := (parseExtension data ar).url.mimeExtension } } := by
  unfold parseExtension
  repeat' split
  all_goals rfl

theorem parseExtension_absPath (data : List Byte) (ar : ParseArchive) :
    (parseExtension data ar).url.absPath = ar.url.absPath := by rw [parseExtension_frame]

theorem extensionPos_le {n p : ℕ} (h : extensionPos data b n = some p) : p ≤ b + n := by
  induction n with
  | zero => cases h
  | succ n ih =>
    simp only [extensionPos] at h
    split_ifs at h
    · cases h
      exact le_rfl
    · have := ih h
      omega

theorem parseUrl_mimeExtension (har : ar.url.absPath.str = .null) (hmime : ar.url.mimeExtension.str = .null) :
    (parseUrl data b e ar).2.url.mimeExtension.InBounds (e + 1) := by
  have hnull : (urlScan data b e ar).state.ar.url.mimeExtension.str = .null := by
    refine Scan.run_state_inv (fun s : UrlScan => s.ar.url.mimeExtension.str = .null) ?_ hmime
    intro q c s hs
    rw [urlStep]
    split <;> (try split_ifs) <;> exact hs
  have hscan : ∀ s : UrlScan, (urlScan data b e ar).state = s →
      (parseExtension data s.ar).url.mimeExtension.InBounds (e + 1) := by
    rintro s rfl
    unfold parseExtension
    split
    · rename_i b' hb'
      have hle := urlScan_absPath_le data b har hb'
      split
      · rename_i p hp
        have := extensionPos_le hp
        rintro _ ⟨⟩
        simp only
        omega
      · intro q hq
        rw [hnull] at hq
        cases hq
    · intro q hq
      rw [hnull] at hq
      cases hq
  unfold parseUrl
  rcases hres : urlScan data b e ar with s | ⟨_ | _, q, s⟩
  · exact hscan s (by rw [hres]; rfl)
  · exact hscan s (by rw [hres]; rfl)
  · intro q hq
    rw [hres] at hnull
    cases hnull.symm.trans hq

theorem parseUrl_absPath_eq (data : List Byte) (b e : ℕ) (ar : ParseArchive) :
    (parseUrl data b e ar).2.url.absPath = (urlScan data b e ar).state.ar.url.absPath := by
  unfold parseUrl
  rcases urlScan data b e ar with s | ⟨_ | _, q, s⟩
  · exact parseExtension_absPath data s.ar
  · exact parseExtension_absPath data s.ar
  · rfl

/-- If `parse_url` sets `abs_path`, then to its own first byte, and there is a space or a question mark in what it reads. -/
theorem parseUrl_absPath (ar : ParseArchive) (har : ar.url.absPath.str = .null) {b' : ℕ}
    (h : (parseUrl data b e ar).2.url.absPath.str = .buf b') :
    b' = b ∧ ∃ c ∈ slice data b (e + 1), c = SP ∨ c = QUESTION := by
  rw [parseUrl_absPath_eq] at h
  refine ⟨?_, ?_⟩
  · rcases urlScan_absPath data b e har with hnull | hbuf
    · rw [hnull] at h
      cases h
    · rw [hbuf] at h
      cases h
      rfl
  · by_contra hne
    have hnull := urlRun_absPath_null b (slice data b (e + 1))
      ⟨b, .urlBegin, { ar with requestUrlString := ⟨.buf b, (e : ℤ) - b⟩ }⟩
      (fun c hc => ⟨fun h => hne ⟨c, hc, .inl h⟩, fun h => hne ⟨c, hc, .inr h⟩⟩) (.inl rfl) har
    rw [urlScan, hnull] at h
    cases h

end AbsPath

/-! ### The second loop -/

section Second

variable {data : List Byte} {b : ℕ}

theorem extensionPos_skip {n k : ℕ} (hk : k ≤ n)
    (h : ∀ i, k < i → i ≤ n → data.getD (b + i) NUL ≠ DOT ∧ data.getD (b + i) NUL ≠ SLASH) :
    extensionPos data b n = extensionPos data b k := by
  induction n with
  | zero => rw [Nat.le_zero.mp hk]
  | succ n ih =>
    rcases Nat.lt_or_ge n k with hlt | hle
    · rw [show k = n + 1 by omega]
    · obtain ⟨hdot, hslash⟩ := h (n + 1) (by omega) le_rfl
      rw [extensionPos]
      simp only [hdot, hslash, if_false]
      exact ih hle fun i hi hin => h i hi (by omega)

theorem getD_drop {data xs : List Byte} {b : ℕ} (h : data.drop b = xs) (i : ℕ) : data.getD (b + i) NUL = xs.getD i NUL := by
  rw [← h, List.getD_eq_getElem?_getD, List.getD_eq_getElem?_getD, List.getElem?_drop]

/-- The second loop comes down to the byte `x`, if it finds neither `.` nor `/` after it. -/
theorem extensionPos_back {front back rest : List Byte} {x t : Byte}
    (hdrop : data.drop b = front ++ x :: (back ++ t :: rest)) (hback : ∀ c ∈ back, c ≠ DOT ∧ c ≠ SLASH)
    (ht : t ≠ DOT ∧ t ≠ SLASH) :
    extensionPos data b (front.length + 1 + back.length) = extensionPos data b front.length ∧
      data.getD (b + front.length) NUL = x := by
  refine ⟨extensionPos_skip (by omega) ?_, ?_⟩
  · intro i hi hin
    rw [getD_drop hdrop, List.getD_append_right _ _ _ _ hi.le, show i - front.length = (i - front.length - 1) + 1 by omega,
      List.getD_cons_succ]
    rcases Nat.lt_or_ge (i - front.length - 1) back.length with hlt | hge
    · rw [List.getD_append _ _ _ _ hlt, List.getD_eq_getElem _ _ hlt]
      exact hback _ (List.getElem_mem hlt)
    · rw [show i - front.length - 1 = back.length by omega, List.getD_append_right _ _ _ _ le_rfl, Nat.sub_self]
      exact ht
  · rw [getD_drop hdrop, List.getD_append_right _ _ _ _ le_rfl, Nat.sub_self]
    rfl

section Path

variable {path rest : List Byte} {t : Byte} (hdrop : data.drop b = path ++ t :: rest) (ht : t ≠ DOT ∧ t ≠ SLASH)
include hdrop ht

/-- The last `.` of the path comes after its last `/`. -/
theorem extensionPos_dot {stem ext : List Byte} (hpath : path = stem ++ DOT :: ext) (hstem : stem ≠ [])
    (hext : ∀ c ∈ ext, c ≠ DOT ∧ c ≠ SLASH) : extensionPos data b path.length = some (b + stem.length) := by
  have hsplit : data.drop b = stem ++ DOT :: (ext ++ t :: rest) := by
    rw [hdrop, hpath]
    simp
  obtain ⟨hpos, hch⟩ := extensionPos_back hsplit hext ht
  obtain ⟨n, hn⟩ := Nat.exists_eq_succ_of_ne_zero (fun h0 => hstem (List.length_eq_zero_iff.mp h0))
  rw [show path.length = stem.length + 1 + ext.length by rw [hpath]; simp; omega, hpos]
  rw [hn] at hch ⊢
  rw [extensionPos]
  simp only [hch, if_true]

theorem extensionPos_slash {stem tail : List Byte} (hpath : path = stem ++ SLASH :: tail)
    (htail : ∀ c ∈ tail, c ≠ DOT ∧ c ≠ SLASH) : extensionPos data b path.length = none := by
  have hsplit : data.drop b = stem ++ SLASH :: (tail ++ t :: rest) := by
    rw [hdrop, hpath]
    simp
  obtain ⟨hpos, hch⟩ := extensionPos_back hsplit htail ht
  rw [show path.length = stem.length + 1 + tail.length by rw [hpath]; simp; omega, hpos]
  cases hn : stem.length with
  | zero => rfl
  | succ n =>
    rw [hn] at hch
    rw [extensionPos]
    simp only [hch, if_neg (show SLASH ≠ DOT by decide), if_true]

end Path

theorem exists_last_of_mem {c : Byte} {xs : List Byte} (h : c ∈ xs) : ∃ front back, xs = front ++ c :: back ∧ c ∉ back := by
  obtain ⟨as, bs, hsplit, hnot⟩ := List.eq_append_cons_of_mem (List.mem_reverse.mpr h)
  refine ⟨bs.reverse, as.reverse, ?_, ?_⟩
  · rw [← List.reverse_reverse xs, hsplit]
    simp
  · rwa [List.mem_reverse]

theorem extensionPos_none {u rest : List Byte} {t : Byte} (hdrop : data.drop b = SLASH :: u ++ t :: rest)
    (ht : t ≠ DOT ∧ t ≠ SLASH) (h : ∀ stem ext, SLASH :: u = stem ++ DOT :: ext → DOT ∉ ext → SLASH ∈ ext) :
    extensionPos data b (SLASH :: u).length = none := by
  obtain ⟨stem, tail, hpath, htail⟩ := exists_last_of_mem (List.mem_cons_self (a := SLASH) (l := u))
  refine extensionPos_slash hdrop ht hpath ?_
  intro c hc
  refine ⟨?_, fun heq => htail (heq ▸ hc)⟩
  rintro rfl
  obtain ⟨front, ext, rfl, hext⟩ := exists_last_of_mem hc
  have hslash := h (stem ++ SLASH :: front) ext (by rw [hpath]; simp) hext
  exact htail (by simp [hslash])

/-- The positions that the second loop reads, from `begin + n` down. -/
def extensionReads (data : List Byte) (begin : ℕ) : ℕ → List ℕ
  | 0 => []
  | n + 1 =>
    let ch := data.getD (begin + (n + 1)) NUL
    (begin + (n + 1)) :: if ch = DOT then [] else if ch = SLASH then [] else extensionReads data begin n

theorem extensionReads_bounds {n q : ℕ} (h : q ∈ extensionReads data b n) : b < q ∧ q ≤ b + n := by
  induction n with
  | zero => cases h
  | succ n ih =>
    rw [extensionReads] at h
    rcases List.mem_cons.mp h with rfl | h
    · omega
    · split_ifs at h
      · cases h
      · cases h
      · have hq := ih h
        omega

end Second

/-! ### The parts -/

/-- The part of a URL before its first `?`. -/
def urlPath (u : List Byte) : List Byte := u.takeWhile (· != QUESTION)

/-- The part of a URL after its first `?`. -/
def urlQuery (u : List Byte) : List Byte := (u.dropWhile (· != QUESTION)).drop 1

theorem urlPath_of_not_mem {u : List Byte} (h : QUESTION ∉ u) : urlPath u = u ∧ urlQuery u = [] := by
  have hne : ∀ c ∈ u, (c != QUESTION) = true := by
    intro c hc
    rw [bne_iff_ne]
    exact fun heq => h (heq ▸ hc)
  rw [urlPath, urlQuery, List.takeWhile_eq_self_iff.mpr hne, List.dropWhile_eq_nil_iff.mpr hne]
  exact ⟨rfl, rfl⟩

theorem urlPath_of_append {path : List Byte} (query : List Byte) (h : QUESTION ∉ path) :
    urlPath (path ++ QUESTION :: query) = path ∧ urlQuery (path ++ QUESTION :: query) = query := by
  have hne : ∀ c ∈ path, (c != QUESTION) = true := by
    intro c hc
    rw [bne_iff_ne]
    exact fun heq => h (heq ▸ hc)
  rw [urlPath, urlQuery, List.takeWhile_append_of_pos hne, List.dropWhile_append_of_pos hne]
  simp

/-- The positions of the bytes that the two loops of `parse_url` read. -/
def parseUrlReads (data : List Byte) (b e : ℕ) (ar : ParseArchive) : List ℕ :=
  Scan.reads urlStep b (slice data b (e + 1)) ⟨b, .urlBegin, ar.withUrl b e⟩ ++
    match (urlScan data b e ar).state.ar.url.absPath.str with
    | .buf b' => extensionReads data b' (urlScan data b e ar).state.ar.url.absPath.len.toNat
    | _ => []

section Parts

variable {u : List Byte} {ar : ParseArchive}

theorem urlScan_parts (pre post : List Byte) (ar : ParseArchive) (hstart : u.head? = some SLASH)
    (hchars : ∀ c ∈ u, isUrlChar c = true) :
    let data := pre ++ (u ++ SP :: post)
    ∃ s query, urlScan data pre.length (pre.length + u.length) ar = .again s ∧
      s.ar = (ar.withUrl pre.length (pre.length + u.length)).withPath ⟨.buf pre.length, (urlPath u).length⟩ query ∧
      query.bytes data = urlQuery u ∧
      ∃ t rest, data.drop pre.length = urlPath u ++ t :: rest ∧ t ≠ DOT ∧ t ≠ SLASH ∧
        (u = urlPath u ∨ u = urlPath u ++ QUESTION :: urlQuery u) := by
  intro data
  obtain ⟨v, rfl⟩ : ∃ v, u = SLASH :: v := by
    cases u with
    | nil => cases hstart
    | cons c v => exact ⟨v, by rw [Option.some.inj hstart]⟩
  have hsp : ∀ c ∈ v, c ≠ SP := by
    rintro c hc rfl
    exact absurd (hchars SP (List.mem_cons_of_mem _ hc)) (by decide)
  have hdrop : data.drop pre.length = SLASH :: v ++ SP :: post := by simp [data]
  have hslice : slice data pre.length (pre.length + (SLASH :: v).length + 1) = SLASH :: (v ++ [SP]) :=
    slice_eq_of_append pre post (by simp [data]) rfl (by simp; omega)
  by_cases hq : QUESTION ∈ v
  · obtain ⟨path, query, rfl, hpath⟩ := List.eq_append_cons_of_mem hq
    have hquestion := question_not_mem hpath
    have hslice : slice data pre.length (pre.length + (SLASH :: (path ++ QUESTION :: query)).length + 1) =
        SLASH :: (path ++ QUESTION :: (query ++ [SP])) := by
      rw [hslice]
      simp
    obtain ⟨hp, hqs⟩ := urlPath_of_append query hquestion
    rw [List.cons_append] at hp hqs
    rw [hp, hqs]
    refine ⟨_, ⟨.buf (pre.length + 1 + path.length + 1), query.length⟩, urlScan_query hslice ?_ ?_, rfl, ?_,
      QUESTION, query ++ SP :: post, ?_, by decide, by decide, .inr rfl⟩
    · exact pathChars_of_not_mem (fun c hc => hsp c (by simp [hc])) hpath
    · exact fun c hc => hsp c (by simp [hc])
    · rw [Ssstr.bytes, Int.toNat_natCast]
      refine slice_eq_of_append (pre ++ (SLASH :: path ++ [QUESTION])) (SP :: post) (by simp [data]) ?_ rfl
      simp only [List.length_append, List.length_cons, List.length_nil]
      omega
    · rw [hdrop]
      simp
  · have hquestion := question_not_mem hq
    obtain ⟨hp, hqs⟩ := urlPath_of_not_mem hquestion
    rw [hp, hqs]
    refine ⟨_, ⟨.buf (pre.length + (SLASH :: v).length), 0⟩, urlScan_path hslice ?_ (by simp; omega), rfl, ?_, SP, post,
      hdrop, by decide, by decide, .inl rfl⟩
    · exact pathChars_of_not_mem hsp hq
    · simp [Ssstr.bytes, slice]

/-- `parse_extension:`, for an `abs_path` that begins at `b`. -/
theorem parseExtension_of_path {data : List Byte} {b n : ℕ} (hpath : ar.url.absPath = ⟨.buf b, n⟩) :
    parseExtension data ar = match extensionPos data b n with
      | some p => { ar with url := { ar.url with mimeExtension := ⟨.buf (p + 1), (b : ℤ) + n - p - 1⟩ } }
      | none => ar := by
  rw [parseExtension, hpath]
  rfl

theorem parseExtension_dot {data path stem ext rest : List Byte} {b : ℕ} {t : Byte}
    (hpath : ar.url.absPath = ⟨.buf b, path.length⟩) (hdrop : data.drop b = path ++ t :: rest) (ht : t ≠ DOT ∧ t ≠ SLASH)
    (hstem : path = stem ++ DOT :: ext) (hne : stem ≠ []) (hext : ∀ c ∈ ext, c ≠ DOT ∧ c ≠ SLASH) :
    (parseExtension data ar).url.mimeExtension = ⟨.buf (b + stem.length + 1), ext.length⟩ ∧
      (parseExtension data ar).url.mimeExtension.bytes data = ext := by
  have hlen : ((b : ℤ) + path.length - (b + stem.length : ℕ) - 1) = ext.length := by
    rw [hstem]
    simp only [List.length_append, List.length_cons]
    omega
  have hspan : (parseExtension data ar).url.mimeExtension = ⟨.buf (b + stem.length + 1), ext.length⟩ := by
    rw [parseExtension_of_path hpath, extensionPos_dot hdrop ht hstem hne hext]
    exact congrArg (Ssstr.mk _) hlen
  rw [hspan]
  refine ⟨rfl, ?_⟩
  have hafter : data.drop (b + stem.length + 1) = ext ++ t :: rest := by
    rw [Nat.add_assoc, ← List.drop_drop, hdrop, hstem]
    simp
  change slice data (b + stem.length + 1) (b + stem.length + 1 + ext.length) = ext
  rw [slice, hafter, Nat.add_sub_cancel_left, List.take_left]

end Parts

/-- **The parts of a URL.**  For a URL that begins with `/`, has no blank and no end of line in it and is ended by a space,
`parse_url` answers `OK` and records the URL, the part before its first `?`, the part after it, and the bytes after the
last `.` of the path if no `/` comes after them; `mime_extension` stays unset otherwise.  Its two loops read the bytes of
the URL and the space after it, and no others. -/
theorem parseUrl_decomposition (pre u post : List Byte) (ar : ParseArchive) (hstart : u.head? = some SLASH)
    (hchars : ∀ c ∈ u, isUrlChar c = true) (hunset : ar.url.mimeExtension = .init) :
    let data := pre ++ (u ++ SP :: post)
    let b := pre.length
    let e := b + u.length
    ∃ ar', parseUrl data b e ar = (.ok, ar') ∧
      ar'.requestUrlString.bytes data = u ∧
      ar'.url.absPath.bytes data = urlPath u ∧
      ar'.url.queryString.bytes data = urlQuery u ∧
      (u = urlPath u ∨ u = urlPath u ++ QUESTION :: urlQuery u) ∧
      (∀ stem ext, urlPath u = stem ++ DOT :: ext → DOT ∉ ext → SLASH ∉ ext →
        ar'.url.mimeExtension = ⟨.buf (b + stem.length + 1), ext.length⟩ ∧ ar'.url.mimeExtension.bytes data = ext) ∧
      ((∀ stem ext, urlPath u = stem ++ DOT :: ext → DOT ∉ ext → SLASH ∈ ext) → ar'.url.mimeExtension = .init) ∧
      ∀ q ∈ parseUrlReads data b e ar, b ≤ q ∧ q ≤ e := by
  intro data b e
  obtain ⟨s, query, hscan, hs, hquery, t, rest, hdrop, hdot, hslash, hsplit⟩ := urlScan_parts pre post ar hstart hchars
  have hpath : s.ar.url.absPath = ⟨.buf b, (urlPath u).length⟩ := by
    rw [hs]
    rfl
  have hle : (urlPath u).length ≤ u.length := (List.takeWhile_sublist _).length_le
  obtain ⟨v, hv⟩ : ∃ v, urlPath u = SLASH :: v := by
    cases u with
    | nil => cases hstart
    | cons c v =>
      rw [Option.some.inj hstart]
      exact ⟨v.takeWhile (· != QUESTION), rfl⟩
  have hext : parseExtension data s.ar = _ := parseExtension_of_path hpath
  refine ⟨parseExtension data s.ar, ?_, ?_, ?_, ?_, hsplit, ?_, ?_, ?_⟩
  · rw [parseUrl, hscan]
  · rw [parseExtension_frame, hs]
    change slice data b (b + ((b + u.length : ℕ) - (b : ℤ)).toNat) = u
    exact slice_eq_of_append pre (SP :: post) rfl rfl (by omega)
  · rw [parseExtension_frame, hs]
    change slice data b (b + (urlPath u).length) = urlPath u
    rw [slice, hdrop]
    simp
  · rw [parseExtension_frame, hs]
    exact hquery
  · intro stem ext hstem hext' hslash'
    have hne : stem ≠ [] := by
      rintro rfl
      rw [hv] at hstem
      exact absurd (List.cons.inj hstem).1 (by decide)
    exact parseExtension_dot hpath hdrop ⟨hdot, hslash⟩ hstem hne
      (fun c hc => ⟨fun h => hext' (h ▸ hc), fun h => hslash' (h ▸ hc)⟩)
  · intro hnone
    rw [hv] at hdrop hnone
    have hnot := extensionPos_none hdrop ⟨hdot, hslash⟩ hnone
    rw [← hv] at hnot
    rw [hext, hnot, hs]
    exact hunset
  · intro q hq
    rw [parseUrlReads, hscan] at hq
    rcases List.mem_append.mp hq with hq | hq
    · have hbounds := Scan.reads_bounds hq
      simp only [slice, List.length_take] at hbounds
      omega
    · simp only [Scan.Result.state, hpath] at hq
      have hbounds := extensionReads_bounds hq
      rw [Int.toNat_natCast] at hbounds
      omega

/-- `/a.b/c.html?x.y` in a request line. -/
theorem parseUrl_decomposition_html :
    ∃ ar', parseUrl (str "GET /a.b/c.html?x.y HTTP/1.1") 4 19 parseArchiveInit = (.ok, ar') ∧
      ar'.url.mimeExtension.bytes (str "GET /a.b/c.html?x.y HTTP/1.1") = str "html" := by
  obtain ⟨ar', hok, -, -, -, -, hext, -⟩ := parseUrl_decomposition (str "GET ") (str "/a.b/c.html?x.y") (str "HTTP/1.1")
    parseArchiveInit (by decide) (by decide +kernel) rfl
  exact ⟨ar', hok, (hext (str "/a.b/c") (str "html") (by decide +kernel) (by decide +kernel) (by decide +kernel)).2⟩

end Lotos
