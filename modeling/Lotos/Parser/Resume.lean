import Lotos.Parser.Defs

/-!
# Parsing in chunks

A request arrives in pieces of any size, and each parser is called again, on a longer buffer, for as long as it
answers `AGAIN`.  Two facts make the pieces invisible:

* `parseRequestLine_append`, `parseHeaderLine_append`: an answer other than `AGAIN` does not depend on the bytes
  that follow;
* `parseRequestLine_resume`, `parseHeaderLine_resume`: after `AGAIN`, the call on the longer buffer answers what a
  single call on it would have answered.

`drive` is the order in which the parsers are called, and `feed_chunks_agree` says that it does not matter how the
bytes are cut.  The only member of the archive that remembers the cuts is `next_parse_pos`, and that only after
`INVALID_REQUEST` or in the body.
-/

namespace Lotos

/-! ### The scanners do not use `next_parse_pos` -/

/-- The archive with `next_parse_pos` moved. -/
def ParseArchive.setPos (k : ℕ) (ar : ParseArchive) : ParseArchive := { ar with nextParsePos := k }

/-- The locals of `parse_url`, with `next_parse_pos` moved. -/
def UrlScan.setPos (k : ℕ) (s : UrlScan) : UrlScan := { s with ar := s.ar.setPos k }

theorem urlStep_setPos (k q : ℕ) (c : Byte) (s : UrlScan) :
    urlStep q c (s.setPos k) = (urlStep q c s).map (UrlScan.setPos k) := by
  obtain ⟨b, st, ar⟩ := s
  cases st <;> simp only [urlStep, UrlScan.setPos, ParseArchive.setPos] <;> (try split_ifs) <;> rfl

theorem parseExtension_setPos (data : List Byte) (k : ℕ) (ar : ParseArchive) :
    parseExtension data (ar.setPos k) = (parseExtension data ar).setPos k := by
  unfold parseExtension ParseArchive.setPos
  simp only
  split
  · split <;> rfl
  · rfl

theorem parseUrl_setPos (data : List Byte) (b e k : ℕ) (ar : ParseArchive) :
    parseUrl data b e (ar.setPos k) = ((parseUrl data b e ar).1, (parseUrl data b e ar).2.setPos k) := by
  have hrun : urlScan data b e (ar.setPos k) = (urlScan data b e ar).map (UrlScan.setPos k) := by
    unfold urlScan
    rw [← Scan.run_map (UrlScan.setPos k) (urlStep_setPos k)]
    rfl
  unfold parseUrl
  rw [hrun]
  rcases urlScan data b e ar with s | ⟨r, q, s⟩
  · exact Prod.ext rfl (parseExtension_setPos data k s.ar)
  · cases r with
    | done => exact Prod.ext rfl (parseExtension_setPos data k s.ar)
    | invalid => rfl

theorem rlMethodStep_setPos (data : List Byte) (k q : ℕ) (c : Byte) (ar : ParseArchive) :
    rlMethodStep data q c (ar.setPos k) = (rlMethodStep data q c ar).map (ParseArchive.setPos k) := by
  unfold rlMethodStep ParseArchive.setPos
  simp only
  split_ifs <;> rfl

theorem rlStep_setPos (data : List Byte) (k q : ℕ) (c : Byte) (ar : ParseArchive) :
    rlStep data q c (ar.setPos k) = (rlStep data q c ar).map (ParseArchive.setPos k) := by
  cases hst : ar.state <;>
    simp only [rlStep, expect, show (ar.setPos k).state = ar.state from rfl, hst]
  case rlBegin =>
    split_ifs
    · exact rlMethodStep_setPos data k q c { ar with methodBegin := some q, state := .rlMethod }
    · rfl
  case rlMethod => exact rlMethodStep_setPos data k q c ar
  case rlUrl =>
    split_ifs
    · have hu := parseUrl_setPos data (ar.urlBegin.getD 0) q k { ar with state := .rlSpBeforeVersion }
      rw [show ({ ar.setPos k with state := .rlSpBeforeVersion } : ParseArchive) =
          ParseArchive.setPos k { ar with state := .rlSpBeforeVersion } from rfl,
        show (ar.setPos k).urlBegin = ar.urlBegin from rfl, hu]
      generalize parseUrl data (ar.urlBegin.getD 0) q { ar with state := .rlSpBeforeVersion } = res
      obtain ⟨st, ar'⟩ := res
      cases st <;> rfl
    · rfl
    · rfl
  all_goals (try split_ifs) <;> first | rfl | contradiction

theorem hdStep_setPos (k q : ℕ) (c : Byte) (ar : ParseArchive) :
    hdStep q c (ar.setPos k) = (hdStep q c ar).map (ParseArchive.setPos k) := by
  cases hst : ar.state <;> simp only [hdStep, show (ar.setPos k).state = ar.state from rfl, hst] <;>
    (try split_ifs) <;> rfl

/-! ### What the parsers read lies before the byte they are at -/

theorem parseUrl_frame (data : List Byte) (b e : ℕ) (ar : ParseArchive) :
    (parseUrl data b e ar).2 = { ar with
      requestUrlString := ⟨.buf b, (e : ℤ) - b⟩
      url := (parseUrl data b e ar).2.url } := by
  have hext : ∀ ar', parseExtension data ar' = { ar' with url := (parseExtension data ar').url } := by
    intro ar'
    unfold parseExtension
    split
    · split <;> rfl
    · rfl
  have hrun : (urlScan data b e ar).state.ar = { ar with
      requestUrlString := ⟨.buf b, (e : ℤ) - b⟩
      url := (urlScan data b e ar).state.ar.url } := by
    refine Scan.run_inv
      (fun s : UrlScan => s.ar = { ar with requestUrlString := ⟨.buf b, (e : ℤ) - b⟩, url := s.ar.url }) ?_ ?_ rfl
    · intro q c s s' _ _ hs h
      rw [urlStep] at h
      split at h <;> (try split_ifs at h) <;> cases h <;> rw [hs]
    · intro q c s r s' _ _ hs h
      rw [urlStep] at h
      split at h <;> (try split_ifs at h) <;> cases h <;> exact hs
  unfold parseUrl
  generalize urlScan data b e ar = res at hrun ⊢
  rcases res with s | ⟨r, q, s⟩ <;> simp only [Scan.Result.state] at hrun
  · simp only
    rw [hext s.ar, hrun]
  · cases r <;> simp only
    case done => rw [hext s.ar, hrun]
    case invalid => exact hrun

theorem extensionPos_append {xs : List Byte} (ys : List Byte) (b : ℕ) {n : ℕ} (h : b + n < xs.length) :
    extensionPos (xs ++ ys) b n = extensionPos xs b n := by
  induction n with
  | zero => rfl
  | succ n ih => simp only [extensionPos, List.getD_append _ _ _ _ h, ih (by omega)]

theorem urlScan_absPath_le (data : List Byte) (b : ℕ) {e : ℕ} {ar : ParseArchive} (har : ar.url.absPath.str = .null) {b' : ℕ}
    (hb' : (urlScan data b e ar).state.ar.url.absPath.str = .buf b') :
    b' + (urlScan data b e ar).state.ar.url.absPath.len.toNat ≤ e := by
  have hlen : b + (slice data b (e + 1)).length ≤ max b (e + 1) := by simp [slice]; omega
  refine (Scan.run_inv
    (fun s : UrlScan => (s.currState = .urlBegin ∨ s.currState = .urlAbsPath → s.beginPos = b) ∧
      ∀ b', s.ar.url.absPath.str = .buf b' → b' + s.ar.url.absPath.len.toNat ≤ e) ?_ ?_ ?_).2 b' hb'
  · intro q c s s' h1 h2 hs h
    have hq : q ≤ e := by omega
    clear h2 hlen
    rw [urlStep] at h
    split at h <;> (try split_ifs at h) <;> cases h <;> simp_all
  · intro q c s r s' _ _ hs h
    rw [urlStep] at h
    split at h <;> (try split_ifs at h) <;> cases h <;> exact hs
  · exact ⟨fun _ => rfl, fun b' hb' => by simp [har] at hb'⟩

/-- `parse_url` reads up to `end`, when no path is recorded yet. -/
theorem parseUrl_append {xs : List Byte} (ys : List Byte) (b : ℕ) {e : ℕ} {ar : ParseArchive} (he : e < xs.length)
    (har : ar.url.absPath.str = .null) : parseUrl (xs ++ ys) b e ar = parseUrl xs b e ar := by
  have hscan : urlScan (xs ++ ys) b e ar = urlScan xs b e ar := by
    unfold urlScan
    rw [slice_append ys (by omega)]
  have hext : parseExtension (xs ++ ys) (urlScan xs b e ar).state.ar =
      parseExtension xs (urlScan xs b e ar).state.ar := by
    unfold parseExtension
    split
    · rename_i b' hb'
      rw [extensionPos_append ys b' (Nat.lt_of_le_of_lt (urlScan_absPath_le xs b har hb') he)]
    · rfl
  unfold parseUrl
  rw [hscan]
  generalize urlScan xs b e ar = res at hext ⊢
  rcases res with s | ⟨r, q, s⟩ <;> simp only [Scan.Result.state] at hext
  · simp only [hext]
  · cases r <;> simp only [hext]

/-- The states of a request line before the end of its URL. -/
def ParserState.beforeUrlEnd : ParserState → Bool
  | .rlBegin | .rlMethod | .rlSpBeforeUrl | .rlUrl => true
  | _ => false

/-- No path is recorded before the end of the URL. -/
def ParseArchive.UrlPending (ar : ParseArchive) : Prop :=
  ar.state.beforeUrlEnd = true → ar.url.absPath.str = .null

theorem rlStep_append {xs : List Byte} (ys : List Byte) {q : ℕ} (c : Byte) {ar : ParseArchive}
    (hq : q < xs.length) (har : ar.UrlPending) : rlStep (xs ++ ys) q c ar = rlStep xs q c ar := by
  have hm : ∀ ar', rlMethodStep (xs ++ ys) q c ar' = rlMethodStep xs q c ar' := by
    intro ar'
    unfold rlMethodStep
    rw [slice_append ys (by omega)]
  cases hst : ar.state <;> simp only [rlStep, hst, hm]
  case rlUrl =>
    have hnull : ({ ar with state := .rlSpBeforeVersion } : ParseArchive).url.absPath.str = .null :=
      har (by rw [hst]; rfl)
    rw [parseUrl_append ys _ hq hnull]

theorem rlStep_urlPending {data : List Byte} {q : ℕ} {c : Byte} {ar ar' : ParseArchive}
    (har : ar.UrlPending) (h : rlStep data q c ar = .next ar') : ar'.UrlPending := by
  have hm : ∀ ar, ar.url.absPath.str = .null → rlMethodStep data q c ar = .next ar' →
      ar'.url.absPath.str = .null := by
    intro ar har h
    simp only [rlMethodStep] at h
    split_ifs at h <;> cases h <;> exact har
  cases hst : ar.state <;> simp only [rlStep, expect, hst] at h <;>
    have har' := fun hb => har (hst ▸ hb)
  case rlBegin =>
    split_ifs at h
    exact fun _ => hm { ar with methodBegin := some q, state := .rlMethod } (har' rfl) h
  case rlMethod => exact fun _ => hm _ (har' rfl) h
  case rlUrl =>
    split_ifs at h
    · -- the URL is complete: the state has moved on
      have hf := parseUrl_frame data (ar.urlBegin.getD 0) q { ar with state := .rlSpBeforeVersion }
      split at h
      · rename_i ar'' heq
        simp only [heq] at hf
        cases h
        intro hb
        rw [hf] at hb
        cases hb
      · cases h
    · cases h
      exact har
  all_goals
    (try split_ifs at h) <;> cases h <;>
      first | exact har | (intro hb; exact har' rfl) | (intro hb; cases hb)

/-! ### Calls on a longer buffer -/

/-- On the bytes of the shorter buffer the loop does what it did there. -/
theorem rlScan_prefix {xs : List Byte} (ys : List Byte) {ar : ParseArchive} (har : ar.UrlPending) :
    Scan.run (rlStep (xs ++ ys)) ar.nextParsePos (xs.drop ar.nextParsePos) ar = rlScan xs ar := by
  refine Scan.run_congr ParseArchive.UrlPending (fun q c s s' => rlStep_urlPending) ?_ har
  intro q h1 h2 c s hs
  rw [List.length_drop] at h2
  exact rlStep_append ys c (by omega) hs

/-- Two answers of a parser that differ at most in `next_parse_pos`, and in that only after `INVALID_REQUEST`. -/
def SameAnswer (r r' : Status × ParseArchive) : Prop :=
  r.1 = r'.1 ∧ r.2.setPos 0 = r'.2.setPos 0 ∧ (r.1 ≠ .error → r.2 = r'.2)

theorem rlFinish_setPos (data : List Byte) (k : ℕ) (res : Scan.Result ParseArchive Exit) :
    SameAnswer (rlFinish data (res.map (ParseArchive.setPos k))) (rlFinish data res) := by
  rcases res with s | ⟨_ | _, q, s⟩
  · exact ⟨rfl, rfl, fun _ => rfl⟩
  · exact ⟨rfl, rfl, fun _ => rfl⟩
  · exact ⟨rfl, rfl, fun h => absurd rfl h⟩

theorem hdFinish_setPos (data : List Byte) (k : ℕ) (res : Scan.Result ParseArchive Exit) :
    SameAnswer (hdFinish data (res.map (ParseArchive.setPos k))) (hdFinish data res) := by
  rcases res with s | ⟨_ | _, q, s⟩
  · exact ⟨rfl, rfl, fun _ => rfl⟩
  · exact ⟨rfl, rfl, fun _ => rfl⟩
  · exact ⟨rfl, rfl, fun h => absurd rfl h⟩

theorem hdFinish_halt_ne_again (data : List Byte) (r : Exit) (q : ℕ) (s : ParseArchive) :
    (hdFinish data (.halt r q s)).1 ≠ .again := by
  cases r with
  | done => simp only [hdFinish]; split_ifs <;> decide
  | invalid => simp [hdFinish]

section Longer

variable {xs : List Byte} (ys : List Byte) {ar ar' : ParseArchive}

theorem parseRequestLine_append (hp : ar.nextParsePos ≤ xs.length) (har : ar.UrlPending)
    (h : (parseRequestLine xs ar).1 ≠ .again) :
    parseRequestLine (xs ++ ys) ar = parseRequestLine xs ar := by
  have hpre : Scan.run (rlStep (xs ++ ys)) _ _ ar = _ := rlScan_prefix ys har
  unfold parseRequestLine at h ⊢
  cases hs : rlScan xs ar with
  | again s => exact absurd (by rw [hs]; rfl) h
  | halt r q s =>
    rw [hs] at hpre
    rw [rlScan, List.drop_append_of_le_length hp, Scan.run_append_halt hpre]
    cases r <;> rfl

/-- **The request line, resumed.**  A call that answered `AGAIN` leaves the archive in a state from which the call
on the longer buffer answers as one call on it would have done. -/
theorem parseRequestLine_resume (hp : ar.nextParsePos ≤ xs.length) (har : ar.UrlPending)
    (h : parseRequestLine xs ar = (.again, ar')) :
    SameAnswer (parseRequestLine (xs ++ ys) ar') (parseRequestLine (xs ++ ys) ar) := by
  have hpre : Scan.run (rlStep (xs ++ ys)) _ _ ar = _ := rlScan_prefix ys har
  unfold parseRequestLine at h ⊢
  cases hs : rlScan xs ar with
  | halt r q s => rw [hs] at h; cases r <;> cases h
  | again s =>
    rw [hs] at h hpre
    obtain rfl : s.setPos xs.length = ar' := (Prod.ext_iff.mp h).2
    have hlong : rlScan (xs ++ ys) ar = Scan.run (rlStep (xs ++ ys)) xs.length ys s := by
      rw [rlScan, List.drop_append_of_le_length hp, Scan.run_append_again hpre, List.length_drop,
        Nat.add_sub_cancel' hp]
    have hres : rlScan (xs ++ ys) (s.setPos xs.length) = (rlScan (xs ++ ys) ar).map (ParseArchive.setPos xs.length) := by
      rw [hlong, ← Scan.run_map _ (rlStep_setPos (xs ++ ys) xs.length), rlScan]
      simp [ParseArchive.setPos]
    rw [hres]
    exact rlFinish_setPos _ _ _

theorem parseHeaderLine_append (hp : ar.nextParsePos ≤ xs.length) (h : (parseHeaderLine xs ar).1 ≠ .again) :
    parseHeaderLine (xs ++ ys) ar = parseHeaderLine xs ar := by
  unfold parseHeaderLine at h ⊢
  cases hs : hdScan xs ar with
  | again s => exact absurd (by rw [hs]; rfl) h
  | halt r q s =>
    rw [hdScan] at hs
    rw [hdScan, List.drop_append_of_le_length hp, Scan.run_append_halt hs]
    cases r <;> rfl

/-- **A header line, resumed.** -/
theorem parseHeaderLine_resume (hp : ar.nextParsePos ≤ xs.length) (h : parseHeaderLine xs ar = (.again, ar')) :
    SameAnswer (parseHeaderLine (xs ++ ys) ar') (parseHeaderLine (xs ++ ys) ar) := by
  unfold parseHeaderLine at h ⊢
  cases hs : hdScan xs ar with
  | halt r q s => rw [hs] at h; exact absurd (congrArg Prod.fst h) (hdFinish_halt_ne_again _ _ _ _)
  | again s =>
    rw [hs] at h
    rw [hdScan] at hs
    obtain rfl : s.setPos xs.length = ar' := (Prod.ext_iff.mp h).2
    have hlong : hdScan (xs ++ ys) ar = Scan.run hdStep xs.length ys s := by
      rw [hdScan, List.drop_append_of_le_length hp, Scan.run_append_again hs, List.length_drop,
        Nat.add_sub_cancel' hp]
    have hres : hdScan (xs ++ ys) (s.setPos xs.length) = (hdScan (xs ++ ys) ar).map (ParseArchive.setPos xs.length) := by
      rw [hlong, ← Scan.run_map _ (hdStep_setPos xs.length), hdScan]
      simp [ParseArchive.setPos]
    rw [hres]
    exact hdFinish_setPos _ _ _

end Longer

/-! ### Where the parsers leave `next_parse_pos` -/

theorem parseRequestLine_again_pos {data : List Byte} {ar ar' : ParseArchive}
    (h : parseRequestLine data ar = (.again, ar')) : ar'.nextParsePos = data.length := by
  unfold parseRequestLine at h
  rcases hs : rlScan data ar with s | ⟨_ | _, q, s⟩ <;> rw [hs] at h <;> cases h
  rfl

theorem parseRequestLine_again_urlPending {data : List Byte} {ar ar' : ParseArchive} (har : ar.UrlPending)
    (h : parseRequestLine data ar = (.again, ar')) : ar'.UrlPending := by
  unfold parseRequestLine at h
  rcases hs : rlScan data ar with s | ⟨_ | _, q, s⟩ <;> rw [hs] at h <;> cases h
  have hend : s.UrlPending :=
    Scan.again_inv (f := rlStep data) ParseArchive.UrlPending (fun q c s s' => rlStep_urlPending) har hs
  exact hend

theorem parseRequestLine_ok_pos {data : List Byte} {ar ar' : ParseArchive}
    (h : parseRequestLine data ar = (.ok, ar')) :
    ar.nextParsePos < ar'.nextParsePos ∧ ar'.nextParsePos ≤ data.length ∧ ar'.state = .hdBegin := by
  unfold parseRequestLine at h
  rcases hs : rlScan data ar with s | ⟨_ | _, q, s⟩ <;> rw [hs] at h <;> cases h
  have hb := Scan.halt_bounds hs
  rw [List.length_drop] at hb
  exact ⟨by simp only; omega, by simp only; omega, rfl⟩

theorem parseHeaderLine_again_pos {data : List Byte} {ar ar' : ParseArchive}
    (h : parseHeaderLine data ar = (.again, ar')) : ar'.nextParsePos = data.length := by
  unfold parseHeaderLine at h
  rcases hs : hdScan data ar with s | ⟨r, q, s⟩ <;> rw [hs] at h
  · cases h; rfl
  · exact absurd (congrArg Prod.fst h) (hdFinish_halt_ne_again _ _ _ _)

theorem parseHeaderLine_done_pos {data : List Byte} {ar ar' : ParseArchive} {st : Status}
    (h : parseHeaderLine data ar = (st, ar')) (hst : st = .ok ∨ st = .crlfLine) :
    ar.nextParsePos < ar'.nextParsePos ∧ ar'.nextParsePos ≤ data.length ∧ ar'.state = .hdBegin := by
  unfold parseHeaderLine at h
  rcases hs : hdScan data ar with s | ⟨_ | _, q, s⟩ <;> rw [hs] at h
  · cases h; simp at hst
  · have hb := Scan.halt_bounds hs
    rw [List.length_drop] at hb
    obtain ⟨-, rfl⟩ := Prod.ext_iff.mp h
    exact ⟨by simp only [hdFinish]; omega, by simp only [hdFinish]; omega, rfl⟩
  · cases h; simp at hst

end Lotos
