import Lotos.Parser.Resume

/-!
# The language of the request line

`RequestLine` is the request line as the grammar has it, in its parts, and `RequestLine.Grammar` what the parts have
to be.  The rules `done_*`, one for each state of the machine from the last to the first, say what the rest of the
input looks like if the loop of `parse_request_line` reaches `done` from that state.  Chained they give
`rlScan_done_iff`: the loop reaches `done` exactly on the inputs that begin with a request line of the grammar, at the
end of that line.  `parseRequestLine_grammar` states it of the parser.
-/

namespace Lotos

/-! ### The grammar -/

/-- The method as it is written. -/
def HttpMethod.name : HttpMethod → List Byte
  | .delete => str "DELETE"
  | .get => str "GET"
  | .head => str "HEAD"
  | .post => str "POST"
  | .put => str "PUT"
  | .invalid => []

/-- A version number: one digit, or zeros followed by `0` or `1`. -/
def IsVersionNumber (v : List Byte) : Prop :=
  (∃ d, isDigit d = true ∧ v = [d]) ∨
    ∃ n d, 0 < n ∧ (d = 0x30 ∨ d = 0x31) ∧ v = List.replicate n 0x30 ++ [d]

/-- A byte of a URL: not a blank and not the end of the line. -/
def isUrlChar (c : Byte) : Bool := !isBlank c && !isEol c

/-- The parts of a request line `METHOD SP blanks URL sep HTTP '/' major '.' minor CR LF`. -/
structure RequestLine where
  method : HttpMethod
  blanks : List Byte
  url : List Byte
  sep : List Byte
  http : List Byte
  major : List Byte
  minor : List Byte

def RequestLine.bytes (l : RequestLine) : List Byte :=
  l.method.name ++ SP :: (l.blanks ++ (l.url ++ (l.sep ++ (l.http ++ SLASH :: (l.major ++ DOT :: (l.minor ++ CRLF))))))

structure RequestLine.Grammar (l : RequestLine) : Prop where
  method : l.method ≠ .invalid
  blanks : ∀ c ∈ l.blanks, isBlank c = true
  url : ∃ u, l.url = SLASH :: u ∧ ∀ c ∈ u, isUrlChar c = true
  sep : l.sep ≠ [] ∧ ∀ c ∈ l.sep, isBlank c = true
  http : ∃ h t t' p, l.http = [h, t, t', p] ∧ isLetter 0x48 h = true ∧ isLetter 0x54 t = true ∧
    isLetter 0x54 t' = true ∧ isLetter 0x50 p = true
  major : IsVersionNumber l.major
  minor : IsVersionNumber l.minor

/-! ### The method -/

theorem parseMethod_name (m : HttpMethod) : parseMethod m.name = m := by
  cases m <;> rfl

theorem parseMethod_eq {bs : List Byte} (h : parseMethod bs ≠ .invalid) : bs = (parseMethod bs).name := by
  unfold parseMethod at h ⊢
  split at h <;> (try split_ifs at h) <;> simp_all [HttpMethod.name]

theorem name_isAlpha (m : HttpMethod) : ∀ c ∈ m.name, isAlpha c = true := by
  cases m <;> decide +kernel

theorem name_ne_nil {m : HttpMethod} (h : m ≠ .invalid) : ∃ c cs, m.name = c :: cs := by
  cases m <;> first | exact absurd rfl h | exact ⟨_, _, rfl⟩

/-! ### The URL -/

theorem parseUrl_status {data : List Byte} {b e : ℕ} {c : Byte} {cs : List Byte} (ar : ParseArchive)
    (h : slice data b (e + 1) = c :: cs) : (parseUrl data b e ar).1 = .ok ↔ c = SLASH := by
  unfold parseUrl urlScan
  rw [h]
  by_cases hc : c = SLASH
  · rw [Scan.run_cons_next (t := ⟨b, .urlAbsPath, { ar with requestUrlString := ⟨.buf b, (e : ℤ) - b⟩ }⟩)
      (by simp [urlStep, hc])]
    rcases hrun : Scan.run urlStep (b + 1) cs _ with s | ⟨_ | _, q, s⟩
    · simp [hc]
    · simp [hc]
    · -- past the first byte no state rejects
      have hne : ∀ q c (s s' : UrlScan), s.currState ≠ .urlBegin → urlStep q c s = .next s' →
          s'.currState ≠ .urlBegin := by
        intro q c s s' hs hstep
        rw [urlStep] at hstep
        split at hstep <;> (try split_ifs at hstep) <;> cases hstep <;> simp_all
      obtain ⟨c', t, ht, hstep⟩ := Scan.halt_inv (fun s : UrlScan => s.currState ≠ .urlBegin) hne (by simp) hrun
      rw [urlStep] at hstep
      split at hstep <;> (try split_ifs at hstep) <;> simp_all
  · rw [Scan.run_cons_halt (r := .invalid) (t := ⟨b, .urlBegin, { ar with requestUrlString := ⟨.buf b, (e : ℤ) - b⟩ }⟩)
      (by simp [urlStep, hc])]
    simp [hc]

/-! ### The version numbers -/

/-- The digits after the first one, from the value `v`: each new value is checked. -/
def MoreDigits : ℕ → List Byte → Prop
  | _, [] => True
  | v, d :: ds => isDigit d = true ∧ accDigit v d ≤ 1 ∧ MoreDigits (accDigit v d) ds

/-- The digits of a version number, from the value `v`. -/
def VersionDigits (v : ℕ) : List Byte → Prop
  | [] => False
  | d :: ds => isDigit d = true ∧ MoreDigits (accDigit v d) ds

theorem digit_toNat {d : Byte} (h : isDigit d = true) : 0x30 ≤ d.toNat ∧ d.toNat ≤ 0x39 := by
  simp only [isDigit, Bool.and_eq_true, decide_eq_true_eq, UInt8.le_iff_toNat_le] at h
  exact h

/-- From a value of one digit the accumulation does not wrap around. -/
theorem accDigit_eq {v : ℕ} {d : Byte} (hv : v ≤ 9) (hd : isDigit d = true) :
    accDigit v d = v * 10 + (d.toNat - 0x30) ∧ accDigit v d ≤ 99 := by
  have := digit_toNat hd
  unfold accDigit
  rw [Nat.mod_eq_of_lt (by omega)]
  omega

theorem moreDigits_of_pos {v : ℕ} (hv : 0 < v) (h9 : v ≤ 9) (ds : List Byte) : MoreDigits v ds ↔ ds = [] := by
  cases ds with
  | nil => simp [MoreDigits]
  | cons d ds =>
    simp only [MoreDigits, reduceCtorEq, iff_false, not_and]
    intro hd hle
    have := (accDigit_eq h9 hd).1
    omega

theorem moreDigits_zero (ds : List Byte) :
    MoreDigits 0 ds ↔ ds = [] ∨ ∃ n d, (d = 0x30 ∨ d = 0x31) ∧ ds = List.replicate n 0x30 ++ [d] := by
  induction ds with
  | nil => simp [MoreDigits]
  | cons d ds ih =>
    simp only [MoreDigits]
    constructor
    · rintro ⟨hd, hle, hmore⟩
      have hacc := (accDigit_eq (Nat.zero_le 9) hd).1
      have hb := digit_toNat hd
      rw [hacc] at hle hmore
      rcases (by omega : d.toNat = 0x30 ∨ d.toNat = 0x31) with h | h
      · have hd0 : d = 0x30 := UInt8.toNat_inj.mp h
        rw [h] at hmore
        rcases ih.mp hmore with rfl | ⟨n, d', hd', rfl⟩
        · exact .inr ⟨0, d, .inl hd0, rfl⟩
        · exact .inr ⟨n + 1, d', hd', by rw [hd0, List.replicate_succ]; rfl⟩
      · rw [h] at hmore
        rw [moreDigits_of_pos (by omega) (by omega)] at hmore
        exact .inr ⟨0, d, .inr (UInt8.toNat_inj.mp h), by rw [hmore]; rfl⟩
    · rintro (h | ⟨_ | n, d', hd', h⟩)
      · cases h
      · rw [List.replicate_zero, List.nil_append, List.cons.injEq] at h
        obtain ⟨rfl, rfl⟩ := h
        rcases hd' with rfl | rfl <;> exact ⟨by decide, by decide, trivial⟩
      · rw [List.replicate_succ, List.cons_append, List.cons.injEq] at h
        obtain ⟨rfl, rfl⟩ := h
        exact ⟨by decide, by decide, ih.mpr (.inr ⟨n, d', hd', rfl⟩)⟩

theorem versionDigits_iff (v : List Byte) : VersionDigits 0 v ↔ IsVersionNumber v := by
  cases v with
  | nil => simp [VersionDigits, IsVersionNumber]
  | cons d ds =>
    simp only [VersionDigits, IsVersionNumber]
    constructor
    · rintro ⟨hd, hmore⟩
      have hb := digit_toNat hd
      rw [(accDigit_eq (Nat.zero_le 9) hd).1] at hmore
      by_cases h0 : d.toNat = 0x30
      · have hd0 : d = 0x30 := UInt8.toNat_inj.mp h0
        rw [h0] at hmore
        rcases (moreDigits_zero ds).mp hmore with rfl | ⟨n, d', hd', rfl⟩
        · exact .inl ⟨d, hd, rfl⟩
        · exact .inr ⟨n + 1, d', by omega, hd', by rw [hd0, List.replicate_succ]; rfl⟩
      · rw [moreDigits_of_pos (by omega) (by omega)] at hmore
        exact .inl ⟨d, hd, by rw [hmore]⟩
    · rintro (⟨d', hd', h⟩ | ⟨_ | n, d', hn, hd', h⟩)
      · cases h
        exact ⟨hd', trivial⟩
      · omega
      · rw [List.replicate_succ, List.cons_append, List.cons.injEq] at h
        obtain ⟨rfl, rfl⟩ := h
        exact ⟨by decide, (moreDigits_zero _).mpr (.inr ⟨n, d', hd', rfl⟩)⟩

theorem foldl_zeros {f : ℕ → Byte → ℕ} (hf : f 0 0x30 = 0) (n : ℕ) : (List.replicate n 0x30).foldl f 0 = 0 := by
  induction n with
  | zero => rfl
  | succ n ih => rw [List.replicate_succ, List.foldl_cons, hf, ih]

theorem foldl_accDigit {v : List Byte} (h : IsVersionNumber v) : v.foldl accDigit 0 = decimal v := by
  rcases h with ⟨d, hd, rfl⟩ | ⟨n, d, -, hd, rfl⟩
  · simp [decimal, (accDigit_eq (Nat.zero_le 9) hd).1]
  · rw [decimal, List.foldl_append, List.foldl_append, foldl_zeros (f := accDigit) rfl, foldl_zeros rfl]
    rcases hd with rfl | rfl <;> rfl

/-! ### From the states to the input -/

section Done

variable {data xs : List Byte} {p q : ℕ} {ar ar' : ParseArchive}

/-- The archive with a version and a state set. -/
def ParseArchive.withVersion (ar : ParseArchive) (major minor : ℕ) (st : ParserState) : ParseArchive :=
  { ar with version := ⟨major, minor⟩, state := st }

theorem done_crAfterVersion (hst : ar.state = .rlCrAfterVersion) :
    Scan.run (rlStep data) p xs ar = .halt .done q ar' ↔
      ∃ rest, xs = LF :: rest ∧ q = p ∧ ar' = { ar with state := .rlLfAfterVersion } := by
  cases xs with
  | nil => simp
  | cons c cs =>
    by_cases hc : c = LF
    · rw [Scan.run_cons_halt (r := .done) (t := { ar with state := .rlLfAfterVersion }) (by simp [rlStep, hst, hc])]
      simp [hc, eq_comm]
    · rw [Scan.run_cons_halt (r := .invalid) (t := ar) (by simp [rlStep, hst, hc])]
      simp [hc]

/-- The digits of a version number after the first, up to the byte `term` that ends it.  `A v` is the archive with
the value `v` so far, `B v` the archive after `term`. -/
theorem done_moreDigits (A B : ℕ → ParseArchive) (term : Byte) (hterm : isDigit term = false)
    (hdig : ∀ q c v, isDigit c = true → accDigit v c ≤ 1 → rlStep data q c (A v) = .next (A (accDigit v c)))
    (hbig : ∀ q c v, isDigit c = true → ¬ accDigit v c ≤ 1 → rlStep data q c (A v) = .halt .invalid (A (accDigit v c)))
    (hnext : ∀ q v, rlStep data q term (A v) = .next (B v))
    (hstop : ∀ q c v, isDigit c = false → c ≠ term → rlStep data q c (A v) = .halt .invalid (A v)) (v : ℕ) :
    Scan.run (rlStep data) p xs (A v) = .halt .done q ar' ↔
      ∃ ds rest, xs = ds ++ term :: rest ∧ MoreDigits v ds ∧
        Scan.run (rlStep data) (p + ds.length + 1) rest (B (ds.foldl accDigit v)) = .halt .done q ar' := by
  induction xs generalizing p v with
  | nil => simp
  | cons c cs ih =>
    cases hc : isDigit c with
    | true =>
      have hne : c ≠ term := by rintro rfl; rw [hterm] at hc; cases hc
      by_cases hle : accDigit v c ≤ 1
      · rw [Scan.run_cons_next (hdig p c v hc hle), ih]
        constructor
        · rintro ⟨ds, rest, rfl, hmore, hrun⟩
          refine ⟨c :: ds, rest, rfl, ⟨hc, hle, hmore⟩, ?_⟩
          rwa [List.length_cons, List.foldl_cons, show p + (ds.length + 1) = p + 1 + ds.length by omega]
        · rintro ⟨_ | ⟨d, ds⟩, rest, hxs, hmore, hrun⟩
          · cases hxs; exact absurd rfl hne
          · cases hxs
            refine ⟨ds, rest, rfl, hmore.2.2, ?_⟩
            rwa [List.length_cons, List.foldl_cons, show p + (ds.length + 1) = p + 1 + ds.length by omega] at hrun
      · rw [Scan.run_cons_halt (hbig p c v hc hle)]
        refine iff_of_false (by simp) ?_
        rintro ⟨_ | ⟨d, ds⟩, rest, hxs, hmore, -⟩
        · cases hxs; exact hne rfl
        · cases hxs; exact hle hmore.2.1
    | false =>
      have hnil : ∀ ds rest, c :: cs = ds ++ term :: rest → MoreDigits v ds → ds = [] := by
        rintro (_ | ⟨d, ds⟩) rest hxs hmore
        · rfl
        · cases hxs
          rw [hmore.1] at hc
          cases hc
      by_cases hne : c = term
      · subst hne
        rw [Scan.run_cons_next (hnext p v)]
        constructor
        · exact fun hrun => ⟨[], cs, rfl, trivial, hrun⟩
        · rintro ⟨ds, rest, hxs, hmore, hrun⟩
          obtain rfl := hnil ds rest hxs hmore
          cases hxs
          exact hrun
      · rw [Scan.run_cons_halt (hstop p c v hc hne)]
        refine iff_of_false (by simp) ?_
        rintro ⟨ds, rest, hxs, hmore, -⟩
        obtain rfl := hnil ds rest hxs hmore
        cases hxs
        exact hne rfl

theorem done_versionMinor (major v : ℕ) :
    Scan.run (rlStep data) p xs (ar.withVersion major v .rlVersionMinor) = .halt .done q ar' ↔
      ∃ ds rest, xs = ds ++ CR :: LF :: rest ∧ MoreDigits v ds ∧ q = p + ds.length + 1 ∧
        ar' = ar.withVersion major (ds.foldl accDigit v) .rlLfAfterVersion := by
  rw [done_moreDigits (fun v => ar.withVersion major v .rlVersionMinor)
    (fun v => ar.withVersion major v .rlCrAfterVersion) CR (by decide)
    (fun q c v hc hle => by simp [rlStep, ParseArchive.withVersion, hc, hle])
    (fun q c v hc hle => by simp [rlStep, ParseArchive.withVersion, hc]; omega)
    (fun q v => by simp [rlStep, ParseArchive.withVersion, expect, show isDigit CR = false by decide])
    (fun q c v hc hne => by simp [rlStep, ParseArchive.withVersion, expect, hc, hne])]
  constructor
  · rintro ⟨ds, rest, rfl, hmore, hrun⟩
    obtain ⟨rest, rfl, rfl, rfl⟩ := (done_crAfterVersion rfl).mp hrun
    exact ⟨ds, rest, rfl, hmore, rfl, rfl⟩
  · rintro ⟨ds, rest, rfl, hmore, rfl, rfl⟩
    exact ⟨ds, LF :: rest, rfl, hmore, (done_crAfterVersion rfl).mpr ⟨rest, rfl, rfl, rfl⟩⟩

theorem done_versionDot (major v : ℕ) :
    Scan.run (rlStep data) p xs (ar.withVersion major v .rlVersionDot) = .halt .done q ar' ↔
      ∃ minor rest, xs = minor ++ CR :: LF :: rest ∧ VersionDigits v minor ∧ q = p + minor.length + 1 ∧
        ar' = ar.withVersion major (minor.foldl accDigit v) .rlLfAfterVersion := by
  rw [Scan.halt_iff_guard isDigit (fun c => ar.withVersion major (accDigit v c) .rlVersionMinor)
    (fun c hc => by simp [rlStep, ParseArchive.withVersion, hc])
    (fun c hc => ⟨.invalid, _, by simp [rlStep, ParseArchive.withVersion, hc]; rfl, by decide⟩)]
  constructor
  · rintro ⟨d, rest, rfl, hd, hrun⟩
    obtain ⟨ds, rest, rfl, hmore, rfl, rfl⟩ := (done_versionMinor _ _).mp hrun
    exact ⟨d :: ds, rest, rfl, ⟨hd, hmore⟩, by simp only [List.length_cons]; omega, rfl⟩
  · rintro ⟨_ | ⟨d, ds⟩, rest, rfl, hdig, rfl, rfl⟩
    · exact absurd hdig id
    · exact ⟨d, ds ++ CR :: LF :: rest, rfl, hdig.1, (done_versionMinor _ _).mpr
        ⟨ds, rest, rfl, hdig.2, by simp only [List.length_cons]; omega, rfl⟩⟩

theorem done_versionMajor (minor v : ℕ) :
    Scan.run (rlStep data) p xs (ar.withVersion v minor .rlVersionMajor) = .halt .done q ar' ↔
      ∃ ds rest, xs = ds ++ DOT :: rest ∧ MoreDigits v ds ∧
        Scan.run (rlStep data) (p + ds.length + 1) rest
          (ar.withVersion (ds.foldl accDigit v) minor .rlVersionDot) = .halt .done q ar' :=
  done_moreDigits (fun v => ar.withVersion v minor .rlVersionMajor)
    (fun v => ar.withVersion v minor .rlVersionDot) DOT (by decide)
    (fun q c v hc hle => by simp [rlStep, ParseArchive.withVersion, hc, hle])
    (fun q c v hc hle => by simp [rlStep, ParseArchive.withVersion, hc]; omega)
    (fun q v => by simp [rlStep, ParseArchive.withVersion, expect, show isDigit DOT = false by decide])
    (fun q c v hc hne => by simp [rlStep, ParseArchive.withVersion, expect, hc, hne]) v

theorem done_versionHTTPSlash (u v : ℕ) :
    Scan.run (rlStep data) p xs (ar.withVersion u v .rlVersionHTTPSlash) = .halt .done q ar' ↔
      ∃ major minor rest, xs = major ++ DOT :: (minor ++ CR :: LF :: rest) ∧ VersionDigits u major ∧
        VersionDigits v minor ∧ q = p + major.length + minor.length + 2 ∧
        ar' = ar.withVersion (major.foldl accDigit u) (minor.foldl accDigit v) .rlLfAfterVersion := by
  rw [Scan.halt_iff_guard isDigit (fun c => ar.withVersion (accDigit u c) v .rlVersionMajor)
    (fun c hc => by simp [rlStep, ParseArchive.withVersion, hc])
    (fun c hc => ⟨.invalid, _, by simp [rlStep, ParseArchive.withVersion, hc]; rfl, by decide⟩)]
  constructor
  · rintro ⟨d, rest, rfl, hd, hrun⟩
    obtain ⟨ds, rest, rfl, hmore, hrun⟩ := (done_versionMajor _ _).mp hrun
    obtain ⟨minor, rest, rfl, hminor, rfl, rfl⟩ := (done_versionDot _ _).mp hrun
    exact ⟨d :: ds, minor, rest, rfl, ⟨hd, hmore⟩, hminor, by simp only [List.length_cons]; omega, rfl⟩
  · rintro ⟨_ | ⟨d, ds⟩, minor, rest, rfl, hmajor, hminor, rfl, rfl⟩
    · exact absurd hmajor id
    · refine ⟨d, _, rfl, hmajor.1, (done_versionMajor _ _).mpr ⟨ds, _, rfl, hmajor.2, ?_⟩⟩
      exact (done_versionDot _ _).mpr ⟨minor, rest, rfl, hminor, by simp only [List.length_cons]; omega, rfl⟩

theorem done_expect {st : ParserState} {cond : Byte → Bool}
    (hstep : ∀ c, rlStep data p c ar = expect (cond c) st ar) :
    Scan.run (rlStep data) p xs ar = .halt .done q ar' ↔
      ∃ c rest, xs = c :: rest ∧ cond c = true ∧
        Scan.run (rlStep data) (p + 1) rest { ar with state := st } = .halt .done q ar' :=
  Scan.halt_iff_guard _ _ (fun c hc => by simp [hstep, expect, hc])
    (fun c hc => ⟨.invalid, ar, by simp [hstep, expect, hc], nofun⟩)

theorem done_spBeforeVersion (hst : ar.state = .rlSpBeforeVersion) :
    Scan.run (rlStep data) p xs ar = .halt .done q ar' ↔
      ∃ ws h t t' P rest, xs = ws ++ [h, t, t', P] ++ SLASH :: rest ∧ (∀ c ∈ ws, isBlank c = true) ∧
        isLetter 0x48 h = true ∧ isLetter 0x54 t = true ∧ isLetter 0x54 t' = true ∧ isLetter 0x50 P = true ∧
        Scan.run (rlStep data) (p + ws.length + 5) rest { ar with state := .rlVersionHTTPSlash } =
          .halt .done q ar' := by
  rw [Scan.halt_iff_while isBlank (fun _ c => isLetter 0x48 c)
    (fun _ _ => { ar with state := .rlVersionH })
    (fun q c hc => by simp [rlStep, hst, hc])
    (fun q c hc hcond => by simp only [rlStep, hst, hc, expect, hcond]; simp)
    (fun q c hc hcond => ⟨.invalid, ar, by simp only [rlStep, hst, hc, expect, hcond]; simp, by decide⟩)]
  constructor
  · rintro ⟨ws, h, rest, rfl, hws, -, hh, hrun⟩
    obtain ⟨t, rest, rfl, ht, hrun⟩ := (done_expect (fun c => rfl)).mp hrun
    obtain ⟨t', rest, rfl, ht', hrun⟩ := (done_expect (fun c => rfl)).mp hrun
    obtain ⟨P, rest, rfl, hP, hrun⟩ := (done_expect (fun c => rfl)).mp hrun
    obtain ⟨s, rest, rfl, hs, hrun⟩ := (done_expect (fun c => rfl)).mp hrun
    obtain rfl : s = SLASH := by simpa using hs
    exact ⟨ws, h, t, t', P, rest, by simp, hws, hh, ht, ht', hP, hrun⟩
  · rintro ⟨ws, h, t, t', P, rest, rfl, hws, hh, ht, ht', hP, hrun⟩
    refine ⟨ws, h, t :: t' :: P :: SLASH :: rest, by simp, hws, ?_, hh, ?_⟩
    · rw [isLetter, Bool.or_eq_true, beq_iff_eq, beq_iff_eq] at hh
      rcases hh with rfl | rfl <;> decide
    · refine (done_expect (fun c => rfl)).mpr ⟨t, _, rfl, ht, ?_⟩
      refine (done_expect (fun c => rfl)).mpr ⟨t', _, rfl, ht', ?_⟩
      refine (done_expect (fun c => rfl)).mpr ⟨P, _, rfl, hP, ?_⟩
      exact (done_expect (fun c => rfl)).mpr ⟨SLASH, _, rfl, by decide, hrun⟩

theorem done_url (hst : ar.state = .rlUrl) :
    Scan.run (rlStep data) p xs ar = .halt .done q ar' ↔
      ∃ u t rest, xs = u ++ t :: rest ∧ (∀ c ∈ u, isUrlChar c = true) ∧ isBlank t = true ∧
        (parseUrl data (ar.urlBegin.getD 0) (p + u.length) { ar with state := .rlSpBeforeVersion }).1 = .ok ∧
        Scan.run (rlStep data) (p + u.length + 1) rest
          (parseUrl data (ar.urlBegin.getD 0) (p + u.length) { ar with state := .rlSpBeforeVersion }).2 =
          .halt .done q ar' := by
  have hblank : ∀ c, isUrlChar c = false → isBlank c = false → isEol c = true := by
    intro c h1 h2
    simpa [isUrlChar, h2] using h1
  rw [Scan.halt_iff_while isUrlChar
    (fun q c => isBlank c &&
      decide ((parseUrl data (ar.urlBegin.getD 0) q { ar with state := .rlSpBeforeVersion }).1 = .ok))
    (fun q _ => (parseUrl data (ar.urlBegin.getD 0) q { ar with state := .rlSpBeforeVersion }).2)
    (fun q c hc => by
      simp only [isUrlChar, Bool.and_eq_true, Bool.not_eq_true'] at hc
      simp [rlStep, hst, hc])
    (fun q c _ hcond => by
      simp only [Bool.and_eq_true, decide_eq_true_eq] at hcond
      simp only [rlStep, hst, hcond.1, if_true]
      split
      · rename_i heq; rw [heq]
      · rename_i hne heq; exact absurd (by rw [← hcond.2, heq]) hne)
    (fun q c hc hcond => by
      simp only [rlStep, hst]
      cases hb : isBlank c with
      | true =>
        simp only [hb, Bool.true_and, decide_eq_false_iff_not] at hcond
        rw [if_pos rfl]
        split
        · rename_i heq; exact absurd (by rw [heq]) hcond
        · exact ⟨.invalid, _, rfl, by rintro ⟨⟩⟩
      | false => simp [hblank c hc hb])]
  simp only [Bool.and_eq_true, decide_eq_true_eq]
  constructor
  · rintro ⟨u, t, rest, rfl, hu, -, ⟨ht, hok⟩, hrun⟩
    exact ⟨u, t, rest, rfl, hu, ht, hok, hrun⟩
  · rintro ⟨u, t, rest, rfl, hu, ht, hok, hrun⟩
    exact ⟨u, t, rest, rfl, hu, by simp [isUrlChar, ht], ⟨ht, hok⟩, hrun⟩

theorem done_spBeforeUrl (hst : ar.state = .rlSpBeforeUrl) :
    Scan.run (rlStep data) p xs ar = .halt .done q ar' ↔
      ∃ ws c rest, xs = ws ++ c :: rest ∧ (∀ k ∈ ws, isBlank k = true) ∧ isUrlChar c = true ∧
        Scan.run (rlStep data) (p + ws.length + 1) rest
          { ar with state := .rlUrl, urlBegin := some (p + ws.length) } = .halt .done q ar' := by
  rw [Scan.halt_iff_while isBlank (fun _ c => !isEol c)
    (fun q _ => { ar with state := .rlUrl, urlBegin := some q })
    (fun q c hc => by simp [rlStep, hst, hc])
    (fun q c hc hcond => by simp only [Bool.not_eq_true'] at hcond; simp [rlStep, hst, hc, hcond])
    (fun q c hc hcond => by
      simp only [Bool.not_eq_false'] at hcond
      exact ⟨.invalid, ar, by simp [rlStep, hst, hc, hcond], by rintro ⟨⟩⟩)]
  constructor
  · rintro ⟨ws, c, rest, rfl, hws, hc, hcond, hrun⟩
    exact ⟨ws, c, rest, rfl, hws, by simp [isUrlChar, hc, hcond], hrun⟩
  · rintro ⟨ws, c, rest, rfl, hws, hc, hrun⟩
    simp only [isUrlChar, Bool.and_eq_true] at hc
    exact ⟨ws, c, rest, rfl, hws, by simpa using hc.1, hc.2, hrun⟩

theorem done_method (hst : ar.state = .rlMethod) :
    Scan.run (rlStep data) p xs ar = .halt .done q ar' ↔
      ∃ ls rest, xs = ls ++ SP :: rest ∧ (∀ c ∈ ls, isAlpha c = true) ∧
        parseMethod (slice data (ar.methodBegin.getD 0) (p + ls.length)) ≠ .invalid ∧
        Scan.run (rlStep data) (p + ls.length + 1) rest { ar with
          method := parseMethod (slice data (ar.methodBegin.getD 0) (p + ls.length))
          state := .rlSpBeforeUrl } = .halt .done q ar' := by
  rw [Scan.halt_iff_while isAlpha
    (fun q c => c == SP && decide (parseMethod (slice data (ar.methodBegin.getD 0) q) ≠ .invalid))
    (fun q _ => { ar with
      method := parseMethod (slice data (ar.methodBegin.getD 0) q)
      state := .rlSpBeforeUrl })
    (fun q c hc => by simp [rlStep, hst, rlMethodStep, hc])
    (fun q c _ hcond => by
      simp only [Bool.and_eq_true, beq_iff_eq, decide_eq_true_eq] at hcond
      simp [rlStep, hst, rlMethodStep, hcond.1, hcond.2, show isAlpha SP = false by decide])
    (fun q c hc hcond => by
      by_cases hsp : c = SP
      · subst hsp
        have hm : parseMethod (slice data (ar.methodBegin.getD 0) q) = .invalid := by simpa using hcond
        exact ⟨.invalid, { ar with method := .invalid }, by simp [rlStep, hst, rlMethodStep, hc, hm], by rintro ⟨⟩⟩
      · exact ⟨.invalid, ar, by simp [rlStep, hst, rlMethodStep, hc, hsp], by rintro ⟨⟩⟩)]
  simp only [Bool.and_eq_true, beq_iff_eq, decide_eq_true_eq]
  constructor
  · rintro ⟨ls, c, rest, rfl, hls, -, ⟨rfl, hm⟩, hrun⟩
    exact ⟨ls, rest, rfl, hls, hm, hrun⟩
  · rintro ⟨ls, rest, rfl, hls, hm, hrun⟩
    exact ⟨ls, SP, rest, rfl, hls, by decide, ⟨rfl, hm⟩, hrun⟩

/-- The first letter, which `S_RL_BEGIN` hands on to `S_RL_METHOD`. -/
theorem done_begin (hst : ar.state = .rlBegin) :
    Scan.run (rlStep data) p xs ar = .halt .done q ar' ↔
      ∃ c rest, xs = c :: rest ∧ isAlpha c = true ∧
        Scan.run (rlStep data) (p + 1) rest { ar with methodBegin := some p, state := .rlMethod } = .halt .done q ar' :=
  Scan.halt_iff_guard _ _ (fun c hc => by simp [rlStep, hst, rlMethodStep, hc])
    (fun c hc => ⟨.invalid, ar, by simp [rlStep, hst, hc], nofun⟩)

end Done

/-! ### The accepted lines -/

/-- Where the URL begins. -/
def RequestLine.urlPos (l : RequestLine) : ℕ := l.method.name.length + 1 + l.blanks.length

/-- The archive at the end of the URL. -/
def RequestLine.urlArchive (l : RequestLine) (data : List Byte) : ParseArchive :=
  (parseUrl data l.urlPos (l.urlPos + l.url.length) { parseArchiveInit with
    methodBegin := some 0
    method := l.method
    urlBegin := some l.urlPos
    state := .rlSpBeforeVersion }).2

/-- The archive at the end of the line. -/
def RequestLine.archive (l : RequestLine) (data : List Byte) : ParseArchive :=
  (l.urlArchive data).withVersion (decimal l.major) (decimal l.minor) .rlLfAfterVersion

theorem urlArchive_frame (l : RequestLine) (data : List Byte) :
    l.urlArchive data = { parseArchiveInit with
      methodBegin := some 0
      method := l.method
      urlBegin := some l.urlPos
      state := .rlSpBeforeVersion
      requestUrlString := ⟨.buf l.urlPos, l.url.length⟩
      url := (l.urlArchive data).url } := by
  unfold RequestLine.urlArchive
  rw [parseUrl_frame]
  simp

theorem done_urlArchive {data xs : List Byte} {p q : ℕ} {ar' : ParseArchive} (l : RequestLine) :
    Scan.run (rlStep data) p xs (l.urlArchive data) = .halt .done q ar' ↔
      ∃ ws h t t' P major minor rest, xs = ws ++ ([h, t, t', P] ++ SLASH :: (major ++ DOT :: (minor ++ CR :: LF :: rest))) ∧
        (∀ c ∈ ws, isBlank c = true) ∧
        isLetter 0x48 h = true ∧ isLetter 0x54 t = true ∧ isLetter 0x54 t' = true ∧ isLetter 0x50 P = true ∧
        IsVersionNumber major ∧ IsVersionNumber minor ∧
        q = p + ws.length + 5 + major.length + minor.length + 2 ∧
        ar' = (l.urlArchive data).withVersion (decimal major) (decimal minor) .rlLfAfterVersion := by
  have hf := urlArchive_frame l data
  have hslash : { l.urlArchive data with state := .rlVersionHTTPSlash } =
      (l.urlArchive data).withVersion 0 0 .rlVersionHTTPSlash := by
    rw [hf]; rfl
  rw [done_spBeforeVersion (by rw [hf])]
  constructor
  · rintro ⟨ws, h, t, t', P, rest, rfl, hws, hh, ht, ht', hP, hrun⟩
    rw [hslash] at hrun
    obtain ⟨major, minor, rest, rfl, hmajor, hminor, rfl, rfl⟩ := (done_versionHTTPSlash 0 0).mp hrun
    rw [versionDigits_iff] at hmajor hminor
    refine ⟨ws, h, t, t', P, major, minor, rest, by simp, hws, hh, ht, ht', hP, hmajor, hminor, rfl, ?_⟩
    rw [foldl_accDigit hmajor, foldl_accDigit hminor]
  · rintro ⟨ws, h, t, t', P, major, minor, rest, rfl, hws, hh, ht, ht', hP, hmajor, hminor, rfl, rfl⟩
    refine ⟨ws, h, t, t', P, major ++ DOT :: (minor ++ CR :: LF :: rest), by simp, hws, hh, ht, ht', hP, ?_⟩
    rw [hslash, done_versionHTTPSlash]
    refine ⟨major, minor, rest, rfl, (versionDigits_iff _).mpr hmajor, (versionDigits_iff _).mpr hminor, rfl, ?_⟩
    rw [foldl_accDigit hmajor, foldl_accDigit hminor]

theorem line_layout {data : List Byte} {l : RequestLine} {c s t : Byte} {ls u rest : List Byte}
    (hcls : c :: ls = l.method.name) (hurl : l.url = s :: u)
    (hd : data = c :: (ls ++ SP :: (l.blanks ++ s :: (u ++ t :: rest)))) :
    slice data 0 (0 + 1 + ls.length) = l.method.name ∧ 0 + 1 + ls.length + 1 + l.blanks.length = l.urlPos ∧
      0 + 1 + ls.length + 1 + l.blanks.length + 1 + u.length = l.urlPos + l.url.length ∧
      slice data l.urlPos (l.urlPos + l.url.length + 1) = s :: (u ++ [t]) := by
  have hlen := congrArg List.length hcls
  have hulen := congrArg List.length hurl
  rw [List.length_cons] at hlen hulen
  have hpos : 0 + 1 + ls.length + 1 + l.blanks.length = l.urlPos := by
    rw [RequestLine.urlPos]
    omega
  refine ⟨?_, hpos, by omega, ?_⟩
  · rw [hd, ← hcls]
    simp [slice, Nat.add_comm 1]
  · refine slice_eq_of_append (c :: ls ++ SP :: l.blanks) rest (by rw [hd]; simp) ?_ ?_
    · simp only [List.length_append, List.length_cons]
      omega
    · simp only [List.length_append, List.length_cons, List.length_nil]
      omega

theorem rlScan_done_line {data : List Byte} {q : ℕ} {ar' : ParseArchive}
    (hrun : rlScan data parseArchiveInit = .halt .done q ar') :
    ∃ l : RequestLine, l.Grammar ∧ l.bytes <+: data ∧ q + 1 = l.bytes.length ∧ ar' = l.archive data := by
  rw [rlScan, show parseArchiveInit.nextParsePos = 0 from rfl, List.drop_zero] at hrun
  obtain ⟨c, r₁, h₁, hc, hrun₁⟩ := (done_begin rfl).mp hrun
  obtain ⟨ls, r₂, rfl, hls, hm, hrun₂⟩ := (done_method rfl).mp hrun₁
  obtain ⟨ws, s, r₃, rfl, hws, hs, hrun₃⟩ := (done_spBeforeUrl rfl).mp hrun₂
  obtain ⟨u, t, r₄, rfl, hu, ht, hok, hrun⟩ := (done_url rfl).mp hrun₃
  clear hrun₁ hrun₂ hrun₃
  -- the method is the one whose name has been read
  have hname : slice data 0 (0 + 1 + ls.length) = c :: ls := by
    rw [h₁]
    simp [slice, Nat.add_comm 1]
  simp only [Option.getD_some, hname] at hm hok hrun
  have hcls := parseMethod_eq hm
  generalize parseMethod (c :: ls) = m at hm hok hrun hcls
  obtain ⟨l, rfl, rfl, hurl⟩ : ∃ l : RequestLine, l.method = m ∧ l.blanks = ws ∧ l.url = s :: u :=
    ⟨⟨m, ws, s :: u, [], [], [], []⟩, rfl, rfl, rfl⟩
  obtain ⟨-, hpos, hend, hslice⟩ := line_layout hcls hurl h₁
  rw [hend] at hok hrun
  rw [hpos] at hok hrun
  -- the URL begins with a slash
  obtain rfl := (parseUrl_status _ hslice).mp hok
  obtain ⟨ws', h, t₁, t₂, P, major, minor, rest, rfl, hws', hh, ht₁, ht₂, hP, hmajor, hminor, rfl, rfl⟩ :=
    (done_urlArchive l).mp hrun
  refine ⟨{ l with sep := t :: ws', http := [h, t₁, t₂, P], major := major, minor := minor }, ?_, ?_, ?_, rfl⟩
  · refine ⟨hm, hws, ⟨u, hurl, hu⟩, ⟨by simp, ?_⟩, ⟨h, t₁, t₂, P, rfl, hh, ht₁, ht₂, hP⟩, hmajor, hminor⟩
    simpa [ht] using hws'
  · refine ⟨rest, ?_⟩
    rw [h₁, RequestLine.bytes]
    simp only [← hcls, hurl, CRLF]
    simp
  · have hlen := congrArg List.length hcls
    rw [List.length_cons] at hlen
    simp only [RequestLine.bytes, CRLF, List.length_append, List.length_cons, List.length_nil]
    omega

theorem rlScan_of_line {data : List Byte} {l : RequestLine} (hl : l.Grammar) (hpre : l.bytes <+: data) {q : ℕ}
    (hq : q + 1 = l.bytes.length) : rlScan data parseArchiveInit = .halt .done q (l.archive data) := by
  obtain ⟨rest, hdata⟩ := hpre
  obtain ⟨c, ls, hcls⟩ := name_ne_nil hl.method
  obtain ⟨u, hurl, hu⟩ := hl.url
  obtain ⟨hsep, hblank⟩ := hl.sep
  obtain ⟨t, ws', hsep⟩ := List.exists_cons_of_ne_nil hsep
  obtain ⟨h, t₁, t₂, P, hhttp, hh, ht₁, ht₂, hP⟩ := hl.http
  have halpha := name_isAlpha l.method
  rw [hcls] at halpha
  set r₅ := l.http ++ SLASH :: (l.major ++ DOT :: (l.minor ++ CR :: LF :: rest)) with hr₅
  have hd : data = c :: (ls ++ SP :: (l.blanks ++ SLASH :: (u ++ t :: (ws' ++ r₅)))) := by
    rw [← hdata, RequestLine.bytes, hcls, hurl, hsep, CRLF]
    simp [hr₅]
  obtain ⟨hname, hpos, hend, hslice⟩ := line_layout hcls.symm hurl hd
  rw [rlScan, show parseArchiveInit.nextParsePos = 0 from rfl, List.drop_zero, done_begin rfl]
  refine ⟨c, _, hd, halpha c (by simp), (done_method rfl).mpr ⟨ls, _, rfl, ?_, ?_, ?_⟩⟩
  · exact fun k hk => halpha k (List.mem_cons_of_mem _ hk)
  · simp only [Option.getD_some, hname, parseMethod_name]
    exact hl.method
  simp only [Option.getD_some, hname, parseMethod_name]
  refine (done_spBeforeUrl rfl).mpr ⟨l.blanks, SLASH, _, rfl, hl.blanks, by decide, ?_⟩
  refine (done_url rfl).mpr ⟨u, t, _, rfl, hu, hblank t (by rw [hsep]; simp), ?_, ?_⟩
  · rw [hend]
    simp only [Option.getD_some, hpos]
    exact (parseUrl_status _ hslice).mpr rfl
  · rw [hend]
    simp only [Option.getD_some, hpos]
    refine (done_urlArchive l).mpr ⟨ws', h, t₁, t₂, P, l.major, l.minor, rest, by rw [hr₅, hhttp], ?_, hh, ht₁, ht₂, hP,
      hl.major, hl.minor, ?_, rfl⟩
    · exact fun k hk => hblank k (by rw [hsep]; exact List.mem_cons_of_mem _ hk)
    · have hlen := congrArg List.length hcls
      have hulen := congrArg List.length hurl
      have hseplen := congrArg List.length hsep
      have hhttplen := congrArg List.length hhttp
      simp only [RequestLine.bytes, CRLF, List.length_append, List.length_cons, List.length_nil] at *
      omega

/-- **The language of the request line.**  The loop of `parse_request_line` reaches `done` exactly on the inputs that
begin with a line of the grammar, at its last byte, and what it has recorded then is determined by the line. -/
theorem rlScan_done_iff {data : List Byte} {q : ℕ} {ar' : ParseArchive} :
    rlScan data parseArchiveInit = .halt .done q ar' ↔
      ∃ l : RequestLine, l.Grammar ∧ l.bytes <+: data ∧ q + 1 = l.bytes.length ∧ ar' = l.archive data := by
  refine ⟨rlScan_done_line, ?_⟩
  rintro ⟨l, hl, hpre, hq, rfl⟩
  exact rlScan_of_line hl hpre hq

/-! ### The accumulators -/

/-- What the two version numbers are at most, in each state between two bytes. -/
def ParserState.versionBound : ParserState → ℕ × ℕ
  | .rlVersionMajor | .rlVersionDot => (9, 0)
  | .rlVersionMinor | .rlCrAfterVersion | .rlLfAfterVersion => (9, 9)
  | _ => (0, 0)

/-- The version numbers are within the bounds of the state. -/
def ParseArchive.VersionBounded (ar : ParseArchive) : Prop :=
  ar.version.httpMajor ≤ ar.state.versionBound.1 ∧ ar.version.httpMinor ≤ ar.state.versionBound.2

theorem versionBound_le (st : ParserState) : st.versionBound.1 ≤ 9 ∧ st.versionBound.2 ≤ 9 := by
  cases st <;> decide

theorem parseUrl_version (data : List Byte) (b e : ℕ) (ar : ParseArchive) :
    (parseUrl data b e ar).2.version = ar.version ∧ (parseUrl data b e ar).2.state = ar.state := by
  rw [parseUrl_frame]
  exact ⟨rfl, rfl⟩

theorem rlStep_versionBounded {data : List Byte} {q : ℕ} {c : Byte} {ar ar' : ParseArchive}
    (har : ar.VersionBounded) (h : rlStep data q c ar = .next ar') : ar'.VersionBounded := by
  obtain ⟨hmajor, hminor⟩ := har
  unfold ParseArchive.VersionBounded
  cases hst : ar.state <;> simp only [rlStep, rlMethodStep, expect, hst] at h <;>
    simp only [hst, ParserState.versionBound] at hmajor hminor
  case rlUrl =>
    split_ifs at h
    · have hf := parseUrl_version data (ar.urlBegin.getD 0) q { ar with state := .rlSpBeforeVersion }
      generalize parseUrl data _ q _ = res at h hf
      obtain ⟨hversion, hstate⟩ := hf
      split at h <;> cases h
      simp only at hversion hstate
      rw [hversion, hstate]
      exact ⟨hmajor, hminor⟩
    · cases h
      simp only [hst]
      exact ⟨hmajor, hminor⟩
  case rlVersionHTTPSlash =>
    split_ifs at h with hd
    cases h
    have := accDigit_eq (v := ar.version.httpMajor) (by omega) hd
    have := digit_toNat hd
    simp only [ParserState.versionBound]
    omega
  case rlVersionDot =>
    split_ifs at h with hd
    cases h
    have := accDigit_eq (v := ar.version.httpMinor) (by omega) hd
    have := digit_toNat hd
    simp only [ParserState.versionBound]
    omega
  all_goals
    (try split_ifs at h) <;> cases h <;> (try simp only [hst]) <;> simp only [ParserState.versionBound] <;> omega

/-- The byte that stops the loop finds, or makes, version numbers below 100. -/
theorem rlStep_version_le {data : List Byte} {q : ℕ} {c : Byte} {ar ar' : ParseArchive} {r : Exit}
    (har : ar.VersionBounded) (h : rlStep data q c ar = .halt r ar') :
    ar'.version.httpMajor ≤ 99 ∧ ar'.version.httpMinor ≤ 99 := by
  have hle := versionBound_le ar.state
  obtain ⟨hmajor, hminor⟩ := har
  have hsmall : ar.version.httpMajor ≤ 9 ∧ ar.version.httpMinor ≤ 9 := by omega
  cases hst : ar.state <;> simp only [rlStep, rlMethodStep, expect, hst] at h
  case rlUrl =>
    split_ifs at h
    · have hf := parseUrl_version data (ar.urlBegin.getD 0) q { ar with state := .rlSpBeforeVersion }
      generalize parseUrl data _ q _ = res at h hf
      obtain ⟨hversion, -⟩ := hf
      split at h <;> cases h
      simp only at hversion
      rw [hversion]
      omega
    · cases h
      omega
  case rlVersionMajor =>
    split_ifs at h with hd <;> cases h
    · exact ⟨(accDigit_eq hsmall.1 hd).2, by simp only; omega⟩
    · omega
  case rlVersionMinor =>
    split_ifs at h with hd <;> cases h
    · exact ⟨by simp only; omega, (accDigit_eq hsmall.2 hd).2⟩
    · omega
  all_goals
    (try split_ifs at h) <;> cases h <;> (try simp only) <;> omega

/-- Between two bytes the version numbers have one digit. -/
theorem rlScan_again_version {data : List Byte} {ar : ParseArchive} (h : rlScan data parseArchiveInit = .again ar) :
    ar.version.httpMajor ≤ 9 ∧ ar.version.httpMinor ≤ 9 := by
  have hinv : ar.VersionBounded :=
    Scan.again_inv (f := rlStep data) ParseArchive.VersionBounded (fun q c s s' => rlStep_versionBounded)
      ⟨le_rfl, le_rfl⟩ h
  have hle := versionBound_le ar.state
  exact ⟨hinv.1.trans hle.1, hinv.2.trans hle.2⟩

theorem parseRequestLine_version_le (data : List Byte) :
    (parseRequestLine data parseArchiveInit).2.version.httpMajor ≤ 99 ∧
      (parseRequestLine data parseArchiveInit).2.version.httpMinor ≤ 99 := by
  unfold parseRequestLine
  rcases hs : rlScan data parseArchiveInit with ar | ⟨r, q, ar⟩
  · have := rlScan_again_version hs
    exact ⟨by simp only [rlFinish]; omega, by simp only [rlFinish]; omega⟩
  · obtain ⟨c, t, ht, hstep⟩ := Scan.halt_inv (f := rlStep data) ParseArchive.VersionBounded
      (fun q c s s' => rlStep_versionBounded) ⟨le_rfl, le_rfl⟩ hs
    have := rlStep_version_le ht hstep
    cases r <;> exact this

/-! ### The theorem -/

/-- On an input that begins with a line of the grammar, `parse_request_line` takes that line. -/
theorem parseRequestLine_of_grammar {data : List Byte} {l : RequestLine} (hl : l.Grammar) (hpre : l.bytes <+: data) :
    parseRequestLine data parseArchiveInit =
      (.ok, { l.archive data with nextParsePos := l.bytes.length, state := .hdBegin }) := by
  have hpos : 0 < l.bytes.length := by simp [RequestLine.bytes]
  have hscan : rlScan data parseArchiveInit = .halt .done (l.bytes.length - 1) (l.archive data) :=
    rlScan_done_iff.mpr ⟨l, hl, hpre, by omega, rfl⟩
  unfold parseRequestLine
  rw [hscan, rlFinish, Nat.sub_add_cancel hpos]

/-- The answer `OK` is given on no other input. -/
theorem parseRequestLine_ok {data : List Byte} (h : (parseRequestLine data parseArchiveInit).1 = .ok) :
    ∃ l : RequestLine, l.Grammar ∧ l.bytes <+: data := by
  unfold parseRequestLine at h
  rcases hs : rlScan data parseArchiveInit with ar | ⟨_ | _, q, ar⟩ <;> rw [hs] at h
  · cases h
  · obtain ⟨l, hl, hpre, -⟩ := rlScan_done_iff.mp hs
    exact ⟨l, hl, hpre⟩
  · cases h

theorem archive_requestUrlString {data : List Byte} {l : RequestLine} (hpre : l.bytes <+: data) :
    (l.archive data).requestUrlString.bytes data = l.url := by
  have hspan : (l.archive data).requestUrlString = ⟨.buf l.urlPos, l.url.length⟩ := by
    rw [RequestLine.archive, urlArchive_frame]
    rfl
  obtain ⟨rest, rfl⟩ := hpre
  rw [hspan, Ssstr.bytes, Int.toNat_natCast]
  refine slice_eq_of_append (l.method.name ++ SP :: l.blanks)
    (l.sep ++ (l.http ++ SLASH :: (l.major ++ DOT :: (l.minor ++ CRLF))) ++ rest) ?_ ?_ rfl
  · simp [RequestLine.bytes]
  · simp only [RequestLine.urlPos, List.length_append, List.length_cons]
    omega

/-- **The request-line grammar.**  `parse_request_line` on a fresh archive answers `OK` exactly on the inputs that begin
with a line of the grammar, and then it stands at the end of that line and has recorded its parts; it answers
`INVALID_REQUEST` only if no extension of the input begins with such a line; and the version accumulators stay below
100, at the end and at every byte in between, so that no digit wraps them around. -/
theorem parseRequestLine_grammar (data : List Byte) :
    ((parseRequestLine data parseArchiveInit).1 = .ok ↔ ∃ l : RequestLine, l.Grammar ∧ l.bytes <+: data) ∧
    (∀ l : RequestLine, l.Grammar → l.bytes <+: data →
      let ar := (parseRequestLine data parseArchiveInit).2
      ar.nextParsePos = l.bytes.length ∧ ar.state = .hdBegin ∧ ar.method = l.method ∧
        ar.requestUrlString.bytes data = l.url ∧ ar.version = ⟨decimal l.major, decimal l.minor⟩) ∧
    ((parseRequestLine data parseArchiveInit).1 = .invalidRequest →
      ∀ ext, ∀ l : RequestLine, l.Grammar → ¬ l.bytes <+: data ++ ext) ∧
    ((parseRequestLine data parseArchiveInit).2.version.httpMajor ≤ 99 ∧
      (parseRequestLine data parseArchiveInit).2.version.httpMinor ≤ 99) ∧
    ∀ n ar c, rlScan (data.take n) parseArchiveInit = .again ar → isDigit c = true →
      accDigit ar.version.httpMajor c = ar.version.httpMajor * 10 + (c.toNat - 0x30) ∧
        accDigit ar.version.httpMinor c = ar.version.httpMinor * 10 + (c.toNat - 0x30) := by
  refine ⟨⟨parseRequestLine_ok, ?_⟩, ?_, ?_, parseRequestLine_version_le data, ?_⟩
  · rintro ⟨l, hl, hpre⟩
    rw [parseRequestLine_of_grammar hl hpre]
  · intro l hl hpre
    have hurl := archive_requestUrlString hpre
    have hmethod : (l.archive data).method = l.method := by
      rw [RequestLine.archive, urlArchive_frame]
      rfl
    rw [parseRequestLine_of_grammar hl hpre]
    exact ⟨rfl, rfl, hmethod, hurl, rfl⟩
  · intro hinv ext l hl hpre
    have hlong : parseRequestLine (data ++ ext) parseArchiveInit = parseRequestLine data parseArchiveInit :=
      parseRequestLine_append ext (Nat.zero_le _) (fun _ => rfl) (by rw [hinv]; decide)
    have hok := parseRequestLine_of_grammar hl hpre
    rw [hlong] at hok
    rw [hok] at hinv
    cases hinv
  · intro n ar c hs hc
    have hv := rlScan_again_version hs
    exact ⟨(accDigit_eq hv.1 hc).1, (accDigit_eq hv.2 hc).1⟩

end Lotos
