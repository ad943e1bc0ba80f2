import Lotos.Request.Defs

/-!
# The length of an error page

`response_append_content_length` announces what `snprintf` returns, which is the length of the whole page; the page itself
is what `snprintf` has written into `rendered_err_page`.  That buffer is made by `buffer_init`, whose argument
`raw_page_size + ERR_HEADER_MAX_LEN` is ignored, so that it has `BUFSIZ` bytes whatever the size of the template.

The template is mapped into memory and read as a C string.  It has its `NUL` from the rest of the last page, which is zero; a
template that fills its pages goes on with whatever is behind them.
-/

namespace Lotos

/-- The template with the text of the status in the place of its `%s`. -/
def ErrPage.render (page : ErrPage) (status : List Byte) : List Byte := page.pre ++ status ++ page.post

/-- The template ends where its file does. -/
def ErrPage.Ends (page : ErrPage) : Prop := page.size % pageSize ≠ 0 ∨ cString page.beyond = []

theorem tail_eq_nil_iff {page : ErrPage} : page.tail = [] ↔ page.Ends := by
  rw [ErrPage.tail, ErrPage.Ends]
  by_cases hsize : page.size % pageSize = 0
  · simp [hsize]
  · simp [hsize]

/-- A response with an error page, after its first headers: a length, and a body. -/
def errResponse (n : ℤ) (body : List Byte) : List Byte :=
  str "Content-Length: " ++ str (toString n) ++ CRLF ++ (str "Connection: close" ++ CRLF) ++ CRLF ++ body

/-- The length that is announced, and the body, can be read back. -/
theorem errResponse_inj {n m : ℕ} {body body' : List Byte} (h : errResponse n body = errResponse m body') :
    n = m ∧ body = body' := by
  have hnotCr : ∀ k : ℕ, ∀ d ∈ str (toString (k : ℤ)), decide (d ≠ CR) = true := by
    intro k d hd
    refine decide_eq_true ?_
    rintro rfl
    exact absurd ((decimal_toString k).1 CR hd) (by decide)
  simp only [errResponse, CRLF, List.append_assoc, List.append_cancel_left_eq, List.cons_append] at h
  have hdigits := congrArg (List.takeWhile fun d => decide (d ≠ CR)) h
  rw [List.takeWhile_append_of_pos (hnotCr n), List.takeWhile_append_of_pos (hnotCr m), List.takeWhile_cons_of_neg (by simp),
    List.takeWhile_cons_of_neg (by simp), List.append_nil, List.append_nil] at hdigits
  refine ⟨?_, ?_⟩
  · rw [← (decimal_toString n).2, hdigits, (decimal_toString m).2]
  · rw [hdigits] at h
    simpa using h

section Page

variable {env : Env} {r : Request} {code : ℕ} {status : List Byte}

theorem statusTable_nul (h : statusTable code = some status) : NUL ∉ status := by
  have htable : ∀ e ∈ statusMap, NUL ∉ str (toString e.1) ++ SP :: str e.2 := by decide +kernel
  obtain ⟨text, hlookup, rfl⟩ := Option.map_eq_some_iff.mp h
  obtain ⟨l₁, l₂, hmap, -⟩ := List.lookup_eq_some_iff.mp hlookup
  exact htable (code, text) (by rw [hmap]; simp)

/-- The request with the status line and the first headers of an error response in `ob`. -/
def Request.errHead (env : Env) (r : Request) (code : ℕ) : Request :=
  (((r.markErr code).responseAppendStatusLine).responseAppendDate env).responseAppendServer.responseAppendContentType

/-- What an error response announces, and what it appends. -/
theorem assembleErr_page (h : statusTable code = some status) :
    (r.assembleErr env code).ob = (r.errHead env code).ob ++
      errResponse (env.errPage.render status ++ env.errPage.tail).length
        (cString ((env.errPage.render status ++ env.errPage.tail).take (bufsiz - 1))) := by
  have htext : ∀ r : Request, r.statusCode = code → r.errPageText env = env.errPage.render status ++ env.errPage.tail := by
    intro r hr
    unfold Request.errPageText
    rw [hr, h]
    rfl
  have hbefore : (r.errHead env code).errPageText env = env.errPage.render status ++ env.errPage.tail := htext _ rfl
  have hob : (r.assembleErr env code).ob = (r.errHead env code).ob ++
      (str "Content-Length: " ++ str (toString ((((r.errHead env code).errPageText env).length : ℕ) : ℤ)) ++ CRLF) ++
      (str "Connection: close" ++ CRLF) ++ CRLF ++ cString (((r.errHead env code).errPageText env).take (bufsiz - 1)) := rfl
  rw [hob, hbefore]
  simp only [errResponse, List.append_assoc]

/-- The `Content-Length` of the error response is the number of bytes after its blank line, and these are the template with
the status in it. -/
def ErrPageAgrees (env : Env) (r : Request) (code : ℕ) (status : List Byte) : Prop :=
  ∃ (n : ℕ) (body : List Byte), (r.assembleErr env code).ob = (r.errHead env code).ob ++ errResponse n body ∧
    n = body.length ∧ body = env.errPage.render status

/-- A page that has been appended as it is ends where its file does, and fits in the buffer. -/
theorem ErrPageAgrees.fits (hstatus : statusTable code = some status) (h : ErrPageAgrees env r code status) :
    env.errPage.Ends ∧ (env.errPage.render status).length < bufsiz := by
  obtain ⟨n, body, hob, rfl, rfl⟩ := h
  rw [assembleErr_page hstatus] at hob
  obtain ⟨hlen, hbody⟩ := errResponse_inj (List.append_cancel_left hob)
  have hcut : (cString ((env.errPage.render status ++ env.errPage.tail).take (bufsiz - 1))).length ≤ bufsiz - 1 := by
    refine (List.takeWhile_prefix _).length_le.trans ?_
    rw [List.length_take]
    exact min_le_left _ _
  have hpos : 0 < bufsiz := by decide
  rw [hbody] at hcut
  rw [List.length_append] at hlen
  exact ⟨tail_eq_nil_iff.mp (List.eq_nil_of_length_eq_zero (by omega)), by omega⟩

theorem ErrPageAgrees.of_fits (hpre : NUL ∉ env.errPage.pre) (hpost : NUL ∉ env.errPage.post)
    (hstatus : statusTable code = some status) (hends : env.errPage.Ends)
    (hlen : (env.errPage.render status).length < bufsiz) : ErrPageAgrees env r code status := by
  have hwhole : (env.errPage.render status).take (bufsiz - 1) = env.errPage.render status :=
    List.take_of_length_le (Nat.le_sub_one_of_lt hlen)
  have hnul : NUL ∉ env.errPage.render status := by
    simp only [ErrPage.render, List.mem_append, not_or]
    exact ⟨⟨hpre, statusTable_nul hstatus⟩, hpost⟩
  have hcstr : cString (env.errPage.render status) = env.errPage.render status := by
    refine List.takeWhile_eq_self_iff.mpr ?_
    intro b hb
    simp only [ne_eq, decide_not, Bool.not_eq_true', decide_eq_false_iff_not]
    rintro rfl
    exact hnul hb
  refine ⟨_, _, (assembleErr_page hstatus).trans ?_, rfl, rfl⟩
  rw [tail_eq_nil_iff.mpr hends, List.append_nil, hwhole, hcstr]

/-- **The length of the error page** agrees with the page, for a template of any length, whatever is behind it in memory, and
for every status, if and only if the template ends where its file does, and the page and its `NUL` fit in `BUFSIZ` bytes. -/
theorem errPageAgrees_iff (env : Env) (hpre : NUL ∉ env.errPage.pre) (hpost : NUL ∉ env.errPage.post) (r : Request)
    (code : ℕ) (status : List Byte) (hstatus : statusTable code = some status) :
    ErrPageAgrees env r code status ↔ env.errPage.Ends ∧ (env.errPage.render status).length < bufsiz :=
  ⟨ErrPageAgrees.fits hstatus, fun h => ErrPageAgrees.of_fits hpre hpost hstatus h.1 h.2⟩

/-- A short template. -/
theorem errPageAgrees_iff_short :
    ErrPageAgrees ⟨fun _ => none, [], ⟨str "<h1>", str "</h1>", []⟩⟩ .fresh 404 (str "404 Not Found") ↔
      (⟨str "<h1>", str "</h1>", []⟩ : ErrPage).Ends ∧
        ((⟨str "<h1>", str "</h1>", []⟩ : ErrPage).render (str "404 Not Found")).length < bufsiz :=
  errPageAgrees_iff ⟨fun _ => none, [], ⟨str "<h1>", str "</h1>", []⟩⟩ (by decide +kernel) (by decide +kernel) .fresh 404 _
    (by decide +kernel)

/-- A template of `BUFSIZ` bytes, and one of a page of memory with something behind it. -/
theorem not_forall_errPageAgrees :
    (¬ ∀ (env : Env) (r : Request) (code : ℕ) (status : List Byte), NUL ∉ env.errPage.pre → NUL ∉ env.errPage.post →
      env.errPage.Ends → statusTable code = some status → ErrPageAgrees env r code status) ∧
    ¬ ∀ (env : Env) (r : Request) (code : ℕ) (status : List Byte), NUL ∉ env.errPage.pre → NUL ∉ env.errPage.post →
      (env.errPage.render status).length < bufsiz → statusTable code = some status → ErrPageAgrees env r code status := by
  have hstatus : statusTable 404 = some (str "404 Not Found") := by decide +kernel
  have hnul : ∀ n, NUL ∉ List.replicate n (0x61 : Byte) := by
    intro n hmem
    exact absurd (List.eq_of_mem_replicate hmem) (by decide)
  refine ⟨?_, ?_⟩
  · intro hall
    have hends : (⟨List.replicate bufsiz 0x61, [], []⟩ : ErrPage).Ends := .inr rfl
    have hfits := (hall ⟨fun _ => none, [], ⟨List.replicate bufsiz 0x61, [], []⟩⟩ .fresh 404 _ (hnul _) (by simp) hends
      hstatus).fits hstatus
    simp only [ErrPage.render, List.length_append, List.length_replicate] at hfits
    omega
  · intro hall
    have hlen : ((⟨List.replicate 4094 0x61, [], [0x62]⟩ : ErrPage).render (str "404 Not Found")).length < bufsiz := by
      rw [ErrPage.render, List.append_nil, List.length_append, List.length_replicate]
      decide +kernel
    have hfits := (hall ⟨fun _ => none, [], ⟨List.replicate 4094 0x61, [], [0x62]⟩⟩ .fresh 404 _ (hnul _) (by simp) hlen
      hstatus).fits hstatus
    rcases hfits.1 with hsize | hbeyond
    · refine hsize ?_
      rw [ErrPage.size, List.length_replicate]
      rfl
    · exact absurd hbeyond (by decide)

end Page

end Lotos
