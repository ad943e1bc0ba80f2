import Lotos.Request.Frame

/-!
# What the handlers make of a value

`request_handle_hd_content_length` takes the number that `atoi` reads.  For a value of digits alone `strtol` reads the
number they denote, up to the largest `long`; what is left of it in an `int` is something else for most numbers from 2^31
on.
-/

namespace Lotos

/-! ### `atoi` on digits -/

section Digits

variable {value : List Byte}

theorem isSpace_of_isDigit {d : Byte} (h : isDigit d = true) : isSpace d = false ∧ d ≠ 0x2d ∧ d ≠ 0x2b := by
  revert d
  decide +kernel

theorem strtolParts_digits (hne : value ≠ []) (hdigits : ∀ d ∈ value, isDigit d = true) :
    strtolParts value = (false, value) := by
  obtain ⟨d, ds, rfl⟩ := List.exists_cons_of_ne_nil hne
  obtain ⟨hspace, hminus, hplus⟩ := isSpace_of_isDigit (hdigits d (by simp))
  have htake : (d :: ds).takeWhile isDigit = d :: ds := List.takeWhile_eq_self_iff.mpr hdigits
  unfold strtolParts
  rw [List.dropWhile_cons_of_neg (by simp [hspace])]
  split
  · rename_i heq
    exact absurd (List.cons.inj heq).1 hminus
  · rename_i heq
    exact absurd (List.cons.inj heq).1 hplus
  · rw [htake]

theorem atoi_digits (hne : value ≠ []) (hdigits : ∀ d ∈ value, isDigit d = true) :
    atoi value = toInt (min (decimal value : ℤ) (2 ^ 63 - 1)) := by
  unfold atoi strtol
  rw [strtolParts_digits hne hdigits]

theorem toInt_cases (n : ℤ) :
    (n % 2 ^ 32 < 2 ^ 31 ∧ toInt n = n % 2 ^ 32) ∨ (2 ^ 31 ≤ n % 2 ^ 32 ∧ toInt n < 0) := by
  rw [toInt, Int.bmod_def]
  split_ifs <;> omega

/-- **When `atoi` reads a number or none.**  The result is the number, or is not positive. -/
theorem atoi_exact_iff (hne : value ≠ []) (hdigits : ∀ d ∈ value, isDigit d = true) :
    (atoi value ≤ 0 ∨ atoi value = decimal value) ↔
      (decimal value < 2 ^ 31 ∨ 2 ^ 63 ≤ decimal value ∨ decimal value % 2 ^ 32 = 0 ∨ 2 ^ 31 ≤ decimal value % 2 ^ 32) := by
  rw [atoi_digits hne hdigits]
  generalize decimal value = n
  by_cases hlong : n < 2 ^ 63
  · rw [min_eq_left (by omega)]
    rcases toInt_cases n with ⟨hlow, heq⟩ | ⟨hhigh, hneg⟩
    · rw [heq]
      omega
    · constructor
      · intro _
        omega
      · exact fun _ => .inl hneg.le
  · rw [min_eq_right (by omega)]
    have hmax : toInt (2 ^ 63 - 1) ≤ 0 := by decide
    constructor
    · exact fun _ => .inr (.inl (by omega))
    · exact fun _ => .inl hmax

end Digits

/-! ### `Content-Length` -/

section Length

variable {env : Env} {c : Conn} {pre value post : List Byte}

/-- The handler has answered with an error, or goes on with the length that the digits denote. -/
def LengthExact (env : Env) (c : Conn) (value : List Byte) : Prop :=
  let res := requestHandleHdContentLength env c .contentLength
  res.2.ghost.answers = c.ghost.answers ++ [400] ∨
    (res.2.ghost.answers = c.ghost.answers ∧ res.2.req.par.contentLength = decimal value)

/-- What the handler does with the number that `atoi` reads. -/
theorem requestHandleHdContentLength_eq (hib : c.req.ib = pre ++ (value ++ CR :: post))
    (hval : c.req.par.headerVal = ⟨.buf pre.length, value.length⟩) (hsolid : ∃ b ∈ value, isSpace b = false) :
    requestHandleHdContentLength env c .contentLength =
      if atoi value ≤ 0 then responseAssembleErrBuffer env (requestHandleHdBase c .contentLength) 400
      else (.ok, (requestHandleHdBase c .contentLength).mapPar fun ar => { ar with contentLength := atoi value }) := by
  have hmem : ((requestHandleHdBase c .contentLength).req.par.reqHeaders .contentLength).mem c.req.ib =
      value ++ CR :: post := by
    have hslot : (requestHandleHdBase c .contentLength).req.par.reqHeaders .contentLength = c.req.par.headerVal := by
      simp only [requestHandleHdBase, mapPar_par, Function.update_self]
    rw [hslot, hval, hib]
    exact List.drop_left' rfl
  unfold requestHandleHdContentLength
  simp only [hdBase_ib, hmem, atoi_append_line hsolid]

/-- **`Content-Length` is read exactly or refused**, of digits alone and of any length, if and only if the number they denote
is less than 2^31, or too large for a `long`, or zero or at least 2^31 in its low 32 bits. -/
theorem contentLength_exact_iff (env : Env) (c : Conn) (pre value post : List Byte) (hne : value ≠ [])
    (hdigits : ∀ d ∈ value, isDigit d = true) (hib : c.req.ib = pre ++ (value ++ CR :: post))
    (hval : c.req.par.headerVal = ⟨.buf pre.length, value.length⟩) :
    LengthExact env c value ↔
      (decimal value < 2 ^ 31 ∨ 2 ^ 63 ≤ decimal value ∨ decimal value % 2 ^ 32 = 0 ∨ 2 ^ 31 ≤ decimal value % 2 ^ 32) := by
  have hsolid : ∃ b ∈ value, isSpace b = false := by
    obtain ⟨d, hd⟩ := List.exists_mem_of_ne_nil value hne
    exact ⟨d, hd, (isSpace_of_isDigit (hdigits d hd)).1⟩
  rw [← atoi_exact_iff hne hdigits, LengthExact, requestHandleHdContentLength_eq hib hval hsolid]
  by_cases hpos : atoi value ≤ 0
  · rw [if_pos hpos]
    constructor
    · exact fun _ => .inl hpos
    · intro _
      left
      rw [assembleErr_eq]
      rfl
  · rw [if_neg hpos]
    constructor
    · rintro (hans | ⟨-, hlen⟩)
      · have hlength := congrArg List.length hans
        simp only [List.length_append, List.length_singleton] at hlength
        change c.ghost.answers.length = _ at hlength
        omega
      · exact .inr hlen
    · rintro (hle | heq)
      · exact absurd hle hpos
      · exact .inr ⟨rfl, heq⟩

/-- A connection that has just read a value of digits. -/
def Conn.lengthRead (value : List Byte) : Conn :=
  ⟨{ Request.fresh with
      ib := value ++ CRLF
      par := { parseArchiveInit with headerVal := ⟨.buf 0, value.length⟩ } },
    true, false, 0, ⟨[], [], false, 0, [], [], []⟩⟩

/-- A length of a few digits. -/
theorem contentLength_exact_iff_short : LengthExact ⟨fun _ => none, [], ⟨[], [], []⟩⟩ (.lengthRead (str "42")) (str "42") ↔
    (decimal (str "42") < 2 ^ 31 ∨ 2 ^ 63 ≤ decimal (str "42") ∨ decimal (str "42") % 2 ^ 32 = 0 ∨
      2 ^ 31 ≤ decimal (str "42") % 2 ^ 32) :=
  contentLength_exact_iff _ _ [] (str "42") [LF] (by decide +kernel) (by decide +kernel) rfl rfl

/-- Of 4294967297 the handler reads 1. -/
theorem not_forall_contentLength_exact :
    ¬ ∀ (env : Env) (c : Conn) (pre value post : List Byte), value ≠ [] → (∀ d ∈ value, isDigit d = true) →
      c.req.ib = pre ++ (value ++ CR :: post) → c.req.par.headerVal = ⟨.buf pre.length, value.length⟩ →
      LengthExact env c value := by
  intro hall
  have hexact := hall ⟨fun _ => none, [], ⟨[], [], []⟩⟩ (.lengthRead (str "4294967297")) [] (str "4294967297") [LF]
    (by decide +kernel) (by decide +kernel) rfl rfl
  have hread : atoi (str "4294967297") = 1 := by decide +kernel
  have heq := @requestHandleHdContentLength_eq ⟨fun _ => none, [], ⟨[], [], []⟩⟩ (.lengthRead (str "4294967297")) []
    (str "4294967297") [LF] rfl rfl ⟨0x34, by decide +kernel, by decide⟩
  rw [LengthExact, heq, hread] at hexact
  rcases hexact with hans | ⟨-, hlen⟩
  · cases hans
  · exact absurd hlen (by decide +kernel)

end Length

end Lotos
