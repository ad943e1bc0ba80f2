import Mathlib

/-!
# Bytes, spans and status codes

The vocabulary shared by every module: the bytes of a buffer, the character classes the parser's `switch`
labels name, the `int` codes the functions return (`misc.h`, `http_parser.h`) and the spans `ssstr_t`.

A pointer into a buffer is the offset from its start.  What a position of the parser or a span can point to is
the input buffer, a string constant of the program, or nothing (`NULL`).
-/

namespace Lotos

/-- A `char` of a buffer. -/
abbrev Byte := UInt8

/-- The bytes of a string constant. -/
def str (s : String) : List Byte := s.toList.map fun c => UInt8.ofNat c.toNat

def SP : Byte := 0x20
def HT : Byte := 0x09
def CR : Byte := 0x0d
def LF : Byte := 0x0a
def NUL : Byte := 0x00
def SLASH : Byte := 0x2f
def QUESTION : Byte := 0x3f
def DOT : Byte := 0x2e
def COLON : Byte := 0x3a
def MINUS : Byte := 0x2d
def CRLF : List Byte := [CR, LF]

/-- `case 'a' ... 'z': case 'A' ... 'Z':` -/
def isAlpha (c : Byte) : Bool := (0x61 ≤ c && c ≤ 0x7a) || (0x41 ≤ c && c ≤ 0x5a)

/-- `case '0' ... '9':` -/
def isDigit (c : Byte) : Bool := 0x30 ≤ c && c ≤ 0x39

/-- `case ' ': case '\t':` -/
def isBlank (c : Byte) : Bool := c == SP || c == HT

/-- `case '\r': case '\n':` -/
def isEol (c : Byte) : Bool := c == CR || c == LF

/-- The labels of a header name: letters, digits and `-`. -/
def isNameChar (c : Byte) : Bool := isAlpha c || isDigit c || c == MINUS

/-- The letter `upper` (given in upper case) in either case. -/
def isLetter (upper c : Byte) : Bool := c == upper || c == upper + 0x20

/-- The number that decimal digits denote. -/
def decimal (ds : List Byte) : ℕ := ds.foldl (fun n d => n * 10 + (d.toNat - 0x30)) 0

/-- The `int` codes: `OK`, `AGAIN`, `CRLF_LINE` and `ERROR`, which is also `INVALID_REQUEST` (both are `-1`). -/
inductive Status where
  | ok | again | crlfLine | error
  deriving DecidableEq, Repr

/-- `INVALID_REQUEST` and `ERROR` are the same number. -/
abbrev Status.invalidRequest : Status := .error

/-- What a `char *` points to: nothing, an offset of the input buffer, or a string constant. -/
inductive Ptr where
  | null
  | buf (off : ℕ)
  | const (s : List Byte)
  deriving DecidableEq, Repr

/-- A saved position: `NULL` or an offset of the input buffer. -/
def Ptr.ofPos : Option ℕ → Ptr
  | none => .null
  | some p => .buf p

/-- `ssstr_t` -/
structure Ssstr where
  str : Ptr
  len : ℤ
  deriving DecidableEq, Repr

/-- `ssstr_init`, and what `memset` makes of a span. -/
def Ssstr.init : Ssstr := ⟨.null, 0⟩

/-- The bytes from position `b` up to `e`, not included. -/
def slice (data : List Byte) (b e : ℕ) : List Byte := (data.drop b).take (e - b)

/-- The bytes a span denotes. -/
def Ssstr.bytes (data : List Byte) (s : Ssstr) : List Byte :=
  match s.str with
  | .null => []
  | .buf p => slice data p (p + s.len.toNat)
  | .const c => c.take s.len.toNat

/-! ### Slices -/

theorem slice_append {xs : List Byte} (ys : List Byte) {b e : ℕ} (h : e ≤ xs.length) :
    slice (xs ++ ys) b e = slice xs b e := by
  unfold slice
  rw [List.drop_append, List.take_append_of_le_length]
  rw [List.length_drop]
  omega

/-- A span of the buffer is within its first `n` bytes. -/
def Ssstr.InBounds (n : ℕ) (s : Ssstr) : Prop := ∀ p, s.str = .buf p → p + s.len.toNat ≤ n

theorem Ssstr.InBounds.mono {n m : ℕ} {s : Ssstr} (h : s.InBounds n) (hnm : n ≤ m) : s.InBounds m :=
  fun p hp => (h p hp).trans hnm

theorem Ssstr.InBounds.start {n p : ℕ} {s : Ssstr} (h : s.InBounds n) (hp : s.str = .buf p) : p ≤ n :=
  (Nat.le_add_right _ _).trans (h p hp)

theorem bytes_append {data : List Byte} (more : List Byte) {s : Ssstr} (h : s.InBounds data.length) :
    s.bytes (data ++ more) = s.bytes data := by
  obtain ⟨ptr, len⟩ := s
  cases ptr with
  | buf p => exact slice_append more (h p rfl)
  | _ => rfl

theorem slice_eq_of_append {data mid : List Byte} (pre post : List Byte) {b e : ℕ} (h : data = pre ++ (mid ++ post))
    (hb : pre.length = b) (he : e = b + mid.length) : slice data b e = mid := by
  subst h hb he
  simp [slice]

/-! ### Decimal numbers -/

section Decimal

theorem digit_of_isDigit {c : Char} (h : c.isDigit = true) :
    isDigit (UInt8.ofNat c.toNat) = true ∧ (UInt8.ofNat c.toNat).toNat = c.toNat := by
  have hlow : 48 ≤ c.toNat ∧ c.toNat ≤ 57 := by
    simp only [Char.isDigit, Bool.and_eq_true, decide_eq_true_eq, ge_iff_le, UInt32.le_iff_toNat_le] at h
    exact h
  have hval : (UInt8.ofNat c.toNat).toNat = c.toNat := by
    rw [UInt8.toNat_ofNat']
    omega
  refine ⟨?_, hval⟩
  simp only [isDigit, Bool.and_eq_true, decide_eq_true_eq, UInt8.le_iff_toNat_le, hval]
  exact hlow

theorem decimal_str (cs : List Char) (hcs : ∀ c ∈ cs, c.isDigit = true) (n : ℕ) :
    (cs.map fun c => UInt8.ofNat c.toNat).foldl (fun n d => n * 10 + (d.toNat - 0x30)) n = Nat.ofDigitChars 10 cs n := by
  induction cs generalizing n with
  | nil => rfl
  | cons c cs ih =>
    rw [List.map_cons, List.foldl_cons, ih (fun c hc => hcs c (List.mem_cons_of_mem _ hc)), Nat.ofDigitChars_cons,
      (digit_of_isDigit (hcs c List.mem_cons_self)).2, Nat.mul_comm]
    rfl

/-- **What `%d` writes of a number denotes it.** -/
theorem decimal_toString (n : ℕ) : (∀ d ∈ str (toString (n : ℤ)), isDigit d = true) ∧
    decimal (str (toString (n : ℤ))) = n := by
  have hlist : (toString (n : ℤ)).toList = Nat.toDigits 10 n := by
    change (toString n).toList = _
    exact Nat.toList_repr
  have hdigits : ∀ c ∈ Nat.toDigits 10 n, c.isDigit = true := fun c hc => Nat.isDigit_of_mem_toDigits (by decide) le_rfl hc
  unfold str decimal
  rw [hlist]
  refine ⟨?_, ?_⟩
  · intro d hd
    obtain ⟨c, hc, rfl⟩ := List.mem_map.mp hd
    exact (digit_of_isDigit (hdigits c hc)).1
  · rw [decimal_str _ hdigits]
    exact Nat.ofDigitChars_toDigits (by decide) le_rfl

end Decimal

end Lotos
