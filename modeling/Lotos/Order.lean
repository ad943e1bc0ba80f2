import Lotos.Lib.ThreeWay
import Lotos.Lib.Words
import Lotos.Strings

/-!
# The order of strings (`ssstr_cmp`)

`SpanMem` is a memory with the `ssstr_t` in it, so that a span is known by its address and its bytes by the pointer it holds:
two spans may be at one address, hold one pointer, or have the same bytes in two places.  `SpanMem.ssstrCmp` is `ssstr_cmp`
with its shortcuts and its loop.

`SpanMem.content` is what it compares.  The answer is that of the order of the contents (`cmp_agrees`), and so is that of the
`ssstrCmp` on the spans of the input buffer and of the constants (`ssstrCmp_shows`).
-/

namespace Lotos

open Words ThreeWay

/-! ### Spans in memory -/

/-- A `ssstr_t` as it is in memory; the address 0 is `NULL`. -/
structure RawSpan where
  str : ℕ
  len : ℤ
  deriving DecidableEq, Repr

structure SpanMem where
  byte : Memory
  /-- the `ssstr_t` at an address -/
  span : ℕ → RawSpan

/-- The loop of `ssstr_cmp` for the `n` bytes that are left, from two pointers on: what it returns, if it does. -/
def cmpLoop (mem : Memory) (l r : ℕ) : ℕ → Option ℤ
  | 0 => none
  | n + 1 =>
    if charVal (mem l) < charVal (mem r) then some (-1)
    else if charVal (mem l) > charVal (mem r) then some 1
    else cmpLoop mem (l + 1) (r + 1) n

/-- The bytes from an address on. -/
def bytesAt (mem : Memory) (a n : ℕ) : List Byte := (List.range n).map fun i => mem (a + i)

namespace SpanMem

variable (m : SpanMem)

/-- `ssstr_cmp` -/
def ssstrCmp (l r : ℕ) : ℤ :=
  if l = r ∨ ((m.span l).str = (m.span r).str ∧ (m.span l).len = (m.span r).len) then 0
  else if (m.span l).str = 0 then -1
  else if (m.span r).str = 0 then 1
  else
    let llen := (m.span l).len
    let rlen := (m.span r).len
    let minlen := if llen > rlen then rlen else llen
    (cmpLoop m.byte (m.span l).str (m.span r).str minlen.toNat).getD
      (if rlen = llen then 0 else if llen < rlen then -1 else 1)

/-- The bytes of the span at an address. -/
def bytes (p : ℕ) : List Byte := bytesAt m.byte (m.span p).str (m.span p).len.toNat

/-- What is compared: nothing for `NULL`, which is the smallest, and otherwise the bytes as `char`. -/
def content (p : ℕ) : WithBot (List ℤ) := if (m.span p).str = 0 then ⊥ else ((m.bytes p).map charVal : List ℤ)

/-- The span is `NULL` with the length 0, or has a length. -/
structure Formed (p : ℕ) : Prop where
  null : (m.span p).str = 0 → (m.span p).len = 0
  len : 0 ≤ (m.span p).len

end SpanMem

/-! ### The loop -/

theorem bytesAt_zero (mem : Memory) (a : ℕ) : bytesAt mem a 0 = [] := rfl

theorem bytesAt_succ (mem : Memory) (a n : ℕ) : bytesAt mem a (n + 1) = mem a :: bytesAt mem (a + 1) n := by
  rw [bytesAt, List.range_succ_eq_map, List.map_cons, List.map_map]
  refine congrArg (mem a :: ·) (List.map_congr_left fun i _ => ?_)
  exact congrArg mem (by omega)

theorem bytesAt_length (mem : Memory) (a n : ℕ) : (bytesAt mem a n).length = n := by
  rw [bytesAt, List.length_map, List.length_range]

/-- The loop looks for the first difference of the bytes, up to the shorter length. -/
theorem cmpLoop_eq (mem : Memory) (l r n m : ℕ) :
    cmpLoop mem l r (min n m) = firstDiff ((bytesAt mem l n).map charVal) ((bytesAt mem r m).map charVal) := by
  induction n generalizing l r m with
  | zero =>
    rw [Nat.zero_min, cmpLoop, bytesAt_zero, List.map_nil, firstDiff]
    rintro _ _ _ _ ⟨⟩
  | succ n ih =>
    cases m with
    | zero =>
      rw [Nat.min_zero, cmpLoop, bytesAt_zero, List.map_nil, firstDiff]
      rintro _ _ _ _ _ ⟨⟩
    | succ m =>
      rw [Nat.succ_min_succ, cmpLoop, bytesAt_succ, bytesAt_succ, List.map_cons, List.map_cons, firstDiff]
      split_ifs
      · rfl
      · rfl
      · exact ih (l + 1) (r + 1) m

theorem charVal_injective : Function.Injective charVal := by
  intro a b h
  have hcmp : cmpBytes [a] [b] = 0 := by simp [cmpBytes, h]
  exact (List.cons.inj (cmpBytes_eq_zero.mp hcmp)).1

/-! ### The order -/

section Order

variable {m : SpanMem} {l r : ℕ}

theorem content_eq_bot : m.content l = ⊥ ↔ (m.span l).str = 0 := by
  unfold SpanMem.content
  split_ifs with h
  · exact iff_of_true rfl h
  · exact iff_of_false (WithBot.coe_ne_bot) h

theorem content_of_ne (h : (m.span l).str ≠ 0) : m.content l = ((m.bytes l).map charVal : List ℤ) := if_neg h

theorem content_eq_iff : m.content l = m.content r ↔
    ((m.span l).str = 0 ∧ (m.span r).str = 0) ∨ ((m.span l).str ≠ 0 ∧ (m.span r).str ≠ 0 ∧ m.bytes l = m.bytes r) := by
  by_cases hl : (m.span l).str = 0
  · rw [content_eq_bot.mpr hl, eq_comm, content_eq_bot]
    simp [hl]
  · by_cases hr : (m.span r).str = 0
    · rw [content_eq_bot.mpr hr, content_eq_bot]
      simp [hl, hr]
    · rw [content_of_ne hl, content_of_ne hr, WithBot.coe_inj, (List.map_injective_iff.mpr charVal_injective).eq_iff]
      simp [hl, hr]

/-- **What `ssstr_cmp` answers** is the order of the contents. -/
theorem cmp_agrees (hl : m.Formed l) (hr : m.Formed r) : Agrees (m.ssstrCmp l r) (m.content l) (m.content r) := by
  unfold SpanMem.ssstrCmp
  split_ifs with hsame hlnull hrnull
  · refine .inr (.inl ⟨?_, rfl⟩)
    rcases hsame with rfl | ⟨hstr, hlen⟩
    · rfl
    · simp only [SpanMem.content, SpanMem.bytes, hstr, hlen]
  · -- the other span is not `NULL`, or it would be the same
    have hrset : (m.span r).str ≠ 0 := by
      intro hrnull
      exact hsame (.inr ⟨hlnull.trans hrnull.symm, (hl.null hlnull).trans (hr.null hrnull).symm⟩)
    refine .inl ⟨?_, rfl⟩
    rw [content_eq_bot.mpr hlnull, content_of_ne hrset]
    exact WithBot.bot_lt_coe _
  · refine .inr (.inr ⟨?_, rfl⟩)
    rw [content_eq_bot.mpr hrnull, content_of_ne hlnull]
    exact WithBot.bot_lt_coe _
  · rw [content_of_ne hlnull, content_of_ne hrnull]
    obtain ⟨n, hn⟩ := Int.eq_ofNat_of_zero_le hl.len
    obtain ⟨k, hk⟩ := Int.eq_ofNat_of_zero_le hr.len
    have hmin : (if (n : ℤ) > k then (k : ℤ) else n).toNat = min n k := by
      split_ifs <;> omega
    have hlength : (if (k : ℤ) = n then 0 else if (n : ℤ) < k then -1 else 1) = byLength n k := by
      simp only [byLength, Nat.cast_inj, Nat.cast_lt]
    have hagrees := firstDiff_agrees ((m.bytes l).map charVal) ((m.bytes r).map charVal)
    simp only [SpanMem.bytes, hn, hk, Int.toNat_natCast, List.length_map, bytesAt_length,
      ← cmpLoop_eq] at hagrees ⊢
    rw [hmin, hlength]
    exact hagrees.coe

/-- **`ssstr_cmp` is a total order on contents.**  It answers `-1`, `0` or `1`, as the lexicographic order of the bytes as
signed `char` has it, with a proper prefix smaller and `NULL` smallest; the answer is `0` if both spans are `NULL`, or
neither is and their bytes are the same, wherever they are; the other way round it is the opposite; and it is transitive. -/
theorem ssstrCmp_order (m : SpanMem) (l r : ℕ) (hl : m.Formed l) (hr : m.Formed r) :
    (m.ssstrCmp l r = -1 ∨ m.ssstrCmp l r = 0 ∨ m.ssstrCmp l r = 1) ∧
    (m.ssstrCmp l r = -1 ↔ m.content l < m.content r) ∧
    (m.ssstrCmp l r = 1 ↔ m.content r < m.content l) ∧
    (m.ssstrCmp l r = 0 ↔ ((m.span l).str = 0 ∧ (m.span r).str = 0) ∨
      ((m.span l).str ≠ 0 ∧ (m.span r).str ≠ 0 ∧ m.bytes l = m.bytes r)) ∧
    m.ssstrCmp l r = -m.ssstrCmp r l ∧
    ∀ k, m.Formed k → m.ssstrCmp l k ≤ 0 → m.ssstrCmp k r ≤ 0 →
      m.ssstrCmp l r ≤ 0 ∧ (m.ssstrCmp l k < 0 ∨ m.ssstrCmp k r < 0 → m.ssstrCmp l r < 0) := by
  have h := cmp_agrees hl hr
  refine ⟨h.range, h.neg_one_iff, h.one_iff, h.zero_iff.trans content_eq_iff, h.unique (cmp_agrees hr hl).swap, ?_⟩
  intro k hk hlk hkr
  have h₁ := cmp_agrees hl hk
  have h₂ := cmp_agrees hk hr
  rw [h₁.nonpos_iff] at hlk
  rw [h₂.nonpos_iff] at hkr
  rw [h.nonpos_iff, h.neg_iff, h₁.neg_iff, h₂.neg_iff]
  refine ⟨hlk.trans hkr, ?_⟩
  rintro (hlt | hlt)
  · exact hlt.trans_le hkr
  · exact hlk.trans_lt hlt

/-- Three spans: `hello` twice, and its first four letters. -/
def helloMem : SpanMem where
  byte a := (str "..hello..hello").getD a 0
  span p := if p = 1 then ⟨2, 5⟩ else if p = 2 then ⟨9, 5⟩ else if p = 3 then ⟨9, 4⟩ else ⟨0, 0⟩

theorem ssstrCmp_order_hello : helloMem.ssstrCmp 1 2 = 0 ∧ helloMem.ssstrCmp 3 1 = -1 ∧ helloMem.ssstrCmp 0 3 = -1 ∧
    helloMem.ssstrCmp 0 1 < 0 := by
  have hformed : ∀ p, helloMem.Formed p := by
    intro p
    constructor <;> simp only [helloMem] <;> split_ifs <;> decide
  have h₁₂ := ssstrCmp_order helloMem 1 2 (hformed 1) (hformed 2)
  have h₀₁ := ssstrCmp_order helloMem 0 1 (hformed 0) (hformed 1)
  have h₃₁ : helloMem.ssstrCmp 3 1 = -1 := by decide +kernel
  have h₀₃ : helloMem.ssstrCmp 0 3 = -1 := by decide +kernel
  refine ⟨h₁₂.2.2.2.1.mpr (.inr ⟨by decide, by decide, by decide +kernel⟩), h₃₁, h₀₃, ?_⟩
  exact (h₀₁.2.2.2.2.2 3 (hformed 3) (by rw [h₀₃]; decide) (by rw [h₃₁]; decide)).2 (.inl (by rw [h₀₃]; decide))

end Order

/-! ### The spans of the parser -/

section Shows

variable {data : List Byte} {l r s : Ssstr}

/-- What is compared of a span of the parser. -/
def Ssstr.content (data : List Byte) (s : Ssstr) : WithBot (List ℤ) :=
  if s.str = .null then ⊥ else ((s.bytes data).map charVal : List ℤ)

theorem cmpBytes_eq (as bs : List Byte) : cmpBytes as bs =
    (firstDiff (as.map charVal) (bs.map charVal)).getD (byLength as.length bs.length) := by
  induction as generalizing bs with
  | nil => cases bs <;> rfl
  | cons a as ih =>
    cases bs with
    | nil => rfl
    | cons b bs =>
      rw [cmpBytes, List.map_cons, List.map_cons, firstDiff, List.length_cons, List.length_cons, byLength_succ]
      split_ifs
      · rfl
      · rfl
      · exact ih bs

theorem ssstrCmp_agrees (hl : l.str = .null → l.len = 0) (hr : r.str = .null → r.len = 0) :
    Agrees (ssstrCmp data l r) (l.content data) (r.content data) := by
  unfold ssstrCmp
  split_ifs with hsame hlnull hrnull
  · exact .inr (.inl ⟨by rw [hsame], rfl⟩)
  · have hrset : r.str ≠ .null := by
      intro hrnull
      refine hsame ?_
      obtain ⟨lstr, llen⟩ := l
      obtain ⟨rstr, rlen⟩ := r
      rw [Ssstr.mk.injEq]
      exact ⟨hlnull.trans hrnull.symm, (hl hlnull).trans (hr hrnull).symm⟩
    refine .inl ⟨?_, rfl⟩
    rw [Ssstr.content, if_pos hlnull, Ssstr.content, if_neg hrset]
    exact WithBot.bot_lt_coe _
  · refine .inr (.inr ⟨?_, rfl⟩)
    rw [Ssstr.content, if_pos hrnull, Ssstr.content, if_neg hlnull]
    exact WithBot.bot_lt_coe _
  · rw [Ssstr.content, if_neg hlnull, Ssstr.content, if_neg hrnull, cmpBytes_eq]
    have hagrees := firstDiff_agrees ((l.bytes data).map charVal) ((r.bytes data).map charVal)
    rw [List.length_map, List.length_map] at hagrees
    exact hagrees.coe

/-- The span at an address is a span of the parser. -/
structure SpanMem.Shows (m : SpanMem) (data : List Byte) (p : ℕ) (s : Ssstr) : Prop where
  null : (m.span p).str = 0 ↔ s.str = .null
  len : (m.span p).len = s.len
  bytes : m.bytes p = s.bytes data

theorem SpanMem.Shows.content {m : SpanMem} {p : ℕ} (h : m.Shows data p s) : m.content p = s.content data := by
  simp only [SpanMem.content, Ssstr.content, h.null, h.bytes]

/-- **Two models of `ssstr_cmp`.**  On the spans of the parser they are the same. -/
theorem ssstrCmp_shows {m : SpanMem} {p q : ℕ} (hp : m.Formed p) (hq : m.Formed q) (hl : m.Shows data p l)
    (hr : m.Shows data q r) : m.ssstrCmp p q = ssstrCmp data l r := by
  have hraw := cmp_agrees hp hq
  rw [hl.content, hr.content] at hraw
  refine hraw.unique (ssstrCmp_agrees ?_ ?_)
  · intro hnull
    exact hl.len.symm.trans (hp.null (hl.null.mpr hnull))
  · intro hnull
    exact hr.len.symm.trans (hq.null (hr.null.mpr hnull))

/-- `ssstr_equal`, with the bytes of the string. -/
def ssstrEqual (data : List Byte) (s : Ssstr) (cstr : List Byte) : Bool := ssstrCmp data s (.ofConst cstr) = 0

theorem ssstrEqual_iff (hs : s.str = .null → s.len = 0) (cstr : List Byte) :
    ssstrEqual data s cstr = true ↔ s.str ≠ .null ∧ s.bytes data = cstr := by
  have hagrees := @ssstrCmp_agrees data s (.ofConst cstr) hs nofun
  have hconst : (Ssstr.ofConst cstr).content data = (cstr.map charVal : List ℤ) := by
    simp [Ssstr.content, Ssstr.ofConst, Ssstr.bytes]
  rw [ssstrEqual, decide_eq_true_iff, hagrees.zero_iff, hconst]
  unfold Ssstr.content
  split_ifs with hnull
  · exact iff_of_false (WithBot.bot_ne_coe) fun h => h.1 hnull
  · rw [WithBot.coe_inj, (List.map_injective_iff.mpr charVal_injective).eq_iff]
    exact ⟨fun h => ⟨hnull, h⟩, fun h => h.2⟩

end Shows

end Lotos
