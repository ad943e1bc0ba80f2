import Lotos.Bytes

/-!
# Strings (`ssstr.c`, `dict.c`) and what they use of the C library

A span denotes bytes of the input buffer `data` or of a string constant.  The functions of the C library that take a
pointer read on from there, past the end of the span, up to a `NUL`; the buffer is followed by one.  So a value that is
not closed by a `NUL` of its own is read together with what comes after it.
-/

namespace Lotos

/-! ### The C library -/

/-- `isspace` in the C locale. -/
def isSpace (c : Byte) : Bool := c == 0x20 || (0x09 ≤ c && c ≤ 0x0d)

/-- `tolower` in the C locale. -/
def toLower (c : Byte) : Byte := if 0x41 ≤ c && c ≤ 0x5a then c + 0x20 else c

/-- A value as an `int` of 32 bits. -/
def toInt (v : ℤ) : ℤ := v.bmod (2 ^ 32)

theorem toInt_eq {v : ℤ} (hlow : 0 ≤ v) (hhigh : v < 2 ^ 31) : toInt v = v := by
  rw [toInt, Int.bmod_def]
  omega

theorem toInt_lt (v : ℤ) : toInt v < 2 ^ 31 := by
  rw [toInt, Int.bmod_def]
  split_ifs <;> omega

/-- The digits and the sign `strtol` reads after the white space. -/
def strtolParts (mem : List Byte) : Bool × List Byte :=
  match mem.dropWhile isSpace with
  | 0x2d :: rest => (true, rest.takeWhile isDigit)
  | 0x2b :: rest => (false, rest.takeWhile isDigit)
  | rest => (false, rest.takeWhile isDigit)

/-- `strtol` to base 10, with a `long` of 64 bits. -/
def strtol (mem : List Byte) : ℤ :=
  match strtolParts mem with
  | (true, ds) => max (-(decimal ds : ℤ)) (-2 ^ 63)
  | (false, ds) => min (decimal ds : ℤ) (2 ^ 63 - 1)

/-- `atoi`, on the memory from the pointer on. -/
def atoi (mem : List Byte) : ℤ := toInt (strtol mem)

/-- What `strlen`, `openat` and `%s` see of the memory from a pointer on. -/
def cString (mem : List Byte) : List Byte := mem.takeWhile (· ≠ NUL)

/-! ### Spans -/

/-- The memory from the pointer of a span on. -/
def Ssstr.mem (data : List Byte) (s : Ssstr) : List Byte :=
  match s.str with
  | .null => []
  | .buf p => data.drop p
  | .const c => c

/-- `SSSTR(cstr)`, and `ssstr_set` with a string constant. -/
def Ssstr.ofConst (c : List Byte) : Ssstr := ⟨.const c, c.length⟩

/-- The buffer with the bytes from `b` on overwritten. -/
def overwrite (data : List Byte) (b : ℕ) (bs : List Byte) : List Byte :=
  data.take b ++ bs ++ data.drop (b + bs.length)

/-- `ssstr_tolower` on a span of the buffer. -/
def ssstrTolower (data : List Byte) (s : Ssstr) : List Byte :=
  match s.str with
  | .buf p => overwrite data p ((s.bytes data).map toLower)
  | _ => data

/-- `ssstr_caseequal`: `strncasecmp` over the length of `cstr`, whatever the length of the span. -/
def ssstrCaseequal (data : List Byte) (s : Ssstr) (cstr : List Byte) : Bool :=
  ((s.mem data).take cstr.length).map toLower == cstr.map toLower

/-- The value of a `char`, which is signed. -/
def charVal (c : Byte) : ℤ := if c < 0x80 then c.toNat else c.toNat - 256

/-- The loop of `ssstr_cmp`, and the comparison of the lengths after it. -/
def cmpBytes : List Byte → List Byte → ℤ
  | [], [] => 0
  | [], _ :: _ => -1
  | _ :: _, [] => 1
  | a :: as, b :: bs => if charVal a < charVal b then -1 else if charVal a > charVal b then 1 else cmpBytes as bs

/-- `ssstr_cmp` -/
def ssstrCmp (data : List Byte) (l r : Ssstr) : ℤ :=
  if l = r then 0
  else if l.str = .null then -1
  else if r.str = .null then 1
  else cmpBytes (l.bytes data) (r.bytes data)

/-! ### The dictionary -/

/-- One byte of `ssstr_hash_sdbm`. -/
def sdbmStep (hash : UInt32) (c : Byte) : UInt32 :=
  (if c < 0x80 then c.toUInt32 else c.toUInt32 + 0xffffff00) + (hash <<< 6) + (hash <<< 16) - hash

/-- `ssstr_hash_sdbm` -/
def ssstrHashSdbm (key : List Byte) : UInt32 := key.foldl sdbmStep 0 &&& 0x7fffffff

/-- `LOTOS_HASH` -/
def lotosHash (key : List Byte) : UInt32 := ssstrHashSdbm key &&& 0xff

/-- `dict_t`: the lists of nodes, by bucket. -/
structure Dict (V : Type) where
  table : UInt32 → List (Ssstr × V)
  used : UInt32

/-- `dict_init` -/
def Dict.init {V : Type} : Dict V := ⟨fun _ => [], 0⟩

/-- `dict_put` -/
def dictPut {V : Type} (data : List Byte) (d : Dict V) (key : Ssstr) (v : V) : Dict V :=
  let hash := lotosHash (key.bytes data)
  ⟨Function.update d.table hash ((key, v) :: d.table hash), d.used + 1⟩

/-- `dict_get`; `none` is its `NULL` for a key that is not found. -/
def dictGet {V : Type} (data : List Byte) (d : Dict V) (key : Ssstr) : Option V :=
  ((d.table (lotosHash (key.bytes data))).find? fun node => ssstrCmp data node.1 key = 0).map Prod.snd

/-! ### Reading past the end of a span -/

section Memory

variable {bs more : List Byte}

theorem takeWhile_append_stop (p : Byte → Bool) {c : Byte} (hc : p c = false) (bs more : List Byte) :
    (bs ++ c :: more).takeWhile p = bs.takeWhile p := by
  induction bs with
  | nil => simp [hc]
  | cons b bs ih => cases hb : p b <;> simp [hb, ih]

theorem dropWhile_append_of_exists {p : Byte → Bool} (h : ∃ c ∈ bs, p c = false) (more : List Byte) :
    ∃ c cs, bs.dropWhile p = c :: cs ∧ (bs ++ more).dropWhile p = c :: (cs ++ more) := by
  induction bs with
  | nil => simp at h
  | cons b bs ih =>
    cases hb : p b with
    | true =>
      obtain ⟨c, cs, h₁, h₂⟩ := ih (by simpa [hb] using h)
      exact ⟨c, cs, by simpa [hb] using h₁, by simpa [hb] using h₂⟩
    | false => exact ⟨b, bs, by simp [hb], by simp [hb]⟩

/-- What `strtol` reads ends with the span, if there is anything but white space in it and no digit follows. -/
theorem strtolParts_append_stop {x : Byte} (hx : isDigit x = false) (h : ∃ c ∈ bs, isSpace c = false) :
    strtolParts (bs ++ x :: more) = strtolParts bs := by
  obtain ⟨c, cs, h₁, h₂⟩ := dropWhile_append_of_exists h (x :: more)
  unfold strtolParts
  rw [h₁, h₂]
  split
  · rename_i rest heq
    cases heq
    simp only [takeWhile_append_stop isDigit hx]
  · rename_i rest heq
    cases heq
    simp only [takeWhile_append_stop isDigit hx]
  · rename_i hminus hplus
    rw [← List.cons_append, takeWhile_append_stop isDigit hx]
    split
    · rename_i heq
      cases heq
      exact absurd rfl (hminus _)
    · rename_i heq
      cases heq
      exact absurd rfl (hplus _)
    · rfl

/-- `atoi` does not read past the end of a line, if its value has anything but white space in it. -/
theorem atoi_append_line (h : ∃ c ∈ bs, isSpace c = false) : atoi (bs ++ CR :: more) = atoi bs := by
  unfold atoi strtol
  rw [strtolParts_append_stop (by decide) h]

theorem atoi_space (h : ∀ c ∈ bs, isSpace c = true) : atoi bs = 0 := by
  have hdrop : bs.dropWhile isSpace = [] := List.dropWhile_eq_nil_iff.mpr h
  have hparts : strtolParts bs = (false, []) := by
    unfold strtolParts
    rw [hdrop]
    rfl
  unfold atoi strtol
  rw [hparts]
  rfl

theorem atoi_append_nul (bs more : List Byte) : atoi (bs ++ NUL :: more) = atoi bs := by
  by_cases h : ∃ c ∈ bs, isSpace c = false
  · unfold atoi strtol
    rw [strtolParts_append_stop (by decide) h]
  · have hspace : ∀ c ∈ bs, isSpace c = true := by
      intro c hc
      by_contra hne
      exact h ⟨c, hc, by simpa using hne⟩
    have hdrop : (bs ++ NUL :: more).dropWhile isSpace = NUL :: more := by
      rw [List.dropWhile_append_of_pos hspace]
      rfl
    have hparts : strtolParts (bs ++ NUL :: more) = (false, []) := by
      unfold strtolParts
      rw [hdrop]
      rfl
    rw [atoi_space hspace, atoi, strtol, hparts]
    rfl

theorem cString_append_nul (bs more : List Byte) : cString (bs ++ NUL :: more) = cString bs :=
  takeWhile_append_stop _ (by decide) bs more

/-- A word without the byte after the span is found at the start of the memory only if it lies within the span. -/
theorem take_append_stop_iff {x : Byte} (hx : toLower x = x) {word : List Byte} (hword : x ∉ word) :
    ((bs ++ x :: more).take word.length).map toLower = word ↔ (bs.take word.length).map toLower = word := by
  by_cases hlen : word.length ≤ bs.length
  · rw [List.take_append_of_le_length hlen]
  · have hlt : bs.length < word.length := not_le.mp hlen
    refine iff_of_false (fun h => hword ?_) (fun h => ?_)
    · rw [← h]
      refine List.mem_map.mpr ⟨x, ?_, hx⟩
      rw [List.take_append]
      refine List.mem_append_right _ ?_
      rw [show word.length - bs.length = (word.length - bs.length - 1) + 1 by omega, List.take_succ_cons]
      exact List.mem_cons_self
    · have := congrArg List.length h
      rw [List.length_map, List.length_take] at this
      omega

end Memory

/-! ### Overwriting -/

section Overwrite

variable {mem : List Byte} {n : ℕ} {ys : List Byte}

theorem overwrite_length (h : n + ys.length ≤ mem.length) : (overwrite mem n ys).length = mem.length := by
  simp only [overwrite, List.length_append, List.length_take, List.length_drop]
  omega

theorem overwrite_take (h : n ≤ mem.length) : (overwrite mem n ys).take (n + ys.length) = mem.take n ++ ys := by
  rw [overwrite, List.take_left']
  rw [List.length_append, List.length_take_of_le h]

theorem overwrite_concat (b : Byte) :
    overwrite mem n (ys ++ [b]) = (mem.take n ++ ys) ++ b :: mem.drop (n + ys.length + 1) := by
  simp [overwrite, Nat.add_assoc]

end Overwrite

/-! ### Lower case -/

theorem ssstrTolower_length (data : List Byte) (s : Ssstr) : (ssstrTolower data s).length = data.length := by
  obtain ⟨ptr, len⟩ := s
  cases ptr with
  | buf p =>
    simp only [ssstrTolower, Ssstr.bytes, overwrite, List.length_append, List.length_take, List.length_drop,
      List.length_map, slice]
    omega
  | _ => rfl

theorem ssstrTolower_append {data : List Byte} (more : List Byte) {s : Ssstr} (h : s.InBounds data.length) :
    ssstrTolower (data ++ more) s = ssstrTolower data s ++ more := by
  obtain ⟨ptr, len⟩ := s
  cases ptr with
  | buf p =>
    have hle : p + len.toNat ≤ data.length := h p rfl
    have hlen : (slice data p (p + len.toNat)).length = len.toNat := by
      simp only [slice, List.length_take, List.length_drop]
      omega
    simp only [ssstrTolower, overwrite, Ssstr.bytes, slice_append more hle, List.length_map, hlen]
    rw [List.take_append_of_le_length (by omega), List.drop_append_of_le_length hle]
    simp only [List.append_assoc]
  | _ => rfl

theorem ssstrTolower_drop {data : List Byte} {b n q : ℕ} (hq : b + n ≤ q) (hn : b + n ≤ data.length) :
    (ssstrTolower data ⟨.buf b, n⟩).drop q = data.drop q := by
  have hlen : (slice data b (b + n)).length = n := by
    simp only [slice, List.length_take, List.length_drop]
    omega
  simp only [ssstrTolower, Ssstr.bytes, overwrite, Int.toNat_natCast, List.length_map, hlen]
  rw [List.drop_append, List.length_append, List.length_map, hlen, List.length_take_of_le (by omega), List.drop_drop,
    List.drop_eq_nil_of_le]
  · rw [List.nil_append]
    congr 1
    omega
  · simp only [List.length_append, List.length_map, hlen, List.length_take]
    omega

theorem ssstrTolower_take {data : List Byte} {b n q : ℕ} (hq : q ≤ b) (hb : b ≤ data.length) :
    (ssstrTolower data ⟨.buf b, n⟩).take q = data.take q := by
  simp only [ssstrTolower, overwrite]
  rw [List.append_assoc, List.take_append_of_le_length, List.take_take, min_eq_left hq]
  rw [List.length_take_of_le hb]
  exact hq

theorem ssstrTolower_bytes {data : List Byte} {b n : ℕ} (hn : b + n ≤ data.length) :
    (⟨.buf b, n⟩ : Ssstr).bytes (ssstrTolower data ⟨.buf b, n⟩) = ((⟨.buf b, n⟩ : Ssstr).bytes data).map toLower := by
  have hlen : (slice data b (b + n)).length = n := by
    simp only [slice, List.length_take, List.length_drop]
    omega
  simp only [ssstrTolower, Ssstr.bytes, overwrite, Int.toNat_natCast]
  refine slice_eq_of_append (data.take b) (data.drop (b + ((slice data b (b + n)).map toLower).length)) ?_ ?_ ?_
  · rw [List.append_assoc]
  · rw [List.length_take_of_le (by omega)]
  · rw [List.length_map, hlen]

/-! ### Comparison -/

theorem cmpBytes_eq_zero {as bs : List Byte} : cmpBytes as bs = 0 ↔ as = bs := by
  have hinj : ∀ a b : Byte, ¬ charVal a < charVal b → ¬ charVal a > charVal b → a = b := by
    intro a b h1 h2
    have ha := a.toNat_lt
    have hb := b.toNat_lt
    apply UInt8.toNat_inj.mp
    unfold charVal at h1 h2
    simp only [UInt8.lt_iff_toNat_lt, show (0x80 : UInt8).toNat = 0x80 from rfl] at h1 h2
    split_ifs at h1 h2 <;> omega
  induction as generalizing bs with
  | nil => cases bs <;> simp [cmpBytes]
  | cons a as ih =>
    cases bs with
    | nil => simp [cmpBytes]
    | cons b bs =>
      simp only [cmpBytes]
      split_ifs with h1 h2
      · refine iff_of_false (by decide) ?_
        intro h
        rw [List.cons.injEq] at h
        rw [h.1] at h1
        exact lt_irrefl _ h1
      · refine iff_of_false (by decide) ?_
        intro h
        rw [List.cons.injEq] at h
        rw [h.1] at h2
        exact lt_irrefl _ h2
      · refine ih.trans ?_
        rw [List.cons.injEq]
        exact ⟨fun h => ⟨hinj a b h1 h2, h⟩, fun h => h.2⟩

theorem ssstrCmp_eq_zero {data : List Byte} {l r : Ssstr} (hl : l.str ≠ .null) :
    ssstrCmp data l r = 0 ↔ r.str ≠ .null ∧ l.bytes data = r.bytes data := by
  unfold ssstrCmp
  split_ifs with heq hr
  · exact iff_of_true rfl ⟨heq ▸ hl, by rw [heq]⟩
  · exact iff_of_false (by decide) fun h => h.1 hr
  · rw [cmpBytes_eq_zero]
    exact ⟨fun h => ⟨hr, h⟩, fun h => h.2⟩

/-! ### Lookup -/

section Dict

variable {V : Type} {data : List Byte}

theorem dictGet_dictPut (d : Dict V) {k : Ssstr} (hk : k.str ≠ .null) (v : V) (key : Ssstr) :
    dictGet data (dictPut data d k v) key = if ssstrCmp data k key = 0 then some v else dictGet data d key := by
  unfold dictGet dictPut
  by_cases hcmp : ssstrCmp data k key = 0
  · have hbytes := ((ssstrCmp_eq_zero hk).mp hcmp).2
    simp only [hbytes, Function.update_self, List.find?_cons, hcmp, decide_true, if_true, Option.map_some]
  · by_cases hhash : lotosHash (key.bytes data) = lotosHash (k.bytes data)
    · simp only [hhash, Function.update_self, List.find?_cons, hcmp, decide_false, if_false]
    · simp only [Function.update_of_ne hhash, hcmp, if_false]

end Dict

end Lotos
