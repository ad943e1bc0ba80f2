import Lotos.Buffer.Handles

/-!
# Runs over one buffer

A caller that goes on with the buffer that `buffer_cat` returns, as the comment in `buffer.c` asks it to.  Its calls are
`buffer_cat`, `buffer_cat_cstr` and `buffer_clear`, in any order.  `sinceClear` is what the buffer is for: the bytes that
were appended since it was last cleared.
-/

namespace Lotos

/-- `buffer_cat_cstr`; `cstr` is what is in the memory from the pointer on, and the string ends before the first `NUL`. -/
def bufferCatCstr (st : Store) (pb : Handle) (cstr : List Byte) (ra : Realloc) :
    Except BufferFault (Option Handle × Store) :=
  bufferCat st pb (cstr.takeWhile (· ≠ NUL)) ra

/-- A call, with the answer of `realloc` in case it is called. -/
inductive BufferOp where
  | cat (bs : List Byte) (ra : Realloc)
  | catCstr (cstr : List Byte) (ra : Realloc)
  | clear

/-- The bytes that a call appends. -/
def BufferOp.bytes : BufferOp → Option (List Byte)
  | .cat bs _ => some bs
  | .catCstr cstr _ => some (cstr.takeWhile (· ≠ NUL))
  | .clear => none

/-- The bytes appended since the last `buffer_clear`. -/
def sinceClear (ops : List BufferOp) : List Byte :=
  ops.foldl (fun bs op => op.bytes.elim [] (bs ++ ·)) []

/-- The memory, and the pointer that the caller goes on with; `none` is `NULL`. -/
structure Caller where
  store : Store
  pb : Option Handle

namespace Caller

/-- The buffer of the caller. -/
def buffer (s : Caller) : Option Buffer := s.pb.bind s.store

def apply (s : Caller) (op : BufferOp) : Except BufferFault Caller :=
  match s.pb with
  | none => .error .dangling
  | some pb =>
    match op with
    | .cat bs ra => (bufferCat s.store pb bs ra).map fun r => ⟨r.2, r.1⟩
    | .catCstr cstr ra => (bufferCatCstr s.store pb cstr ra).map fun r => ⟨r.2, r.1⟩
    | .clear => (s.store.clear pb).map fun st => ⟨st, some pb⟩

/-- The calls one after the other. -/
def run (s : Caller) (ops : List BufferOp) : Except BufferFault Caller := ops.foldlM apply s

/-- After `buffer_new`, on the memory that `malloc` has returned. -/
def new (st : Store) (pb : Handle) (initlen : ℕ) (mem : List Byte) : Caller :=
  ⟨Function.update st pb (some (bufferNew initlen mem)), some pb⟩

/-- What is asked of a call: `realloc` succeeds, with the block where it was or at an address that is not in use, and
`len + nbyte + BUFFER_LIMIT` is in the range of `int`. -/
def Allows (s : Caller) : BufferOp → Prop
  | .clear => True
  | .cat bs ra => CatAllowed s bs ra
  | .catCstr cstr ra => CatAllowed s (cstr.takeWhile (· ≠ NUL)) ra
where
  CatAllowed (s : Caller) (bs : List Byte) (ra : Realloc) : Prop :=
    ra.addr ≠ none ∧ (∀ pb, s.pb = some pb → ra.Possible s.store pb) ∧
      ∀ b, s.buffer = some b → b.len + bs.length + bufferLimit < 2 ^ 31

/-- All the calls are allowed, each where it is made. -/
def AllowsAll (s : Caller) : List BufferOp → Prop
  | [] => True
  | op :: rest => s.Allows op ∧ ∀ s', s.apply op = .ok s' → s'.AllowsAll rest

end Caller

/-! ### One call -/

section Call

variable {b : Buffer} {xs bs : List Byte} {ra : Realloc}

theorem overwrite_get {mem : List Byte} {i : ℕ} {v : Byte} (h : i < (overwrite mem i [v]).length) :
    (overwrite mem i [v])[i]? = some v := by
  have hle : i ≤ mem.length := by
    simp only [overwrite, List.length_append, List.length_take, List.length_drop, List.length_singleton] at h
    omega
  rw [overwrite, List.append_assoc, List.getElem?_append_right (by rw [List.length_take_of_le hle]),
    List.length_take_of_le hle, Nat.sub_self]
  rfl

/-- `nbyte` and `BUFFER_LIMIT` more than `len` is enough for both ways to grow. -/
theorem newLen_small (hb : b.Holds xs) (hlen : b.len + bs.length + bufferLimit < 2 ^ 31) : b.newLen bs < 2 ^ 31 := by
  have hnat : b.len.toNat = b.len := by
    rw [hb.len]
    rfl
  have hbound := (newLen_bounds b bs).2
  omega

theorem Buffer.Holds.cat_nul (hb : b.Holds xs) (hcat : b.Fits bs ∨ b.Grows bs ra) :
    (b.cat bs ra).mem[(b.cat bs ra).len.toNat]? = some NUL := by
  have hb' := hb.cat hcat
  have hsize := hb'.size
  have hlen : (b.cat bs ra).len.toNat = b.len.toNat + bs.length := by
    rw [hb'.len, hb.len, List.length_append]
    rfl
  rw [hlen]
  rw [List.length_append] at hsize
  have hn : b.len.toNat = xs.length := by rw [hb.len, Int.toNat_natCast]
  rw [Buffer.cat] at hsize ⊢
  split
  · rename_i hfit
    rw [if_pos hfit] at hsize
    refine overwrite_get (lt_of_lt_of_eq ?_ hsize.symm)
    omega
  · rename_i hfit
    rw [if_neg hfit] at hsize
    refine overwrite_get (lt_of_lt_of_eq ?_ hsize.symm)
    change b.len.toNat + bs.length < _
    omega

theorem Buffer.Holds.cat_size (hb : b.Holds xs) (hcat : b.Fits bs ∨ b.Grows bs ra) :
    b.mem.length ≤ (b.cat bs ra).mem.length := by
  have hsize := hb.size
  have hsize' := (hb.cat hcat).size
  rw [List.length_append] at hsize'
  by_cases hfit : (bs.length : ℤ) ≤ b.free
  · rw [Buffer.cat, if_pos hfit]
    exact (copyIn_take hb.content hb.len rfl (hb.room hfit)).1.ge
  · have hfree := hb.free
    omega

end Call

/-- What holds after a call that has made the buffer `b'` of the buffer `b`. -/
structure AfterCall (op : BufferOp) (bs : List Byte) (b b' : Buffer) : Prop where
  /-- the content and the sizes -/
  holds : b'.Holds bs
  /-- the capacity does not shrink -/
  size : b.mem.length ≤ b'.mem.length
  /-- a string that is appended is terminated -/
  nul : op.bytes ≠ none → b'.mem[b'.len.toNat]? = some NUL

section Step

variable {s : Caller} {b : Buffer} {xs : List Byte}

theorem bufferCat_caller (hs : s.buffer = some b) (hb : b.Holds xs) {bs : List Byte} {ra : Realloc}
    (hallow : Caller.Allows.CatAllowed s bs ra) :
    ∃ pb s', s.pb = some pb ∧ (bufferCat s.store pb bs ra).map (fun r => Caller.mk r.2 r.1) = .ok s' ∧
      s'.buffer = some (b.cat bs ra) ∧ (b.Fits bs ∨ b.Grows bs ra) := by
  obtain ⟨pb, hpb, hst⟩ := Option.bind_eq_some_iff.mp hs
  obtain ⟨hsome, hposs, hrange⟩ := hallow
  have hcat : b.Fits bs ∨ b.Grows bs ra := .inr ⟨hsome, newLen_small hb (hrange b hs)⟩
  obtain ⟨pb', st', hok, -, hst', -⟩ := bufferCat_succeeds hst hb hcat (hposs pb hpb)
  exact ⟨pb, ⟨st', some pb'⟩, hpb, by rw [hok]; rfl, hst', hcat⟩

/-- **One call.**  A call that is allowed does not fail. -/
theorem apply_afterCall (hs : s.buffer = some b) (hb : b.Holds xs) {op : BufferOp} (hallow : s.Allows op) :
    ∃ s' b', s.apply op = .ok s' ∧ s'.buffer = some b' ∧ AfterCall op (op.bytes.elim [] (xs ++ ·)) b b' := by
  cases op with
  | cat bs ra =>
    obtain ⟨pb, s', hpb, hok, hs', hcat⟩ := bufferCat_caller hs hb hallow
    refine ⟨s', _, ?_, hs', hb.cat hcat, hb.cat_size hcat, fun _ => hb.cat_nul hcat⟩
    rw [Caller.apply, hpb]
    exact hok
  | catCstr cstr ra =>
    obtain ⟨pb, s', hpb, hok, hs', hcat⟩ := bufferCat_caller hs hb hallow
    refine ⟨s', _, ?_, hs', hb.cat hcat, hb.cat_size hcat, fun _ => hb.cat_nul hcat⟩
    rw [Caller.apply, hpb]
    exact hok
  | clear =>
    obtain ⟨pb, hpb, hst⟩ := Option.bind_eq_some_iff.mp hs
    refine ⟨⟨Function.update s.store pb (some (bufferClear b)), some pb⟩, bufferClear b, ?_, ?_, hb.clear, le_rfl, ?_⟩
    · rw [Caller.apply, hpb]
      simp only [Store.clear, hst]
      rfl
    · exact Function.update_self _ _ _
    · intro h
      exact absurd rfl h

end Step

/-! ### Runs -/

section Run

variable {s s' : Caller} {op : BufferOp} {ops rest : List BufferOp}

theorem run_cons (h : s.apply op = .ok s') : s.run (op :: ops) = s'.run ops := by
  rw [Caller.run, List.foldlM_cons, h]
  rfl

theorem allowsAll_append (hall : s.AllowsAll (ops ++ rest)) :
    s.AllowsAll ops ∧ ∀ s', s.run ops = .ok s' → s'.AllowsAll rest := by
  induction ops generalizing s with
  | nil =>
    refine ⟨trivial, ?_⟩
    rintro _ ⟨⟩
    exact hall
  | cons op ops ih =>
    refine ⟨⟨hall.1, fun s' hok => (ih (hall.2 s' hok)).1⟩, ?_⟩
    intro s' hrun
    cases hok : s.apply op with
    | error e =>
      rw [Caller.run, List.foldlM_cons, hok] at hrun
      cases hrun
    | ok s₁ =>
      rw [run_cons hok] at hrun
      exact (ih (hall.2 s₁ hok)).2 s' hrun

/-- The content after calls that are allowed; the induction is on the calls, with any content at the beginning. -/
theorem run_holds {b : Buffer} {xs : List Byte} (hs : s.buffer = some b) (hb : b.Holds xs) (hall : s.AllowsAll ops) :
    ∃ s' b', s.run ops = .ok s' ∧ s'.buffer = some b' ∧
      b'.Holds (ops.foldl (fun bs op => op.bytes.elim [] (bs ++ ·)) xs) := by
  induction ops generalizing s b xs with
  | nil => exact ⟨s, b, rfl, hs, hb⟩
  | cons op ops ih =>
    obtain ⟨s₁, b₁, hok, hs₁, hafter⟩ := apply_afterCall hs hb hall.1
    rw [run_cons hok]
    exact ih hs₁ hafter.holds (hall.2 s₁ hok)

theorem new_buffer (st : Store) (pb : Handle) (initlen : ℕ) (mem : List Byte) :
    (Caller.new st pb initlen mem).buffer = some (bufferNew initlen mem) := Function.update_self _ _ _

/-- **A growable buffer.**  For every initial size and every run of calls that are allowed, none of them fails, and after
each one the buffer holds the bytes appended since the last `buffer_clear`, its sizes are those of the memory that is
allocated, the capacity is not less than it was before, and the byte after what was appended is `NUL`. -/
theorem run_afterCall (st : Store) (pb : Handle) (initlen : ℕ) (hinit : initlen < 2 ^ 31) (mem : List Byte)
    (hmem : mem.length = initlen + 1) (ops : List BufferOp) (op : BufferOp)
    (hall : (Caller.new st pb initlen mem).AllowsAll (ops ++ [op])) :
    ∃ s s' b b', (Caller.new st pb initlen mem).run ops = .ok s ∧ s.buffer = some b ∧ b.Holds (sinceClear ops) ∧
      s.apply op = .ok s' ∧ s'.buffer = some b' ∧ AfterCall op (sinceClear (ops ++ [op])) b b' := by
  obtain ⟨hops, hlast⟩ := allowsAll_append hall
  obtain ⟨s, b, hrun, hs, hb⟩ := run_holds (new_buffer st pb initlen mem) (bufferNew_holds hmem hinit) hops
  obtain ⟨s', b', hok, hs', hafter⟩ := apply_afterCall hs hb (hlast s hrun).1
  refine ⟨s, s', b, b', hrun, hs, hb, hok, hs', ?_⟩
  rw [sinceClear, List.foldl_append]
  exact hafter

end Run

/-- A buffer of two bytes: three more bytes move it, and a string is appended to it where it is then. -/
theorem run_afterCall_moved :
    ∃ s s' b b', (Caller.new (fun _ => none) 1 2 [7, 7, 7]).run [.cat (str "abc") ⟨some 2, fun _ => 7⟩] = .ok s ∧
      s.buffer = some b ∧ b.Holds (str "abc") ∧ s.apply (.catCstr (str "d" ++ [NUL, 7]) ⟨some 3, fun _ => 7⟩) = .ok s' ∧
      s'.buffer = some b' ∧ AfterCall (.catCstr (str "d" ++ [NUL, 7]) ⟨some 3, fun _ => 7⟩) (str "abcd") b b' := by
  refine run_afterCall (fun _ => none) 1 2 (by decide) [7, 7, 7] rfl [.cat (str "abc") ⟨some 2, fun _ => 7⟩]
    (.catCstr (str "d" ++ [NUL, 7]) ⟨some 3, fun _ => 7⟩) ⟨⟨nofun, ?_, ?_⟩, ?_⟩
  · rintro pb ⟨⟩ npb ⟨⟩
    exact .inr rfl
  · intro b hb
    rw [new_buffer] at hb
    cases hb
    decide
  · rintro s' ⟨⟩
    refine ⟨⟨nofun, ?_, ?_⟩, fun _ _ => trivial⟩
    · rintro pb ⟨⟩ npb ⟨⟩
      exact .inr rfl
    · rintro b ⟨⟩
      decide +kernel

end Lotos
