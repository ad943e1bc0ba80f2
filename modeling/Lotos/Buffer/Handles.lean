import Lotos.Buffer.Defs

/-!
# Runs over the buffers of a request

`Buffers.Current` says that the handles are the current ones: the blocks at `r->ib` and `r->ob` are there and hold what has
been received and appended, and the positions that were saved are in the block at `r->ib`.

Two callers of `buffer_cat` make it depend on `realloc`.  `request_recv` drops the handle, and the functions
`response_append_*` go on with the handle they had at their beginning.  `BufferCall.Keeps` is the condition under which this
does no harm, and `run_current` that the handles are then always the current ones.
-/

namespace Lotos

/-! ### The content of a buffer -/

/-- The buffer holds these bytes, and its sizes are right. -/
structure Buffer.Holds (b : Buffer) (bs : List Byte) : Prop where
  len : b.len = bs.length
  free : 0 ≤ b.free
  size : b.mem.length = bs.length + b.free.toNat + 1
  small : bs.length + b.free < 2 ^ 31
  content : b.mem.take bs.length = bs

section Content

variable {b : Buffer} {xs ys : List Byte}

theorem sizeT_of_small {v : ℤ} (h : 0 ≤ v) (hlt : v < 2 ^ 31) : sizeT v = v := by
  rw [sizeT]
  omega

theorem copyIn_length (h : b.len.toNat + ys.length + 1 ≤ b.mem.length) : (b.copyIn ys).length = b.mem.length := by
  have hinner : (overwrite b.mem b.len.toNat ys).length = b.mem.length := overwrite_length (by omega)
  rw [Buffer.copyIn, overwrite_length, hinner]
  rw [hinner, List.length_singleton]
  exact h

theorem resize_length {size : ℕ} (more : ℕ → Byte) (h : b.mem.length ≤ size) : (b.resize size more).mem.length = size := by
  rw [Buffer.resize, List.length_append, List.length_take, List.length_map, List.length_range]
  omega

/-- `realloc` makes room for the bytes and for `BUFFER_LIMIT` more at most. -/
theorem newLen_bounds (b : Buffer) (bs : List Byte) :
    b.len.toNat + bs.length ≤ b.newLen bs ∧ b.newLen bs ≤ b.len.toNat + bs.length + bufferLimit := by
  unfold Buffer.newLen
  simp only
  split_ifs <;> omega

theorem copyIn_take {mem : List Byte} (hmem : mem.take xs.length = xs) (hlen : b.len = xs.length) (hb : b.mem = mem)
    (hroom : xs.length + ys.length + 1 ≤ mem.length) :
    (b.copyIn ys).length = mem.length ∧ (b.copyIn ys).take (xs ++ ys).length = xs ++ ys := by
  have hn : b.len.toNat = xs.length := by rw [hlen, Int.toNat_natCast]
  subst hb
  refine ⟨copyIn_length (by omega), ?_⟩
  have hinner : (overwrite b.mem xs.length ys).length = b.mem.length := overwrite_length (by omega)
  have hle : xs.length + ys.length ≤ (overwrite b.mem xs.length ys).length := by omega
  rw [Buffer.copyIn, hn, List.length_append, overwrite, List.append_assoc,
    List.take_append_of_le_length (by rw [List.length_take_of_le hle]), List.take_take, min_self, overwrite_take (by omega),
    hmem]

theorem Buffer.Holds.room (h : b.Holds xs) (hfit : (ys.length : ℤ) ≤ b.free) : xs.length + ys.length + 1 ≤ b.mem.length := by
  have hsize := h.size
  omega

theorem Buffer.Holds.fill (h : b.Holds xs) (hfit : (ys.length : ℤ) ≤ b.free) : (b.fill ys).Holds (xs ++ ys) := by
  have hsize := h.size
  have hsmall := h.small
  have hfree := h.free
  obtain ⟨hlength, htake⟩ := copyIn_take h.content h.len rfl (h.room hfit)
  have hlen : (b.fill ys).len = (xs ++ ys).length := by
    change toInt (b.len + ys.length) = _
    rw [h.len, List.length_append, toInt_eq (by omega) (by omega)]
    omega
  have hfree' : (b.fill ys).free = b.free - ys.length := by
    change toInt (b.free - ys.length) = _
    rw [toInt_eq (by omega) (by omega)]
  refine ⟨hlen, ?_, ?_, ?_, htake⟩
  · rw [hfree']
    omega
  · rw [hfree', List.length_append]
    change (b.copyIn ys).length = _
    rw [hlength]
    omega
  · rw [hfree', List.length_append]
    omega

theorem Buffer.Holds.grow (h : b.Holds xs) (more : ℕ → Byte) (hfit : ¬ (ys.length : ℤ) ≤ b.free)
    (hsmall : b.newLen ys < 2 ^ 31) : (b.grow ys more).Holds (xs ++ ys) := by
  have hsize := h.size
  have hfree := h.free
  have hn : b.len.toNat = xs.length := by rw [h.len, Int.toNat_natCast]
  have hnew := (newLen_bounds b ys).1
  rw [hn] at hnew
  set mem := (b.resize (b.newLen ys + 1) more).mem with hmem
  have hlong : b.mem.length ≤ b.newLen ys + 1 := by omega
  have hlength : mem.length = b.newLen ys + 1 := resize_length more hlong
  have hcontent : mem.take xs.length = xs := by
    rw [hmem, Buffer.resize, List.take_of_length_le hlong, List.take_append_of_le_length (by omega)]
    exact h.content
  obtain ⟨hlength', htake⟩ := @copyIn_take (b.resize (b.newLen ys + 1) more) xs ys mem hcontent h.len rfl (by omega)
  have hsum : toInt (b.len + ys.length) = xs.length + ys.length := by
    rw [h.len, toInt_eq (by omega) (by omega)]
  have hlen : (b.grow ys more).len = (xs ++ ys).length := by
    change toInt (b.len + ys.length) = _
    rw [hsum, List.length_append]
    omega
  have hfree' : (b.grow ys more).free = b.newLen ys - (xs.length + ys.length) := by
    change toInt (b.newLen ys - toInt (b.len + ys.length)) = _
    rw [hsum, toInt_eq (by omega) (by omega)]
  refine ⟨hlen, ?_, ?_, ?_, htake⟩
  · rw [hfree']
    omega
  · rw [hfree', List.length_append]
    change ((b.resize (b.newLen ys + 1) more).copyIn ys).length = _
    rw [hlength', hlength]
    omega
  · rw [hfree', List.length_append]
    omega

theorem Buffer.Holds.clear (h : b.Holds xs) : (bufferClear b).Holds [] := by
  have hsize := h.size
  have hsmall := h.small
  have hfree := h.free
  have hfree' : (bufferClear b).free = b.free + xs.length := by
    rw [bufferClear, h.len, toInt_eq (by omega) (by omega)]
  refine ⟨rfl, ?_, ?_, ?_, rfl⟩
  · rw [hfree']
    omega
  · rw [hfree']
    change b.mem.length = _
    rw [List.length_nil]
    omega
  · rw [hfree', List.length_nil]
    omega

theorem Buffer.Holds.strftime_eq (h : b.Holds xs) (hfit : (ys.length : ℤ) < b.free) : b.strftime ys = b.fill ys := by
  have hsmall := h.small
  rw [Buffer.strftime, sizeT, if_pos (by omega)]
  rfl

theorem Buffer.Holds.strftime (h : b.Holds xs) (hfit : (ys.length : ℤ) < b.free) : (b.strftime ys).Holds (xs ++ ys) := by
  rw [h.strftime_eq hfit]
  exact h.fill hfit.le

theorem Buffer.Holds.bytes (h : b.Holds xs) : b.bytes = xs := by
  rw [Buffer.bytes, h.len, Int.toNat_natCast]
  exact h.content

theorem Buffer.Holds.rewrite (h : b.Holds xs) (hlen : ys.length = xs.length) : (b.rewrite ys).Holds ys := by
  have hsize := h.size
  have hroom : 0 + ys.length ≤ b.mem.length := by omega
  have htake : (overwrite b.mem 0 ys).take (0 + ys.length) = _ := overwrite_take (Nat.zero_le b.mem.length)
  rw [Nat.zero_add, List.take_zero, List.nil_append] at htake
  refine ⟨?_, h.free, ?_, ?_, htake⟩
  · rw [hlen]
    exact h.len
  · rw [hlen]
    exact (overwrite_length hroom).trans hsize
  · rw [hlen]
    exact h.small

theorem bufferNew_holds {initlen : ℕ} {mem : List Byte} (hmem : mem.length = initlen + 1) (hsmall : initlen < 2 ^ 31) :
    (bufferNew initlen mem).Holds [] := by
  refine ⟨rfl, by simp [bufferNew], ?_, ?_, rfl⟩
  · simp [bufferNew, hmem]
  · simp only [bufferNew, List.length_nil]
    omega

end Content

/-! ### `buffer_cat` -/

/-- The bytes fit in the free space. -/
def Buffer.Fits (b : Buffer) (bs : List Byte) : Prop := (bs.length : ℤ) ≤ b.free

/-- `realloc` gives a block, and its size is in the range of `int`. -/
def Buffer.Grows (b : Buffer) (bs : List Byte) (ra : Realloc) : Prop := ra.addr ≠ none ∧ b.newLen bs < 2 ^ 31

/-- The block at `h` need not be moved: the bytes fit, or `realloc` makes it larger where it is. -/
def Buffer.Stays (b : Buffer) (h : Handle) (bs : List Byte) (ra : Realloc) : Prop :=
  b.Fits bs ∨ (b.Grows bs ra ∧ ra.addr = some h)

/-- What `buffer_cat` leaves at the handle that it returns. -/
def Buffer.cat (b : Buffer) (bs : List Byte) (ra : Realloc) : Buffer :=
  if (bs.length : ℤ) ≤ b.free then b.fill bs else b.grow bs ra.more

section Cat

variable {st : Store} {h : Handle} {b : Buffer} {xs bs : List Byte} {ra : Realloc}

theorem Buffer.Holds.cat (hb : b.Holds xs) (hcat : b.Fits bs ∨ b.Grows bs ra) : (b.cat bs ra).Holds (xs ++ bs) := by
  rw [Buffer.cat]
  by_cases hfit : (bs.length : ℤ) ≤ b.free
  · rw [if_pos hfit]
    exact hb.fill hfit
  · rw [if_neg hfit]
    rcases hcat with hfit' | hgrows
    · exact absurd hfit' hfit
    · exact hb.grow ra.more hfit hgrows.2

theorem Buffer.Holds.cat_free (hb : b.Holds xs) {bs : List Byte} {ra : Realloc} (hfit : (bs.length : ℤ) ≤ b.free) :
    (b.cat bs ra).free = b.free - bs.length := by
  have hsmall := hb.small
  rw [Buffer.cat, if_pos hfit]
  change toInt (b.free - bs.length) = _
  exact toInt_eq (by omega) (by omega)

theorem cat_full (hlen : (bs.length : ℤ) = b.free) : (b.cat bs ra).free = 0 := by
  rw [Buffer.cat, if_pos hlen.le]
  change toInt (b.free - bs.length) = 0
  rw [hlen, sub_self]
  exact toInt_eq le_rfl (by decide)

theorem sizeT_free (hb : b.Holds xs) : sizeT b.free = b.free := by
  have hsmall := hb.small
  exact sizeT_of_small hb.free (by omega)

theorem bufferCat_stays (hst : st h = some b) (hb : b.Holds xs) (hstays : b.Stays h bs ra) :
    bufferCat st h bs ra = .ok (some h, Function.update st h (some (b.cat bs ra))) := by
  rw [bufferCat, hst, Buffer.cat]
  simp only [sizeT_free hb]
  by_cases hfit : (bs.length : ℤ) ≤ b.free
  · rw [if_pos hfit, if_pos hfit]
  · rcases hstays with hfit' | ⟨-, haddr⟩
    · exact absurd hfit' hfit
    · rw [if_neg hfit, if_neg hfit, haddr]
      simp only [Function.update_idem]

/-- A call that does not fail, wherever the block is after it. -/
theorem bufferCat_succeeds (hst : st h = some b) (hb : b.Holds xs) (hcat : b.Fits bs ∨ b.Grows bs ra)
    (hra : ∀ npb, ra.addr = some npb → npb = h ∨ st npb = none) :
    ∃ h' st', bufferCat st h bs ra = .ok (some h', st') ∧ (h' = h ∨ st h' = none) ∧ st' h' = some (b.cat bs ra) ∧
      ∀ g, g ≠ h → g ≠ h' → st' g = st g := by
  by_cases hfit : (bs.length : ℤ) ≤ b.free
  · refine ⟨h, _, bufferCat_stays hst hb (.inl hfit), .inl rfl, Function.update_self _ _ _, ?_⟩
    intro g hg _
    exact Function.update_of_ne hg _ _
  · rcases hcat with hfit' | ⟨hsome, -⟩
    · exact absurd hfit' hfit
    · obtain ⟨npb, hnpb⟩ := Option.ne_none_iff_exists'.mp hsome
      refine ⟨npb, Function.update (Function.update st h none) npb (some (b.grow bs ra.more)), ?_, hra npb hnpb, ?_, ?_⟩
      · rw [bufferCat, hst]
        simp only [sizeT_free hb, if_neg hfit, hnpb]
      · rw [Function.update_self, Buffer.cat, if_neg hfit]
      · intro g hg hg'
        rw [Function.update_of_ne hg', Function.update_of_ne hg]

end Cat

/-! ### The calls -/

/-- **The handles are the current ones.**  `r->ib` and `r->ob` are what `buffer_cat` has returned last, the blocks there hold
what has been received and appended, and a saved position is one in the block at `r->ib`, with the byte it had. -/
structure Buffers.Current (s : Buffers) : Prop where
  input : ∃ b, s.store s.ib = some b ∧ b.Holds s.received
  output : ∃ h b, s.ob = some h ∧ h ≠ s.ib ∧ s.store h = some b ∧ b.Holds s.appended
  ibLast : s.ibLast = some s.ib
  obLast : s.obLast = s.ob
  saved : ∀ p ∈ s.saved, p.handle = s.ib ∧ p.offset ≤ s.received.length ∧
    ∀ v, p.byte = some v → s.received[p.offset]? = some v

/-- The appends on one handle: all but the last leave the block where it is, and the last does not fail. -/
def Buffer.KeepsAll (h : Handle) (b : Buffer) : List (List Byte) → List Realloc → Prop
  | [], _ => True
  | bs :: rest, ras => (b.Fits bs ∨ b.Grows bs (ras.headD .null)) ∧
      (rest ≠ [] → b.Stays h bs (ras.headD .null) ∧ (b.cat bs (ras.headD .null)).KeepsAll h rest ras.tail)

/-- The condition on a call: a chunk that is received, and every append of a function but its last, leaves the block where it
is; the last append does not fail; and the date fits. -/
def BufferCall.Keeps (s : Buffers) : BufferCall → Prop
  | .recv chunk ra => ∀ b, s.store s.ib = some b → b.Stays s.ib chunk ra
  | .append (.date line) _ => ∀ h b, s.ob = some h → s.store h = some b → (line.length : ℤ) < b.free
  | .append f ras => ∀ h b, s.ob = some h → s.store h = some b → b.KeepsAll h f.pieces ras
  | _ => True

/-- An answer of `realloc` for the block at `h`: the same address, or one that is not in use. -/
def Realloc.Possible (st : Store) (h : Handle) (ra : Realloc) : Prop :=
  ∀ npb, ra.addr = some npb → npb = h ∨ st npb = none

/-- What `recv`, `realloc` and the parsers can do. -/
def BufferCall.Possible (s : Buffers) : BufferCall → Prop
  | .recv chunk ra => 0 < chunk.length ∧ chunk.length ≤ bufsiz ∧ ra.Possible s.store s.ib
  | .save offset => offset ≤ s.received.length
  | .append _ ras => ∀ h, s.ob = some h → ∀ ra ∈ ras, ra.Possible s.store h
  | _ => True

section Calls

variable {s s' : Buffers}

theorem keepsAll_of_room {b : Buffer} {xs : List Byte} (hb : b.Holds xs) (h : Handle) {pieces : List (List Byte)}
    (ras : List Realloc) (hroom : (pieces.flatten.length : ℤ) ≤ b.free) : b.KeepsAll h pieces ras := by
  induction pieces generalizing b xs ras with
  | nil => trivial
  | cons bs rest ih =>
    rw [List.flatten_cons, List.length_append] at hroom
    have hfit : (bs.length : ℤ) ≤ b.free := by omega
    refine ⟨.inl hfit, fun _ => ⟨.inl hfit, ih (hb.cat (.inl hfit)) ras.tail ?_⟩⟩
    rw [hb.cat_free hfit]
    omega

theorem Realloc.null_possible (st : Store) (h : Handle) : Realloc.null.Possible st h := nofun

theorem headD_possible {st : Store} {h : Handle} {ras : List Realloc} (hras : ∀ ra ∈ ras, ra.Possible st h) :
    (ras.headD .null).Possible st h := by
  cases ras with
  | nil => exact Realloc.null_possible st h
  | cons ra ras => exact hras ra List.mem_cons_self

theorem Buffers.Current.setOb (hs : s.Current) {st : Store} {h : Handle} {b : Buffer} {bs : List Byte} (hne : h ≠ s.ib)
    (hst : st h = some b) (hb : b.Holds bs) (hib : st s.ib = s.store s.ib) :
    ({ s with store := st, ob := some h, obLast := some h, appended := bs } : Buffers).Current := by
  refine ⟨?_, ⟨h, b, rfl, hne, hst, hb⟩, hs.ibLast, rfl, hs.saved⟩
  obtain ⟨b', hst', hb'⟩ := hs.input
  exact ⟨b', hib.trans hst', hb'⟩

theorem catOb_stays (hs : s.Current) {h : Handle} {b : Buffer} (hne : h ≠ s.ib) (hst : s.store h = some b)
    (hb : b.Holds s.appended) {bs : List Byte} {ra : Realloc} (hstays : b.Stays h bs ra) :
    ∃ s', s.catOb (some h) bs ra = .ok s' ∧ s'.Current ∧ s'.ib = s.ib ∧
      s'.store = Function.update s.store h (some (b.cat bs ra)) ∧ s'.appended = s.appended ++ bs := by
  have hcat : (b.cat bs ra).Holds (s.appended ++ bs) := hb.cat (hstays.imp id And.left)
  refine ⟨{ s with
    store := Function.update s.store h (some (b.cat bs ra)), ob := some h, obLast := some h, appended := s.appended ++ bs },
    by rw [Buffers.catOb, bufferCat_stays hst hb hstays], ?_, rfl, rfl, rfl⟩
  exact hs.setOb hne (Function.update_self _ _ _) hcat (Function.update_of_ne hne.symm _ _)

theorem catOb_last (hs : s.Current) {h : Handle} {b : Buffer} (hne : h ≠ s.ib) (hst : s.store h = some b)
    (hb : b.Holds s.appended) {bs : List Byte} {ra : Realloc} (hcat : b.Fits bs ∨ b.Grows bs ra)
    (hra : ra.Possible s.store h) : ∃ s', s.catOb (some h) bs ra = .ok s' ∧ s'.Current := by
  obtain ⟨h', st', hok, hfresh, hst', hother⟩ := bufferCat_succeeds hst hb hcat hra
  have hne' : h' ≠ s.ib := by
    rintro rfl
    rcases hfresh with heq | hnone
    · exact hne heq.symm
    · obtain ⟨b', hib, -⟩ := hs.input
      rw [hnone] at hib
      cases hib
  refine ⟨_, by rw [Buffers.catOb, hok], ?_⟩
  exact hs.setOb hne' hst' (hb.cat hcat) (hother s.ib hne.symm hne'.symm)

theorem catEach_current (hs : s.Current) {h : Handle} {b : Buffer} (hne : h ≠ s.ib) (hst : s.store h = some b)
    (hb : b.Holds s.appended) {pieces : List (List Byte)} {ras : List Realloc}
    (hkeeps : b.KeepsAll h pieces ras) (hras : ∀ ra ∈ ras, ra.Possible s.store h) :
    ∃ s', s.catEach (some h) pieces ras = .ok s' ∧ s'.Current := by
  induction pieces generalizing s b ras with
  | nil => exact ⟨s, rfl, hs⟩
  | cons bs rest ih =>
    obtain ⟨hlast, hrest⟩ := hkeeps
    rw [Buffers.catEach]
    by_cases hnil : rest = []
    · obtain ⟨s', hok, hs'⟩ := catOb_last hs hne hst hb hlast (headD_possible hras)
      rw [hok, hnil]
      exact ⟨s', rfl, hs'⟩
    · obtain ⟨hstays, hkeeps⟩ := hrest hnil
      obtain ⟨s₁, hok, hs₁, hib₁, hst₁, happ₁⟩ := catOb_stays hs hne hst hb hstays
      rw [hok]
      refine ih hs₁ (hib₁ ▸ hne) (by rw [hst₁, Function.update_self]) ?_ hkeeps ?_
      · rw [happ₁]
        exact hb.cat hlast
      · intro ra hra npb hnpb
        rcases hras ra (List.mem_of_mem_tail hra) npb hnpb with heq | hnone
        · exact .inl heq
        · by_cases heq : npb = h
          · exact .inl heq
          · exact .inr (by rw [hst₁, Function.update_of_ne heq, hnone])

theorem appendDate_current (hs : s.Current) {line : List Byte}
    (hfit : ∀ h b, s.ob = some h → s.store h = some b → (line.length : ℤ) < b.free) :
    ∃ s', s.appendDate line = .ok s' ∧ s'.Current := by
  obtain ⟨h, b, hob, hne, hst, hb⟩ := hs.output
  refine ⟨{ s with store := Function.update s.store h (some (b.strftime line)), appended := s.appended ++ line }, ?_, ?_⟩
  · rw [Buffers.appendDate, hob]
    simp only [hst]
  · obtain ⟨b', hst', hb'⟩ := hs.input
    refine ⟨⟨b', ?_, hb'⟩, ⟨h, _, hob, hne, Function.update_self _ _ _, hb.strftime (hfit h b hob hst)⟩, hs.ibLast,
      hs.obLast, hs.saved⟩
    exact (Function.update_of_ne hne.symm _ _).trans hst'

theorem clearOb_current (hs : s.Current) : ∃ s', s.clearOb = .ok s' ∧ s'.Current := by
  obtain ⟨h, b, hob, hne, hst, hb⟩ := hs.output
  refine ⟨{ s with store := Function.update s.store h (some (bufferClear b)), appended := [] }, ?_, ?_⟩
  · rw [Buffers.clearOb, hob]
    simp only [Store.clear, hst]
  · obtain ⟨b', hst', hb'⟩ := hs.input
    refine ⟨⟨b', ?_, hb'⟩, ⟨h, _, hob, hne, Function.update_self _ _ _, hb.clear⟩, hs.ibLast, hs.obLast, hs.saved⟩
    exact (Function.update_of_ne hne.symm _ _).trans hst'

theorem recv_stays {b : Buffer} (hst : s.store s.ib = some b) (hb : b.Holds s.received) {chunk : List Byte} {ra : Realloc}
    (hstays : b.Stays s.ib chunk ra) : s.apply (.recv chunk ra) = .ok { s with
      store := Function.update s.store s.ib (some (b.cat chunk ra)), ibLast := some s.ib,
      received := s.received ++ chunk } := by
  rw [Buffers.apply, bufferCat_stays hst hb hstays]

/-- A chunk for which the block is moved: there is nothing left at `r->ib`. -/
theorem recv_moves {b : Buffer} (hst : s.store s.ib = some b) (hb : b.Holds s.received) {chunk : List Byte} {ra : Realloc}
    {npb : Handle} (hfit : ¬ b.Fits chunk) (haddr : ra.addr = some npb) (hne : npb ≠ s.ib) :
    ∃ s', s.apply (.recv chunk ra) = .ok s' ∧ s'.store s'.ib = none := by
  have hfit' : ¬ (chunk.length : ℤ) ≤ sizeT b.free := by
    rw [sizeT_free hb]
    exact hfit
  refine ⟨{ s with
    store := Function.update (Function.update s.store s.ib none) npb (some (b.grow chunk ra.more))
    ibLast := some npb
    received := s.received ++ chunk }, ?_, ?_⟩
  · rw [Buffers.apply, bufferCat, hst]
    simp only [if_neg hfit', haddr]
  · exact (Function.update_of_ne hne.symm _ _).trans (Function.update_self _ _ _)

theorem recv_current (hs : s.Current) {chunk : List Byte} {ra : Realloc}
    (hstays : ∀ b, s.store s.ib = some b → b.Stays s.ib chunk ra) : ∃ s', s.apply (.recv chunk ra) = .ok s' ∧ s'.Current ∧
      s'.received = s.received ++ chunk := by
  obtain ⟨b, hst, hb⟩ := hs.input
  have hcat : (b.cat chunk ra).Holds (s.received ++ chunk) := hb.cat ((hstays b hst).imp id And.left)
  refine ⟨{ s with
    store := Function.update s.store s.ib (some (b.cat chunk ra)), ibLast := some s.ib, received := s.received ++ chunk },
    recv_stays hst hb (hstays b hst), ⟨⟨_, Function.update_self _ _ _, hcat⟩, ?_, rfl, hs.obLast,
    ?_⟩, rfl⟩
  · obtain ⟨h, b', hob, hne, hst', hb'⟩ := hs.output
    exact ⟨h, b', hob, hne, (Function.update_of_ne hne _ _).trans hst', hb'⟩
  · intro p hp
    obtain ⟨hhandle, hoffset, hbyte⟩ := hs.saved p hp
    refine ⟨hhandle, ?_, ?_⟩
    · rw [List.length_append]
      omega
    · intro v hv
      have hat := hbyte v hv
      have hlt : p.offset < s.received.length := (List.getElem?_eq_some_iff.mp hat).1
      rw [List.getElem?_append_left hlt]
      exact hat

theorem reset_current (hs : s.Current) : ∃ s', s.apply .reset = .ok s' ∧ s'.Current := by
  obtain ⟨b, hst, hb⟩ := hs.input
  have hmid : ({ s with
      store := Function.update s.store s.ib (some (bufferClear b))
      received := []
      saved := [⟨s.ib, 0, none⟩] } : Buffers).Current := by
    refine ⟨⟨_, Function.update_self _ _ _, hb.clear⟩, ?_, hs.ibLast, hs.obLast, ?_⟩
    · obtain ⟨h, b', hob, hne, hst', hb'⟩ := hs.output
      exact ⟨h, b', hob, hne, (Function.update_of_ne hne _ _).trans hst', hb'⟩
    · intro p hp
      rw [List.mem_singleton.mp hp]
      exact ⟨rfl, le_rfl, nofun⟩
  obtain ⟨s', hok, hs'⟩ := clearOb_current hmid
  refine ⟨s', ?_, hs'⟩
  rw [Buffers.apply, Store.clear, hst]
  exact hok

/-- **The step.**  A call that meets the condition is made on valid handles, and they are the current ones after it. -/
theorem apply_current (hs : s.Current) {call : BufferCall} (hposs : call.Possible s) (hkeeps : call.Keeps s) :
    ∃ s', s.apply call = .ok s' ∧ s'.Current := by
  cases call with
  | recv chunk ra =>
    obtain ⟨s', hok, hs', -⟩ := recv_current hs hkeeps
    exact ⟨s', hok, hs'⟩
  | save offset =>
    refine ⟨_, rfl, hs.input, hs.output, hs.ibLast, hs.obLast, ?_⟩
    intro p hp
    rcases List.mem_cons.mp hp with rfl | hp
    · exact ⟨rfl, hposs, fun v hv => hv⟩
    · exact hs.saved p hp
  | clearOb => exact clearOb_current hs
  | reset => exact reset_current hs
  | append f ras =>
    cases f with
    | date line => exact appendDate_current hs hkeeps
    | _ =>
      obtain ⟨h, b, hob, hne, hst, hb⟩ := hs.output
      have hcat := catEach_current hs hne hst hb (hkeeps h b hob hst) (hposs h hob)
      rw [← hob] at hcat
      exact hcat

end Calls

/-! ### Whole responses -/

section Responses

variable {s s' : Buffers}

theorem catEach_appended {b : Option Handle} {pieces : List (List Byte)} {ras : List Realloc}
    (h : s.catEach b pieces ras = .ok s') : s'.appended = s.appended ++ pieces.flatten := by
  induction pieces generalizing s ras with
  | nil =>
    cases h
    simp
  | cons bs rest ih =>
    rw [Buffers.catEach] at h
    split at h
    · cases h
    · rename_i s₁ hcat
      have happ : s₁.appended = s.appended ++ bs := by
        unfold Buffers.catOb at hcat
        repeat' split at hcat
        all_goals cases hcat
        rfl
      rw [ih h, happ, List.flatten_cons, List.append_assoc]

theorem append_appended {f : Helper} {ras : List Realloc} (h : s.apply (.append f ras) = .ok s') :
    s'.appended = s.appended ++ f.pieces.flatten := by
  cases f with
  | date line =>
    simp only [Buffers.apply, Buffers.appendDate] at h
    repeat' split at h
    all_goals cases h
    simp [Helper.pieces]
  | _ => exact catEach_appended h

/-- The calls of `response_append_*` one after the other. -/
def Buffers.appendAll (s : Buffers) : List (Helper × List Realloc) → Except BufferFault Buffers
  | [] => .ok s
  | (f, ras) :: rest =>
    match s.apply (.append f ras) with
    | .error e => .error e
    | .ok s => s.appendAll rest

theorem appendAll_appended {calls : List (Helper × List Realloc)} (h : s.appendAll calls = .ok s') :
    s'.appended = s.appended ++ appendedBy (calls.map Prod.fst) := by
  induction calls generalizing s with
  | nil =>
    cases h
    simp [appendedBy]
  | cons call rest ih =>
    rw [Buffers.appendAll] at h
    split at h
    · cases h
    · rename_i s₁ happ
      rw [ih h, append_appended happ, List.map_cons, appendedBy, appendedBy, List.flatMap_cons, List.append_assoc]

/-- **Whole responses.**  After the calls of `response_assemble_buffer`, or of `response_assemble_err_buffer`, the block at
`r->ob` holds the response that the functions of the request work with. -/
theorem assemble_holds (env : Env) (r : Request) (code : ℕ) {calls : List (Helper × List Realloc)} (hob : s.appended = r.ob)
    (h : s.appendAll calls = .ok s') (hcur : s'.Current) :
    (calls.map Prod.fst = r.assembleHelpers env →
      ∃ h b, s'.ob = some h ∧ s'.store h = some b ∧ b.Holds (r.responseAssembleBuffer env).ob) ∧
    (calls.map Prod.fst = (r.markErr code).errHelpers env →
      ∃ h b, s'.ob = some h ∧ s'.store h = some b ∧ b.Holds (r.assembleErr env code).ob) := by
  obtain ⟨h', b, hob', -, hst, hb⟩ := hcur.output
  rw [appendAll_appended h, hob] at hb
  constructor
  · intro hcalls
    rw [hcalls, ← responseAssembleBuffer_ob] at hb
    exact ⟨h', b, hob', hst, hb⟩
  · intro hcalls
    rw [hcalls, ← assembleErr_ob] at hb
    exact ⟨h', b, hob', hst, hb⟩

end Responses

/-! ### Runs -/

/-- A call that can be made, under a condition. -/
def Buffers.Step (cond : Buffers → BufferCall → Prop) (s s' : Buffers) : Prop :=
  ∃ call : BufferCall, call.Possible s ∧ cond s call ∧ s.apply call = .ok s'

/-- A run of calls. -/
abbrev Buffers.Run (cond : Buffers → BufferCall → Prop) : Buffers → Buffers → Prop :=
  Relation.ReflTransGen (Buffers.Step cond)

theorem mallocMem_length (more : ℕ → Byte) : (mallocMem more).length = bufsiz + 1 := by
  rw [mallocMem, List.length_map, List.length_range]

theorem init_current {ib ob : Handle} (hne : ob ≠ ib) {ibMem obMem : List Byte} (hib : ibMem.length = bufsiz + 1)
    (hob : obMem.length = bufsiz + 1) : (Buffers.init ib ob ibMem obMem).Current := by
  have hsmall : bufsiz < 2 ^ 31 := by decide
  refine ⟨⟨_, if_pos rfl, bufferNew_holds hib hsmall⟩, ⟨ob, _, rfl, hne, ?_, bufferNew_holds hob hsmall⟩, rfl, rfl, ?_⟩
  · exact (if_neg hne).trans (if_pos rfl)
  · intro p hp
    rw [List.mem_singleton.mp hp]
    exact ⟨rfl, le_rfl, nofun⟩

/-- **Buffer handles.**  In every run whose calls all meet the condition, of any number of chunks and appends, the handles
are the current ones in every state, and the next call that meets the condition is made on valid handles. -/
theorem run_current (ib ob : Handle) (hne : ob ≠ ib) (ibMem obMem : List Byte) (hib : ibMem.length = bufsiz + 1)
    (hob : obMem.length = bufsiz + 1) (s : Buffers)
    (hrun : Buffers.Run (fun s call => call.Keeps s) (Buffers.init ib ob ibMem obMem) s) :
    s.Current ∧ ∀ call : BufferCall, call.Possible s → call.Keeps s → ∃ s', s.apply call = .ok s' := by
  have hcur : s.Current := by
    induction hrun with
    | refl => exact init_current hne hib hob
    | tail _ hs ih =>
      obtain ⟨call, hposs, hkeeps, hok⟩ := hs
      obtain ⟨s', hok', hs'⟩ := apply_current ih hposs hkeeps
      cases hok.symm.trans hok'
      exact hs'
  refine ⟨hcur, ?_⟩
  intro call hposs hkeeps
  obtain ⟨s', hok, -⟩ := apply_current hcur hposs hkeeps
  exact ⟨s', hok⟩

/-- A buffer of the initial size, full of zeros. -/
def blankMem : List Byte := List.replicate (bufsiz + 1) 0

theorem blankMem_length : blankMem.length = bufsiz + 1 := List.length_replicate

theorem init_full : ∃ s b, (Buffers.init 1 2 blankMem blankMem).apply (.recv (List.replicate bufsiz 65) .null) = .ok s ∧
    (BufferCall.recv (List.replicate bufsiz 65) .null).Possible (Buffers.init 1 2 blankMem blankMem) ∧
    (BufferCall.recv (List.replicate bufsiz 65) .null).Keeps (Buffers.init 1 2 blankMem blankMem) ∧
    s.received = List.replicate bufsiz 65 ∧ s.ib = 1 ∧ s.ob = some 2 ∧ s.store 1 = some b ∧
    s.store 2 = some (bufferNew bufsiz blankMem) ∧ s.store 3 = none ∧ b.Holds (List.replicate bufsiz 65) ∧
    ¬ b.Fits [65] := by
  let b := bufferNew bufsiz blankMem
  have hlen : ((List.replicate bufsiz (65 : Byte)).length : ℤ) = b.free := congrArg Nat.cast List.length_replicate
  have hb : b.Holds [] := bufferNew_holds blankMem_length (by decide)
  have hstays : b.Stays 1 (List.replicate bufsiz 65) .null := .inl hlen.le
  refine ⟨_, b.cat (List.replicate bufsiz 65) .null, recv_stays (s := Buffers.init 1 2 blankMem blankMem) rfl hb hstays,
    ⟨?_, ?_, nofun⟩, ?_, rfl, rfl, rfl, ?_, rfl, rfl, hb.cat (.inl hlen.le), ?_⟩
  · rw [List.length_replicate]
    decide
  · rw [List.length_replicate]
  · rintro b' ⟨⟩
    exact hstays
  · exact Function.update_self (1 : Handle) _ (Buffers.init 1 2 blankMem blankMem).store
  · rw [Buffer.Fits, cat_full hlen]
    decide

/-- A position is saved, the block is made larger where it is for one more byte, and then a header line is appended. -/
theorem run_current_grown : ∃ s s', Buffers.Run (fun s call => call.Keeps s) (Buffers.init 1 2 blankMem blankMem) s ∧
    s.received.length = bufsiz + 1 ∧ (∃ p ∈ s.saved, p.offset = 3 ∧ p.byte = some 65) ∧
    s.apply (.append .server []) = .ok s' ∧ s'.Current := by
  obtain ⟨s₁, b, hok₁, hposs₁, hkeeps₁, hreceived, hib, hob, hst, hst', -, hb, -⟩ := init_full
  let s₂ : Buffers := { s₁ with saved := ⟨s₁.ib, 3, s₁.received[3]?⟩ :: s₁.saved }
  have hok₂ : s₁.apply (.save 3) = .ok s₂ := rfl
  have hposs₂ : (BufferCall.save 3).Possible s₁ := by
    change 3 ≤ s₁.received.length
    rw [hreceived, List.length_replicate]
    decide
  -- in place
  let ra : Realloc := ⟨some 1, fun _ => 0⟩
  have hstays : b.Stays s₂.ib [65] ra := by
    refine .inr ⟨⟨by rintro ⟨⟩, ?_⟩, congrArg some hib.symm⟩
    rw [Buffer.newLen, hb.len, List.length_replicate]
    decide
  have hst₂ : s₂.store s₂.ib = some b := (congrArg s₁.store hib).trans hst
  have hok₃ := recv_stays (s := s₂) hst₂ (hreceived ▸ hb) hstays
  set s₃ : Buffers := { s₂ with
    store := Function.update s₂.store s₂.ib (some (b.cat [65] ra))
    ibLast := some s₂.ib
    received := s₂.received ++ [65] }
  have hposs₃ : (BufferCall.recv [65] ra).Possible s₂ := by
    refine ⟨Nat.one_pos, by decide, ?_⟩
    rintro npb ⟨⟩
    exact .inl hib.symm
  have hkeeps₃ : (BufferCall.recv [65] ra).Keeps s₂ := by
    intro b' hb'
    obtain rfl := Option.some.inj (hst₂.symm.trans hb')
    exact hstays
  have hst₃ : s₃.store 2 = some (bufferNew bufsiz blankMem) := by
    refine (Function.update_of_ne ?_ _ _).trans hst'
    rw [show s₂.ib = 1 from hib]
    decide
  have hkeeps₄ : (BufferCall.append .server []).Keeps s₃ := by
    intro h b' hh hb'
    obtain rfl : 2 = h := Option.some.inj (hob.symm.trans hh)
    obtain rfl := Option.some.inj (hst₃.symm.trans hb')
    exact keepsAll_of_room (bufferNew_holds blankMem_length (by decide)) 2 [] (by decide +kernel)
  have hrun₃ : Buffers.Run (fun s call => call.Keeps s) (Buffers.init 1 2 blankMem blankMem) s₃ :=
    ((Relation.ReflTransGen.single ⟨_, hposs₁, hkeeps₁, hok₁⟩).tail ⟨_, hposs₂, trivial, hok₂⟩).tail
      ⟨_, hposs₃, hkeeps₃, hok₃⟩
  obtain ⟨hcur, hnext⟩ := run_current 1 2 (by decide) blankMem blankMem blankMem_length blankMem_length s₃ hrun₃
  have hposs₄ : (BufferCall.append .server []).Possible s₃ := fun _ _ ra hra => absurd hra List.not_mem_nil
  obtain ⟨s, hok₄⟩ := hnext _ hposs₄ hkeeps₄
  have hrun := hrun₃.tail ⟨_, hposs₄, hkeeps₄, hok₄⟩
  refine ⟨s₃, s, hrun₃, ?_, ⟨_, List.mem_cons_self, rfl, ?_⟩, hok₄,
    (run_current 1 2 (by decide) blankMem blankMem blankMem_length blankMem_length s hrun).1⟩
  · change (s₁.received ++ [65]).length = _
    rw [hreceived, List.length_append, List.length_replicate]
    rfl
  · change s₁.received[3]? = some 65
    rw [hreceived, List.getElem?_replicate]
    rfl

/-- The buffer is full, one more byte is received, and `realloc` moves the block: `r->ib` is left with the old address. -/
theorem not_forall_run_current :
    ¬ ∀ s, Buffers.Run (fun _ _ => True) (Buffers.init 1 2 blankMem blankMem) s → s.Current := by
  intro h
  obtain ⟨s₁, b, hfirst, hposs, -, hreceived, hib, -, hst, -, hfree, hb, hfull⟩ := init_full
  obtain ⟨s, hsecond, hgone⟩ := @recv_moves s₁ b (by rw [hib]; exact hst) (hreceived ▸ hb)
    [65] ⟨some 3, fun _ => 0⟩ 3 hfull rfl (by rw [hib]; decide)
  have hrun : Buffers.Run (fun _ _ => True) (Buffers.init 1 2 blankMem blankMem) s := by
    refine .tail (.single ⟨_, hposs, trivial, hfirst⟩)
      ⟨.recv [65] ⟨some 3, fun _ => 0⟩, ⟨Nat.one_pos, by decide, ?_⟩, trivial, hsecond⟩
    rintro npb ⟨⟩
    exact .inr hfree
  obtain ⟨b', hst, -⟩ := (h s hrun).input
  rw [hgone] at hst
  cases hst

end Lotos
