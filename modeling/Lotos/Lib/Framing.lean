import Mathlib.Data.List.Basic
import Mathlib.Data.List.Infix

/-!
# Messages in a stream

A `Codec` is an encoding whose items end by themselves, so that items that are sent one after the other are read back as they
were sent, wherever the stream stands at the moment (`Codec.decodeAll_prefix`).

`messageCodec` is such an encoding: a head of lines, each ended by two symbols and none of them empty, an empty line, and a
body whose length the head tells.
-/

namespace Framing

/-! ### Codecs -/

/-- An encoding whose items end by themselves. -/
structure Codec (α β : Type*) where
  encode : α → List β
  /-- the first item, and what follows it -/
  decode : List β → Option (α × List β)
  decode_encode : ∀ a rest, decode (encode a ++ rest) = some (a, rest)
  decode_sound : ∀ {xs a rest}, decode xs = some (a, rest) → xs = encode a ++ rest
  encode_ne_nil : ∀ a, encode a ≠ []

section Codec

variable {α β : Type*} (C : Codec α β) {a : α} {xs part rest : List β}

theorem Codec.decode_length (h : C.decode xs = some (a, rest)) : rest.length < xs.length := by
  have hpos := List.length_pos_of_ne_nil (C.encode_ne_nil a)
  rw [C.decode_sound h, List.length_append]
  omega

/-- An item is not read before its end. -/
theorem Codec.decode_part (h : part <+: C.encode a) (hne : part ≠ C.encode a) : C.decode part = none := by
  obtain ⟨more, hmore⟩ := h
  cases hdec : C.decode part with
  | none => rfl
  | some res =>
    obtain ⟨b, rest⟩ := res
    have hsound := C.decode_sound hdec
    have hb := C.decode_encode b (rest ++ more)
    have ha := C.decode_encode a []
    rw [List.append_nil, ← hmore, hsound, List.append_assoc, hb] at ha
    obtain ⟨-, hnil⟩ := Prod.mk.inj (Option.some.inj ha)
    refine absurd ?_ hne
    rw [← hmore, (List.append_eq_nil_iff.mp hnil).2, List.append_nil]

end Codec

/-- The items of a stream, and what is left. -/
def Codec.decodeAll {α β : Type*} (C : Codec α β) (xs : List β) : List α × List β :=
  match _h : C.decode xs with
  | none => ([], xs)
  | some (a, rest) => (a :: (C.decodeAll rest).1, (C.decodeAll rest).2)
termination_by xs.length
decreasing_by all_goals exact C.decode_length _h

section Stream

variable {α β : Type*} (C : Codec α β) {a : α} {xs rest : List β}

theorem Codec.decodeAll_none (h : C.decode xs = none) : C.decodeAll xs = ([], xs) := by
  rw [Codec.decodeAll]
  split
  · rfl
  · rename_i heq
    rw [h] at heq
    cases heq

theorem Codec.decodeAll_some (h : C.decode xs = some (a, rest)) :
    C.decodeAll xs = (a :: (C.decodeAll rest).1, (C.decodeAll rest).2) := by
  rw [Codec.decodeAll]
  split
  · rename_i heq
    rw [h] at heq
    cases heq
  · rename_i heq
    rw [h] at heq
    cases heq
    rfl

theorem Codec.decode_nil : C.decode [] = none := by
  cases hdec : C.decode [] with
  | none => rfl
  | some res => exact absurd (C.decode_length hdec) (Nat.not_lt_zero _)

/-- **A stream at any moment.**  A prefix of a stream of items is read as some of the items, in order, and a part of the next
one that is not all of it. -/
theorem Codec.decodeAll_prefix {as : List α} (h : xs <+: as.flatMap C.encode) :
    ∃ done todo, as = done ++ todo ∧ (C.decodeAll xs).1 = done ∧ xs = done.flatMap C.encode ++ (C.decodeAll xs).2 ∧
      match todo with
      | [] => (C.decodeAll xs).2 = []
      | a :: _ => (C.decodeAll xs).2 <+: C.encode a ∧ (C.decodeAll xs).2 ≠ C.encode a := by
  induction as generalizing xs with
  | nil =>
    obtain rfl : xs = [] := List.prefix_nil.mp h
    rw [C.decodeAll_none C.decode_nil]
    exact ⟨[], [], rfl, rfl, rfl, rfl⟩
  | cons a as ih =>
    rw [List.flatMap_cons] at h
    rcases List.prefix_or_prefix_of_prefix h (List.prefix_append _ _) with hpart | ⟨ys, rfl⟩
    · by_cases heq : xs = C.encode a
      · subst heq
        obtain ⟨done, todo, has, hdone, hsplit, hrest⟩ := ih (List.nil_prefix (l := as.flatMap C.encode))
        have hdec := C.decode_encode a []
        rw [List.append_nil] at hdec
        rw [C.decodeAll_some hdec]
        refine ⟨a :: done, todo, by rw [has, List.cons_append], by rw [hdone], ?_, hrest⟩
        rw [List.flatMap_cons, List.append_assoc, ← hsplit, List.append_nil]
      · rw [C.decodeAll_none (C.decode_part hpart heq)]
        exact ⟨[], a :: as, rfl, rfl, rfl, hpart, heq⟩
    · obtain ⟨done, todo, has, hdone, hsplit, hrest⟩ := ih ((List.prefix_append_right_inj _).mp h)
      rw [C.decodeAll_some (C.decode_encode a ys)]
      refine ⟨a :: done, todo, by rw [has, List.cons_append], by rw [hdone], ?_, hrest⟩
      rw [List.flatMap_cons, List.append_assoc, ← hsplit]

end Stream

/-! ### Messages -/

section Message

/-- A head of lines, none of them empty, and a body whose length the head tells. -/
@[ext]
structure Message {β : Type*} (cr : β) (bodyLength : List (List β) → Option ℕ) where
  head : List (List β)
  body : List β
  lines : ∀ l ∈ head, l ≠ [] ∧ cr ∉ l
  length : bodyLength head = some body.length

/-- Lines, each with its end. -/
def joinLines {β : Type*} (cr lf : β) (ls : List (List β)) : List β := ls.flatMap fun l => l ++ [cr, lf]

variable {β : Type*} [DecidableEq β] (cr lf : β)

/-- The first line, without its end, and what follows it. -/
def takeLine : List β → Option (List β × List β)
  | b :: c :: rest =>
    if b = cr then if c = lf then some ([], rest) else none
    else (takeLine (c :: rest)).map fun res => (b :: res.1, res.2)
  | _ => none

variable {cr lf} {l : List β} {ls : List (List β)} {xs rest : List β}

theorem takeLine_iff : takeLine cr lf xs = some (l, rest) ↔ cr ∉ l ∧ xs = l ++ cr :: lf :: rest := by
  induction xs generalizing l with
  | nil => simp [takeLine]
  | cons b bs ih =>
    cases bs with
    | nil => cases l <;> simp [takeLine]
    | cons c cs =>
      rw [takeLine]
      by_cases hb : b = cr
      · subst hb
        cases l with
        | nil => by_cases hc : c = lf <;> simp [hc]
        | cons d ds =>
          have hno : ¬ (b ∉ d :: ds ∧ b :: c :: cs = d :: ds ++ b :: lf :: rest) := by
            rintro ⟨hmem, heq⟩
            exact hmem (List.mem_cons.mpr (.inl (List.cons.inj heq).1))
          simp only [if_true, hno, iff_false]
          split_ifs <;> simp
      · rw [if_neg hb]
        cases l with
        | nil => simp [hb]
        | cons d ds =>
          simp only [Option.map_eq_some_iff, Prod.exists, Prod.mk.injEq, List.cons.injEq, List.cons_append,
            List.mem_cons, not_or]
          constructor
          · rintro ⟨ds', rest', hrec, ⟨rfl, rfl⟩, rfl⟩
            obtain ⟨hmem, heq⟩ := ih.mp hrec
            exact ⟨⟨Ne.symm hb, hmem⟩, rfl, heq⟩
          · rintro ⟨⟨-, hmem⟩, rfl, heq⟩
            exact ⟨ds, rest, ih.mpr ⟨hmem, heq⟩, ⟨rfl, rfl⟩, rfl⟩

variable (cr lf) in
/-- The lines up to the first empty one, and what follows it. -/
def takeHead (xs : List β) : Option (List (List β) × List β) :=
  match _hline : takeLine cr lf xs with
  | none => none
  | some ([], rest) => some ([], rest)
  | some (b :: bs, rest) => (takeHead rest).map fun res => ((b :: bs) :: res.1, res.2)
termination_by xs.length
decreasing_by
  obtain ⟨-, rfl⟩ := takeLine_iff.mp _hline
  simp only [List.length_append, List.length_cons]
  omega

theorem takeHead_iff : takeHead cr lf xs = some (ls, rest) ↔
    (∀ l ∈ ls, l ≠ [] ∧ cr ∉ l) ∧ xs = joinLines cr lf ls ++ cr :: lf :: rest := by
  induction ls generalizing xs with
  | nil =>
    rw [takeHead]
    split
    · rename_i hnone
      simp only [reduceCtorEq, false_iff]
      rintro ⟨-, hxs⟩
      rw [takeLine_iff.mpr ⟨List.not_mem_nil, hxs⟩] at hnone
      cases hnone
    · rename_i rest' hline
      obtain ⟨-, rfl⟩ := takeLine_iff.mp hline
      simp [joinLines, eq_comm]
    · rename_i b bs rest' hline
      simp only [Option.map_eq_some_iff, Prod.mk.injEq, reduceCtorEq, false_and, and_false, exists_false, false_iff]
      rintro ⟨-, hxs⟩
      rw [takeLine_iff.mpr ⟨List.not_mem_nil, hxs⟩] at hline
      cases hline
  | cons l ls ih =>
    have hiff : ((∀ k ∈ l :: ls, k ≠ [] ∧ cr ∉ k) ∧ xs = joinLines cr lf (l :: ls) ++ cr :: lf :: rest) ↔
        l ≠ [] ∧ ∃ ys, takeLine cr lf xs = some (l, ys) ∧ takeHead cr lf ys = some (ls, rest) := by
      simp only [ih, takeLine_iff, List.forall_mem_cons, joinLines, List.flatMap_cons, List.append_assoc]
      constructor
      · rintro ⟨⟨⟨hne, hl⟩, hls⟩, rfl⟩
        exact ⟨hne, _, ⟨hl, rfl⟩, hls, rfl⟩
      · rintro ⟨hne, ys, ⟨hl, rfl⟩, hls, rfl⟩
        exact ⟨⟨⟨hne, hl⟩, hls⟩, rfl⟩
    rw [hiff, takeHead]
    split
    · rename_i hnone
      simp [hnone]
    · rename_i rest' hline
      simp only [hline, Option.some.injEq, Prod.mk.injEq, reduceCtorEq, false_and, false_iff, not_and, not_exists]
      rintro hne ys ⟨rfl, -⟩
      exact absurd rfl hne
    · rename_i b bs rest' hline
      simp only [hline, Option.map_eq_some_iff, Prod.exists, Prod.mk.injEq, List.cons.injEq, Option.some.injEq]
      constructor
      · rintro ⟨ls', rest'', hrec, ⟨rfl, rfl⟩, rfl⟩
        exact ⟨List.cons_ne_nil _ _, _, ⟨rfl, rfl⟩, hrec⟩
      · rintro ⟨-, ys, ⟨rfl, rfl⟩, hrec⟩
        exact ⟨ls, rest, hrec, ⟨rfl, rfl⟩, rfl⟩

variable {bodyLength : List (List β) → Option ℕ}

variable (cr lf) in
/-- The message at the beginning of the bytes, if it has come wholly. -/
def takeMessage (bodyLength : List (List β) → Option ℕ) (xs : List β) : Option (Message cr bodyLength × List β) :=
  (takeHead cr lf xs).bind fun res =>
    (bodyLength res.1).bind fun n =>
      if h : (∀ l ∈ res.1, l ≠ [] ∧ cr ∉ l) ∧ bodyLength res.1 = some (res.2.take n).length then
        some (⟨res.1, res.2.take n, h.1, h.2⟩, res.2.drop n)
      else none

variable (cr lf) in
/-- **Messages end by themselves.** -/
def messageCodec (bodyLength : List (List β) → Option ℕ) : Codec (Message cr bodyLength) β where
  encode m := joinLines cr lf m.head ++ cr :: lf :: m.body
  decode := takeMessage cr lf bodyLength
  decode_encode := by
    intro m rest
    have hhead : takeHead cr lf (joinLines cr lf m.head ++ cr :: lf :: m.body ++ rest) = some (m.head, m.body ++ rest) := by
      refine takeHead_iff.mpr ⟨m.lines, ?_⟩
      simp
    have htake : (m.body ++ rest).take m.body.length = m.body := List.take_left
    have hdrop : (m.body ++ rest).drop m.body.length = rest := List.drop_left
    have hvalid : (∀ l ∈ m.head, l ≠ [] ∧ cr ∉ l) ∧
        bodyLength m.head = some ((m.body ++ rest).take m.body.length).length := by
      rw [htake]
      exact ⟨m.lines, m.length⟩
    simp only [takeMessage, hhead, Option.bind_some, m.length]
    rw [dif_pos (by rw [← m.length]; exact hvalid)]
    simp only [hdrop, Option.some.injEq, Prod.mk.injEq, and_true]
    exact Message.ext rfl htake
  decode_sound := by
    intro xs m rest h
    obtain ⟨⟨head, after⟩, hhead, h⟩ := Option.bind_eq_some_iff.mp h
    obtain ⟨n, -, h⟩ := Option.bind_eq_some_iff.mp h
    split_ifs at h
    cases h
    rw [(takeHead_iff.mp hhead).2]
    simp
  encode_ne_nil := by
    intro m
    simp

end Message

end Framing
