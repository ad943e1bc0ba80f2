import Mathlib

/-!
# Words that are read as prefixes

A value is looked up in a table of words by comparing each word with the memory at the value, over the length of the word.
That may find a word which is not the value: one that the value goes on from, or one that is completed by what comes after
the value (`Misread`).  In a table where no word is a prefix of another, the lookup is the exact one if and only if no word
of it is misread (`firstMatch_eq_exactMatch_iff`).
-/

namespace PrefixTable

variable {α β : Type*}

/-- The word is found at the value without being the value. -/
def Misread (value post word : List α) : Prop :=
  (word.length < value.length ∧ value.take word.length = word) ∨
    (value.length < word.length ∧ value ++ post.take (word.length - value.length) = word)

instance [DecidableEq α] (value post word : List α) : Decidable (Misread value post word) :=
  inferInstanceAs (Decidable ((_ ∧ _) ∨ (_ ∧ _)))

section Word

variable {value post word : List α}

theorem Misread.length_ne (h : Misread value post word) : value.length ≠ word.length := by
  rcases h with ⟨h, -⟩ | ⟨h, -⟩
  · exact h.ne'
  · exact h.ne

/-- A word is found at its length if it is the value, or if it is misread. -/
theorem take_eq_iff : (value ++ post).take word.length = word ↔ value = word ∨ Misread value post word := by
  rw [List.take_append]
  unfold Misread
  rcases lt_trichotomy word.length value.length with hlt | heq | hgt
  · have hne : value ≠ word := fun h => hlt.ne' (congrArg List.length h)
    simp [hlt, hlt.le, hlt.le.not_gt, hne, Nat.sub_eq_zero_of_le]
  · simp [heq]
  · have hne : value ≠ word := fun h => hgt.ne (congrArg List.length h)
    rw [List.take_of_length_le hgt.le]
    simp [hgt, hgt.le.not_gt, hne]

theorem take_eq_iff_begins {mem : List α} : mem.take word.length = word ↔ word <+: mem := by
  rw [List.prefix_iff_eq_take, eq_comm]

theorem exact_iff_not_misread : ((value ++ post).take word.length = word ↔ value = word) ↔ ¬ Misread value post word := by
  rw [take_eq_iff]
  constructor
  · intro hexact hmis
    exact hmis.length_ne (congrArg List.length (hexact.mp (.inr hmis)))
  · intro hmis
    simp [hmis]

end Word

/-- Neither word is a prefix of the other. -/
def Apart (e e' : List α × β) : Prop := ¬ e.1 <+: e'.1 ∧ ¬ e'.1 <+: e.1

instance : Std.Symm (Apart : List α × β → List α × β → Prop) := ⟨fun _ _ h => ⟨h.2, h.1⟩⟩

instance [DecidableEq α] (e e' : List α × β) : Decidable (Apart e e') := inferInstanceAs (Decidable (¬ _ ∧ ¬ _))

/-- No word is a prefix of another one. -/
def PrefixFree (table : List (List α × β)) : Prop := table.Pairwise Apart

instance [DecidableEq α] (table : List (List α × β)) : Decidable (PrefixFree table) :=
  inferInstanceAs (Decidable (table.Pairwise _))

/-- The first word that the memory begins with. -/
def firstMatch [DecidableEq α] (table : List (List α × β)) (mem : List α) : Option β :=
  (table.find? fun e => mem.take e.1.length = e.1).map Prod.snd

/-- The word that is the value. -/
def exactMatch [DecidableEq α] (table : List (List α × β)) (value : List α) : Option β :=
  (table.find? fun e => value = e.1).map Prod.snd

section Table

variable {table : List (List α × β)} {e e' : List α × β} {mem value post : List α}

/-- At most one entry has a word that the memory begins with. -/
theorem PrefixFree.unique (h : PrefixFree table) (he : e ∈ table) (he' : e' ∈ table) (hp : e.1 <+: mem)
    (hp' : e'.1 <+: mem) : e = e' := by
  by_contra hne
  have hapart : Apart e e' := List.Pairwise.forall h he he' hne
  rcases List.prefix_or_prefix_of_prefix hp hp' with hle | hle
  · exact hapart.1 hle
  · exact hapart.2 hle

variable [DecidableEq α]

theorem PrefixFree.firstMatch_eq (h : PrefixFree table) (he : e ∈ table) (hp : e.1 <+: mem) :
    firstMatch table mem = some e.2 := by
  unfold firstMatch
  cases hfind : table.find? fun e => mem.take e.1.length = e.1 with
  | none =>
    have hmiss := List.find?_eq_none.mp hfind e he
    exact absurd (decide_eq_true (take_eq_iff_begins.mpr hp)) hmiss
  | some e' =>
    have hp' : e'.1 <+: mem := take_eq_iff_begins.mp (by simpa using List.find?_some hfind)
    rw [h.unique (List.mem_of_find?_eq_some hfind) he hp' hp]
    rfl

theorem exactMatch_eq_some {b : β} (h : exactMatch table value = some b) : ∃ e ∈ table, value = e.1 ∧ e.2 = b := by
  obtain ⟨e, he, rfl⟩ := Option.map_eq_some_iff.mp h
  exact ⟨e, List.mem_of_find?_eq_some he, by simpa using List.find?_some he, rfl⟩

/-- **When the lookup by prefixes is the exact one.** -/
theorem firstMatch_eq_exactMatch_iff (h : PrefixFree table) :
    firstMatch table (value ++ post) = exactMatch table value ↔ ∀ e ∈ table, ¬ Misread value post e.1 := by
  constructor
  · intro heq e he hmis
    have hfound := take_eq_iff_begins.mp (take_eq_iff.mpr (.inr hmis))
    rw [h.firstMatch_eq he hfound] at heq
    -- the entry of the value is then another one that the memory begins with
    obtain ⟨e', he', hvalue, -⟩ := exactMatch_eq_some heq.symm
    have hfound' : e'.1 <+: value ++ post := take_eq_iff_begins.mp (take_eq_iff.mpr (.inl hvalue))
    rw [← h.unique he' he hfound' hfound] at hmis
    exact hmis.length_ne (congrArg List.length hvalue)
  · intro hnone
    unfold firstMatch exactMatch
    refine congrArg _ (List.find?_congr fun e he => ?_)
    exact decide_eq_decide.mpr (exact_iff_not_misread.mpr (hnone e he))

end Table

end PrefixTable
