import Mathlib.Data.Finset.Image

/-!
# Resources and their owners

Every owner has a resource of its own (`Owned`): two owners do not share one, the resources held are those of the owners and
some others, and no owner has one of the others.  The rules say what keeps this: a fresh resource goes to a new owner
(`Owned.insert`) or to none (`Owned.leak`), and owners leave with their resources (`Owned.release`).
-/

namespace Ownership

variable {α β : Type*} [DecidableEq β]

/-- The owners have their own resources; `others` are the resources that are held besides. -/
structure Owned (f : α → β) (owners : Finset α) (others held : Finset β) : Prop where
  injOn : Set.InjOn f owners
  apart : ∀ a ∈ owners, f a ∉ others
  held : held = others ∪ owners.image f

variable {f g : α → β} {owners gone : Finset α} {others held : Finset β} {a : α} {b : β}

theorem Owned.empty (f : α → β) (others : Finset β) : Owned f ∅ others others :=
  ⟨by simp, by simp, by simp⟩

theorem Owned.mem (h : Owned f owners others held) (ha : a ∈ owners) : f a ∈ held := by
  rw [h.held]
  exact Finset.mem_union_right _ (Finset.mem_image_of_mem f ha)

theorem Owned.congr (h : Owned f owners others held) (hfg : ∀ a ∈ owners, g a = f a) : Owned g owners others held := by
  refine ⟨h.injOn.congr fun a ha => (hfg a ha).symm, ?_, ?_⟩
  · intro a ha
    rw [hfg a ha]
    exact h.apart a ha
  · rw [h.held, Finset.image_congr hfg]

/-- A fresh resource without an owner. -/
theorem Owned.leak (h : Owned f owners others held) (hb : b ∉ held) : Owned f owners (insert b others) (insert b held) := by
  refine ⟨h.injOn, ?_, ?_⟩
  · intro a ha
    rw [Finset.mem_insert, not_or]
    refine ⟨?_, h.apart a ha⟩
    rintro rfl
    exact hb (h.mem ha)
  · rw [h.held, Finset.insert_union]

variable [DecidableEq α]

theorem Owned.insert (h : Owned f owners others held) (hb : b ∉ held) (ha : a ∉ owners) :
    Owned (Function.update f a b) (insert a owners) others (insert b held) := by
  have hself : Function.update f a b a = b := Function.update_self _ _ _
  have hsame : ∀ c ∈ owners, Function.update f a b c = f c := by
    intro c hc
    refine Function.update_of_ne ?_ _ _
    rintro rfl
    exact ha hc
  have hother : b ∉ others := by
    intro hmem
    rw [h.held] at hb
    exact hb (Finset.mem_union_left _ hmem)
  have hold := h.congr hsame
  refine ⟨?_, ?_, ?_⟩
  · rw [Finset.coe_insert, Set.injOn_insert (Finset.mem_coe.not.mpr ha)]
    refine ⟨hold.injOn, ?_⟩
    rintro ⟨c, hc, heq⟩
    rw [hself, hsame c hc] at heq
    rw [← heq] at hb
    exact hb (h.mem hc)
  · intro c hc
    rcases Finset.mem_insert.mp hc with rfl | hc
    · rw [hself]
      exact hother
    · exact hold.apart c hc
  · rw [Finset.image_insert, hself, Finset.union_insert, hold.held]

/-- Owners leave, and their resources are given back. -/
theorem Owned.release (h : Owned f owners others held) (hgone : gone ⊆ owners) :
    Owned f (owners \ gone) others (held \ gone.image f) := by
  refine ⟨h.injOn.mono ?_, ?_, ?_⟩
  · exact_mod_cast Finset.sdiff_subset
  · exact fun a ha => h.apart a (Finset.mem_sdiff.mp ha).1
  · have hothers : Disjoint others (gone.image f) := by
      rw [Finset.disjoint_right]
      intro b hb
      obtain ⟨a, ha, rfl⟩ := Finset.mem_image.mp hb
      exact h.apart a (hgone ha)
    rw [h.held, Finset.union_sdiff_distrib, Finset.sdiff_eq_self_of_disjoint hothers]
    congr 1
    exact (Finset.image_sdiff_of_injOn h.injOn hgone).symm

end Ownership
