import Mathlib.Data.Finset.Card
import Mathlib.Data.Finset.SymmDiff
import Mathlib.Tactic.Common

/-!
# Majorities of finite sets

A majority of a finite set has more than half of its elements.  Two
majorities meet when they belong to the same set, and also when their sets
differ in at most one element.
-/

namespace MajorityQuorum

open Finset

variable {α : Type*} [DecidableEq α]

/-- `quorum` lies in `members` and has more than half of them. -/
structure IsMajority (members quorum : Finset α) : Prop where
  subset : quorum ⊆ members
  large : members.card / 2 + 1 ≤ quorum.card

def Adjacent (left right : Finset α) : Prop :=
  (left \ right).card + (right \ left).card ≤ 1

theorem Adjacent.refl (members : Finset α) : Adjacent members members := by
  simp [Adjacent]

theorem Adjacent.symm {left right : Finset α} (hadjacent : Adjacent left right) :
    Adjacent right left := by
  unfold Adjacent at *
  omega

theorem adjacent_insert (members : Finset α) (x : α) : Adjacent members (insert x members) := by
  have hleft : members \ insert x members = ∅ :=
    sdiff_eq_empty_iff_subset.mpr (subset_insert x members)
  have hright : insert x members \ members ⊆ {x} := by
    intro y hy
    rw [mem_sdiff, mem_insert] at hy
    exact mem_singleton.mpr (hy.1.resolve_right hy.2)
  have hcard := card_le_card hright
  rw [card_singleton] at hcard
  unfold Adjacent
  rw [hleft, card_empty]
  omega

theorem adjacent_erase (members : Finset α) (x : α) : Adjacent members (members.erase x) := by
  have hleft : members \ members.erase x ⊆ {x} := by
    intro y hy
    rw [mem_sdiff, mem_erase, not_and] at hy
    by_contra hne
    exact hy.2 (fun heq => hne (mem_singleton.mpr heq)) hy.1
  have hright : members.erase x \ members = ∅ :=
    sdiff_eq_empty_iff_subset.mpr (erase_subset x members)
  have hcard := card_le_card hleft
  rw [card_singleton] at hcard
  unfold Adjacent
  rw [hright, card_empty]
  omega

theorem IsMajority.meet {left right quorum quorum' : Finset α}
    (hquorum : IsMajority left quorum) (hquorum' : IsMajority right quorum')
    (hadjacent : Adjacent left right) : (quorum ∩ quorum').Nonempty := by
  have hleft := card_sdiff_add_card_inter left right
  have hright := card_sdiff_add_card_inter right left
  rw [inter_comm right left] at hright
  have hunion := card_union_add_card_inter left right
  have hsplit := card_union_add_card_inter quorum quorum'
  have hinside : (quorum ∪ quorum').card ≤ (left ∪ right).card :=
    card_le_card (union_subset_union hquorum.subset hquorum'.subset)
  have hlarge := hquorum.large
  have hlarge' := hquorum'.large
  unfold Adjacent at hadjacent
  rw [← card_pos]
  omega

end MajorityQuorum
