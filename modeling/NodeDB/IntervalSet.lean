import NodeDB.KeyedFold

/-!
# Sets of numbers kept as separated ranges

A finite set of natural numbers can be stored as a map from the start of each
maximal range to its inclusive end.  Ranges are kept apart: between the end of
one and the start of the next lies a number outside the set.  This file has
the lookup of the last range below a bound, what inserting and erasing a range
does to the set, and the binary search over the ranges as a list.
-/

namespace IntervalSet

open Std KeyedFold List

/-! ## Lookup -/

def lastBelow (ranges : TreeMap Nat Nat) (bound : Nat) : Option (Nat × Nat) :=
  (ranges.toList.filter fun range => range.1 < bound).getLast?

variable {ranges : TreeMap Nat Nat} {bound start stop point : Nat} {α : Type} {test : α → Bool}
  {items : List α}

theorem lastBelow_eq_some (h : lastBelow ranges bound = some (start, stop)) :
    ranges[start]? = some stop ∧ start < bound ∧
      ∀ other stop' : Nat, ranges[other]? = some stop' → other < bound → other ≤ start := by
  have hmem := mem_of_getLast? h
  rw [mem_filter, decide_eq_true_iff, TreeMap.mem_toList_iff_getElem?_eq_some] at hmem
  refine ⟨hmem.1, hmem.2, fun other stop' hother hbound => ?_⟩
  have hsorted := (pairwise_toList ranges).filter fun range => decide (range.1 < bound)
  refine le_of_getLast? hsorted h (other, stop') ?_
  rw [mem_filter, decide_eq_true_iff, TreeMap.mem_toList_iff_getElem?_eq_some]
  exact ⟨hother, hbound⟩

theorem lastBelow_eq_none (h : lastBelow ranges bound = none)
    (hrange : ranges[start]? = some stop) : bound ≤ start := by
  by_contra hlt
  have hmem : (start, stop) ∈ ranges.toList.filter fun range => decide (range.1 < bound) := by
    rw [mem_filter, decide_eq_true_iff, TreeMap.mem_toList_iff_getElem?_eq_some]
    exact ⟨hrange, Nat.not_le.mp hlt⟩
  rw [lastBelow, getLast?_eq_none_iff] at h
  simp [h] at hmem

/-! ## Separated ranges -/

def Covers (ranges : TreeMap Nat Nat) (number : Nat) : Prop :=
  ∃ start stop : Nat, ranges[start]? = some stop ∧ start ≤ number ∧ number ≤ stop

/-- The intervals neither overlap nor touch. -/
structure Separated (limit : Nat) (ranges : TreeMap Nat Nat) : Prop where
  ordered : ∀ {start stop : Nat}, ranges[start]? = some stop → start ≤ stop
  bounded : ∀ {start stop : Nat}, ranges[start]? = some stop → stop ≤ limit
  apart : ∀ {start stop start' stop' : Nat}, ranges[start]? = some stop →
    ranges[start']? = some stop' → start < start' → stop + 1 < start'

section Changes

variable {limit : Nat} {ranges : TreeMap Nat Nat}

theorem separated_empty (limit : Nat) : Separated limit (∅ : TreeMap Nat Nat) where
  ordered := by simp
  bounded := by simp
  apart := by simp

theorem not_covers_empty (number : Nat) : ¬ Covers (∅ : TreeMap Nat Nat) number := by
  simp [Covers]

theorem Separated.apart_or_same (h : Separated limit ranges) {start stop start' stop' : Nat}
    (hrange : ranges[start]? = some stop) (hrange' : ranges[start']? = some stop')
    (hle : start ≤ start') : stop + 1 < start' ∨ start = start' ∧ stop = stop' := by
  obtain hlt | rfl := hle.lt_or_eq
  · exact .inl (h.apart hrange hrange' hlt)
  · exact .inr ⟨rfl, Option.some.inj (hrange.symm.trans hrange')⟩

theorem Separated.covers_iff (h : Separated limit ranges) (number : Nat) :
    Covers ranges number ↔
      ((lastBelow ranges (number + 1)).any fun range => decide (number ≤ range.2)) = true := by
  constructor
  · rintro ⟨start, stop, hrange, hstart, hstop⟩
    rcases hlast : lastBelow ranges (number + 1) with _ | ⟨start', stop'⟩
    · have := lastBelow_eq_none hlast hrange
      omega
    · obtain ⟨hrange', hbelow, hmax⟩ := lastBelow_eq_some hlast
      have := h.apart_or_same hrange hrange' (hmax start stop hrange (by omega))
      simp only [Option.any_some, decide_eq_true_iff]
      omega
  · intro hany
    rcases hlast : lastBelow ranges (number + 1) with _ | ⟨start', stop'⟩
    · simp [hlast] at hany
    · obtain ⟨hrange', hbelow, _⟩ := lastBelow_eq_some hlast
      rw [hlast, Option.any_some, decide_eq_true_iff] at hany
      exact ⟨start', stop', hrange', by omega, hany⟩

theorem Separated.of_subset {kept : TreeMap Nat Nat} (h : Separated limit ranges)
    (hkept : ∀ {start stop : Nat}, kept[start]? = some stop → ranges[start]? = some stop) :
    Separated limit kept where
  ordered hrange := h.ordered (hkept hrange)
  bounded hrange := h.bounded (hkept hrange)
  apart hrange hrange' := h.apart (hkept hrange) (hkept hrange')

variable {start stop low high : Nat}

theorem Separated.erase (h : Separated limit ranges) (start : Nat) :
    Separated limit (ranges.erase start) :=
  h.of_subset fun hrange => (getElem?_erase_eq_some_iff.mp hrange).2

theorem covers_erase (hrange : ranges[start]? = some stop) (number : Nat) :
    Covers ranges number ↔
      Covers (ranges.erase start) number ∨ start ≤ number ∧ number ≤ stop := by
  constructor
  · rintro ⟨start', stop', hrange', hstart, hstop⟩
    by_cases heq : start' = start
    · subst heq
      rw [hrange] at hrange'
      exact .inr ⟨hstart, Option.some.inj hrange' ▸ hstop⟩
    · exact .inl ⟨start', stop', getElem?_erase_eq_some_iff.mpr ⟨heq, hrange'⟩, hstart, hstop⟩
  · rintro (⟨start', stop', hrange', hin⟩ | hin)
    · exact ⟨start', stop', (getElem?_erase_eq_some_iff.mp hrange').2, hin⟩
    · exact ⟨start, stop, hrange, hin⟩

theorem Separated.insert (h : Separated limit ranges) (horder : low ≤ high) (hbound : high ≤ limit)
    (hapart : ∀ {start stop : Nat}, ranges[start]? = some stop →
      stop + 1 < low ∨ high + 1 < start) :
    Separated limit (ranges.insert low high) where
  ordered hrange := by
    rcases getElem?_insert_eq_some_iff.mp hrange with ⟨rfl, rfl⟩ | ⟨_, hrange⟩
    · exact horder
    · exact h.ordered hrange
  bounded hrange := by
    rcases getElem?_insert_eq_some_iff.mp hrange with ⟨rfl, rfl⟩ | ⟨_, hrange⟩
    · exact hbound
    · exact h.bounded hrange
  apart hrange hrange' hlt := by
    rcases getElem?_insert_eq_some_iff.mp hrange with ⟨rfl, rfl⟩ | ⟨_, hold⟩
    · rcases getElem?_insert_eq_some_iff.mp hrange' with ⟨rfl, rfl⟩ | ⟨_, hold'⟩
      · omega
      · have := hapart hold'
        have := h.ordered hold'
        omega
    · rcases getElem?_insert_eq_some_iff.mp hrange' with ⟨rfl, rfl⟩ | ⟨_, hold'⟩
      · have := hapart hold
        have := h.ordered hold
        omega
      · exact h.apart hold hold' hlt

theorem Separated.covers_insert (h : Separated limit ranges) (horder : low ≤ high)
    (hapart : ∀ {start stop : Nat}, ranges[start]? = some stop → stop + 1 < low ∨ high + 1 < start)
    (number : Nat) :
    Covers (ranges.insert low high) number ↔
      Covers ranges number ∨ low ≤ number ∧ number ≤ high := by
  constructor
  · rintro ⟨start, stop, hrange, hin⟩
    rcases getElem?_insert_eq_some_iff.mp hrange with ⟨rfl, rfl⟩ | ⟨_, hrange⟩
    · exact .inr hin
    · exact .inl ⟨start, stop, hrange, hin⟩
  · rintro (⟨start, stop, hrange, hin⟩ | hin)
    · have hne : start ≠ low := by
        rintro rfl
        have := hapart hrange
        have := h.ordered hrange
        omega
      exact ⟨start, stop, getElem?_insert_eq_some_iff.mpr (.inr ⟨hne, hrange⟩), hin⟩
    · exact ⟨low, high, getElem?_insert_eq_some_iff.mpr (.inl ⟨rfl, rfl⟩), hin⟩

end Changes

/-! ## Binary search -/

/-- Narrows the window of `size` places from `base` on, in which the test turns false. -/
def bisect (test : Nat → Bool) : Nat → Nat → Nat → Nat
  | 0, base, _ => base
  | fuel + 1, base, size =>
    if size ≤ 1 then
      if test base then base + 1 else base
    else
      let half := size / 2
      bisect test fuel (if test (base + half) then base + half else base) (size - half)

/-- How many items pass a test that no item passes after one has failed. -/
def partitionPoint {α : Type} (test : α → Bool) (items : List α) : Nat :=
  if items.length = 0 then 0
  else bisect (fun place => items[place]?.any test) items.length 0 items.length

theorem bisect_eq {test : Nat → Bool} :
    ∀ {fuel base size : Nat}, 0 < size → size ≤ fuel → base ≤ point → point ≤ base + size →
      (∀ place, base ≤ place → place < base + size → (test place = true ↔ place < point)) →
      bisect test fuel base size = point := by
  intro fuel
  induction fuel with
  | zero => intro base size hpos hfuel; omega
  | succ fuel ih =>
    intro base size hpos hfuel hbase hpoint htest
    unfold bisect
    by_cases hsize : size ≤ 1
    · rw [if_pos hsize]
      have hfirst := htest base (by omega) (by omega)
      split_ifs with hpass
      · have := hfirst.mp hpass
        omega
      · have := mt hfirst.mpr hpass
        omega
    · rw [if_neg hsize]
      have hmid := htest (base + size / 2) (by omega) (by omega)
      dsimp only
      split_ifs with hpass
      · have := hmid.mp hpass
        exact ih (by omega) (by omega) (by omega) (by omega)
          fun place hlow hhigh => htest place (by omega) (by omega)
      · have := mt hmid.mpr hpass
        exact ih (by omega) (by omega) (by omega) (by omega)
          fun place hlow hhigh => htest place (by omega) (by omega)

theorem partitionPoint_eq (hpoint : point ≤ items.length)
    (htest : ∀ place (h : place < items.length), (test items[place] = true ↔ place < point)) :
    partitionPoint test items = point := by
  unfold partitionPoint
  split_ifs with hempty
  · omega
  · refine bisect_eq (Nat.pos_of_ne_zero hempty) le_rfl (Nat.zero_le _) (by omega) ?_
    intro place _ hlt
    have hin : place < items.length := by omega
    rw [getElem?_eq_getElem hin, Option.any_some]
    exact htest place hin

theorem lt_partitionPoint_iff
    (hclosed : items.Pairwise fun one other => test other = true → test one = true) :
    partitionPoint test items ≤ items.length ∧
      ∀ place (h : place < items.length),
        (test items[place] = true ↔ place < partitionPoint test items) := by
  have hcount : ∀ place (h : place < items.length),
      (test items[place] = true ↔ place < (items.takeWhile test).length) := by
    induction items with
    | nil => intro place hplace; simp at hplace
    | cons first rest ih =>
      intro place hplace
      obtain ⟨hhead, htail⟩ := pairwise_cons.mp hclosed
      by_cases hfirst : test first = true
      · cases place with
        | zero => simp [hfirst]
        | succ place =>
          simpa [hfirst] using ih htail place (by simpa using hplace)
      · cases place with
        | zero => simp [hfirst]
        | succ place =>
          have hin : place < rest.length := by simpa using hplace
          have hlater : ¬ test rest[place] = true := fun hpass =>
            hfirst (hhead _ (getElem_mem _) hpass)
          simp [hfirst, hlater]
  have hpoint := (takeWhile_sublist test (l := items)).length_le
  rw [partitionPoint_eq hpoint hcount]
  exact ⟨hpoint, hcount⟩

end IntervalSet
