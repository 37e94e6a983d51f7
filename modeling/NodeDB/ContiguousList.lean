import Mathlib.Data.List.Basic
import Mathlib.Tactic.Common

/-!
# Lists with consecutive keys

`Contiguous key start xs` says that the keys of `xs` are `start`,
`start + 1`, and so on.  Position and key of an element then determine each
other, so that filtering by key is taking or dropping by position.
`Spans key lo hi xs` fixes both ends: the keys are `lo + 1` to `hi`.
-/

namespace ContiguousList

open List

variable {α : Type*} {key : α → Nat}

def Contiguous (key : α → Nat) : Nat → List α → Prop
  | _, [] => True
  | start, x :: xs => key x = start ∧ Contiguous key (start + 1) xs

instance Contiguous.decidable (key : α → Nat) :
    (start : Nat) → (xs : List α) → Decidable (Contiguous key start xs)
  | _, [] => isTrue trivial
  | start, x :: xs =>
    have := Contiguous.decidable key (start + 1) xs
    inferInstanceAs (Decidable (key x = start ∧ Contiguous key (start + 1) xs))

@[simp]
theorem contiguous_nil (start : Nat) : Contiguous key start ([] : List α) :=
  trivial

@[simp]
theorem contiguous_cons (start : Nat) (x : α) (xs : List α) :
    Contiguous key start (x :: xs) ↔
      key x = start ∧ Contiguous key (start + 1) xs :=
  Iff.rfl

theorem contiguous_append (start : Nat) (xs ys : List α) :
    Contiguous key start (xs ++ ys) ↔
      Contiguous key start xs ∧ Contiguous key (start + xs.length) ys := by
  induction xs generalizing start with
  | nil => simp
  | cons x xs ih =>
    simp only [cons_append, contiguous_cons, ih, length_cons, and_assoc]
    rw [show start + 1 + xs.length = start + (xs.length + 1) by omega]

variable {start : Nat} {xs : List α} {x : α} {lo hi : Nat}

section

variable (hxs : Contiguous key start xs)
include hxs

theorem Contiguous.key_getElem? {k : Nat} (hx : xs[k]? = some x) : key x = start + k := by
  induction xs generalizing start k with
  | nil => simp at hx
  | cons y ys ih =>
    cases k with
    | zero =>
      simp only [getElem?_cons_zero, Option.some.injEq] at hx
      subst hx
      exact hxs.1
    | succ k =>
      simp only [getElem?_cons_succ] at hx
      have hkey := ih hxs.2 hx
      omega

theorem Contiguous.take (n : Nat) : Contiguous key start (xs.take n) := by
  rw [← take_append_drop n xs, contiguous_append] at hxs
  exact hxs.1

theorem Contiguous.drop {n : Nat} (hn : n ≤ xs.length) :
    Contiguous key (start + n) (xs.drop n) := by
  rw [← take_append_drop n xs, contiguous_append] at hxs
  simpa [Nat.min_eq_left hn] using hxs.2

theorem Contiguous.key_getLast? (hx : xs.getLast? = some x) : key x + 1 = start + xs.length := by
  rw [getLast?_eq_getElem?] at hx
  have hkey := hxs.key_getElem? hx
  have hlen : xs.length - 1 < xs.length := by
    by_contra hle
    rw [getElem?_eq_none (by omega)] at hx
    simp at hx
  omega

end

theorem Contiguous.getLast?_getD (hxs : Contiguous key (start + 1) xs) :
    (xs.getLast?.map key).getD start = start + xs.length := by
  cases hlast : xs.getLast? with
  | none =>
    rw [getLast?_eq_none_iff] at hlast
    simp [hlast]
  | some x =>
    have hkey := hxs.key_getLast? hlast
    simp only [Option.map_some, Option.getD_some]
    omega

theorem Contiguous.key_mem (hxs : Contiguous key start xs)
    (hx : x ∈ xs) : start ≤ key x ∧ key x < start + xs.length := by
  rcases mem_iff_getElem?.mp hx with ⟨k, hk⟩
  have hkey := hxs.key_getElem? hk
  have hlt : k < xs.length := (List.getElem?_eq_some_iff.mp hk).1
  omega

theorem Contiguous.filter_le (hxs : Contiguous key start xs) (n : Nat) :
    (xs.filter fun x => decide (n ≤ key x)) = xs.drop (n - start) := by
  induction xs generalizing start with
  | nil => simp
  | cons x xs ih =>
    rcases hxs with ⟨hkey, hrest⟩
    by_cases hle : n ≤ key x
    · have hall : ∀ y ∈ xs, decide (n ≤ key y) = true := by
        intro y hy
        have := hrest.key_mem hy
        exact decide_eq_true (by omega)
      rw [filter_cons_of_pos (by simpa using hle),
        filter_eq_self.mpr hall, show n - start = 0 by omega, drop_zero]
    · rw [filter_cons_of_neg (by simpa using hle), ih hrest,
        show n - start = (n - (start + 1)) + 1 by omega, drop_succ_cons]

theorem Contiguous.filter_lt (hxs : Contiguous key start xs) (n : Nat) :
    (xs.filter fun x => decide (key x < n)) = xs.take (n - start) := by
  induction xs generalizing start with
  | nil => simp
  | cons x xs ih =>
    rcases hxs with ⟨hkey, hrest⟩
    by_cases hlt : key x < n
    · rw [filter_cons_of_pos (by simpa using hlt), ih hrest,
        show n - start = (n - (start + 1)) + 1 by omega, take_succ_cons]
    · have hall : ∀ y ∈ xs, ¬ decide (key y < n) = true := by
        intro y hy
        have := hrest.key_mem hy
        simp only [decide_eq_true_eq]
        omega
      rw [filter_cons_of_neg (by simpa using hlt),
        filter_eq_nil_iff.mpr hall, show n - start = 0 by omega, take_zero]

/-- Inserting consecutive keys one by one into an ordered store appends them. -/
theorem Contiguous.foldl_insert {insert : List α → α → List α}
    (hinsert : ∀ xs x, (∀ held ∈ xs, key held < key x) → insert xs x = xs ++ [x])
    {more : List α} (hxs : Contiguous key start (xs ++ more)) :
    more.foldl insert xs = xs ++ more := by
  induction more generalizing xs with
  | nil => simp
  | cons x more ih =>
    have hlast : insert xs x = xs ++ [x] := by
      apply hinsert
      intro held hmem
      rw [contiguous_append] at hxs
      have := hxs.1.key_mem hmem
      have := hxs.2.1
      omega
    rw [foldl_cons, hlast, ih (by simpa using hxs)]
    simp

/-! ## Lists over an interval of keys -/

def Spans (key : α → Nat) (lo hi : Nat) (xs : List α) : Prop :=
  lo ≤ hi ∧ Contiguous key (lo + 1) xs ∧ xs.length = hi - lo

theorem spans_nil (key : α → Nat) (n : Nat) : Spans key n n ([] : List α) :=
  ⟨Nat.le_refl _, contiguous_nil _, by simp⟩

theorem Spans.append {mid : Nat} {ys : List α}
    (hxs : Spans key lo mid xs) (hys : Spans key mid hi ys) : Spans key lo hi (xs ++ ys) := by
  obtain ⟨hlo, hxsKeys, hxsLength⟩ := hxs
  obtain ⟨hhi, hysKeys, hysLength⟩ := hys
  refine ⟨Nat.le_trans hlo hhi, ?_, by rw [length_append]; omega⟩
  rw [contiguous_append, hxsLength, show lo + 1 + (mid - lo) = mid + 1 by omega]
  exact ⟨hxsKeys, hysKeys⟩

section

variable (hxs : Spans key lo hi xs)
include hxs

theorem Spans.drop (n : Nat) : Spans key (min (lo + n) hi) hi (xs.drop n) := by
  obtain ⟨hle, hkeys, hlength⟩ := hxs
  refine ⟨Nat.min_le_right _ _, ?_, by rw [length_drop]; omega⟩
  rcases Nat.lt_or_ge xs.length n with hshort | hlong
  · rw [drop_eq_nil_of_le (by omega)]
    exact contiguous_nil _
  · have hdrop := hkeys.drop hlong
    rw [show min (lo + n) hi + 1 = lo + 1 + n by omega]
    exact hdrop

theorem Spans.filter_lt (n : Nat) :
    Spans key (min (max lo n) hi) hi (xs.filter fun x => decide (n < key x)) := by
  have hdrop := hxs.drop (n + 1 - (lo + 1))
  rw [← hxs.2.1.filter_le (n + 1)] at hdrop
  rw [show min (max lo n) hi = min (lo + (n + 1 - (lo + 1))) hi by omega]
  exact hdrop

theorem Spans.key_mem (hx : x ∈ xs) : lo < key x ∧ key x ≤ hi := by
  have hkey := hxs.2.1.key_mem hx
  have hlength := hxs.2.2
  have hle := hxs.1
  omega

theorem Spans.exists_mem {n : Nat} (hlo : lo < n) (hhi : n ≤ hi) : ∃ x ∈ xs, key x = n := by
  obtain ⟨-, hkeys, hlength⟩ := hxs
  have hin : n - lo - 1 < xs.length := by omega
  have hget := getElem?_eq_getElem hin
  have hkey := hkeys.key_getElem? hget
  exact ⟨xs[n - lo - 1], getElem_mem hin, by omega⟩

theorem Spans.getLast?_getD (default : Nat) :
    (xs.getLast?.map key).getD default = if lo < hi then hi else default := by
  obtain ⟨hle, hkeys, hlength⟩ := hxs
  cases hlast : xs.getLast? with
  | none =>
    rw [getLast?_eq_none_iff] at hlast
    rw [hlast, length_nil] at hlength
    rw [if_neg (by omega)]
    rfl
  | some x =>
    have hkey := hkeys.key_getLast? hlast
    have hpos : xs.length ≠ 0 := by
      intro hzero
      rw [length_eq_zero_iff.mp hzero] at hlast
      simp at hlast
    rw [if_pos (by omega)]
    simp only [Option.map_some, Option.getD_some]
    omega

end

end ContiguousList
