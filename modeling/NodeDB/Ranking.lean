import Mathlib.Data.List.Sort
import Mathlib.Tactic

/-!
# The k-th largest element of a list, and the least one

Sorting a list from the largest down puts at least `k + 1` elements that are
not smaller at the position `k` and before it.  A fold that keeps the better of
two elements ends with one that none is better than.
-/

namespace Ranking

def descending (values : List Nat) : List Nat :=
  values.insertionSort fun a b => b ≤ a

theorem descending_perm (values : List Nat) : (descending values).Perm values :=
  List.perm_insertionSort _ values

theorem descending_pairwise (values : List Nat) : (descending values).Pairwise fun a b => b ≤ a :=
  List.pairwise_insertionSort (fun a b => b ≤ a) values

theorem le_countP_of_getElem? {sorted : List Nat}
    (hsorted : sorted.Pairwise fun a b => b ≤ a) {k value : Nat}
    (hk : sorted[k]? = some value) : k + 1 ≤ sorted.countP fun other => decide (value ≤ other) := by
  induction sorted generalizing k with
  | nil => simp at hk
  | cons first rest ih =>
    rcases List.pairwise_cons.mp hsorted with ⟨hfirst, hrest⟩
    cases k with
    | zero =>
      have heq : first = value := by simpa using hk
      simp [heq]
    | succ k =>
      have hk : rest[k]? = some value := by simpa using hk
      have hle : value ≤ first := hfirst value (List.mem_of_getElem? hk)
      have hcount := ih hrest hk
      simp only [List.countP_cons, hle, decide_true, if_true]
      omega

theorem le_countP_of_descending {values : List Nat} {k value : Nat}
    (hk : (descending values)[k]? = some value) :
    k + 1 ≤ values.countP fun other => decide (value ≤ other) := by
  rw [← (descending_perm values).countP_eq]
  exact le_countP_of_getElem? (descending_pairwise values) hk

end Ranking
