import Mathlib.Data.List.Forall2
import Mathlib.Tactic.Common

/-!
# Joined writes

A writer may replace a run of writes by one write.  `Coalesces joins joined
original` says that each joined write stands for a run of the original
writes, in order, where `joins` relates a joined write to such a run.  Any
fold that a joined write and its run agree on gives the same result over
both lists.
-/

namespace WriteBatch

open List

variable {σ ω : Type*} {joins : ω → List ω → Prop}

/-- The joined writes stand for consecutive runs of the original writes. -/
def Coalesces (joins : ω → List ω → Prop) (joined original : List ω) : Prop :=
  ∃ runs : List (List ω), original = runs.flatten ∧
    List.Forall₂ joins joined runs

theorem coalesces_nil : Coalesces joins [] [] :=
  ⟨[], rfl, .nil⟩

variable {joined original : List ω} {op : ω}

theorem Coalesces.snoc (h : Coalesces joins joined original) {run : List ω} (hop : joins op run) :
    Coalesces joins (joined ++ [op]) (original ++ run) := by
  rcases h with ⟨runs, rfl, hruns⟩
  exact ⟨runs ++ [run], by simp, rel_append hruns (.cons hop .nil)⟩

theorem Coalesces.snoc_inv (h : Coalesces joins (joined ++ [op]) original) :
    ∃ front run, original = front ++ run ∧ Coalesces joins joined front ∧
      joins op run := by
  rcases h with ⟨runs, rfl, hruns⟩
  rcases eq_nil_or_concat runs with rfl | ⟨front, run, rfl⟩
  · have := hruns.length_eq
    simp at this
  · have hlength : joined.length = front.length := by
      simpa using hruns.length_eq
    rw [concat_eq_append] at hruns ⊢
    have hfront := List.forall₂_take_append _ _ _ hruns
    have hlast := List.forall₂_drop_append _ _ _ hruns
    rw [← hlength, take_left] at hfront
    rw [← hlength, drop_left] at hlast
    exact ⟨front.flatten, run, by simp, ⟨front, rfl, hfront⟩, by simpa using hlast⟩

theorem Coalesces.cons_inv (h : Coalesces joins (op :: joined) original) :
    ∃ run rest, original = run ++ rest ∧ joins op run ∧
      Coalesces joins joined rest := by
  rcases h with ⟨runs, rfl, hruns⟩
  cases hruns with
  | cons hop hrest => exact ⟨_, _, flatten_cons, hop, _, rfl, hrest⟩

theorem Coalesces.nil_inv (h : Coalesces joins [] original) : original = [] := by
  rcases h with ⟨runs, rfl, hruns⟩
  cases hruns
  rfl

theorem Coalesces.foldl_eq {step : σ → ω → σ}
    (hstep : ∀ op run, joins op run → ∀ s, step s op = run.foldl step s)
    (h : Coalesces joins joined original) (s : σ) :
    joined.foldl step s = original.foldl step s := by
  induction joined generalizing original s with
  | nil => rw [h.nil_inv]
  | cons op joined ih =>
    rcases h.cons_inv with ⟨run, rest, rfl, hop, hrest⟩
    rw [foldl_cons, foldl_append, hstep op run hop, ih hrest]

theorem Coalesces.mem_iff {x : ω} (hjoins : ∀ op run, joins op run → (x = op ↔ x ∈ run))
    (h : Coalesces joins joined original) : x ∈ joined ↔ x ∈ original := by
  induction joined generalizing original with
  | nil => rw [h.nil_inv]
  | cons op joined ih =>
    rcases h.cons_inv with ⟨run, rest, rfl, hop, hrest⟩
    rw [mem_cons, mem_append, hjoins op run hop, ih hrest]

end WriteBatch
