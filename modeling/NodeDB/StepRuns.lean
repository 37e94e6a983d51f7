import Mathlib.Data.List.Induction

/-!
# Runs of a step function

A system is a step function `step : σ → α → σ`; a run is a list of actions
folded over a starting state.  `Along step ok s as` says that every step of
the run satisfies the condition `ok` in the state it is taken from.  The
lemmas here package the induction over a run, and what a list that grows at
its end keeps.
-/

namespace StepRuns

open List

variable {σ α : Type*}

/-- Every step of the run satisfies `ok` in the state it starts from. -/
def Along (step : σ → α → σ) (ok : σ → α → Prop) : σ → List α → Prop
  | _, [] => True
  | s, a :: as => ok s a ∧ Along step ok (step s a) as

instance Along.decidable (step : σ → α → σ) (ok : σ → α → Prop)
    [∀ s a, Decidable (ok s a)] :
    (s : σ) → (as : List α) → Decidable (Along step ok s as)
  | _, [] => isTrue trivial
  | s, a :: as =>
    have := Along.decidable step ok (step s a) as
    inferInstanceAs (Decidable (ok s a ∧ Along step ok (step s a) as))

@[simp]
theorem along_nil (step : σ → α → σ) (ok : σ → α → Prop) (s : σ) : Along step ok s [] :=
  trivial

@[simp]
theorem along_cons (step : σ → α → σ) (ok : σ → α → Prop) (s : σ) (a : α) (as : List α) :
    Along step ok s (a :: as) ↔ ok s a ∧ Along step ok (step s a) as :=
  Iff.rfl

theorem along_append (step : σ → α → σ) (ok : σ → α → Prop) (s : σ) (as bs : List α) :
    Along step ok s (as ++ bs) ↔
      Along step ok s as ∧ Along step ok (as.foldl step s) bs := by
  induction as generalizing s with
  | nil => simp
  | cons a as ih => simp [ih, and_assoc]

variable {step : σ → α → σ} {ok : σ → α → Prop} {s : σ} {as : List α} {a : α}

theorem forall_mem_concat {known : α → Prop} :
    (∀ b ∈ as ++ [a], known b) ↔ (∀ b ∈ as, known b) ∧ known a := by
  rw [forall_mem_append, forall_mem_singleton]

theorem Along.and {ok' : σ → α → Prop}
    (halong : Along step ok s as) (halong' : Along step ok' s as) :
    Along step (fun s a => ok s a ∧ ok' s a) s as := by
  induction as generalizing s with
  | nil => trivial
  | cons a as ih => exact ⟨⟨halong.1, halong'.1⟩, ih halong.2 halong'.2⟩

theorem Along.and_of_forall {known : α → Prop}
    (halong : Along step ok s as) (hknown : ∀ a ∈ as, known a) :
    Along step (fun s a => known a ∧ ok s a) s as := by
  induction as generalizing s with
  | nil => trivial
  | cons a as ih =>
    refine ⟨⟨hknown a mem_cons_self, halong.1⟩, ih halong.2 ?_⟩
    intro b hmem
    exact hknown b (mem_cons_of_mem _ hmem)

theorem along_of_forall (step : σ → α → σ) {known : α → Prop}
    (hknown : ∀ a ∈ as, known a) (s : σ) : Along step (fun _ a => known a) s as := by
  induction as generalizing s with
  | nil => trivial
  | cons a as ih =>
    exact ⟨hknown a mem_cons_self,
      ih (fun b hmem => hknown b (mem_cons_of_mem _ hmem)) (step s a)⟩

theorem invariant_foldl (Inv : σ → Prop)
    (hstep : ∀ s a, Inv s → ok s a → Inv (step s a))
    (hinit : Inv s) (halong : Along step ok s as) : Inv (as.foldl step s) := by
  induction as generalizing s with
  | nil => exact hinit
  | cons a as ih =>
    rcases halong with ⟨hok, hrest⟩
    exact ih (hstep s a hinit hok) hrest

theorem foldl_unchanged {β : Type*} (project : σ → β)
    (hstep : ∀ s a, project (step s a) = project s) (s : σ) (as : List α) :
    project (as.foldl step s) = project s := by
  induction as generalizing s with
  | nil => rfl
  | cons a as ih => exact (ih (step s a)).trans (hstep s a)

theorem history_foldl (Inv : List α → σ → Prop)
    (hstep : ∀ past s a, Inv past s → ok s a → Inv (past ++ [a]) (step s a))
    (hinit : Inv [] s) (halong : Along step ok s as) : Inv as (as.foldl step s) := by
  induction as using reverseRecOn with
  | nil => exact hinit
  | append_singleton as a ih =>
    rw [along_append] at halong
    rcases halong with ⟨hpast, hlast⟩
    rw [foldl_append]
    exact hstep as _ a (ih hpast) hlast.1

theorem history_foldl_within (Inv : List α → σ → Prop)
    (hstep : ∀ past s a, (∀ b ∈ past ++ [a], b ∈ as) → Inv past s → ok s a →
      Inv (past ++ [a]) (step s a))
    (hinit : Inv [] s) (halong : Along step ok s as) : Inv as (as.foldl step s) := by
  have hrun := history_foldl (fun past s => (∀ b ∈ past, b ∈ as) ∧ Inv past s)
    (fun past s a h hok => ?_) ⟨by simp, hinit⟩ (halong.and_of_forall fun _ => id)
  · exact hrun.2
  · obtain ⟨hpast, hinv⟩ := h
    have hwithin := forall_mem_concat.mpr ⟨hpast, hok.1⟩
    exact ⟨hwithin, hstep past s a hwithin hinv hok.2⟩

/-- Where every step keeps `P` exactly if it meets the condition, `P` holds in
every state of a run exactly if all its steps do. -/
theorem forall_prefix_iff_along (known P : σ → Prop)
    (hknown : ∀ s a, known s → known (step s a))
    (hstep : ∀ s a, known s → P s → (P (step s a) ↔ ok s a)) (hs : known s) (hinit : P s) :
    (∀ past, past <+: as → P (past.foldl step s)) ↔ Along step ok s as := by
  induction as generalizing s with
  | nil => simp [hinit]
  | cons a as ih =>
    simp only [prefix_cons_iff]
    constructor
    · intro hall
      have hnext : P (step s a) := hall [a] (.inr ⟨[], rfl, nil_prefix⟩)
      refine ⟨(hstep s a hs hinit).mp hnext, (ih (hknown s a hs) hnext).mp ?_⟩
      intro past hpast
      exact hall (a :: past) (.inr ⟨past, rfl, hpast⟩)
    · rintro ⟨hok, hrest⟩ past (rfl | ⟨past, rfl, hpast⟩)
      · exact hinit
      · exact (ih (hknown s a hs) ((hstep s a hs hinit).mpr hok)).mpr hrest past hpast

end StepRuns
