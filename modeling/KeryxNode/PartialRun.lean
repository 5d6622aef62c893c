import Mathlib.Data.List.Induction

/-!
# Runs of a Partial Step

A run takes one step for each element of a list, and has no result if a step has none. These are
the rules for runs each step of which meets a condition on the state it starts from.
-/

namespace KeryxNode

open List

variable {σ α : Type} {step : σ → α → Option σ} {C : σ → α → Prop} {s t : σ} {l : List α}

/-- A run with one more step. -/
theorem foldlM_concat_eq_some {a : α} :
    (l ++ [a]).foldlM step s = some t ↔ ∃ u, l.foldlM step s = some u ∧ step u a = some t := by
  rw [foldlM_append, Option.bind_eq_bind, Option.bind_eq_some_iff]
  simp only [foldlM_cons, foldlM_nil, bind_pure]

/-- **A run** keeps what each of its steps keeps. -/
theorem foldlM_invariant {I : σ → Prop} (hs : I s)
    (hstep : ∀ {t t' a}, I t → C t a → step t a = some t' → I t')
    (hsteps : ∀ before a later t, l = before ++ a :: later →
      before.foldlM step s = some t → C t a)
    (hrun : l.foldlM step s = some t) : I t := by
  induction l using reverseRecOn generalizing t with
  | nil =>
    cases hrun
    exact hs
  | append_singleton l a ih =>
    obtain ⟨u, hu, hlast⟩ := foldlM_concat_eq_some.mp hrun
    have hI := ih (fun before b later t hsplit => hsteps before b (later ++ [a]) t
      (by rw [hsplit, append_assoc, cons_append])) hu
    exact hstep hI (hsteps l a [] u rfl hu) hlast

/-- Whether every step of a run meets a condition. -/
def checkSteps (step : σ → α → Option σ) (C : σ → α → Prop) [∀ s a, Decidable (C s a)] :
    σ → List α → Bool
  | _, [] => true
  | s, a :: l => decide (C s a) && (step s a).all fun t => checkSteps step C t l

theorem forall_steps_of_check [∀ s a, Decidable (C s a)] (h : checkSteps step C s l = true) :
    ∀ before a later t, l = before ++ a :: later → before.foldlM step s = some t → C t a := by
  intro before
  induction before generalizing s l with
  | nil =>
    rintro a later t rfl ht
    cases ht
    exact of_decide_eq_true (Bool.and_eq_true_iff.mp h).1
  | cons b before ih =>
    rintro a later t rfl ht
    obtain ⟨u, hu, ht⟩ := Option.bind_eq_some_iff.mp ht
    have hrest := (Bool.and_eq_true_iff.mp h).2
    rw [hu] at hrest
    exact ih hrest a later t rfl ht

end KeryxNode
