import Mathlib.Tactic

/-!
# Guarded transition systems

A system is a partial step function `next` over states and actions. `Reach`
collects the states of all runs whose steps satisfy a guard `ok`, which may
look at the state before the step and at the action. With the trivial guard
these are all runs. Safety proofs go through `Reach.invariant`, concrete runs
through `run`.
-/

namespace Transition

variable {S A : Type*} (next : S → A → Option S) (ok : S → A → Prop)

/-- States reached from `s₀` by steps that satisfy the guard. -/
inductive Reach (s₀ : S) : S → Prop where
  | refl : Reach s₀ s₀
  | step {s s' : S} (a : A) : Reach s₀ s → ok s a → next s a = some s' → Reach s₀ s'

/-- The guard that admits every step. -/
def always : S → A → Prop := fun _ _ => True

variable {next ok} {s₀ s : S}

/-- A property of the first state that every admitted step keeps holds
throughout. -/
theorem Reach.invariant {I : S → Prop} (h : Reach next ok s₀ s) (h₀ : I s₀)
    (hstep : ∀ s a s', I s → ok s a → next s a = some s' → I s') : I s := by
  induction h with
  | refl => exact h₀
  | step a _ hok hn ih => exact hstep _ a _ ih hok hn

theorem Reach.mono {ok' : S → A → Prop} (h : Reach next ok s₀ s)
    (hsub : ∀ s a, ok s a → ok' s a) : Reach next ok' s₀ s := by
  induction h with
  | refl => exact .refl
  | step a _ hok hn ih => exact .step a ih (hsub _ a hok) hn

theorem Reach.trans {s₁ : S} (h : Reach next ok s₀ s₁) (h' : Reach next ok s₁ s) :
    Reach next ok s₀ s := by
  induction h' with
  | refl => exact h
  | step a _ hok hn ih => exact .step a ih hok hn

/-- Runs a list of actions. -/
def run (next : S → A → Option S) : S → List A → Option S
  | s, [] => some s
  | s, a :: as => (next s a).bind fun s' => run next s' as

/-- Runs a list of actions whose steps all pass a decidable guard. -/
def runOk (next : S → A → Option S) (ok : S → A → Bool) : S → List A → Option S
  | s, [] => some s
  | s, a :: as => if ok s a then (next s a).bind fun s' => runOk next ok s' as else none

theorem run_reach {as : List A} (h : run next s₀ as = some s) : Reach next always s₀ s := by
  induction as generalizing s₀ with
  | nil =>
    cases h
    exact .refl
  | cons a as ih =>
    obtain ⟨s₁, hn, hr⟩ := Option.bind_eq_some_iff.mp h
    have h₁ : Reach next always s₀ s₁ := .step a .refl trivial hn
    exact h₁.trans (ih hr)

theorem runOk_reach {okb : S → A → Bool} (hsub : ∀ s a, okb s a = true → ok s a)
    {as : List A} (h : runOk next okb s₀ as = some s) : Reach next ok s₀ s := by
  induction as generalizing s₀ with
  | nil =>
    cases h
    exact .refl
  | cons a as ih =>
    simp only [runOk] at h
    split at h
    · rename_i hok
      obtain ⟨s₁, hn, hr⟩ := Option.bind_eq_some_iff.mp h
      have h₁ : Reach next ok s₀ s₁ := .step a .refl (hsub _ _ hok) hn
      exact h₁.trans (ih hr)
    · cases h

/-- A run ending in a state that passes a decidable check. -/
theorem reach_of_run {as : List A} {p : S → Bool}
    (h : (run next s₀ as).map p = some true) : ∃ s, Reach next always s₀ s ∧ p s = true := by
  obtain ⟨s, hr, hp⟩ := Option.map_eq_some_iff.mp h
  exact ⟨s, run_reach hr, hp⟩

theorem reach_of_runOk {okb : S → A → Bool} (hsub : ∀ s a, okb s a = true → ok s a)
    {as : List A} {p : S → Bool} (h : (runOk next okb s₀ as).map p = some true) :
    ∃ s, Reach next ok s₀ s ∧ p s = true := by
  obtain ⟨s, hr, hp⟩ := Option.map_eq_some_iff.mp h
  exact ⟨s, runOk_reach hsub hr, hp⟩

/-- The guard itself decides which steps the run may take. -/
theorem reach_of_runDecided [∀ s a, Decidable (ok s a)] {as : List A} {p : S → Bool}
    (h : (runOk next (fun s a => decide (ok s a)) s₀ as).map p = some true) :
    ∃ s, Reach next ok s₀ s ∧ p s = true :=
  reach_of_runOk (fun _ _ => of_decide_eq_true) h

end Transition
