import PaddockKV.Lib.Transition

/-!
# Traces and simulation

A system is simulated by another when each of its steps is matched there: by the step
of a translated action (`run_simulated`), or by any steps that show the same events to
an observer (`traces_of_run`). Whole runs are matched then.
-/

namespace Transition

/-- `t'` is reached from `t` by steps that show the events `es`, some of them perhaps
by steps that show nothing. -/
inductive Traces {T E : Type*} (step : T → Option E → T → Prop) : T → List E → T → Prop where
  | refl (t : T) : Traces step t [] t
  | silent {t t₁ t' : T} {es : List E} (h : step t none t₁) (hrest : Traces step t₁ es t') :
    Traces step t es t'
  | event {t t₁ t' : T} {e : E} {es : List E} (h : step t (some e) t₁)
    (hrest : Traces step t₁ es t') : Traces step t (e :: es) t'

section

variable {S A T E : Type*} {step : T → Option E → T → Prop} {t t₁ t' : T} {es es' : List E}

theorem Traces.single {e : E} (h : step t (some e) t') : Traces step t [e] t' := .event h (.refl t')

theorem Traces.trans (h : Traces step t es t₁) (h' : Traces step t₁ es' t') :
    Traces step t (es ++ es') t' := by
  induction h with
  | refl t => exact h'
  | silent hstep _ ih => exact .silent hstep (ih h')
  | event hstep _ ih => exact .event hstep (ih h')

/-- Simulation of actions by actions: a run is a run of the other system on the
translated actions, with the relation kept. -/
theorem run_simulated {B : Type*} {next : S → A → Option S} {next' : T → B → Option T} {f : A → B}
    {R : S → T → Prop}
    (hstep : ∀ s t a s', R s t → next s a = some s' → ∃ t', next' t (f a) = some t' ∧ R s' t')
    {s s' : S} {as : List A} (hs : R s t) (h : run next s as = some s') :
    ∃ t', run next' t (as.map f) = some t' ∧ R s' t' := by
  induction as generalizing s t with
  | nil =>
    cases h
    exact ⟨t, rfl, hs⟩
  | cons a as ih =>
    obtain ⟨s₁, hn, hrest⟩ := Option.bind_eq_some_iff.mp h
    obtain ⟨t₁, hn', hs₁⟩ := hstep s t a s₁ hs hn
    obtain ⟨t', hrun, hs'⟩ := ih hs₁ hrest
    exact ⟨t', Option.bind_eq_some_iff.mpr ⟨t₁, hn', hrun⟩, hs'⟩

/-- Runs a list of actions and collects the events `emit` of the steps. -/
def runEvents (next : S → A → Option S) (emit : A → S → List E) : S → List A → Option (S × List E)
  | s, [] => some (s, [])
  | s, a :: as => (next s a).bind fun s₁ =>
    (runEvents next emit s₁ as).map fun x => (x.1, emit a s₁ ++ x.2)

/-- Simulation, step by step, under an invariant of the concrete system. -/
theorem traces_of_run {next : S → A → Option S} {emit : A → S → List E} {I : S → Prop} {abs : S → T}
    (hstep : ∀ s a s', I s → next s a = some s' → I s' ∧ Traces step (abs s) (emit a s') (abs s'))
    {s s' : S} {as : List A} {es : List E} (hs : I s)
    (h : runEvents next emit s as = some (s', es)) : Traces step (abs s) es (abs s') := by
  induction as generalizing s es with
  | nil =>
    cases h
    exact .refl _
  | cons a as ih =>
    obtain ⟨s₁, hn, hrest⟩ := Option.bind_eq_some_iff.mp h
    obtain ⟨⟨s₂, es'⟩, hrun, heq⟩ := Option.map_eq_some_iff.mp hrest
    cases heq
    obtain ⟨hs₁, htrace⟩ := hstep s a s₁ hs hn
    exact htrace.trans (ih hs₁ hrun)

end

end Transition
