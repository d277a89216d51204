import PaddockKV.Lib.Transition

/-!
# Threads over a shared state

Each thread has a program counter; `act` gives the atomic step a thread takes
on the shared state. The invariant rule is rely/guarantee: a step re-establishes
what its own thread knows and gives every other thread what it relies on.
-/

namespace Threads

open Transition

structure Config (ι S L : Type*) where
  shared : S
  pc : ι → L

section

variable {ι S L A : Type*} [DecidableEq ι] (act : ι → S → L → A → Option (S × L))

/-- Thread `x.1` takes the step it chooses by `x.2`. -/
def next (c : Config ι S L) (x : ι × A) : Option (Config ι S L) :=
  (act x.1 c.shared (c.pc x.1) x.2).map fun y => ⟨y.1, Function.update c.pc x.1 y.2⟩

variable {act} {ok : Config ι S L → ι × A → Prop} {c₀ c : Config ι S L}

theorem next_eq_some {c' : Config ι S L} {x : ι × A} (h : next act c x = some c') :
    ∃ s' l', act x.1 c.shared (c.pc x.1) x.2 = some (s', l') ∧
      c' = ⟨s', Function.update c.pc x.1 l'⟩ := by
  obtain ⟨⟨s', l'⟩, hact, rfl⟩ := Option.map_eq_some_iff.mp h
  exact ⟨s', l', hact, rfl⟩

/-- `G` holds of the shared state, `I t` of what thread `t` knows, `R t l` of what
other threads may do to the shared state while `t` is at `l`. -/
theorem rely_guarantee {G : S → Prop} {I : ι → S → L → Prop} {R : ι → L → S → S → Prop}
    (hG₀ : G c₀.shared) (hI₀ : ∀ t, I t c₀.shared (c₀.pc t))
    (hstep : ∀ (c : Config ι S L) t a s' l', G c.shared → (∀ u, I u c.shared (c.pc u)) →
      ok c (t, a) → act t c.shared (c.pc t) a = some (s', l') →
      G s' ∧ I t s' l' ∧ ∀ u, u ≠ t → R u (c.pc u) c.shared s')
    (hstable : ∀ u s s' l, G s → I u s l → R u l s s' → I u s' l)
    (h : Reach (next act) ok c₀ c) : G c.shared ∧ ∀ t, I t c.shared (c.pc t) := by
  have hnext : ∀ (c : Config ι S L) x c', (G c.shared ∧ ∀ t, I t c.shared (c.pc t)) →
      ok c x → next act c x = some c' → G c'.shared ∧ ∀ t, I t c'.shared (c'.pc t) := by
    rintro c ⟨t, a⟩ c' ⟨hG, hI⟩ hok hn
    obtain ⟨s', l', hact, rfl⟩ := next_eq_some hn
    obtain ⟨hG', hIt, hR⟩ := hstep c t a s' l' hG hI hok hact
    refine ⟨hG', fun u => ?_⟩
    by_cases hu : u = t
    · subst hu
      simpa using hIt
    · simp only [Function.update_of_ne hu]
      exact hstable u c.shared s' (c.pc u) hG (hI u) (hR u hu)
  exact h.invariant ⟨hG₀, hI₀⟩ hnext

end

end Threads
