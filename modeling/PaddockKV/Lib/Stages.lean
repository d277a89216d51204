import Mathlib.Tactic

/-!
# The stages of a log

A log grows at its front. `Stages P l l'` says that `l` has grown to `l'` and that
`P` held all the way, the two ends included.
-/

structure Stages {α : Type} (P : List α → Prop) (l l' : List α) : Prop where
  suffix : l <:+ l'
  all : ∀ m, l <:+ m → m <:+ l' → P m

namespace Stages

variable {α : Type} {P : List α → Prop} {l l₁ l₂ : List α}

theorem refl (h : P l) : Stages P l l := by
  refine ⟨List.suffix_rfl, ?_⟩
  intro m hm hm'
  rw [← hm.eq_of_length_le hm'.length_le]
  exact h

theorem cons {a : α} (h : Stages P l l₁) (ha : P (a :: l₁)) : Stages P l (a :: l₁) := by
  refine ⟨h.suffix.trans (List.suffix_cons a l₁), ?_⟩
  intro m hm hm'
  rcases List.suffix_cons_iff.mp hm' with rfl | hm'
  · exact ha
  · exact h.all m hm hm'

theorem trans (h : Stages P l l₁) (h' : Stages P l₁ l₂) : Stages P l l₂ := by
  refine ⟨h.suffix.trans h'.suffix, ?_⟩
  intro m hm hm'
  rcases List.suffix_or_suffix_of_suffix hm' h'.suffix with hm₁ | hm₁
  · exact h.all m hm hm₁
  · exact h'.all m hm₁ hm'

theorem last (h : Stages P l l₁) : P l₁ := h.all l₁ h.suffix List.suffix_rfl

/-- The entries come one by one. -/
theorem of_append {evs : List α} (h : ∀ evs₁ evs₂, evs = evs₂ ++ evs₁ → P (evs₁ ++ l)) :
    Stages P l (evs ++ l) := by
  refine ⟨List.suffix_append evs l, ?_⟩
  rintro m ⟨evs₁, rfl⟩ ⟨evs₂, heq⟩
  rw [← List.append_assoc] at heq
  exact h evs₁ evs₂ (List.append_cancel_right heq).symm

end Stages
