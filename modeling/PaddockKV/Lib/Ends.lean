import Mathlib.Tactic

/-!
# How a call ends

`Ends x s P Q`: run from `s`, the call `x` either returns with `P` or fails with
`Q`. A failing call keeps its changes to the state, so the condition on the
failing end speaks about the state too.
-/

section Ends

variable {ε σ α β : Type}

def Ends (x : EStateM ε σ α) (s : σ) (P : α → σ → Prop) (Q : ε → σ → Prop) : Prop :=
  match x s with
  | .ok a s' => P a s'
  | .error e s' => Q e s'

namespace Ends

variable {x : EStateM ε σ α} {f : α → EStateM ε σ β} {s : σ} {P P' : α → σ → Prop}
  {R : β → σ → Prop} {Q Q' : ε → σ → Prop}

theorem ret {a : α} (h : P a s) : Ends (pure a) s P Q := h

theorem fail {e : ε} (h : Q e s) : Ends (throw e) s P Q := h

theorem update {g : σ → σ} {P : PUnit → σ → Prop} (h : P ⟨⟩ (g s)) : Ends (modify g) s P Q := h

/-- A call ends as it runs. -/
theorem self (x : EStateM ε σ α) (s : σ) :
    Ends x s (fun a s' => x s = .ok a s') fun e s' => x s = .error e s' := by
  unfold Ends
  cases x s with
  | ok a s' => rfl
  | error e s' => rfl

theorem mono (h : Ends x s P Q) (hP : ∀ a s', P a s' → P' a s') (hQ : ∀ e s', Q e s' → Q' e s') :
    Ends x s P' Q' := by
  unfold Ends at h ⊢
  cases hx : x s with
  | ok a s' =>
    rw [hx] at h
    exact hP a s' h
  | error e s' =>
    rw [hx] at h
    exact hQ e s' h

theorem and (h : Ends x s P Q) (h' : Ends x s P' Q') :
    Ends x s (fun a s' => P a s' ∧ P' a s') fun e s' => Q e s' ∧ Q' e s' := by
  unfold Ends at *
  cases hx : x s with
  | ok a s' =>
    rw [hx] at h h'
    exact ⟨h, h'⟩
  | error e s' =>
    rw [hx] at h h'
    exact ⟨h, h'⟩

theorem bind (h : Ends x s P Q) (hf : ∀ a s', P a s' → Ends (f a) s' R Q')
    (hQ : ∀ e s', Q e s' → Q' e s') : Ends (x >>= f) s R Q' := by
  have hrun : (x >>= f) s = match x s with
      | .ok a s' => f a s'
      | .error e s' => .error e s' := by
    show EStateM.bind x f s = _
    unfold EStateM.bind
    cases x s <;> rfl
  unfold Ends at h ⊢
  cases hx : x s with
  | ok a s' =>
    rw [hx] at h
    rw [hrun, hx]
    exact hf a s' h
  | error e s' =>
    rw [hx] at h
    rw [hrun, hx]
    exact hQ e s' h

theorem ok_bind {a : α} {s' : σ} (hx : x s = .ok a s') (h : Ends (f a) s' R Q) :
    Ends (x >>= f) s R Q := by
  have hx' : Ends x s (fun b t => b = a ∧ t = s') fun _ _ => False := by
    unfold Ends
    rw [hx]
    exact ⟨rfl, rfl⟩
  refine bind hx' ?_ (fun _ _ hf => hf.elim)
  rintro b t ⟨rfl, rfl⟩
  exact h

theorem ret_bind {a : α} (h : Ends (f a) s R Q) : Ends (pure a >>= f) s R Q := h

theorem fail_bind {e : ε} (h : Q e s) : Ends ((throw e : EStateM ε σ α) >>= f) s R Q := h

theorem read_bind {f : σ → EStateM ε σ β} (h : Ends (f s) s R Q) : Ends (get >>= f) s R Q := h

theorem update_bind {g : σ → σ} {f : PUnit → EStateM ε σ β} (h : Ends (f ⟨⟩) (g s) R Q) :
    Ends (modify g >>= f) s R Q := h

theorem of_ok {a : α} {s' : σ} (h : Ends x s P Q) (hx : x s = .ok a s') : P a s' := by
  unfold Ends at h
  rw [hx] at h
  exact h

theorem of_error {e : ε} {s' : σ} (h : Ends x s P Q) (hx : x s = .error e s') : Q e s' := by
  unfold Ends at h
  rw [hx] at h
  exact h

/-- A call that cannot fail returns. -/
theorem returns (h : Ends x s P fun _ _ => False) : ∃ a s', x s = .ok a s' ∧ P a s' := by
  unfold Ends at h
  cases hx : x s with
  | ok a s' =>
    rw [hx] at h
    exact ⟨a, s', rfl, h⟩
  | error e s' =>
    rw [hx] at h
    exact h.elim

end Ends

/-- From any state with `I` the call `x` returns with `I` or fails with `Q`. -/
def Keeps (I : σ → Prop) (Q : ε → σ → Prop) (x : EStateM ε σ α) : Prop :=
  ∀ s, I s → Ends x s (fun _ => I) Q

namespace Keeps

variable {I : σ → Prop} {Q : ε → σ → Prop} {x : EStateM ε σ α} {f : α → EStateM ε σ β}

theorem ret (a : α) : Keeps I Q (pure a : EStateM ε σ α) := fun _ h => Ends.ret h

theorem fail {e : ε} (he : ∀ s, I s → Q e s) : Keeps I Q (throw e : EStateM ε σ α) :=
  fun s h => Ends.fail (he s h)

theorem read : Keeps I Q (get : EStateM ε σ σ) := by
  intro s h
  unfold Ends
  exact h

theorem update {g : σ → σ} (hg : ∀ s, I s → I (g s)) :
    Keeps I Q (modify g : EStateM ε σ PUnit) := fun s h => Ends.update (hg s h)

theorem bind (hx : Keeps I Q x) (hf : ∀ a, Keeps I Q (f a)) : Keeps I Q (x >>= f) :=
  fun s h => Ends.bind (hx s h) (fun a s' h' => hf a s' h') fun _ _ h' => h'

end Keeps

-- a statement about a concrete run is not to be decided by running it
attribute [irreducible] Ends

end Ends
