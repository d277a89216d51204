import PaddockKV.Lib.Transition

/-!
# Completions of an io_uring (`io/uring.rs`)

The kernel appends completions to a queue at any time; the owner of the ring
takes them out with `pop_completion` and `drain_completions`. Both go through
`completion().next()`, which removes the head. So does the check for a waiting
completion at the start of `drain_completions`, and what it finds is returned to
nobody.
-/

namespace PaddockKV.Io

open Transition

structure Completion where
  userData : ℕ
  result : ℤ
  flags : ℕ
  deriving Repr, DecidableEq

/-- Where the owner of the ring is: outside a call, in `submit_and_wait` or in
the loop of `drain_completions` with `count` completions placed. -/
inductive Phase where
  | idle
  | waiting (timeout : Option ℕ)
  | draining (count : ℕ)
  deriving Repr, DecidableEq

/-- The queue and the phase, with a record of the completions that arrived and
of those the owner was given, by `pop_completion` or in a sink. -/
structure Uring where
  completions : List Completion
  phase : Phase
  arrived : List Completion
  returned : List Completion
  deriving Repr, DecidableEq

namespace Uring

def new : Uring := ⟨[], .idle, [], []⟩

/-- `completion().next()`. -/
def next (r : Uring) : Option Completion × Uring :=
  match r.completions with
  | [] => (none, r)
  | c :: rest => (some c, { r with completions := rest })

def arrive (r : Uring) (c : Completion) : Uring :=
  { r with completions := r.completions ++ [c], arrived := r.arrived ++ [c] }

/-- `pop_completion`, with what it gives to the owner. -/
def popCompletion (r : Uring) : Option Completion × Uring :=
  match r.next with
  | (none, r) => (none, r)
  | (some c, r) => (some c, { r with returned := r.returned ++ [c] })

/-- The start of `drain_completions`: `wait_for_at_least_one` looks for a
completion and otherwise waits for one, whatever the timeout is. -/
def drainCompletions (r : Uring) (timeout : Option ℕ) : Uring :=
  match r.next with
  | (some _, r) => { r with phase := .draining 0 }
  | (none, r) => { r with phase := .waiting timeout }

/-- One round of the loop of `drain_completions`. -/
def drainRound (r : Uring) (count : ℕ) : Uring :=
  match r.popCompletion with
  | (some _, r) => { r with phase := .draining (count + 1) }
  | (none, r) => { r with phase := .idle }

end Uring

inductive RingAction where
  | arrive (c : Completion)
  | popCompletion
  | drainCompletions (timeout : Option ℕ)
  -- `submit_and_wait(1)` returns; its error is ignored
  | waited (ok : Bool)
  | drainRound
  deriving Repr, DecidableEq

/-- The ring has one owner, so its calls do not overlap; completions arrive
between any two of its steps. -/
def ringStep (r : Uring) : RingAction → Option Uring
  | .arrive c => some (r.arrive c)
  | .popCompletion =>
    match r.phase with
    | .idle => some r.popCompletion.2
    | _ => none
  | .drainCompletions timeout =>
    match r.phase with
    | .idle => some (r.drainCompletions timeout)
    | _ => none
  | .waited ok =>
    match r.phase with
    | .waiting _ => if ok = true ∧ r.completions = [] then none else some { r with phase := .draining 0 }
    | _ => none
  | .drainRound =>
    match r.phase with
    | .draining count => some (r.drainRound count)
    | _ => none

/-! ### What a step does to the queue -/

/-- Every completion that arrived was given to the owner, in order, or waits. -/
def Intact (r : Uring) : Prop := r.returned ++ r.completions = r.arrived

instance (r : Uring) : Decidable (Intact r) :=
  inferInstanceAs (Decidable (r.returned ++ r.completions = r.arrived))

/-- `drain_completions` is called on an empty queue. -/
def emptyPeek (r : Uring) : RingAction → Bool
  | .drainCompletions _ => r.completions = []
  | _ => true

/-- The completions of `r'` are those of `r`, some of them moved to the owner. -/
structure Moved (r r' : Uring) : Prop where
  arrived : r'.arrived = r.arrived
  held : r'.returned ++ r'.completions = r.returned ++ r.completions

theorem popCompletion_moved (r : Uring) : Moved r r.popCompletion.2 := by
  unfold Uring.popCompletion Uring.next
  cases hq : r.completions with
  | nil => exact ⟨rfl, rfl⟩
  | cons c rest =>
    refine ⟨rfl, ?_⟩
    dsimp only
    rw [List.append_assoc, List.singleton_append, hq]

theorem drainRound_moved (r : Uring) (count : ℕ) : Moved r (r.drainRound count) := by
  have h := popCompletion_moved r
  unfold Uring.drainRound
  generalize r.popCompletion = out at h ⊢
  obtain ⟨c, r'⟩ := out
  cases c with
  | none => exact ⟨h.arrived, h.held⟩
  | some c => exact ⟨h.arrived, h.held⟩

/-- A step is an arrival, a move of completions to the owner, or a call of
`drain_completions` that removes the head of the queue. -/
theorem ringStep_cases {r r' : Uring} {a : RingAction} (h : ringStep r a = some r') :
    (∃ c, a = .arrive c ∧ r' = r.arrive c) ∨ (emptyPeek r a = true ∧ Moved r r') ∨
      ∃ c rest, emptyPeek r a = false ∧ r.completions = c :: rest ∧ r'.completions = rest ∧
        r'.arrived = r.arrived ∧ r'.returned = r.returned := by
  cases a with
  | arrive c =>
    cases h
    exact .inl ⟨c, rfl, rfl⟩
  | popCompletion =>
    rw [ringStep] at h
    split at h
    · cases h
      exact .inr (.inl ⟨rfl, popCompletion_moved r⟩)
    · cases h
  | drainCompletions timeout =>
    rw [ringStep] at h
    split at h
    · cases h
      unfold Uring.drainCompletions Uring.next emptyPeek
      cases hq : r.completions with
      | nil => exact .inr (.inl ⟨rfl, rfl, rfl⟩)
      | cons c rest => exact .inr (.inr ⟨c, rest, rfl, rfl, rfl, rfl, rfl⟩)
    · cases h
  | waited ok =>
    rw [ringStep] at h
    split at h
    · split at h
      · cases h
      · cases h
        exact .inr (.inl ⟨rfl, rfl, rfl⟩)
    · cases h
  | drainRound =>
    rw [ringStep] at h
    split at h
    · rename_i count _
      cases h
      exact .inr (.inl ⟨rfl, drainRound_moved r count⟩)
    · cases h

theorem intact_step {r r' : Uring} {a : RingAction} (hr : Intact r) (ha : emptyPeek r a = true)
    (h : ringStep r a = some r') : Intact r' := by
  unfold Intact at *
  rcases ringStep_cases h with ⟨c, rfl, rfl⟩ | ⟨-, hmoved⟩ | ⟨c, rest, hpeek, -⟩
  · show r.returned ++ (r.completions ++ [c]) = r.arrived ++ [c]
    rw [← List.append_assoc, hr]
  · rw [hmoved.held, hmoved.arrived, hr]
  · rw [ha] at hpeek
    cases hpeek

/-! ### Completions are never made up for -/

/-- The number of completions in the queue or with the owner. -/
def heldCount (r : Uring) : ℕ := r.returned.length + r.completions.length

/-- At least `n` completions are gone. -/
def Gone (n : ℕ) (r : Uring) : Prop := heldCount r + n ≤ r.arrived.length

theorem Moved.heldCount {r r' : Uring} (h : Moved r r') : heldCount r' = heldCount r := by
  have := congrArg List.length h.held
  rwa [List.length_append, List.length_append] at this

theorem gone_step {n : ℕ} {r r' : Uring} {a : RingAction} (hr : Gone n r)
    (h : ringStep r a = some r') : Gone n r' := by
  unfold Gone at *
  rcases ringStep_cases h with ⟨c, rfl, rfl⟩ | ⟨-, hmoved⟩ | ⟨c, rest, -, hq, hq', ha, hret⟩
  · simp only [heldCount, Uring.arrive, List.length_append, List.length_singleton] at hr ⊢
    omega
  · rw [hmoved.heldCount, hmoved.arrived]
    exact hr
  · rw [heldCount, hq, List.length_cons] at hr
    rw [heldCount, hq', ha, hret]
    omega

theorem gone_peek {n : ℕ} {r r' : Uring} {a : RingAction} (hr : Gone n r)
    (ha : emptyPeek r a = false) (h : ringStep r a = some r') : Gone (n + 1) r' := by
  unfold Gone at *
  rcases ringStep_cases h with ⟨c, rfl, -⟩ | ⟨hpeek, -⟩ | ⟨c, rest, -, hq, hq', harr, hret⟩
  · cases ha
  · rw [ha] at hpeek
    cases hpeek
  · rw [heldCount, hq, List.length_cons] at hr
    rw [heldCount, hq', harr, hret]
    omega

theorem not_intact_of_gone {n : ℕ} {r : Uring} (hn : 0 < n) (h : Gone n r) : ¬ Intact r := by
  intro hr
  have hlen := congrArg List.length hr
  rw [List.length_append] at hlen
  unfold Gone heldCount at h
  omega

theorem gone_run {n : ℕ} {r r' : Uring} {as : List RingAction} (hr : Gone n r)
    (h : run ringStep r as = some r') : Gone n r' := by
  induction as generalizing r with
  | nil =>
    cases h
    exact hr
  | cons a as ih =>
    obtain ⟨r₁, hstep, hrun⟩ := Option.bind_eq_some_iff.mp h
    exact ih (gone_step hr hstep) hrun

theorem intact_run_iff {r r' : Uring} {as : List RingAction} (hr : Intact r)
    (h : run ringStep r as = some r') :
    Intact r' ↔ runOk ringStep emptyPeek r as = some r' := by
  induction as generalizing r with
  | nil =>
    cases h
    exact iff_of_true hr rfl
  | cons a as ih =>
    obtain ⟨r₁, hstep, hrun⟩ := Option.bind_eq_some_iff.mp h
    rw [runOk]
    by_cases ha : emptyPeek r a = true
    · rw [if_pos ha, hstep, Option.bind_some]
      exact ih (intact_step hr ha hstep) hrun
    · have hnone : Gone 0 r := by
        have hlen := congrArg List.length hr
        rw [List.length_append] at hlen
        exact hlen.le
      have hlost := gone_run (gone_peek hnone (Bool.eq_false_iff.mpr ha) hstep) hrun
      rw [if_neg ha]
      exact iff_of_false (not_intact_of_gone Nat.one_pos hlost) (by simp)

/-- In any interleaving of arrivals with the calls of the owner, every completion
is returned once and in order, or still waits, if and only if each call of
`drain_completions` finds an empty queue. -/
theorem completions_intact_iff (as : List RingAction) (r : Uring)
    (h : run ringStep .new as = some r) :
    Intact r ↔ runOk ringStep emptyPeek .new as = some r := intact_run_iff rfl h

-- two completions arrive while the owner waits, one more during the drain
theorem completions_intact_iff_waiting :
    Intact ⟨[⟨3, 0, 0⟩], .draining 2, [⟨1, 8, 0⟩, ⟨2, -5, 0⟩, ⟨3, 0, 0⟩], [⟨1, 8, 0⟩, ⟨2, -5, 0⟩]⟩ ↔
      runOk ringStep emptyPeek .new [.drainCompletions none, .arrive ⟨1, 8, 0⟩,
        .arrive ⟨2, -5, 0⟩, .waited true, .drainRound, .drainRound, .arrive ⟨3, 0, 0⟩] =
          some ⟨[⟨3, 0, 0⟩], .draining 2, [⟨1, 8, 0⟩, ⟨2, -5, 0⟩, ⟨3, 0, 0⟩],
            [⟨1, 8, 0⟩, ⟨2, -5, 0⟩]⟩ :=
  completions_intact_iff _ _ (by decide)

-- the completion has arrived when `drain_completions` is called: the drain ends with nothing
theorem drain_drops_completion :
    run ringStep .new [.arrive ⟨1, 8, 0⟩, .drainCompletions none, .drainRound] =
      some ⟨[], .idle, [⟨1, 8, 0⟩], []⟩ ∧ ¬ Intact ⟨[], .idle, [⟨1, 8, 0⟩], []⟩ := by
  decide

end PaddockKV.Io
