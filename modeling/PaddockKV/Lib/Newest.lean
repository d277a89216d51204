import Mathlib.Tactic

/-!
# Newest elements of prioritised lists

A list stands for versions in order of priority. `newest rank p l` is the
element of `l` of the highest rank among those that satisfy `p`; of two of the
same rank the earlier one wins. It turns concatenation into `newer`, an
associative operation, so stores that are cut, merged or probed piece by piece
can be compared through it.
-/

namespace Newest

variable {α : Type*} (rank : α → ℕ)

def newer : Option α → Option α → Option α
  | none, b => b
  | some a, none => some a
  | some a, some b => if rank b ≤ rank a then some a else some b

@[simp] theorem newer_none_left (b : Option α) : newer rank none b = b := rfl

@[simp] theorem newer_none_right (a : Option α) : newer rank a none = a := by
  cases a <;> rfl

theorem newer_assoc (a b c : Option α) :
    newer rank (newer rank a b) c = newer rank a (newer rank b c) := by
  rcases a with _ | a
  · rfl
  rcases b with _ | b
  · simp
  rcases c with _ | c
  · simp
  grind [newer]

section Newest

variable (p : α → Prop) [DecidablePred p]

def newest : List α → Option α
  | [] => none
  | a :: l => newer rank (if p a then some a else none) (newest l)

@[simp] theorem newest_nil : newest rank p [] = none := rfl

theorem newest_append (l l' : List α) :
    newest rank p (l ++ l') = newer rank (newest rank p l) (newest rank p l') := by
  induction l with
  | nil => rfl
  | cons a l ih => simp only [List.cons_append, newest, ih, newer_assoc]

variable {rank p} {l l' : List α} {a : α}

theorem newest_eq_none_iff : newest rank p l = none ↔ ∀ x ∈ l, ¬ p x := by
  induction l with
  | nil => simp
  | cons b l ih =>
    by_cases hb : p b
    · simp only [List.mem_cons, forall_eq_or_imp, hb, not_true_eq_false, false_and, iff_false]
      rw [newest, if_pos hb]
      cases newest rank p l with
      | none => simp
      | some c => grind [newer]
    · simp [newest, hb, ih]

theorem newest_cons_self (ha : p a) (hl : ∀ x ∈ l, p x → rank x ≤ rank a) :
    newest rank p (a :: l) = some a := by
  induction l with
  | nil => simp [newest, ha]
  | cons b l ih =>
    have hl' := ih fun x hx => hl x (List.mem_cons_of_mem b hx)
    rw [newest, if_pos ha] at hl' ⊢
    rw [newest]
    by_cases hb : p b
    · have hba := hl b (by simp) hb
      rw [if_pos hb, ← newer_assoc, newer, if_pos hba]
      exact hl'
    · rwa [if_neg hb, newer_none_left]

/-- Everything that satisfies `p` has a smaller rank and stands in front, or
has no greater rank and stands behind. -/
theorem newest_eq_some_iff :
    newest rank p l = some a ↔ ∃ A B, l = A ++ a :: B ∧ p a ∧
      (∀ x ∈ A, p x → rank x < rank a) ∧ ∀ x ∈ B, p x → rank x ≤ rank a := by
  induction l generalizing a with
  | nil => simp
  | cons b l ih =>
    constructor
    · intro h
      by_cases hb : p b
      · rw [newest, if_pos hb] at h
        cases hc : newest rank p l with
        | none =>
          rw [hc, newer_none_right] at h
          cases h
          exact ⟨[], l, rfl, hb, by simp, fun x hx hpx => absurd hpx (newest_eq_none_iff.mp hc x hx)⟩
        | some c =>
          obtain ⟨A, B, rfl, hpc, hA, hB⟩ := ih.mp hc
          have hle : ∀ x ∈ A ++ c :: B, p x → rank x ≤ rank c := by
            intro x hx hpx
            rcases List.mem_append.mp hx with hx | hx
            · exact (hA x hx hpx).le
            · rcases List.mem_cons.mp hx with rfl | hx
              · exact le_rfl
              · exact hB x hx hpx
          rw [hc, newer] at h
          split at h
          · rename_i hcb
            cases h
            exact ⟨[], _, rfl, hb, by simp, fun x hx hpx => (hle x hx hpx).trans hcb⟩
          · rename_i hcb
            cases h
            refine ⟨b :: A, B, rfl, hpc, ?_, hB⟩
            intro x hx hpx
            rcases List.mem_cons.mp hx with rfl | hx
            · exact not_le.mp hcb
            · exact hA x hx hpx
      · rw [newest, if_neg hb, newer_none_left] at h
        obtain ⟨A, B, rfl, hpa, hA, hB⟩ := ih.mp h
        refine ⟨b :: A, B, rfl, hpa, ?_, hB⟩
        intro x hx hpx
        rcases List.mem_cons.mp hx with rfl | hx
        · exact absurd hpx hb
        · exact hA x hx hpx
    · rintro ⟨A, B, hl, hpa, hA, hB⟩
      cases A with
      | nil =>
        obtain ⟨rfl, rfl⟩ := List.cons.inj hl
        exact newest_cons_self hpa hB
      | cons b' A =>
        obtain ⟨rfl, rfl⟩ := List.cons.inj hl
        have hrest := ih.mpr ⟨A, B, rfl, hpa, fun x hx => hA x (List.mem_cons_of_mem b hx), hB⟩
        rw [newest, hrest]
        by_cases hb : p b
        · have := hA b (by simp) hb
          rw [if_pos hb, newer, if_neg (by omega)]
        · rw [if_neg hb, newer_none_left]

theorem newest_mem (h : newest rank p l = some a) : a ∈ l ∧ p a := by
  obtain ⟨A, B, rfl, hpa, -, -⟩ := newest_eq_some_iff.mp h
  exact ⟨by simp, hpa⟩

theorem le_newest {x : α} (h : newest rank p l = some a) (hx : x ∈ l) (hpx : p x) :
    rank x ≤ rank a := by
  obtain ⟨A, B, rfl, -, hA, hB⟩ := newest_eq_some_iff.mp h
  rcases List.mem_append.mp hx with hx | hx
  · exact (hA x hx hpx).le
  · rcases List.mem_cons.mp hx with rfl | hx
    · exact le_rfl
    · exact hB x hx hpx

/-- Dropping elements that do not satisfy `p` changes nothing. -/
theorem newest_filter {f : α → Bool} (h : ∀ x ∈ l, p x → f x = true) :
    newest rank p (l.filter f) = newest rank p l := by
  induction l with
  | nil => rfl
  | cons a l ih =>
    have hl := ih fun x hx => h x (List.mem_cons_of_mem a hx)
    by_cases ha : f a = true
    · rw [List.filter_cons_of_pos ha, newest, newest, hl]
    · have hpa : ¬ p a := fun hp => ha (h a (by simp) hp)
      rw [List.filter_cons_of_neg ha, hl, newest, if_neg hpa, newer_none_left]

/-- Where every element of `l'` is outranked, or `l` has none, `l` decides. -/
theorem newest_append_of_le (h : newest rank p l = some a)
    (hle : ∀ x ∈ l', p x → rank x ≤ rank a) : newest rank p (l ++ l') = some a := by
  rw [newest_append, h]
  cases hb : newest rank p l' with
  | none => simp
  | some b =>
    obtain ⟨hmem, hpb⟩ := newest_mem hb
    rw [newer, if_pos (hle b hmem hpb)]

/-- Probing lists in turn until one has a hit finds the newest element of all,
when no later list outranks the newest element of an earlier one. -/
theorem findSome_newest {ls : List (List α)}
    (h : ls.Pairwise fun l l' => ∀ a, newest rank p l = some a → ∀ x ∈ l', p x → rank x ≤ rank a) :
    ls.findSome? (newest rank p) = newest rank p ls.flatten := by
  induction ls with
  | nil => rfl
  | cons l ls ih =>
    rw [List.pairwise_cons] at h
    rw [List.findSome?_cons, List.flatten_cons]
    cases ha : newest rank p l with
    | none => rw [newest_append, ha, ih h.2, newer_none_left]
    | some a =>
      refine (newest_append_of_le ha ?_).symm
      intro x hx hpx
      obtain ⟨l', hl', hx'⟩ := List.mem_flatten.mp hx
      exact h.1 l' hl' a ha x hx' hpx

/-- The newest element is the winner at its rank, and no higher rank has one. -/
theorem newest_eq_some_iff_rank :
    newest rank p l = some a ↔ newest rank (fun x => p x ∧ rank x = rank a) l = some a ∧
      ∀ n, rank a < n → newest rank (fun x => p x ∧ rank x = n) l = none := by
  constructor
  · intro h
    obtain ⟨A, B, hl, hpa, hA, hB⟩ := newest_eq_some_iff.mp h
    constructor
    · refine newest_eq_some_iff.mpr ⟨A, B, hl, ⟨hpa, rfl⟩, ?_, ?_⟩
      · intro x hx hpx
        exact hA x hx hpx.1
      · intro x hx hpx
        exact hB x hx hpx.1
    · intro n hn
      rw [newest_eq_none_iff]
      rintro x hx ⟨hpx, rfl⟩
      have := le_newest h hx hpx
      omega
  · rintro ⟨hself, hnone⟩
    obtain ⟨A, B, hl, hpa, hA, -⟩ := newest_eq_some_iff.mp hself
    have hle : ∀ x ∈ l, p x → rank x ≤ rank a := by
      intro x hx hpx
      by_contra hlt
      exact newest_eq_none_iff.mp (hnone (rank x) (not_le.mp hlt)) x hx ⟨hpx, rfl⟩
    refine newest_eq_some_iff.mpr ⟨A, B, hl, hpa.1, ?_, ?_⟩
    · intro x hx hpx
      have hx' := hle x (by simp [hl, hx]) hpx
      refine lt_of_le_of_ne hx' ?_
      intro heq
      exact absurd (hA x hx ⟨hpx, heq⟩) (by omega)
    · intro x hx hpx
      exact hle x (by simp [hl, hx]) hpx

/-- `newest` only depends on the winner at each single rank. -/
theorem newest_eq_of_ranks
    (h : ∀ n, newest rank (fun x => p x ∧ rank x = n) l =
      newest rank (fun x => p x ∧ rank x = n) l') :
    newest rank p l = newest rank p l' := by
  apply Option.ext
  intro a
  have hl := @newest_eq_some_iff_rank _ rank p _ l a
  simp only [h] at hl
  exact hl.trans newest_eq_some_iff_rank.symm

/-- Among elements of one rank the first wins. -/
theorem newest_at_rank (n : ℕ) :
    newest rank (fun x => p x ∧ rank x = n) l = l.find? fun x => p x ∧ rank x = n := by
  apply Option.ext
  intro a
  rw [newest_eq_some_iff, List.find?_eq_some_iff_append, decide_eq_true_eq]
  constructor
  · rintro ⟨A, B, hl, ha, hA, -⟩
    refine ⟨ha, A, B, hl, ?_⟩
    intro x hx
    by_contra hno
    simp only [Bool.not_eq_true', decide_eq_false_iff_not, not_not] at hno
    exact absurd (hA x hx hno) (by rw [hno.2, ha.2]; exact lt_irrefl n)
  · rintro ⟨ha, A, B, hl, hA⟩
    refine ⟨A, B, hl, ha, ?_, ?_⟩
    · intro x hx hpx
      have hno := hA x hx
      simp [hpx] at hno
    · intro x _ hpx
      rw [hpx.2, ha.2]

end Newest

end Newest
