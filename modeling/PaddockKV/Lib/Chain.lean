import Mathlib.Data.List.Basic
import Mathlib.Tactic

/-!
# Singly linked chains in a heap of pointers

`Path next p l` says that following `next` from `p` visits the nodes of `l` in
order and then ends. Linking a node into a chain is two stores: first the new
node's own link, then the link of its predecessor. `Path.insert` is the effect
of the second store, `Path.congr` the frame rule for stores outside the chain.
-/

namespace Chain

variable {P : Type*}

/-- The nodes after `p` on the chain are exactly `l`. -/
def Path (next : P → Option P) : P → List P → Prop
  | p, [] => next p = none
  | p, q :: l => next p = some q ∧ Path next q l

variable {next next' : P → Option P} {p x : P} {l A B : List P}

theorem Path.congr (h : Path next p l) (heq : ∀ y ∈ p :: l, next' y = next y) :
    Path next' p l := by
  induction l generalizing p with
  | nil =>
    have hp := heq p (by simp)
    exact hp.trans h
  | cons q l ih =>
    have hp := heq p (by simp)
    refine ⟨hp.trans h.1, ih h.2 ?_⟩
    intro y hy
    exact heq y (List.mem_cons_of_mem p hy)

/-- Every node of a chain splits it, and its link is the first node behind it. -/
theorem Path.split (h : Path next p l) (hx : x ∈ p :: l) :
    ∃ A B, p :: l = A ++ x :: B ∧ next x = B.head? := by
  induction l generalizing p with
  | nil =>
    obtain rfl : x = p := by simpa using hx
    exact ⟨[], [], rfl, h⟩
  | cons q l ih =>
    rcases List.mem_cons.mp hx with rfl | hx
    · exact ⟨[], q :: l, rfl, h.1⟩
    · obtain ⟨A, B, hl, hn⟩ := ih h.2 hx
      exact ⟨p :: A, B, by rw [hl, List.cons_append], hn⟩

/-- The link of a node of the chain leads to a node of the chain. -/
theorem Path.next_mem {y : P} (h : Path next p l) (hx : x ∈ p :: l) (hn : next x = some y) :
    y ∈ l := by
  obtain ⟨A, B, hl, hB⟩ := h.split hx
  cases B with
  | nil => simp [hB] at hn
  | cons b B =>
    obtain rfl : b = y := by simpa [hB] using hn
    cases A with
    | nil => simp_all
    | cons a A =>
      have : l = A ++ x :: b :: B := by
        simpa using (List.cons.inj hl).2
      simp [this]

/-- The link of a node leads to the rest of the chain behind it. -/
theorem Path.next_eq (h : Path next p (A ++ x :: B)) : next x = B.head? := by
  induction A generalizing p with
  | nil =>
    have hrest : Path next x B := h.2
    cases B with
    | nil => exact hrest
    | cons b B => exact hrest.1
  | cons a A ih => exact ih h.2

/-- The link at the end of a first part leads to the second. -/
theorem Path.next_getLastD (h : Path next p (A ++ B)) : next (A.getLastD p) = B.head? := by
  induction A generalizing p with
  | nil =>
    cases B with
    | nil => exact h
    | cons b B => exact h.1
  | cons a A ih =>
    rw [List.getLastD_cons]
    exact ih h.2

theorem Path.unique {l' : List P} (h : Path next p l) (h' : Path next p l') : l = l' := by
  induction l generalizing p l' with
  | nil =>
    cases l' with
    | nil => rfl
    | cons q l' => cases (show next p = none from h).symm.trans h'.1
  | cons q l ih =>
    cases l' with
    | nil => cases h.1.symm.trans (show next p = none from h')
    | cons q' l' =>
      obtain rfl : q = q' := Option.some.inj (h.1.symm.trans h'.1)
      rw [ih h.2 h'.2]

/-- A cut of a list carries over to a longer list, and the first node behind
the cut stays the same. -/
theorem sublist_cut {l : List P} (h : (A ++ B).Sublist l) :
    ∃ A' B', l = A' ++ B' ∧ A.Sublist A' ∧ B.Sublist B' ∧ B'.head? = B.head? := by
  obtain ⟨C, D, rfl, hC, hD⟩ := List.append_sublist_iff.mp h
  cases B with
  | nil => exact ⟨C ++ D, [], (List.append_nil _).symm, hC.trans (List.sublist_append_left C D),
      List.Sublist.refl _, rfl⟩
  | cons b B =>
    obtain ⟨E, F, rfl, hbE, hF⟩ := List.cons_sublist_iff.mp hD
    obtain ⟨E₁, E₂, rfl⟩ := List.append_of_mem hbE
    refine ⟨C ++ E₁, b :: (E₂ ++ F), by simp, ?_, ?_, rfl⟩
    · exact hC.trans (List.sublist_append_left C E₁)
    · exact (hF.trans (List.sublist_append_right E₂ F)).cons_cons b

/-- The store that publishes `x` between `A` and `B`. The link of `x` itself
already leads to `B`. -/
theorem Path.insert (h : Path next p (A ++ B)) (hnd : (p :: (A ++ B)).Nodup)
    (hx : x ∉ p :: (A ++ B)) (hnx : next x = B.head?)
    (hprev : next' (A.getLastD p) = some x)
    (hother : ∀ y, y ≠ A.getLastD p → next' y = next y) :
    Path next' p (A ++ x :: B) := by
  induction A generalizing p with
  | nil =>
    have hp : next' p = some x := hprev
    have hxp : x ≠ p := by
      rintro rfl
      simp at hx
    have hx' : next' x = B.head? := (hother x hxp).trans hnx
    refine ⟨hp, ?_⟩
    cases B with
    | nil => exact hx'
    | cons b B =>
      refine ⟨hx', h.2.congr ?_⟩
      intro y hy
      refine hother y ?_
      rintro rfl
      exact (List.nodup_cons.mp hnd).1 hy
  | cons a A ih =>
    have hlast : (a :: A).getLastD p = A.getLastD a := List.getLastD_cons ..
    have hmem : A.getLastD a ∈ a :: A := by
      rcases List.eq_nil_or_concat A with rfl | ⟨A', z, rfl⟩ <;> simp
    have hne : p ≠ A.getLastD a := by
      intro hpa
      refine (List.nodup_cons.mp hnd).1 ?_
      rw [hpa]
      exact List.mem_append_left B hmem
    have hp : next' p = some a := (hother p (by rw [hlast]; exact hne)).trans h.1
    rw [hlast] at hprev hother
    refine ⟨hp, ih h.2 (List.nodup_cons.mp hnd).2 ?_ hprev hother⟩
    intro hx'
    exact hx (List.mem_cons_of_mem p hx')

end Chain
