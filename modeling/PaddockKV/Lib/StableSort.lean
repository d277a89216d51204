import Mathlib.Data.List.Sort

/-!
# Stability of insertion sort

`List.insertionSort` keeps the order of elements the relation does not tell
apart: if the list was ordered by `P` to begin with, elements related both ways
still are.
-/

namespace StableSort

variable {α : Type*} (r P : α → α → Prop)

/-- Sorted by `r`, and by `P` where `r` does not decide. -/
def Le (a b : α) : Prop := r a b ∧ (r b a → P a b)

variable {r P} [DecidableRel r]

theorem pairwise_orderedInsert (htotal : ∀ a b, r a b ∨ r b a)
    (htrans : ∀ a b c, r a b → r b c → r a c) {a : α} {l : List α} (hl : l.Pairwise (Le r P))
    (hP : ∀ x ∈ l, P a x) : (l.orderedInsert r a).Pairwise (Le r P) := by
  induction l with
  | nil => exact List.pairwise_singleton _ _
  | cons y l ih =>
    obtain ⟨hy, hl'⟩ := List.pairwise_cons.mp hl
    rw [List.orderedInsert]
    split
    · rename_i hay
      refine List.pairwise_cons.mpr ⟨?_, hl⟩
      intro x hx
      refine ⟨?_, fun _ => hP x hx⟩
      rcases List.mem_cons.mp hx with rfl | hx
      · exact hay
      · exact htrans a y x hay (hy x hx).1
    · rename_i hay
      refine List.pairwise_cons.mpr ⟨?_, ih hl' fun x hx => hP x (List.mem_cons_of_mem y hx)⟩
      intro x hx
      rcases (List.mem_orderedInsert r).mp hx with rfl | hx
      · exact ⟨(htotal x y).resolve_left hay, fun h => absurd h hay⟩
      · exact hy x hx

theorem pairwise_insertionSort (htotal : ∀ a b, r a b ∨ r b a)
    (htrans : ∀ a b c, r a b → r b c → r a c) {l : List α} (h : l.Pairwise P) :
    (l.insertionSort r).Pairwise (Le r P) := by
  induction l with
  | nil => exact List.Pairwise.nil
  | cons a l ih =>
    obtain ⟨ha, hl⟩ := List.pairwise_cons.mp h
    rw [List.insertionSort_cons]
    refine pairwise_orderedInsert htotal htrans (ih hl) ?_
    intro x hx
    exact ha x ((List.mem_insertionSort r).mp hx)

end StableSort
