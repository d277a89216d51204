import Mathlib.Tactic

/-!
# A flat memory of cells

A memory maps addresses to cells; a cell that was never written holds nothing,
and a load that meets one has no result. `Holds m a bs` says that the cells from
`a` on hold `bs`. Stores elsewhere keep it (`Holds.store`), and a record laid
out as a sequence of fields is held field by field (`holds_append`).
-/

namespace Memory

variable {β : Type*}

abbrev Mem (β : Type*) := ℕ → Option β

def store (m : Mem β) (a : ℕ) (bs : List β) : Mem β := fun x =>
  if a ≤ x ∧ x < a + bs.length then bs[x - a]? else m x

def load (m : Mem β) : ℕ → ℕ → Option (List β)
  | _, 0 => some []
  | a, n + 1 => (m a).bind fun b => (load m (a + 1) n).map fun bs => b :: bs

/-- Two ranges of cells have none in common. -/
def Apart (a n b k : ℕ) : Prop := a + n ≤ b ∨ b + k ≤ a

theorem Apart.symm {a n b k : ℕ} (h : Apart a n b k) : Apart b k a n := Or.symm h

/-- The cells from `a` on hold `bs`. -/
def Holds (m : Mem β) : ℕ → List β → Prop
  | _, [] => True
  | a, b :: bs => m a = some b ∧ Holds m (a + 1) bs

variable {m m' : Mem β} {a b : ℕ} {xs ys bs : List β}

theorem load_of_holds (h : Holds m a bs) : load m a bs.length = some bs := by
  induction bs generalizing a with
  | nil => rfl
  | cons b bs ih =>
    obtain ⟨hb, hbs⟩ := h
    simp [load, hb, ih hbs]

theorem holds_iff : Holds m a bs ↔ ∀ i, i < bs.length → m (a + i) = bs[i]? := by
  induction bs generalizing a with
  | nil => simp [Holds]
  | cons b bs ih =>
    simp only [Holds, ih, List.length_cons]
    constructor
    · intro h i hi
      cases i with
      | zero => simpa using h.1
      | succ i =>
        have hrest := h.2 i (by omega)
        rw [List.getElem?_cons_succ, ← hrest]
        congr 1
        omega
    · intro h
      refine ⟨by simpa using h 0 (by omega), fun i hi => ?_⟩
      have hrest := h (i + 1) (by omega)
      rw [List.getElem?_cons_succ] at hrest
      rw [← hrest]
      congr 1
      omega

theorem holds_append : Holds m a (xs ++ ys) ↔ Holds m a xs ∧ Holds m (a + xs.length) ys := by
  induction xs generalizing a with
  | nil => simp [Holds]
  | cons x xs ih =>
    have hadd : a + 1 + xs.length = a + (xs.length + 1) := by omega
    simp [Holds, ih, and_assoc, hadd]

/-- A memory that agrees on the cells holds the same there. -/
theorem Holds.congr (h : Holds m a bs) (heq : ∀ x, a ≤ x → x < a + bs.length → m' x = m x) :
    Holds m' a bs := by
  rw [holds_iff] at h ⊢
  intro i hi
  rw [heq (a + i) (by omega) (by omega)]
  exact h i hi

theorem holds_store (m : Mem β) (a : ℕ) (bs : List β) : Holds (store m a bs) a bs := by
  rw [holds_iff]
  intro i hi
  have hin : a ≤ a + i ∧ a + i < a + bs.length := by omega
  simp [store, hin]

theorem store_of_out {x : ℕ} (h : x < a ∨ a + bs.length ≤ x) : store m a bs x = m x := by
  have hout : ¬ (a ≤ x ∧ x < a + bs.length) := by omega
  simp only [store, if_neg hout]

/-- The frame rule for stores. -/
theorem Holds.store (h : Holds m a bs) (hap : Apart a bs.length b ys.length) :
    Holds (store m b ys) a bs := by
  refine h.congr fun x hlo hhi => store_of_out ?_
  unfold Apart at hap
  omega

end Memory
