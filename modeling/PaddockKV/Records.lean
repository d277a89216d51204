import PaddockKV.InternalKey
import PaddockKV.Lib.Newest

/-!
# Sorted lists of records

Every source of records (a memtable, an SSTable, the output of a merge) lists
its records in internal-key order. Records with the same internal key may
repeat; the one that stands first is the one a lookup finds.
-/

namespace PaddockKV

open Newest

/-- Strict internal-key order on records. -/
def Rec.Before (a b : Rec) : Prop := KeyBefore a.key a.seqno b.key b.seqno

instance (a b : Rec) : Decidable (a.Before b) :=
  inferInstanceAs (Decidable (KeyBefore ..))

/-- `r` is a version of `key` that a reader at `snapshot` may see. -/
def Rec.Visible (r : Rec) (key : Key) (snapshot : ℕ) : Prop :=
  r.key = key ∧ r.seqno ≤ snapshot

instance (r : Rec) (key : Key) (snapshot : ℕ) : Decidable (r.Visible key snapshot) :=
  inferInstanceAs (Decidable (_ ∧ _))

/-- The first visible version of `key`. -/
def lookup (l : List Rec) (key : Key) (snapshot : ℕ) : Option Rec :=
  l.find? fun r => decide (r.Visible key snapshot)

/-- No record stands before one that sorts strictly lower. -/
def SortedRecs (l : List Rec) : Prop := l.Pairwise fun a b => ¬ b.Before a

/-- Insertion in front of the first record that is not strictly smaller. -/
def insertRec (r : Rec) : List Rec → List Rec
  | [] => [r]
  | x :: xs => if x.Before r then x :: insertRec r xs else r :: x :: xs

theorem insertRec_of_le {r : Rec} {l : List Rec} (h : ∀ x ∈ l, ¬ x.Before r) :
    insertRec r l = r :: l := by
  cases l with
  | nil => rfl
  | cons x l => exact if_neg (h x (by simp))

theorem insertRec_append_left {r : Rec} {A : List Rec} (hA : ∀ a ∈ A, a.Before r) (B : List Rec) :
    insertRec r (A ++ B) = A ++ insertRec r B := by
  induction A with
  | nil => rfl
  | cons a A ih =>
    have ha : a.Before r := hA a (by simp)
    simp only [List.cons_append, insertRec, if_pos ha]
    rw [ih fun x hx => hA x (List.mem_cons_of_mem a hx)]

theorem insertRec_append {r : Rec} {A B : List Rec} (hA : ∀ a ∈ A, a.Before r)
    (hB : ∀ b ∈ B, ¬ b.Before r) : insertRec r (A ++ B) = A ++ r :: B := by
  rw [insertRec_append_left hA, insertRec_of_le hB]

theorem insertRec_append_cons {r p : Rec} (h : ¬ p.Before r) (A B : List Rec) :
    insertRec r (A ++ p :: B) = insertRec r A ++ p :: B := by
  induction A with
  | nil => exact if_neg h
  | cons a A ih =>
    simp only [List.cons_append, insertRec, ih]
    split <;> rfl

/-- Stable sorting into internal-key order. -/
def isort (l : List Rec) : List Rec := l.foldr insertRec []

/-- The version of `key` that a reader at `snapshot` should see, where records
that stand first have priority among equal sequence numbers. -/
def newestRec (l : List Rec) (key : Key) (snapshot : ℕ) : Option Rec :=
  newest Rec.seqno (fun r => r.Visible key snapshot) l

/-! ### Order -/

theorem Rec.Before.trans {a b c : Rec} (h : a.Before b) (h' : b.Before c) : a.Before c :=
  KeyBefore.trans h h'

theorem Rec.Before.irrefl (a : Rec) : ¬ a.Before a := KeyBefore.irrefl _ _

theorem Rec.Before.asymm {a b : Rec} (h : a.Before b) : ¬ b.Before a := fun h' =>
  Rec.Before.irrefl a (h.trans h')

theorem Rec.not_before_iff {a b : Rec} :
    ¬ a.Before b ↔ b.key < a.key ∨ b.key = a.key ∧ a.seqno ≤ b.seqno := by
  unfold Rec.Before KeyBefore
  rcases lt_trichotomy a.key b.key with h | h | h
  · simp [h, h.not_gt, h.ne']
  · simp [h]
  · simp [h, h.not_gt, h.ne']

theorem Rec.not_before_trans {a b c : Rec} (h : ¬ b.Before a) (h' : ¬ c.Before b) :
    ¬ c.Before a := by
  rw [Rec.not_before_iff] at h h' ⊢
  rcases h with h | ⟨hk, hs⟩
  · rcases h' with h' | ⟨hk', -⟩
    · exact .inl (h.trans h')
    · exact .inl (hk' ▸ h)
  · rcases h' with h' | ⟨hk', hs'⟩
    · exact .inl (hk ▸ h')
    · exact .inr ⟨hk.trans hk', hs'.trans hs⟩

theorem perm_insertRec (r : Rec) (l : List Rec) : (insertRec r l).Perm (r :: l) := by
  induction l with
  | nil => exact .refl _
  | cons x l ih =>
    unfold insertRec
    split
    · exact (ih.cons x).trans (.swap r x l)
    · exact .refl _

theorem perm_isort (l : List Rec) : (isort l).Perm l := by
  induction l with
  | nil => exact .refl _
  | cons r l ih => exact (perm_insertRec r (isort l)).trans (ih.cons r)

theorem mem_insertRec {r x : Rec} {l : List Rec} : x ∈ insertRec r l ↔ x = r ∨ x ∈ l := by
  rw [(perm_insertRec r l).mem_iff, List.mem_cons]

theorem mem_isort {x : Rec} {l : List Rec} : x ∈ isort l ↔ x ∈ l := (perm_isort l).mem_iff

theorem length_isort (l : List Rec) : (isort l).length = l.length := (perm_isort l).length_eq

theorem sorted_insertRec {r : Rec} {l : List Rec} (h : SortedRecs l) :
    SortedRecs (insertRec r l) := by
  induction l with
  | nil => exact List.pairwise_singleton _ _
  | cons x l ih =>
    obtain ⟨hx, hl⟩ := List.pairwise_cons.mp h
    unfold insertRec
    split
    · rename_i hxr
      refine List.pairwise_cons.mpr ⟨?_, ih hl⟩
      intro y hy
      rcases mem_insertRec.mp hy with rfl | hy
      · exact hxr.asymm
      · exact hx y hy
    · rename_i hxr
      refine List.pairwise_cons.mpr ⟨?_, h⟩
      intro y hy
      rcases List.mem_cons.mp hy with rfl | hy
      · exact hxr
      · exact Rec.not_before_trans hxr (hx y hy)

theorem sorted_isort (l : List Rec) : SortedRecs (isort l) := by
  induction l with
  | nil => exact List.Pairwise.nil
  | cons r l ih => exact sorted_insertRec ih

theorem isort_middle {A B : List Rec} {r : Rec} (hA : ∀ a ∈ A, r.Before a)
    (hB : ∀ b ∈ B, ¬ b.Before r) : isort (A ++ r :: B) = r :: isort (A ++ B) := by
  induction A with
  | nil =>
    refine insertRec_of_le ?_
    intro x hx
    exact hB x (mem_isort.mp hx)
  | cons a A ih =>
    have hra := hA a (by simp)
    have htail := ih fun x hx => hA x (List.mem_cons_of_mem a hx)
    show insertRec a (isort (A ++ r :: B)) = r :: insertRec a (isort (A ++ B))
    rw [htail, insertRec, if_pos hra]

theorem insertRec_comm {x r : Rec} (h : x.Before r) {l : List Rec} (hl : SortedRecs l) :
    insertRec x (insertRec r l) = insertRec r (insertRec x l) := by
  induction l with
  | nil =>
    show insertRec x [r] = insertRec r [x]
    rw [insertRec, if_neg h.asymm, insertRec, if_pos h]
    rfl
  | cons y l ih =>
    obtain ⟨-, hl'⟩ := List.pairwise_cons.mp hl
    by_cases hyx : y.Before x
    · have hyr := hyx.trans h
      rw [insertRec, if_pos hyr, insertRec, if_pos hyx, ih hl', insertRec, if_pos hyx, insertRec,
        if_pos hyr]
    · by_cases hyr : y.Before r
      · rw [insertRec, if_pos hyr, insertRec, if_neg hyx, insertRec, if_neg hyx, insertRec,
          if_pos h, insertRec, if_pos hyr]
      · rw [insertRec, if_neg hyr, insertRec, if_neg h.asymm, insertRec, if_neg hyx, insertRec,
          if_pos h, insertRec, if_neg hyr]

theorem sorted_foldr_insertRec {acc : List Rec} (h : SortedRecs acc) (l : List Rec) :
    SortedRecs (l.foldr insertRec acc) := by
  induction l with
  | nil => exact h
  | cons r l ih => exact sorted_insertRec ih

theorem foldr_insertRec {acc : List Rec} (hacc : SortedRecs acc) (r : Rec) (l : List Rec) :
    (insertRec r l).foldr insertRec acc = insertRec r (l.foldr insertRec acc) := by
  induction l with
  | nil => rfl
  | cons x l ih =>
    rw [insertRec]
    split
    · rename_i hxr
      rw [List.foldr_cons, ih, List.foldr_cons]
      exact insertRec_comm hxr (sorted_foldr_insertRec hacc l)
    · rfl

theorem isort_isort_append (l l' : List Rec) : isort (isort l ++ l') = isort (l ++ l') := by
  have hsorted := sorted_isort l'
  unfold isort at hsorted ⊢
  rw [List.foldr_append, List.foldr_append]
  induction l with
  | nil => rfl
  | cons r l ih =>
    rw [List.foldr_cons, foldr_insertRec hsorted, ih, List.foldr_cons]

theorem isort_flatten (ls : List (List Rec)) : isort (ls.map isort).flatten = isort ls.flatten := by
  induction ls with
  | nil => rfl
  | cons l ls ih =>
    rw [List.map_cons, List.flatten_cons, List.flatten_cons, isort_isort_append]
    unfold isort at ih ⊢
    rw [List.foldr_append, List.foldr_append, ih]

/-! ### Lookups -/

theorem lookup_eq_newestRec {l : List Rec} (h : SortedRecs l) (key : Key) (snapshot : ℕ) :
    lookup l key snapshot = newestRec l key snapshot := by
  apply Option.ext
  intro r
  unfold lookup newestRec
  rw [List.find?_eq_some_iff_append, newest_eq_some_iff]
  constructor
  · rintro ⟨hr, A, B, rfl, hA⟩
    have hv : r.Visible key snapshot := by simpa using hr
    refine ⟨A, B, rfl, hv, ?_, ?_⟩
    · intro x hx hxv
      simpa [hxv] using hA x hx
    · intro x hx hxv
      have hxr := List.rel_of_pairwise_cons (List.pairwise_append.mp h).2.1 hx
      rcases Rec.not_before_iff.mp hxr with hlt | ⟨-, hle⟩
      · rw [hv.1, hxv.1] at hlt
        exact absurd hlt (lt_irrefl _)
      · exact hle
  · rintro ⟨A, B, rfl, hv, hA, -⟩
    refine ⟨by simpa using hv, A, B, rfl, ?_⟩
    intro x hx
    have hxr := (List.pairwise_append.mp h).2.2 x hx r (by simp)
    -- a visible record in front would have a sequence number at least as high
    have : ¬ x.Visible key snapshot := by
      intro hxv
      have hlt := hA x hx hxv
      exact hxr (.inr ⟨hv.1.trans hxv.1.symm, hlt⟩)
    simpa using this

theorem newestRec_append (l l' : List Rec) (key : Key) (snapshot : ℕ) :
    newestRec (l ++ l') key snapshot =
      newer Rec.seqno (newestRec l key snapshot) (newestRec l' key snapshot) :=
  newest_append ..

/-- Moving a record behind a strictly smaller one changes nothing: for one key
they have different sequence numbers. -/
theorem newestRec_swap {x r : Rec} (h : x.Before r) (l : List Rec) (key : Key) (snapshot : ℕ) :
    newestRec (x :: r :: l) key snapshot = newestRec (r :: x :: l) key snapshot := by
  simp only [newestRec, newest]
  rw [← newer_assoc, ← newer_assoc]
  congr 1
  by_cases hx : x.Visible key snapshot
  · by_cases hr : r.Visible key snapshot
    · have hlt : r.seqno < x.seqno := by
        rcases h with hk | ⟨-, hs⟩
        · rw [hx.1, hr.1] at hk
          exact absurd hk (lt_irrefl _)
        · exact hs
      simp only [if_pos hx, if_pos hr, newer]
      rw [if_pos hlt.le, if_neg (by omega)]
    · simp [hr]
  · simp [hx]

theorem newestRec_insertRec (r : Rec) (l : List Rec) (key : Key) (snapshot : ℕ) :
    newestRec (insertRec r l) key snapshot = newestRec (r :: l) key snapshot := by
  induction l with
  | nil => rfl
  | cons x l ih =>
    unfold insertRec
    split
    · rename_i hxr
      rw [← newestRec_swap hxr]
      show newer _ _ (newestRec (insertRec r l) key snapshot) = _
      rw [ih]
      rfl
    · rfl

theorem newestRec_isort (l : List Rec) (key : Key) (snapshot : ℕ) :
    newestRec (isort l) key snapshot = newestRec l key snapshot := by
  induction l with
  | nil => rfl
  | cons r l ih =>
    show newestRec (insertRec r (isort l)) key snapshot = _
    rw [newestRec_insertRec]
    show newer _ _ (newestRec (isort l) key snapshot) = _
    rw [ih]
    rfl

end PaddockKV
