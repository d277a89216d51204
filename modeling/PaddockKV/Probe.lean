import PaddockKV.Records

/-!
# The two loads of `SkipList::get` (`memtable/skiplist.rs`)

`get` ends its walk on the bottom level with a load that shows no smaller record
behind its position, and then loads the same link once more to pick its candidate.
On the sorted list of records the first load gives `walkEnd` and the second
`following`; an insert may come between them.
-/

namespace PaddockKV

/-- Where the walk of `SkipList::get` ends: the last record before `key` at
`snapshot`, `none` for the head. -/
def walkEnd (l : List Rec) (key : Key) (snapshot : ℕ) : Option Rec :=
  (l.takeWhile fun r => KeyBefore r.key r.seqno key snapshot).getLast?

/-- The record that the bottom link of `cur` leads to. -/
def following (l : List Rec) : Option Rec → Option Rec
  | none => l.head?
  | some p => l.find? fun r => p.Before r

variable {l A B : List Rec} {r : Rec} {k : Key} {n : ℕ}

theorem before_of_keyBefore {p : Rec} (hp : KeyBefore p.key p.seqno k n)
    (hr : ¬ KeyBefore r.key r.seqno k n) : p.Before r := by
  by_contra h
  exact @Rec.not_before_trans ⟨k, n, .put, []⟩ r p hr h hp

theorem exists_split (hl : SortedRecs l) (k : Key) (n : ℕ) :
    ∃ A B, l = A ++ B ∧ (∀ a ∈ A, KeyBefore a.key a.seqno k n) ∧
      ∀ b ∈ B, ¬ KeyBefore b.key b.seqno k n := by
  induction l with
  | nil => exact ⟨[], [], rfl, by simp, by simp⟩
  | cons x l ih =>
    obtain ⟨hx, hl'⟩ := List.pairwise_cons.mp hl
    by_cases hxk : KeyBefore x.key x.seqno k n
    · obtain ⟨A, B, rfl, hA, hB⟩ := ih hl'
      exact ⟨x :: A, B, rfl, List.forall_mem_cons.mpr ⟨hxk, hA⟩, hB⟩
    · refine ⟨[], x :: l, rfl, by simp, List.forall_mem_cons.mpr ⟨hxk, ?_⟩⟩
      intro y hy hyk
      exact hx y hy (before_of_keyBefore hyk hxk)

theorem walkEnd_append (hA : ∀ a ∈ A, KeyBefore a.key a.seqno k n)
    (hB : ∀ b ∈ B, ¬ KeyBefore b.key b.seqno k n) : walkEnd (A ++ B) k n = A.getLast? := by
  have hnil : B.takeWhile (fun r => KeyBefore r.key r.seqno k n) = [] := by
    cases B with
    | nil => rfl
    | cons b B => exact List.takeWhile_cons_of_neg (by simpa using hB b (by simp))
  unfold walkEnd
  rw [List.takeWhile_append_of_pos (by simpa using hA), hnil, List.append_nil]

theorem following_append (hl : SortedRecs (A ++ B)) (hAB : ∀ a ∈ A, ∀ b ∈ B, a.Before b) :
    following (A ++ B) A.getLast? = B.head? := by
  rcases List.eq_nil_or_concat A with rfl | ⟨A', p, rfl⟩
  · rfl
  · have hA' : (A'.concat p).find? (fun r => p.Before r) = none := by
      rw [List.find?_eq_none, List.concat_eq_append]
      intro x hx
      rw [decide_eq_true_eq]
      rcases List.mem_append.mp hx with hx | hx
      · rw [List.concat_eq_append, List.append_assoc] at hl
        exact (List.pairwise_append.mp hl).2.2 x hx p (by simp)
      · rw [List.mem_singleton.mp hx]
        exact Rec.Before.irrefl p
    rw [List.concat_eq_append, List.getLast?_concat, ← List.concat_eq_append]
    simp only [following]
    rw [List.find?_append, hA', Option.none_or]
    cases B with
    | nil => rfl
    | cons b B => exact List.find?_cons_of_pos (by simpa using hAB p (by simp) b (by simp))

theorem lookup_append (hl : SortedRecs (A ++ B)) (hA : ∀ a ∈ A, KeyBefore a.key a.seqno k n)
    (hB : ∀ b ∈ B, ¬ KeyBefore b.key b.seqno k n) :
    lookup (A ++ B) k n = B.head?.filter fun r => r.Visible k n := by
  have hA' : A.find? (fun r => r.Visible k n) = none := by
    rw [List.find?_eq_none]
    intro a ha
    rw [decide_eq_true_eq]
    exact (hA a ha).not_match
  unfold lookup
  rw [List.find?_append, hA', Option.none_or]
  cases B with
  | nil => rfl
  | cons b B =>
    rw [List.find?_cons, List.head?_cons]
    by_cases hv : b.Visible k n
    · simp [hv, Option.filter]
    · -- everything from `b` on has a greater key
      have hlt := (visible_or_lt_of_not_before (hB b (by simp))).resolve_left hv
      have hnone : B.find? (fun r => r.Visible k n) = none := by
        rw [List.find?_eq_none]
        intro y hy
        rw [decide_eq_true_eq]
        rintro ⟨rfl, -⟩
        have hby := List.rel_of_pairwise_cons (List.pairwise_append.mp hl).2.1 hy
        exact hby (.inl hlt)
      simp [hv, hnone, Option.filter]

/-- Without an insert in between, the two loads find what a lookup finds. -/
theorem candidate_eq (hl : SortedRecs l) :
    (following l (walkEnd l k n)).filter (fun r => r.Visible k n) = lookup l k n := by
  obtain ⟨A, B, rfl, hA, hB⟩ := exists_split hl k n
  have hAB : ∀ a ∈ A, ∀ b ∈ B, a.Before b := fun a ha b hb => before_of_keyBefore (hA a ha) (hB b hb)
  rw [walkEnd_append hA hB, following_append hl hAB, lookup_append hl hA hB]

theorem candidate_none (h : lookup l k n = none) (cur : Option Rec) :
    (following l cur).filter (fun r => r.Visible k n) = none := by
  rw [Option.filter_eq_none_iff]
  intro r hr
  have hmem : r ∈ l := by
    cases cur with
    | none => exact List.mem_of_mem_head? hr
    | some p => exact List.mem_of_find?_eq_some hr
  exact List.find?_eq_none.mp h r hmem

/-- An insert that does not land right behind the end of the walk leaves it there. -/
theorem walkEnd_insertRec (hl : SortedRecs l)
    (h : KeyBefore r.key r.seqno k n → ∃ p ∈ walkEnd l k n, ¬ p.Before r) :
    walkEnd (insertRec r l) k n = walkEnd l k n := by
  obtain ⟨A, B, rfl, hA, hB⟩ := exists_split hl k n
  rw [walkEnd_append hA hB] at h ⊢
  by_cases hr : KeyBefore r.key r.seqno k n
  · obtain ⟨p, hp, hpr⟩ := h hr
    obtain ⟨A', rfl⟩ := List.getLast?_eq_some_iff.mp hp
    rw [List.append_assoc, List.singleton_append, insertRec_append_cons hpr, hp,
      ← List.singleton_append, ← List.append_assoc, walkEnd_append _ hB, List.getLast?_concat]
    intro a ha
    rcases List.mem_append.mp ha with ha | ha
    · rcases mem_insertRec.mp ha with rfl | ha
      · exact hr
      · exact hA a (List.mem_append_left _ ha)
    · exact hA a (List.mem_append_right _ ha)
  · rw [insertRec_append_left fun a ha => before_of_keyBefore (hA a ha) hr, walkEnd_append hA]
    intro b hb
    rcases mem_insertRec.mp hb with rfl | hb
    · exact hr
    · exact hB b hb

end PaddockKV
