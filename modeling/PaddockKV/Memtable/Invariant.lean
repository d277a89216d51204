import PaddockKV.Lib.Chain
import PaddockKV.Memtable.SkipList

/-!
# Level lists of the skip list

Between any two atomic accesses of the writer every level is a sorted chain
from the head, and each level's nodes are also on the level below: nodes are
linked bottom-up, and `max_height` is raised before the levels it admits are
used. The invariant therefore holds at every step and not only between inserts.
-/

namespace PaddockKV.Memtable

open Chain

/-! ### The order of nodes -/

/-- List order: internal key first; of two nodes with the same internal key the
later one stands in front. -/
def SkipMem.Before (m : SkipMem) (p q : ℕ) : Prop :=
  KeyBefore (m.node p).key (m.node p).seqno (m.node q).key (m.node q).seqno ∨
    ((m.node p).key = (m.node q).key ∧ (m.node p).seqno = (m.node q).seqno ∧ q < p)

instance (m : SkipMem) (p q : ℕ) : Decidable (m.Before p q) :=
  inferInstanceAs (Decidable (_ ∨ _))

theorem less_iff (m : SkipMem) (p : ℕ) (k : Key) (s : ℕ) :
    m.Less p k s ↔ KeyBefore (m.node p).key (m.node p).seqno k s :=
  compareInternalKey_lt_iff ..

theorem SkipMem.Before.trans {m : SkipMem} {p q r : ℕ} (h : m.Before p q) (h' : m.Before q r) :
    m.Before p r := by
  rcases h with h | ⟨hk, hs, hlt⟩ <;> rcases h' with h' | ⟨hk', hs', hlt'⟩
  · exact .inl (h.trans h')
  · rw [hk', hs'] at h
    exact .inl h
  · rw [← hk, ← hs] at h'
    exact .inl h'
  · exact .inr ⟨hk.trans hk', hs.trans hs', hlt'.trans hlt⟩

theorem SkipMem.Before.irrefl (m : SkipMem) (p : ℕ) : ¬ m.Before p p := by
  rintro (h | ⟨-, -, h⟩)
  · exact KeyBefore.irrefl _ _ h
  · exact lt_irrefl p h

theorem SkipMem.Before.less {m : SkipMem} {p q : ℕ} {k : Key} {s : ℕ} (h : m.Before p q)
    (hq : m.Less q k s) : m.Less p k s := by
  rw [less_iff] at hq ⊢
  rcases h with h | ⟨hk, hs, -⟩
  · exact h.trans hq
  · rwa [hk, hs]

theorem before_of_less {m : SkipMem} {p n : ℕ} (h : m.Less p (m.node n).key (m.node n).seqno) :
    m.Before p n :=
  .inl ((less_iff ..).mp h)

theorem before_of_not_less {m : SkipMem} {p n : ℕ} (hpn : p < n)
    (h : ¬ m.Less p (m.node n).key (m.node n).seqno) : m.Before n p := by
  rw [less_iff] at h
  rcases visible_or_lt_of_not_before h with ⟨hk, hs⟩ | hk
  · rcases hs.lt_or_eq with hs | hs
    · exact .inl (.inr ⟨hk.symm, hs⟩)
    · exact .inr ⟨hk.symm, hs.symm, hpn⟩
  · exact .inl (.inl hk)

/-! ### Level lists -/

/-- `L i` lists the nodes linked at level `i`. -/
structure Levels (m : SkipMem) (L : ℕ → List ℕ) : Prop where
  path : ∀ i, Path (fun p => m.fwd p i) 0 (L i)
  sorted : ∀ i, (L i).Pairwise m.Before
  nested : ∀ i, L (i + 1) ⊆ L i
  alloc : ∀ p ∈ L 0, 0 < p ∧ p < m.nodes.length
  above : ∀ i, m.maxHeight ≤ i → L i = []
  height_pos : 0 < m.maxHeight

variable {m : SkipMem} {L : ℕ → List ℕ}

theorem Levels.subset_zero (h : Levels m L) (i : ℕ) : L i ⊆ L 0 := by
  induction i with
  | zero => exact List.Subset.refl _
  | succ i ih => exact List.Subset.trans (h.nested i) ih

theorem Levels.nodup (h : Levels m L) (i : ℕ) : (0 :: L i).Nodup := by
  refine List.nodup_cons.mpr ⟨?_, ?_⟩
  · intro h0
    exact lt_irrefl 0 (h.alloc 0 (h.subset_zero i h0)).1
  · refine (h.sorted i).imp ?_
    intro a b hab heq
    subst heq
    exact SkipMem.Before.irrefl m a hab

theorem Levels.down (h : Levels m L) {i : ℕ} {p : ℕ} (hp : p ∈ 0 :: L (i + 1)) :
    p ∈ 0 :: L i := by
  rcases List.mem_cons.mp hp with rfl | hp
  · simp
  · exact List.mem_cons_of_mem 0 (h.nested i hp)

theorem Levels.next_mem (h : Levels m L) {i : ℕ} {p q : ℕ} (hp : p ∈ 0 :: L i)
    (hq : m.fwd p i = some q) : q ∈ L i :=
  (h.path i).next_mem hp hq

theorem Levels.cut (h : Levels m L) {i : ℕ} {cur : ℕ} (hcur : cur ∈ 0 :: L i) :
    ∃ A B, L i = A ++ B ∧ A.getLastD 0 = cur ∧ B.head? = m.fwd cur i ∧
      (∀ a ∈ A, cur ≠ 0 ∧ (a = cur ∨ m.Before a cur)) ∧ (∀ q ∈ B.head?, ∀ b ∈ B, b = q ∨ m.Before q b) := by
  obtain ⟨A, B, hl, hB⟩ := (h.path i).split hcur
  have hs := h.sorted i
  have hBs : ∀ l, L i = l ++ B → ∀ q ∈ B.head?, ∀ b ∈ B, b = q ∨ m.Before q b := by
    intro l hlB q hq b hb
    cases B with
    | nil => cases hb
    | cons b' B =>
      obtain rfl : b' = q := by simpa using hq
      rw [hlB] at hs
      rcases List.mem_cons.mp hb with rfl | hb
      · exact .inl rfl
      · exact .inr (List.rel_of_pairwise_cons (List.pairwise_append.mp hs).2.1 hb)
  cases A with
  | nil =>
    obtain ⟨rfl, hL⟩ := List.cons.inj hl
    refine ⟨[], B, hL, rfl, hB.symm, by simp, hBs [] hL⟩
  | cons a A =>
    have hL : L i = (A ++ [cur]) ++ B := by
      simpa using (List.cons.inj hl).2
    refine ⟨A ++ [cur], B, hL, by simp, hB.symm, ?_, hBs _ hL⟩
    intro x hx
    have hcur0 : cur ≠ 0 := by
      rintro rfl
      exact (List.nodup_cons.mp (h.nodup i)).1 (by simp [hL])
    rw [hL] at hs
    rcases List.mem_append.mp hx with hx | hx
    · have hAc := (List.pairwise_append.mp (List.pairwise_append.mp hs).1).2.2
      exact ⟨hcur0, .inr (hAc x hx cur (by simp))⟩
    · exact ⟨hcur0, .inl (by simpa using hx)⟩

/-! ### The writer's knowledge -/

/-- `prev` and `following` are the neighbours of `n` on the list `l`. -/
def SplitAt (m : SkipMem) (l : List ℕ) (n prev : ℕ) (following : Option ℕ) : Prop :=
  ∃ A B, l = A ++ B ∧ A.getLastD 0 = prev ∧ B.head? = following ∧
    (∀ a ∈ A, m.Before a n) ∧ (∀ b ∈ B, m.Before n b)

theorem SplitAt.nil (m : SkipMem) (n : ℕ) : SplitAt m [] n 0 none :=
  ⟨[], [], rfl, rfl, rfl, by simp, by simp⟩

theorem SplitAt.prev_of_nil {n prev : ℕ} {following : Option ℕ}
    (h : SplitAt m [] n prev following) : prev = 0 := by
  obtain ⟨A, B, hl, hA, -⟩ := h
  obtain ⟨rfl, -⟩ := List.append_eq_nil_iff.mp hl.symm
  exact hA.symm

theorem SplitAt.not_mem {l : List ℕ} {n prev : ℕ} {following : Option ℕ}
    (h : SplitAt m l n prev following) : n ∉ l := by
  obtain ⟨A, B, rfl, -, -, hA, hB⟩ := h
  intro hn
  rcases List.mem_append.mp hn with hn | hn
  · exact SkipMem.Before.irrefl m n (hA n hn)
  · exact SkipMem.Before.irrefl m n (hB n hn)

theorem Levels.splitAt (h : Levels m L) {i : ℕ} {n cur : ℕ} (hcur : cur ∈ 0 :: L i)
    (hless : cur = 0 ∨ m.Before cur n) (hstop : ∀ q, m.fwd cur i = some q → m.Before n q) :
    SplitAt m (L i) n cur (m.fwd cur i) := by
  obtain ⟨A, B, hL, hA, hB, hAs, hBs⟩ := h.cut hcur
  refine ⟨A, B, hL, hA, hB, ?_, ?_⟩
  · intro a ha
    obtain ⟨hcur0, hac⟩ := hAs a ha
    have hcn := hless.resolve_left hcur0
    rcases hac with rfl | hac
    · exact hcn
    · exact hac.trans hcn
  · intro b hb
    obtain ⟨q, hq⟩ : ∃ q, B.head? = some q := by
      cases B with
      | nil => cases hb
      | cons q B => exact ⟨q, rfl⟩
    have hnq := hstop q (hB ▸ hq)
    rcases hBs q hq b hb with rfl | hqb
    · exact hnq
    · exact hnq.trans hqb

/-- Node `n` is allocated and not linked yet; all earlier inserts are complete. -/
structure Fresh (m : SkipMem) (L : ℕ → List ℕ) (n : ℕ) : Prop where
  eq_len : n = m.len + 1
  nodes : m.nodes.length = m.len + 2
  height : 0 < (m.node n).height
  mem : ∀ p, p ∈ L 0 ↔ 0 < p ∧ p ≤ m.len

/-- Node `n` is linked below `level`, and its neighbours from there on are known. -/
structure Linking (m : SkipMem) (L : ℕ → List ℕ) (n : ℕ) (level : ℕ) (links : Links) :
    Prop where
  eq_len : n = m.len + 1
  nodes : m.nodes.length = m.len + 2
  level_lt : level < (m.node n).height
  height_le : (m.node n).height ≤ m.maxHeight
  split : ∀ j, level ≤ j → SplitAt m (L j) n (links.prev j) (links.following j)
  linked : ∀ j, j < level → n ∈ L j
  mem : ∀ p, p ∈ L 0 ↔ (0 < p ∧ p ≤ m.len) ∨ (p = n ∧ 0 < level)

/-- What the writer knows at each of its accesses. -/
def WriterInv (m : SkipMem) (L : ℕ → List ℕ) : WriterPc → Prop
  | .idle => m.nodes.length = m.len + 1 ∧ ∀ p, p ∈ L 0 ↔ 0 < p ∧ p ≤ m.len
  | .findActive n => Fresh m L n
  | .find n level cur links =>
    Fresh m L n ∧ cur ∈ 0 :: L level ∧ (cur = 0 ∨ m.Before cur n) ∧
      ∀ j, level < j → SplitAt m (L j) n (links.prev j) (links.following j)
  | .loadMax n links =>
    Fresh m L n ∧ ∀ j, SplitAt m (L j) n (links.prev j) (links.following j)
  | .storeMax n links =>
    Fresh m L n ∧ m.maxHeight < (m.node n).height ∧
      ∀ j, SplitAt m (L j) n (links.prev j) (links.following j)
  | .linkNode n level links => Linking m L n level links
  | .linkPrev n level links => Linking m L n level links ∧ m.fwd n level = links.following level

end PaddockKV.Memtable
