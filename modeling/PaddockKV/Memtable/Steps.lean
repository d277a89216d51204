import PaddockKV.Memtable.Invariant

/-!
# The writer keeps the level lists

One lemma per access of `insert`; `writerStep_inv` collects them. `Grows` is
what a concurrent reader may rely on: nodes never change or leave a level.
-/

namespace PaddockKV.Memtable

open Chain

variable {m m' : SkipMem} {L L' : ℕ → List ℕ}

/-- Nodes keep their contents and their levels, and inserts only complete. -/
structure Grows (m : SkipMem) (L : ℕ → List ℕ) (m' : SkipMem) (L' : ℕ → List ℕ) : Prop where
  node : ∀ p, p < m.nodes.length → m'.node p = m.node p
  nodes_le : m.nodes.length ≤ m'.nodes.length
  subset : ∀ i, L i ⊆ L' i
  len_le : m.len ≤ m'.len

theorem Grows.refl (m : SkipMem) (L : ℕ → List ℕ) : Grows m L m L :=
  ⟨fun _ _ => rfl, le_rfl, fun _ => List.Subset.refl _, le_rfl⟩

theorem Grows.mem_cons (hg : Grows m L m' L') {i : ℕ} {p : ℕ} (hp : p ∈ 0 :: L i) :
    p ∈ 0 :: L' i := by
  rcases List.mem_cons.mp hp with rfl | hp
  · simp
  · exact List.mem_cons_of_mem 0 (hg.subset i hp)

theorem less_congr {p : ℕ} (hp : m'.node p = m.node p) (k : Key) (s : ℕ) :
    m'.Less p k s ↔ m.Less p k s := by
  simp [SkipMem.Less, hp]

theorem before_congr {p q : ℕ} (hp : m'.node p = m.node p) (hq : m'.node q = m.node q) :
    m'.Before p q ↔ m.Before p q := by
  simp [SkipMem.Before, hp, hq]

theorem Levels.frame (h : Levels m L) (hg : Grows m L m' L)
    (hfwd : ∀ i, ∀ p ∈ 0 :: L i, m'.fwd p i = m.fwd p i) (hmax : m.maxHeight ≤ m'.maxHeight) :
    Levels m' L where
  path i := (h.path i).congr (hfwd i)
  sorted i := by
    refine (h.sorted i).imp_of_mem ?_
    intro a b ha hb hab
    have ha' := (h.alloc a (h.subset_zero i ha)).2
    have hb' := (h.alloc b (h.subset_zero i hb)).2
    exact (before_congr (hg.node a ha') (hg.node b hb')).mpr hab
  nested := h.nested
  alloc p hp := ⟨(h.alloc p hp).1, (h.alloc p hp).2.trans_le hg.nodes_le⟩
  above i hi := h.above i (hmax.trans hi)
  height_pos := h.height_pos.trans_le hmax

/-! ### Allocation -/

section Allocation

variable (m : SkipMem) (height : ℕ) (rng : UInt32) (k : Key) (v : Value) (s : ℕ) (op : OpType)

theorem node_allocateAt {p : ℕ} (hp : p < m.nodes.length) :
    (allocateAt m height rng k v s op).node p = m.node p := by
  simp [allocateAt, SkipMem.node, List.getElem?_append_left hp]

theorem node_allocateAt_new : (allocateAt m height rng k v s op).node m.nodes.length =
    ⟨k, if op = .put then v else [], s, op, height⟩ := by
  simp [allocateAt, SkipMem.node, List.getD_eq_getElem?_getD]

theorem allocateAt_grows (L : ℕ → List ℕ) : Grows m L (allocateAt m height rng k v s op) L where
  node _ hp := node_allocateAt m height rng k v s op hp
  nodes_le := by simp [allocateAt]
  subset _ := List.Subset.refl _
  len_le := le_rfl

variable {m}

theorem fwd_allocateAt (h : Levels m L) (hw : 0 < m.nodes.length) {i p : ℕ} (hp : p ∈ 0 :: L i) :
    (allocateAt m height rng k v s op).fwd p i = m.fwd p i := by
  have hlt : p < m.nodes.length := by
    rcases List.mem_cons.mp hp with rfl | hp
    · exact hw
    · exact (h.alloc p (h.subset_zero i hp)).2
  simp [allocateAt, hlt.ne]

theorem allocateAt_inv (h : Levels m L) (hw : WriterInv m L .idle) (hheight : 0 < height) :
    Levels (allocateAt m height rng k v s op) L ∧
      WriterInv (allocateAt m height rng k v s op) L (.findActive m.nodes.length) := by
  obtain ⟨hnodes, hmem⟩ := hw
  have hpos : 0 < m.nodes.length := by omega
  refine ⟨h.frame (allocateAt_grows m height rng k v s op L)
    (fun i p hp => fwd_allocateAt height rng k v s op h hpos hp) le_rfl, ?_⟩
  refine ⟨hnodes, by simp [allocateAt, hnodes], ?_, hmem⟩
  rw [node_allocateAt_new]
  exact hheight

end Allocation

theorem startInsert_eq {k : Key} {v : Value} {s : ℕ} {op : OpType} {pc : WriterPc}
    (h : startInsert m k v s op = some (m', pc)) :
    m' = allocateAt m (randomHeight (xorshift m.rngState)) (xorshift m.rngState) k v s op ∧
      pc = .findActive m.nodes.length := by
  simp only [startInsert, Option.ite_none_right_eq_some, Option.some.injEq, Prod.mk.injEq] at h
  exact ⟨h.2.1.symm, h.2.2.symm⟩

/-! ### `find_predecessors` -/

theorem findActive_inv {n : ℕ} (h : Levels m L) (hw : WriterInv m L (.findActive n)) :
    (writerStep m (.findActive n)).1 = m ∧ WriterInv m L (writerStep m (.findActive n)).2 := by
  have hne : m.maxHeight ≠ 0 := h.height_pos.ne'
  simp only [writerStep, if_neg hne]
  refine ⟨trivial, hw, by simp, .inl rfl, ?_⟩
  intro j hj
  have hLj := h.above j (by omega)
  rw [hLj]
  have hprev : (Links.init.fillHead m.maxHeight maxLevels).prev j = 0 := by
    simp [Links.fillHead, Links.init]
  rw [hprev]
  exact SplitAt.nil m n

theorem settle_inv {n cur : ℕ} {level : ℕ} {links : Links} (h : Levels m L)
    (hw : WriterInv m L (.find n level cur links))
    (hstop : ∀ q, m.fwd cur level = some q → m.Before n q) :
    WriterInv m L (settle n level cur (m.fwd cur level) links) := by
  obtain ⟨hfresh, hcur, hless, hsplit⟩ := hw
  have hset : ∀ j, level ≤ j → SplitAt m (L j) n ((links.set level cur (m.fwd cur level)).prev j)
      ((links.set level cur (m.fwd cur level)).following j) := by
    intro j hj
    rcases hj.eq_or_lt with rfl | hj
    · simpa [Links.set] using h.splitAt hcur hless hstop
    · simpa [Links.set, hj.ne'] using hsplit j hj
  unfold settle
  split
  · rename_i h0
    subst h0
    exact ⟨hfresh, fun j => hset j (Nat.zero_le j)⟩
  · rename_i h0
    obtain ⟨level, rfl⟩ : ∃ l, level = l + 1 := ⟨level - 1, by omega⟩
    exact ⟨hfresh, h.down hcur, hless, fun j hj => hset j hj⟩

theorem find_inv {n cur : ℕ} {level : ℕ} {links : Links} (h : Levels m L)
    (hw : WriterInv m L (.find n level cur links)) :
    (writerStep m (.find n level cur links)).1 = m ∧
      WriterInv m L (writerStep m (.find n level cur links)).2 := by
  obtain ⟨hfresh, hcur, hless, hsplit⟩ := hw
  simp only [writerStep]
  cases hq : m.fwd cur level with
  | none =>
    refine ⟨rfl, ?_⟩
    have := settle_inv h ⟨hfresh, hcur, hless, hsplit⟩ (by simp [hq])
    rwa [hq] at this
  | some q =>
    have hqL := h.next_mem hcur hq
    have hqn : q < n := by
      have := (hfresh.mem q).mp (h.subset_zero level hqL)
      have := hfresh.eq_len
      omega
    dsimp only
    split
    · rename_i hlt
      exact ⟨rfl, hfresh, List.mem_cons_of_mem 0 hqL, .inr (before_of_less hlt), hsplit⟩
    · rename_i hlt
      refine ⟨rfl, ?_⟩
      have := settle_inv h ⟨hfresh, hcur, hless, hsplit⟩ (by
        intro q' hq'
        obtain rfl : q = q' := by simpa [hq] using hq'
        exact before_of_not_less hqn hlt)
      rwa [hq] at this

/-! ### `max_height` -/

theorem fillHead_split {n hi : ℕ} {links : Links} (h : Levels m L)
    (hs : ∀ j, SplitAt m (L j) n (links.prev j) (links.following j)) (j : ℕ) :
    SplitAt m (L j) n ((links.fillHead m.maxHeight hi).prev j)
      ((links.fillHead m.maxHeight hi).following j) := by
  have hj := hs j
  simp only [Links.fillHead]
  split
  · rename_i hc
    rw [h.above j hc.1] at hj
    rw [← hj.prev_of_nil]
    rwa [h.above j hc.1]
  · exact hj

theorem Fresh.linking {n : ℕ} {links : Links} (hf : Fresh m L n)
    (hle : (m.node n).height ≤ m.maxHeight)
    (hs : ∀ j, SplitAt m (L j) n (links.prev j) (links.following j)) : Linking m L n 0 links where
  eq_len := hf.eq_len
  nodes := hf.nodes
  level_lt := hf.height
  height_le := hle
  split j _ := hs j
  linked j hj := absurd hj (Nat.not_lt_zero j)
  mem p := by simpa using hf.mem p

theorem loadMax_inv {n : ℕ} {links : Links} (h : Levels m L)
    (hw : WriterInv m L (.loadMax n links)) :
    (writerStep m (.loadMax n links)).1 = m ∧
      WriterInv m L (writerStep m (.loadMax n links)).2 := by
  obtain ⟨hfresh, hs⟩ := hw
  simp only [writerStep]
  split
  · rename_i hlt
    exact ⟨rfl, hfresh, hlt, fillHead_split h hs⟩
  · rename_i hle
    exact ⟨rfl, hfresh.linking (not_lt.mp hle) hs⟩

theorem storeMax_inv {n : ℕ} {links : Links} (h : Levels m L)
    (hw : WriterInv m L (.storeMax n links)) :
    Levels (writerStep m (.storeMax n links)).1 L ∧
      WriterInv (writerStep m (.storeMax n links)).1 L (writerStep m (.storeMax n links)).2 := by
  obtain ⟨hfresh, hlt, hs⟩ := hw
  have hg : Grows m L { m with maxHeight := (m.node n).height } L :=
    ⟨fun _ _ => rfl, le_rfl, fun _ => List.Subset.refl _, le_rfl⟩
  refine ⟨h.frame hg (fun _ _ _ => rfl) hlt.le, ?_⟩
  have hfresh' : Fresh { m with maxHeight := (m.node n).height } L n :=
    ⟨hfresh.eq_len, hfresh.nodes, hfresh.height, hfresh.mem⟩
  exact hfresh'.linking le_rfl hs

/-! ### Linking a level -/

theorem fwd_setFwd (m : SkipMem) (p i : ℕ) (q : Option ℕ) (p' i' : ℕ) :
    (m.setFwd p i q).fwd p' i' = if p' = p ∧ i' = i then q else m.fwd p' i' := rfl

theorem setFwd_grows (m : SkipMem) (L : ℕ → List ℕ) (p i : ℕ) (q : Option ℕ) :
    Grows m L (m.setFwd p i q) L :=
  ⟨fun _ _ => rfl, le_rfl, fun _ => List.Subset.refl _, le_rfl⟩

theorem Linking.not_mem {n level : ℕ} {links : Links} (hk : Linking m L n level links) :
    n ∉ 0 :: L level := by
  intro hn
  rcases List.mem_cons.mp hn with h0 | hn
  · have := hk.eq_len
    omega
  · exact (hk.split level le_rfl).not_mem hn

theorem linkNode_inv {n level : ℕ} {links : Links} (h : Levels m L)
    (hw : WriterInv m L (.linkNode n level links)) :
    let m' := (writerStep m (.linkNode n level links)).1
    Levels m' L ∧ WriterInv m' L (writerStep m (.linkNode n level links)).2 ∧
      ∀ i, ∀ p ∈ 0 :: L i, m'.fwd p i = m.fwd p i := by
  have hk : Linking m L n level links := hw
  have hfwd : ∀ i, ∀ p ∈ 0 :: L i,
      (m.setFwd n level (links.following level)).fwd p i = m.fwd p i := by
    intro i p hp
    rw [fwd_setFwd, if_neg]
    rintro ⟨rfl, rfl⟩
    exact hk.not_mem hp
  refine ⟨h.frame (setFwd_grows ..) hfwd le_rfl, ⟨?_, ?_⟩, hfwd⟩
  · exact ⟨hk.eq_len, hk.nodes, hk.level_lt, hk.height_le, hk.split, hk.linked, hk.mem⟩
  · simp [writerStep, fwd_setFwd]

theorem publish_levels {n level : ℕ} {links : Links} {A B : List ℕ} (h : Levels m L)
    (hk : Linking m L n level links) (hn : m.fwd n level = links.following level)
    (hAB : L level = A ++ B) (hA : A.getLastD 0 = links.prev level)
    (hB : B.head? = links.following level) (hAn : ∀ a ∈ A, m.Before a n)
    (hBn : ∀ b ∈ B, m.Before n b) :
    Levels (m.setFwd (links.prev level) level (some n))
      (Function.update L level (A ++ n :: B)) where
  path i := by
    by_cases hi : i = level
    · subst hi
      simp only [Function.update_self]
      have hpath : Path (fun p => m.fwd p i) 0 (A ++ B) := hAB ▸ h.path i
      refine hpath.insert ?_ ?_ ?_ ?_ ?_
      · exact hAB ▸ h.nodup i
      · exact hAB ▸ hk.not_mem
      · rw [hn, hB]
      · rw [hA]
        simp [fwd_setFwd]
      · intro y hy
        simp [fwd_setFwd, hA ▸ hy]
    · simp only [Function.update_of_ne hi]
      refine (h.path i).congr ?_
      intro y _
      simp [fwd_setFwd, hi]
  sorted i := by
    by_cases hi : i = level
    · subst hi
      simp only [Function.update_self]
      have hs := h.sorted i
      rw [hAB, List.pairwise_append] at hs
      refine List.pairwise_append.mpr ⟨hs.1, List.pairwise_cons.mpr ⟨hBn, hs.2.1⟩, ?_⟩
      intro a ha b hb
      rcases List.mem_cons.mp hb with rfl | hb
      · exact hAn a ha
      · exact hs.2.2 a ha b hb
    · simp only [Function.update_of_ne hi]
      exact h.sorted i
  nested i := by
    intro p hp
    by_cases hi : i + 1 = level
    · -- the level below already holds the node
      subst hi
      rw [Function.update_of_ne (by omega)]
      simp only [Function.update_self, List.mem_append, List.mem_cons] at hp
      have hsub := h.nested i
      rw [hAB] at hsub
      rcases hp with hp | rfl | hp
      · exact hsub (List.mem_append_left B hp)
      · exact hk.linked i (by omega)
      · exact hsub (List.mem_append_right A hp)
    · rw [Function.update_of_ne hi] at hp
      have hp' := h.nested i hp
      by_cases hi' : i = level
      · subst hi'
        rw [hAB] at hp'
        simp only [Function.update_self, List.mem_append, List.mem_cons] at hp' ⊢
        tauto
      · rwa [Function.update_of_ne hi']
  alloc p hp := by
    by_cases hl : level = 0
    · subst hl
      simp only [Function.update_self, List.mem_append, List.mem_cons] at hp
      have hL : ∀ x, x ∈ A ∨ x ∈ B → 0 < x ∧ x < m.nodes.length := by
        intro x hx
        exact h.alloc x (by rw [hAB]; exact List.mem_append.mpr hx)
      have hnew : 0 < n ∧ n < m.nodes.length := by
        have := hk.eq_len
        have := hk.nodes
        omega
      rcases hp with hp | rfl | hp
      · exact hL p (.inl hp)
      · exact hnew
      · exact hL p (.inr hp)
    · rw [Function.update_of_ne (Ne.symm hl)] at hp
      exact h.alloc p hp
  above i hi := by
    have hlt : level < m.maxHeight := hk.level_lt.trans_le hk.height_le
    have hne : i ≠ level := (hlt.trans_le hi).ne'
    rw [Function.update_of_ne hne]
    exact h.above i hi
  height_pos := h.height_pos

theorem publish_subset {n level : ℕ} {A B : List ℕ} (hAB : L level = A ++ B) (i : ℕ) :
    L i ⊆ Function.update L level (A ++ n :: B) i := by
  intro p hp
  by_cases hi : i = level
  · subst hi
    rw [hAB] at hp
    simp only [Function.update_self, List.mem_append, List.mem_cons] at hp ⊢
    tauto
  · rwa [Function.update_of_ne hi]

theorem publish_mem {n level : ℕ} {links : Links} {A B : List ℕ}
    (hk : Linking m L n level links) (hAB : L level = A ++ B) (p : ℕ) :
    p ∈ Function.update L level (A ++ n :: B) 0 ↔ (0 < p ∧ p ≤ m.len) ∨ p = n := by
  have hp := hk.mem p
  rcases Nat.eq_zero_or_pos level with rfl | hpos
  · rw [hAB] at hp
    simp only [Function.update_self, List.mem_append, List.mem_cons] at hp ⊢
    simp only [lt_self_iff_false, and_false, or_false] at hp
    rw [← hp]
    tauto
  · rw [Function.update_of_ne hpos.ne, hp]
    simp [hpos]

theorem linkPrev_inv {n level : ℕ} {links : Links} (h : Levels m L)
    (hw : WriterInv m L (.linkPrev n level links)) :
    ∃ L', let m' := (writerStep m (.linkPrev n level links)).1
      Levels m' L' ∧ WriterInv m' L' (writerStep m (.linkPrev n level links)).2 ∧
        Grows m L m' L' := by
  obtain ⟨hk, hn⟩ := hw
  obtain ⟨A, B, hAB, hA, hB, hAn, hBn⟩ := hk.split level le_rfl
  have hlev := publish_levels h hk hn hAB hA hB hAn hBn
  have hmem := publish_mem hk hAB
  refine ⟨Function.update L level (A ++ n :: B), ?_⟩
  simp only [writerStep]
  split
  · rename_i hlt
    refine ⟨hlev, ?_, ⟨fun _ _ => rfl, le_rfl, publish_subset hAB, le_rfl⟩⟩
    refine ⟨hk.eq_len, hk.nodes, hlt, hk.height_le, ?_, ?_, ?_⟩
    · intro j hj
      rw [Function.update_of_ne (by omega)]
      exact hk.split j (by omega)
    · intro j hj
      rcases (Nat.lt_succ_iff_lt_or_eq.mp hj) with hj | rfl
      · rw [Function.update_of_ne hj.ne]
        exact hk.linked j hj
      · simp
    · intro p
      rw [hmem p]
      simp [SkipMem.setFwd]
  · -- the last level: the insert is complete
    refine ⟨⟨hlev.path, hlev.sorted, hlev.nested, hlev.alloc, hlev.above, hlev.height_pos⟩, ?_,
      ⟨fun _ _ => rfl, le_rfl, publish_subset hAB, Nat.le_succ _⟩⟩
    refine ⟨hk.nodes, fun p => ?_⟩
    rw [hmem p, hk.eq_len]
    dsimp only
    omega

/-! ### Any access -/

/-- Every access of the writer keeps the invariant, and the only change to a
bottom link of the list is the store that publishes a node at level `0`. -/
theorem writerStep_inv {pc : WriterPc} (h : Levels m L) (hw : WriterInv m L pc) :
    ∃ L', let m' := (writerStep m pc).1
      Levels m' L' ∧ WriterInv m' L' (writerStep m pc).2 ∧ Grows m L m' L' ∧
        ∀ p ∈ 0 :: L 0, m'.fwd p 0 = m.fwd p 0 ∨
          ∃ n links, pc = .linkPrev n 0 links ∧ p = links.prev 0 ∧ m'.fwd p 0 = some n := by
  have same : ∀ pc', m = (writerStep m pc).1 → WriterInv m L pc' →
      pc' = (writerStep m pc).2 → ∃ L', let m' := (writerStep m pc).1
      Levels m' L' ∧ WriterInv m' L' (writerStep m pc).2 ∧ Grows m L m' L' ∧
        ∀ p ∈ 0 :: L 0, m'.fwd p 0 = m.fwd p 0 ∨
          ∃ n links, pc = .linkPrev n 0 links ∧ p = links.prev 0 ∧ m'.fwd p 0 = some n := by
    intro pc' hm hinv hpc
    subst hpc
    rw [← hm]
    exact ⟨L, h, hinv, Grows.refl m L, fun p _ => .inl rfl⟩
  cases pc with
  | idle => exact same .idle rfl hw rfl
  | findActive n =>
    obtain ⟨hm, hinv⟩ := findActive_inv h hw
    exact same _ hm.symm hinv rfl
  | find n level cur links =>
    obtain ⟨hm, hinv⟩ := find_inv h hw
    exact same _ hm.symm hinv rfl
  | loadMax n links =>
    obtain ⟨hm, hinv⟩ := loadMax_inv h hw
    exact same _ hm.symm hinv rfl
  | storeMax n links =>
    obtain ⟨hlev, hinv⟩ := storeMax_inv h hw
    exact ⟨L, hlev, hinv, ⟨fun _ _ => rfl, le_rfl, fun _ => List.Subset.refl _, le_rfl⟩,
      fun p _ => .inl rfl⟩
  | linkNode n level links =>
    obtain ⟨hlev, hinv, hfwd⟩ := linkNode_inv h hw
    exact ⟨L, hlev, hinv, setFwd_grows .., fun p hp => .inl (hfwd 0 p hp)⟩
  | linkPrev n level links =>
    obtain ⟨L', hlev, hinv, hg⟩ := linkPrev_inv h hw
    refine ⟨L', hlev, hinv, hg, ?_⟩
    intro p _
    have hfwd : (writerStep m (.linkPrev n level links)).1.fwd p 0 =
        if p = links.prev level ∧ 0 = level then some n else m.fwd p 0 := by
      simp only [writerStep]
      split <;> rfl
    rw [hfwd]
    split
    · rename_i hc
      obtain ⟨hp, rfl⟩ := hc
      exact .inr ⟨n, links, rfl, hp, rfl⟩
    · exact .inl rfl

end PaddockKV.Memtable
