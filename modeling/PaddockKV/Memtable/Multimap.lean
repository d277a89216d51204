import PaddockKV.Memtable.Sequential

/-!
# The skip list as a sorted versioned multimap

Any sequence of inserts, with any heights. What a lookup and an iteration see
does not depend on the heights: they only decide which nodes the upper levels
skip.
-/

namespace PaddockKV.Memtable

open Chain

namespace SkipList

/-- One call of `insert`, with the height its node gets. -/
structure Insertion where
  key : Key
  value : Value
  seqno : ℕ
  op : OpType
  height : Height
  rng : UInt32

namespace Insertion

/-- The node in the arena; a tombstone keeps no value. -/
def node (x : Insertion) : Node :=
  ⟨x.key, if x.op = .put then x.value else [], x.seqno, x.op, x.height⟩

/-- The lengths fit the header of the node. -/
def Fits (x : Insertion) : Prop :=
  x.key.length < u32Size ∧ (x.op = .put → x.value.length < u32Size)

end Insertion

def insertAll (s : SkipList) : List Insertion → Option SkipList
  | [] => some s
  | x :: xs => do
    let s ← s.insertAt x.height x.rng x.key x.value x.seqno x.op
    insertAll s xs

/-- Level `i` is the chain `L i` of nodes: sorted by key ascending and sequence
number descending, of equal ones the later insert first, and each level runs
through nodes of the level below. -/
structure SortedLevels (m : SkipMem) (L : ℕ → List ℕ) : Prop where
  chain : ∀ i, Path (fun p => m.fwd p i) 0 (L i)
  sorted : ∀ i, (L i).Pairwise m.Before
  nested : ∀ i, (L (i + 1)).Sublist (L i)

theorem sortedLevels {m : SkipMem} {L : ℕ → List ℕ} (h : Levels m L) : SortedLevels m L := by
  refine ⟨h.path, h.sorted, ?_⟩
  intro i
  have hnd := (List.nodup_cons.mp (h.nodup (i + 1))).2
  have : Std.Antisymm m.Before :=
    ⟨fun a b hab hba => absurd (hab.trans hba) (SkipMem.Before.irrefl m a)⟩
  exact List.sublist_of_subperm_of_pairwise (hnd.subperm (h.nested i)) (h.sorted (i + 1)) (h.sorted i)

theorem insertAll_isSome {xs : List Insertion} (hfits : ∀ x ∈ xs, x.Fits) (s : SkipList) :
    ∃ s', insertAll s xs = some s' := by
  induction xs generalizing s with
  | nil => exact ⟨s, rfl⟩
  | cons x xs ih =>
    obtain ⟨hk, hv⟩ := hfits x List.mem_cons_self
    obtain ⟨s₁, h₁⟩ := insertAt_isSome s x.height x.rng x.seqno hk hv
    obtain ⟨s', h'⟩ := ih (fun y hy => hfits y (List.mem_cons_of_mem x hy)) s₁
    exact ⟨s', Option.bind_eq_some_iff.mpr ⟨s₁, h₁, h'⟩⟩

theorem insertAll_nodes {xs : List Insertion} {s s' : SkipList} (h : insertAll s xs = some s') :
    s'.mem.nodes = s.mem.nodes ++ xs.map Insertion.node := by
  induction xs generalizing s with
  | nil =>
    cases h
    exact (List.append_nil _).symm
  | cons x xs ih =>
    obtain ⟨s₁, h₁, h⟩ := Option.bind_eq_some_iff.mp h
    obtain ⟨-, -, -, -, -, -, -, hnodes⟩ := insertAt_mem h₁
    rw [ih h, hnodes, List.map_cons, List.append_cons]
    rfl

/-- After any inserts: the levels are sorted and nested, an iteration meets every
node that was inserted exactly once, in that order, and `get` returns the first
of them that has the key and is visible. -/
theorem insertAll_multimap (xs : List Insertion) (hfits : ∀ x ∈ xs, x.Fits) :
    ∃ s L, insertAll new xs = some s ∧ SortedLevels s.mem L ∧ s.mem.iter = L 0 ∧
      s.mem.iter.Perm (List.range' 1 xs.length) ∧
      (∀ p x, xs[p]? = some x → s.mem.node (p + 1) = x.node) ∧
      ∀ key snapshot, s.get key snapshot = lookup s.recs key snapshot := by
  obtain ⟨s, hs⟩ := insertAll_isSome hfits new
  obtain ⟨L, h, hw⟩ := s.inv
  have hnodes : s.mem.nodes = buildHead :: xs.map Insertion.node := insertAll_nodes hs
  have hlen : s.mem.len = xs.length := by
    have := hw.1
    rw [hnodes, List.length_cons, List.length_map] at this
    omega
  have hiter := iter_eq h hw
  refine ⟨s, L, hs, sortedLevels h, hiter, ?_, ?_, get_eq s⟩
  · rw [hiter]
    refine (List.perm_ext_iff_of_nodup (List.nodup_cons.mp (h.nodup 0)).2 List.nodup_range').mpr ?_
    intro p
    rw [hw.2 p, hlen, List.mem_range'_1]
    omega
  · intro p x hx
    rw [SkipMem.node, hnodes, List.getD_cons_succ, List.getD_eq_getElem?_getD, List.getElem?_map, hx]
    rfl

-- two versions of a key, one of them twice, with heights 3, 1 and 12
def threeInserts : List Insertion :=
  [⟨[1], [7], 4, .put, ⟨3, by decide⟩, 0⟩, ⟨[1], [8], 4, .put, ⟨1, by decide⟩, 0⟩,
    ⟨[1], [], 5, .tombstone, ⟨12, by decide⟩, 0⟩]

theorem insertAll_multimap_three :
    ∃ s L, insertAll new threeInserts = some s ∧ SortedLevels s.mem L ∧ s.mem.iter = L 0 ∧
      s.mem.iter.Perm (List.range' 1 3) ∧
      (∀ p x, threeInserts[p]? = some x → s.mem.node (p + 1) = x.node) ∧
      ∀ key snapshot, s.get key snapshot = lookup s.recs key snapshot :=
  insertAll_multimap threeInserts (by
    intro x hx
    simp only [threeInserts, List.mem_cons, List.not_mem_nil, or_false] at hx
    rcases hx with rfl | rfl | rfl
    · exact ⟨by decide, by decide⟩
    · exact ⟨by decide, by decide⟩
    · exact ⟨by decide, by decide⟩)

end SkipList

end PaddockKV.Memtable
