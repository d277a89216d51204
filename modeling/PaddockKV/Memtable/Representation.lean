import PaddockKV.Memtable.Pointers

/-!
# A list of nodes in memory

`Rep` relates a list in memory to the list of nodes of `SkipMem`: node `p` is at
address `addr p`, and every link is the address of its node. `Placed` says where
the addresses come from: each node has an allocation of the arena to itself. Loads
give what the list of nodes has, and a store of a link or a new node keeps `Rep`.
-/

namespace PaddockKV.Memtable

open Memory

variable {alloc : GlobalAlloc} {addr : ℕ → ℕ}

/-! ### Where the nodes are -/

/-- What the global allocator promises for its blocks. -/
structure Blocks (alloc : GlobalAlloc) : Prop where
  aligned : ∀ n size base, alloc n size = some base → defaultAlign ∣ base
  nonnull : ∀ n size base, alloc n size = some base → 0 < base
  space : ∀ n size base, alloc n size = some base → base + size ≤ u64Size
  apart : ∀ n n' size size' base base', n ≠ n' → alloc n size = some base →
    alloc n' size' = some base' → base + size ≤ base' ∨ base' + size' ≤ base

theorem Blocks.slabs {a : Arena} {served : List Served} (hb : Blocks alloc)
    (hold : Arena.Holding alloc a served) : a.slabs.Pairwise Slab.Apart := by
  refine hold.distinct.imp_of_mem ?_
  intro s t hs ht hne
  exact hb.apart _ _ _ _ _ _ hne (hold.base s hs) (hold.base t ht)

/-- Every node was served by the arena at its address. -/
structure Placed (alloc : GlobalAlloc) (addr : ℕ → ℕ) (a : Arena) (m : SkipMem) : Prop where
  within : ∃ total, Arena.Within a total
  served : ∃ served, Arena.Holding alloc a served ∧ ∀ p < m.nodes.length,
    ∃ c ∈ served, c.ptr.address = addr p ∧ c.request = (m.node p).request
  place : ∀ p < m.nodes.length, 0 < addr p ∧ addr p + (m.node p).request.size ≤ u64Size
  apart : ∀ p q, p < m.nodes.length → q < m.nodes.length → p ≠ q →
    Apart (addr p) (m.node p).request.size (addr q) (m.node q).request.size

theorem Placed.allocate {a a' : Arena} {m m' : SkipMem} {n : Node} {p : Ptr} {fuel : ℕ}
    (hb : Blocks alloc) (hp : Placed alloc addr a m)
    (hnodes : m'.nodes = m.nodes ++ [n])
    (h : Arena.allocate alloc (fuel + 2) n.request.size 8 a = .ok p a') :
    Placed alloc (Function.update addr m.nodes.length p.address) a' m' ∧ 8 ∣ p.address := by
  obtain ⟨⟨total, hwithin⟩, ⟨served, hold, hserved⟩, hplace, hapart⟩ := hp
  have hends : Ends (Arena.allocate alloc (fuel + 2) n.request.size n.request.align) a _ _ :=
    Arena.allocate_ends fuel ⟨3, rfl⟩ hwithin
  obtain ⟨hal, hwithin'⟩ := hends.of_ok h
  have hold' := hold.allocate hal
  have hnew := hold'.inside _ (List.mem_cons_self ..)
  have hbase := hold'.base _ hnew.1
  -- the new range ends in its slab, and the slab in the address space
  have hroom : 0 < p.address ∧ p.address + n.request.size ≤ u64Size := by
    have hpos := hb.nonnull _ _ _ hbase
    have hspace := hb.space _ _ _ hbase
    have hin := hnew.2.2
    unfold Ptr.address
    dsimp only at hpos hspace hin
    omega
  have haddrs := List.pairwise_cons.mp (hold'.addresses (hb.slabs hold'))
  have hlen : m'.nodes.length = m.nodes.length + 1 := by simp [hnodes]
  have hold_node : ∀ q < m.nodes.length, m'.node q = m.node q := by
    intro q hq
    simp [SkipMem.node, hnodes, List.getElem?_append_left hq]
  have hnew_node : m'.node m.nodes.length = n := by
    simp [SkipMem.node, hnodes, List.getD_eq_getElem?_getD]
  have hfar : ∀ q < m.nodes.length,
      Apart p.address n.request.size (addr q) (m.node q).request.size := by
    intro q hq
    obtain ⟨c, hc, hca, hcr⟩ := hserved q hq
    have := haddrs.1 c hc
    unfold Served.AddressesApart at this
    rwa [hca, hcr] at this
  have hold_addr : ∀ q < m.nodes.length,
      Function.update addr m.nodes.length p.address q = addr q := by
    intro q hq
    exact Function.update_of_ne hq.ne _ _
  refine ⟨⟨⟨_, hwithin'⟩, ⟨_, hold', ?_⟩, ?_, ?_⟩, ?_⟩
  · intro q hq
    rcases Nat.lt_succ_iff_lt_or_eq.mp (hlen ▸ hq) with hlt | rfl
    · obtain ⟨c, hc, hca, hcr⟩ := hserved q hlt
      rw [hold_addr q hlt, hold_node q hlt]
      exact ⟨c, List.mem_cons_of_mem _ hc, hca, hcr⟩
    · rw [Function.update_self, hnew_node]
      exact ⟨_, List.mem_cons_self .., rfl, rfl⟩
  · intro q hq
    rcases Nat.lt_succ_iff_lt_or_eq.mp (hlen ▸ hq) with hlt | rfl
    · rw [hold_addr q hlt, hold_node q hlt]
      exact hplace q hlt
    · rw [Function.update_self, hnew_node]
      exact hroom
  · intro q q' hq hq' hne
    rcases Nat.lt_succ_iff_lt_or_eq.mp (hlen ▸ hq) with hlt | rfl <;>
      rcases Nat.lt_succ_iff_lt_or_eq.mp (hlen ▸ hq') with hlt' | rfl
    · rw [hold_addr q hlt, hold_node q hlt, hold_addr q' hlt', hold_node q' hlt']
      exact hapart q q' hlt hlt' hne
    · rw [hold_addr q hlt, hold_node q hlt, Function.update_self, hnew_node]
      exact (hfar q hlt).symm
    · rw [hold_addr q' hlt', hold_node q' hlt', Function.update_self, hnew_node]
      exact hfar q' hlt'
    · exact absurd rfl hne
  · exact hold'.dvd_address (List.mem_cons_self ..) hb.aligned ⟨3, rfl⟩ le_rfl

/-! ### The list in memory -/

/-- `p` is a node that is linked at level `i` or may be. -/
def PtrOk (m : SkipMem) (i p : ℕ) : Prop := p < m.nodes.length ∧ i < (m.node p).height

structure Rep (addr : ℕ → ℕ) (r : RawList) (m : SkipMem) : Prop where
  head : r.head = addr 0
  head_ok : 0 < m.nodes.length ∧ (m.node 0).height = maxLevels
  fits : ∀ p < m.nodes.length, (m.node p).Fits
  nodes : ∀ p < m.nodes.length, NodeAt r.mem (addr p) (m.node p)
  fwd : ∀ i p, PtrOk m i p → Holds r.mem (nodeForwardPtr (addr p) i)
    (leBytes pointerSize (((m.fwd p i).map addr).getD 0))
  tall : ∀ p i q, m.fwd p i = some q → PtrOk m i q
  maxHeight : r.maxHeight = m.maxHeight
  top : m.maxHeight ≤ maxLevels
  rngState : r.rngState = m.rngState
  len : r.len = m.len

variable {r : RawList} {m m' : SkipMem} {i p : ℕ}

theorem Rep.ptrOk_head (hr : Rep addr r m) {level : ℕ} (h : level < maxLevels) :
    PtrOk m level 0 := ⟨hr.head_ok.1, hr.head_ok.2 ▸ h⟩

section Bytes

variable {mem mem' : Mem Byte} {n : Node}

theorem NodeAt.congr (h : NodeAt mem p n)
    (heq : ∀ x, p ≤ x → x < p + n.request.size → mem' x = mem x) : NodeAt mem' p n := by
  have hkey : nodeKeyPtr p n.height = p + 24 + n.height * 8 := rfl
  have hsize : n.request.size = 24 + n.height * 8 + n.key.length + n.value.length := rfl
  refine ⟨h.aligned, h.header.congr fun x hlo hhi => heq x hlo ?_,
    h.body.congr fun x hlo hhi => heq x ?_ ?_⟩
  · rw [NodeHeader.length_bytes, headerSize] at hhi
    omega
  · omega
  · rw [List.length_append] at hhi
    omega

theorem slot_inside (p : ℕ) (hi : i < n.height) :
    p + headerSize ≤ nodeForwardPtr p i ∧ nodeForwardPtr p i + pointerSize ≤ nodeKeyPtr p n.height ∧
      nodeKeyPtr p n.height + n.key.length + n.value.length = p + n.request.size := by
  have hsize : n.request.size = 24 + n.height * 8 + n.key.length + n.value.length := rfl
  unfold nodeForwardPtr nodeKeyPtr headerSize pointerSize
  omega

end Bytes

/-! ### Loads -/

theorem Placed.addr_bounds {a : Arena} (hp : Placed alloc addr a m) (h : p < m.nodes.length) :
    addr p ≠ 0 ∧ addr p < u64Size := by
  have hplace := hp.place p h
  have hsize : (m.node p).request.size =
    24 + (m.node p).height * 8 + (m.node p).key.length + (m.node p).value.length := rfl
  omega

theorem Rep.loadForward {a : Arena} (hr : Rep addr r m) (hp : Placed alloc addr a m)
    (hok : PtrOk m i p) : loadForward r.mem (addr p) i = some ((m.fwd p i).map addr) := by
  have halign := (hr.nodes p hok.1).aligned
  have hold := hr.fwd i p hok
  cases hq : m.fwd p i with
  | none =>
    rw [hq] at hold
    have hzero : ((none : Option ℕ).map addr).getD 0 = 0 := rfl
    rw [hzero] at hold
    exact loadForward_of_holds halign (by decide) hold
  | some q =>
    rw [hq] at hold
    obtain ⟨hne, hlt⟩ := hp.addr_bounds (hr.tall p i q hq).1
    have hget : ((some q).map addr).getD 0 = addr q := rfl
    rw [hget] at hold
    rw [loadForward_of_holds halign hlt hold, if_neg hne]
    rfl

theorem Rep.rawLess (hr : Rep addr r m) (h : p < m.nodes.length) (k : Key) (s : ℕ) :
    rawLess r.mem (addr p) k s = some (decide (m.Less p k s)) := by
  have hn := hr.nodes p h
  have hf := hr.fits p h
  rw [Memtable.rawLess, hn.key hf, Option.bind_some, hn.seqno hf, Option.map_some]
  rfl

/-- `NodeRef`'s view of a node. -/
def nodeRec (m : Mem Byte) (p : ℕ) : Option Rec :=
  (nodeKey m p).bind fun key => (nodeSeqno m p).bind fun seqno => (nodeOpType m p).bind fun op =>
    (nodeValue m p).map fun value => ⟨key, seqno, op, value⟩

theorem Rep.nodeRec (hr : Rep addr r m) (h : p < m.nodes.length) :
    nodeRec r.mem (addr p) = some (m.node p).toRec := by
  have hn := hr.nodes p h
  have hf := hr.fits p h
  simp only [Memtable.nodeRec, hn.key hf, hn.seqno hf, hn.opType hf, hn.value hf,
    Option.bind_some, Option.map_some]
  rfl

/-! ### Stores -/

theorem ptrOk_setFwd {j q : ℕ} {link : Option ℕ} : PtrOk (m.setFwd p i link) j q ↔ PtrOk m j q :=
  Iff.rfl

theorem Rep.storeForward {a : Arena} (hr : Rep addr r m)
    (hp : Placed alloc addr a m) (hok : PtrOk m i p) (link : Option ℕ) (hlink : ∀ q, link = some q → PtrOk m i q) :
    ∃ mem, storeForward r.mem (addr p) i (link.map addr) = some mem ∧
      Rep addr { r with mem := mem } (m.setFwd p i link) := by
  have hold := hr.fwd i p hok
  have hstore := storeForward_of_holds (link.map addr) (hr.nodes p hok.1).aligned hold
  refine ⟨_, hstore, ?_⟩
  have hout : ∀ x, x < nodeForwardPtr (addr p) i ∨ nodeForwardPtr (addr p) i + pointerSize ≤ x →
      store r.mem (nodeForwardPtr (addr p) i) (leBytes pointerSize ((link.map addr).getD 0)) x =
        r.mem x := by
    intro x hx
    exact store_of_out (by rwa [leBytes_length])
  have hslot := slot_inside (addr p) hok.2
  -- another node has no byte in the slot
  have hother : ∀ q < m.nodes.length, q ≠ p → ∀ x, addr q ≤ x →
      x < addr q + (m.node q).request.size →
      x < nodeForwardPtr (addr p) i ∨ nodeForwardPtr (addr p) i + pointerSize ≤ x := by
    intro q hq hne x hlo hhi
    have := hp.apart q p hq hok.1 hne
    unfold Apart at this
    omega
  refine ⟨hr.head, hr.head_ok, hr.fits, fun q hq => ?_, fun j q hq => ?_, fun q j t ht => ?_,
    hr.maxHeight, hr.top, hr.rngState, hr.len⟩
  · have hnq := hr.nodes q hq
    by_cases hqp : q = p
    · subst hqp
      refine ⟨hnq.aligned, hnq.header.congr fun x _ hhi => hout x ?_,
        hnq.body.congr fun x hlo _ => hout x ?_⟩
      · rw [NodeHeader.length_bytes] at hhi
        omega
      · change nodeKeyPtr (addr q) (m.node q).height ≤ x at hlo
        omega
    · exact hnq.congr fun x hlo hhi => hout x (hother q hq hqp x hlo hhi)
  · rw [ptrOk_setFwd] at hq
    rw [fwd_setFwd]
    by_cases hsame : q = p ∧ j = i
    · obtain ⟨rfl, rfl⟩ := hsame
      rw [if_pos ⟨rfl, rfl⟩]
      exact holds_store _ _ _
    · rw [if_neg hsame]
      refine (hr.fwd j q hq).congr fun x hlo hhi => hout x ?_
      rw [leBytes_length] at hhi
      by_cases hqp : q = p
      · subst hqp
        have hji : j ≠ i := fun h => hsame ⟨rfl, h⟩
        unfold nodeForwardPtr pointerSize at *
        omega
      · have hq' := slot_inside (addr q) hq.2
        exact hother q hq.1 hqp x (by omega) (by omega)
  · rw [fwd_setFwd] at ht
    split at ht
    · rename_i hc
      obtain ⟨rfl, rfl⟩ := hc
      exact hlink t ht
    · exact hr.tall q j t ht

/-! ### A new node -/

theorem PtrOk.mono (h : PtrOk m i p) (hle : m.nodes.length ≤ m'.nodes.length)
    (hnode : ∀ p < m.nodes.length, m'.node p = m.node p) : PtrOk m' i p :=
  ⟨h.1.trans_le hle, hnode p h.1 ▸ h.2⟩

theorem Rep.allocate {a : Arena} {n : Node} {q : ℕ} {rng : UInt32} (hr : Rep addr r m)
    (hp : Placed alloc (Function.update addr m.nodes.length q) a m') (halign : 8 ∣ q)
    (hfits : n.Fits) (hm : m' = { m with
      nodes := m.nodes ++ [n]
      fwd := fun p i => if p = m.nodes.length then none else m.fwd p i
      rngState := rng }) :
    Rep (Function.update addr m.nodes.length q) { r with
      arena := a
      mem := writeNode r.mem q n.height n.op n.seqno n.key n.value
      rngState := rng } m' := by
  obtain ⟨hnewAt, hzero, hframe⟩ := writeNode_spec r.mem n halign
  have hlen : m'.nodes.length = m.nodes.length + 1 := by simp [hm]
  have hle : m.nodes.length ≤ m'.nodes.length := by omega
  have hold : ∀ p < m.nodes.length, m'.node p = m.node p := by
    intro p hp
    simp [SkipMem.node, hm, List.getElem?_append_left hp]
  have hnew : m'.node m.nodes.length = n := by
    simp [SkipMem.node, hm, List.getD_eq_getElem?_getD]
  have haddr : ∀ p < m.nodes.length, Function.update addr m.nodes.length q p = addr p := by
    intro p hp
    exact Function.update_of_ne hp.ne _ _
  -- the bytes of the other nodes are not touched
  have hkeep : ∀ p < m.nodes.length, ∀ x, addr p ≤ x → x < addr p + (m.node p).request.size →
      writeNode r.mem q n.height n.op n.seqno n.key n.value x = r.mem x := by
    intro p hlt x hlo hhi
    have hap := hp.apart p m.nodes.length (by omega) (by omega) hlt.ne
    rw [haddr p hlt, hold p hlt, Function.update_self, hnew] at hap
    refine hframe x ?_
    unfold Apart at hap
    omega
  have hfwd : ∀ p i, m'.fwd p i = if p = m.nodes.length then none else m.fwd p i := by
    intro p i
    rw [hm]
  have h0 := hr.head_ok
  refine ⟨?_, ⟨by omega, by rw [hold 0 h0.1]; exact h0.2⟩, fun p hlt => ?_, fun p hlt => ?_,
    fun i p hok => ?_, fun p i t ht => ?_, ?_, ?_, ?_, ?_⟩
  · rw [haddr 0 h0.1]
    exact hr.head
  · rcases Nat.lt_succ_iff_lt_or_eq.mp (hlen ▸ hlt) with hlt | rfl
    · rw [hold p hlt]
      exact hr.fits p hlt
    · rwa [hnew]
  · rcases Nat.lt_succ_iff_lt_or_eq.mp (hlen ▸ hlt) with hlt | rfl
    · rw [hold p hlt, haddr p hlt]
      exact (hr.nodes p hlt).congr (hkeep p hlt)
    · rw [hnew, Function.update_self]
      exact hnewAt
  · rw [hfwd]
    rcases Nat.lt_succ_iff_lt_or_eq.mp (hlen ▸ hok.1) with hlt | rfl
    · have hok' : PtrOk m i p := ⟨hlt, hold p hlt ▸ hok.2⟩
      have hslot := slot_inside (addr p) hok'.2
      have hmap : (m.fwd p i).map (Function.update addr m.nodes.length q) =
          (m.fwd p i).map addr := by
        cases ht : m.fwd p i with
        | none => rfl
        | some t => exact congrArg some (haddr t (hr.tall p i t ht).1)
      rw [if_neg hlt.ne, haddr p hlt, hmap]
      refine (hr.fwd i p hok').congr fun x hlo hhi => hkeep p hlt x (by omega) ?_
      rw [leBytes_length] at hhi
      omega
    · rw [if_pos rfl, Function.update_self]
      exact hzero i (hnew ▸ hok.2)
  · rw [hfwd] at ht
    split at ht
    · cases ht
    · exact (hr.tall p i t ht).mono hle hold
  · rw [hm]
    exact hr.maxHeight
  · rw [hm]
    exact hr.top
  · rw [hm]
  · rw [hm]
    exact hr.len

end PaddockKV.Memtable
