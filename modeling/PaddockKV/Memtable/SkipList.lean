import PaddockKV.InternalKey

/-!
# The skip list of the memtable (`memtable/skiplist.rs`)

The list lives in an arena; a pointer is the position of an allocation (a
natural number), the head being allocation `0`. `insert` and `get` are given as machines that make
one atomic load or store per step, so that they can be interleaved; run to the
end without interruption they are the sequential operations. All loads and
stores are sequentially consistent here.
-/

namespace PaddockKV.Memtable

/-- `MAX_HEIGHT`. -/
def maxLevels : ℕ := 12

/-- `BRANCH`. -/
def branch : UInt32 := 4

/-- The immutable part of a node: header fields, key and value bytes. -/
structure Node where
  key : Key
  value : Value
  seqno : ℕ
  op : OpType
  height : ℕ
  deriving Repr, DecidableEq

def Node.toRec (n : Node) : Rec := ⟨n.key, n.seqno, n.op, n.value⟩

/-- `build_head`. -/
def buildHead : Node := ⟨[], [], 0, .put, maxLevels⟩

/-- The shared state of a `SkipList`. `fwd p i` is the forward pointer of node
`p` at level `i`. -/
structure SkipMem where
  nodes : List Node
  fwd : ℕ → ℕ → Option ℕ
  maxHeight : ℕ
  rngState : UInt32
  len : ℕ

namespace SkipMem

/-- `SkipList::new`. -/
def new : SkipMem := ⟨[buildHead], fun _ _ => none, 1, 0x9E3779B9, 0⟩

def node (m : SkipMem) (p : ℕ) : Node := m.nodes.getD p buildHead

def setFwd (m : SkipMem) (p : ℕ) (i : ℕ) (q : Option ℕ) : SkipMem :=
  { m with fwd := fun p' i' => if p' = p ∧ i' = i then q else m.fwd p' i' }

/-- The record of node `p` sorts strictly before `(key, seqno)`. -/
def Less (m : SkipMem) (p : ℕ) (key : Key) (seqno : ℕ) : Prop :=
  compareInternalKey (m.node p).key (m.node p).seqno key seqno = .lt

instance (m : SkipMem) (p : ℕ) (key : Key) (seqno : ℕ) : Decidable (m.Less p key seqno) :=
  inferInstanceAs (Decidable (_ = _))

end SkipMem

/-! ### Random heights -/

/-- The Marsaglia xorshift32 step of `random_height`. -/
def xorshift (s : UInt32) : UInt32 :=
  let s := s ^^^ (s <<< 13)
  let s := s ^^^ (s >>> 17)
  s ^^^ (s <<< 5)

/-- The promotion loop of `random_height`. -/
def promote : ℕ → ℕ → UInt32 → ℕ
  | 0, h, _ => h
  | fuel + 1, h, s =>
    if h < maxLevels ∧ s % branch = 0 then promote fuel (h + 1) (s * 0x9E3779B9) else h

def randomHeight (s : UInt32) : ℕ := promote maxLevels 1 s

theorem promote_le (fuel h : ℕ) (s : UInt32) (hh : h ≤ maxLevels) :
    h ≤ promote fuel h s ∧ promote fuel h s ≤ maxLevels := by
  induction fuel generalizing h s with
  | zero => exact ⟨le_rfl, hh⟩
  | succ fuel ih =>
    unfold promote
    split
    · rename_i hc
      have := ih (h + 1) (s * 0x9E3779B9) hc.1
      omega
    · exact ⟨le_rfl, hh⟩

theorem randomHeight_bounds (s : UInt32) : 1 ≤ randomHeight s ∧ randomHeight s ≤ maxLevels :=
  promote_le maxLevels 1 s (by decide)

/-! ### The writer: `insert` and `find_predecessors` -/

/-- The local arrays `predecessors` and `following` of `insert`. -/
structure Links where
  prev : ℕ → ℕ
  following : ℕ → Option ℕ

namespace Links

def init : Links := ⟨fun _ => 0, fun _ => none⟩

/-- Fills `predecessors` with the head from level `lo` up to `hi`. -/
def fillHead (l : Links) (lo hi : ℕ) : Links :=
  { l with prev := fun i => if lo ≤ i ∧ i < hi then 0 else l.prev i }

def set (l : Links) (level : ℕ) (cur : ℕ) (link : Option ℕ) : Links :=
  ⟨fun i => if i = level then cur else l.prev i,
   fun i => if i = level then link else l.following i⟩

end Links

/-- Where the writer stands; each constructor names its next atomic access. -/
inductive WriterPc where
  | idle
  | findActive (n : ℕ)
  | find (n : ℕ) (level : ℕ) (cur : ℕ) (links : Links)
  | loadMax (n : ℕ) (links : Links)
  | storeMax (n : ℕ) (links : Links)
  | linkNode (n : ℕ) (level : ℕ) (links : Links)
  | linkPrev (n : ℕ) (level : ℕ) (links : Links)

/-- `random_height` and `allocate_node`: nothing of the node is shared yet. A
tombstone stores no value bytes. -/
def allocateNode (m : SkipMem) (key : Key) (value : Value) (seqno : ℕ) (op : OpType) : SkipMem :=
  let s := xorshift m.rngState
  let val := if op = .put then value else []
  { m with
    nodes := m.nodes ++ [⟨key, val, seqno, op, randomHeight s⟩]
    fwd := fun p i => if p = m.nodes.length then none else m.fwd p i
    rngState := s }

/-- `allocate_node` for a node of height `height`; `rng` is what drawing the
height left in `rng_state`. -/
def allocateAt (m : SkipMem) (height : ℕ) (rng : UInt32) (key : Key) (value : Value) (seqno : ℕ)
    (op : OpType) : SkipMem :=
  { m with
    nodes := m.nodes ++ [⟨key, if op = .put then value else [], seqno, op, height⟩]
    fwd := fun p i => if p = m.nodes.length then none else m.fwd p i
    rngState := rng }

/-- `insert` up to its first shared access; `none` when a length does not fit
its header field and `allocate_node` panics. -/
def startInsert (m : SkipMem) (key : Key) (value : Value) (seqno : ℕ) (op : OpType) :
    Option (SkipMem × WriterPc) :=
  let valLen := if op = .put then value.length else 0
  if key.length < u32Size ∧ valLen < u32Size then
    some (allocateNode m key value seqno op, .findActive m.nodes.length)
  else none

/-- The link just loaded at `cur` does not lead to a smaller record: note it
and go down one level. -/
def settle (n : ℕ) (level : ℕ) (cur : ℕ) (link : Option ℕ) (links : Links) : WriterPc :=
  let links := links.set level cur link
  if level = 0 then .loadMax n links else .find n (level - 1) cur links

/-- One atomic access of `insert`. -/
def writerStep (m : SkipMem) : WriterPc → SkipMem × WriterPc
  | .idle => (m, .idle)
  | .findActive n =>
    let links := Links.init.fillHead m.maxHeight maxLevels
    if m.maxHeight = 0 then (m, .loadMax n links) else (m, .find n (m.maxHeight - 1) 0 links)
  | .find n level cur links =>
    match m.fwd cur level with
    | none => (m, settle n level cur none links)
    | some q =>
      if m.Less q (m.node n).key (m.node n).seqno then (m, .find n level q links)
      else (m, settle n level cur (some q) links)
  | .loadMax n links =>
    if m.maxHeight < (m.node n).height then
      (m, .storeMax n (links.fillHead m.maxHeight (m.node n).height))
    else (m, .linkNode n 0 links)
  | .storeMax n links => ({ m with maxHeight := (m.node n).height }, .linkNode n 0 links)
  | .linkNode n level links => (m.setFwd n level (links.following level), .linkPrev n level links)
  | .linkPrev n level links =>
    let m' := m.setFwd (links.prev level) level (some n)
    if level + 1 < (m.node n).height then (m', .linkNode n (level + 1) links)
    else ({ m' with len := m.len + 1 }, .idle)

/-! ### The reader: `get` -/

inductive ReaderPc where
  | idle
  | loadMax
  | walk (level : ℕ) (cur : ℕ)
  | candidate (cur : ℕ)
  | done (result : Option ℕ)
  deriving DecidableEq

/-- The head of the outer loop, with `level` levels left to walk. -/
def enterLevel (level : ℕ) (cur : ℕ) : ReaderPc :=
  match level with
  | 0 => .candidate cur
  | level + 1 => .walk level cur

/-- One atomic load of `get(key, snapshot)`. -/
def readerStep (m : SkipMem) (key : Key) (snapshot : ℕ) : ReaderPc → ReaderPc
  | .idle => .idle
  | .loadMax => enterLevel m.maxHeight 0
  | .walk level cur =>
    match m.fwd cur level with
    | none => enterLevel level cur
    | some q => if m.Less q key snapshot then .walk level q else enterLevel level cur
  | .candidate cur =>
    match m.fwd cur 0 with
    | none => .done none
    | some q =>
      if (m.node q).key = key ∧ (m.node q).seqno ≤ snapshot then .done (some q) else .done none
  | .done r => .done r

/-! ### The iterator -/

/-- `Iter`: the nodes met from the load of `cur` on, at most `fuel` of them. -/
def iterFrom (m : SkipMem) : ℕ → Option ℕ → List ℕ
  | 0, _ => []
  | _, none => []
  | fuel + 1, some p => p :: iterFrom m fuel (m.fwd p 0)

/-- `SkipList::iter` run to its end. -/
def SkipMem.iter (m : SkipMem) : List ℕ := iterFrom m m.nodes.length (m.fwd 0 0)

end PaddockKV.Memtable
