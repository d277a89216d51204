import PaddockKV.Lib.Memory
import PaddockKV.Memtable.Arena
import PaddockKV.Memtable.SkipList

/-!
# Nodes in memory (`memtable/skiplist.rs`)

A node is a header of 24 bytes, an array of forward pointers and the bytes of
its key and value, in one allocation of the arena. A pointer is an address, with
`0` for null. An access that is not aligned, or that meets bytes nobody has
written, has no result.
-/

namespace PaddockKV.Memtable

open Memory

/-- `size_of::<NodeHeader>()`. -/
def headerSize : ℕ := 24

/-- `size_of::<AtomicPtr<NodeHeader>>()`. -/
def pointerSize : ℕ := 8

/-- `NodeHeader` without its padding. -/
structure NodeHeader where
  height : ℕ
  opType : Byte
  keyLen : ℕ
  valueLen : ℕ
  seqno : ℕ
  deriving Repr, DecidableEq

/-- The layout of `NodeHeader` under `repr(C)`. -/
def NodeHeader.bytes (h : NodeHeader) : Bytes :=
  [Fin.ofNat 256 h.height, h.opType, 0, 0] ++ (leBytes 4 h.keyLen ++
    (leBytes 4 h.valueLen ++ (leBytes 4 0 ++ leBytes 8 h.seqno)))

def NodeHeader.ofBytes (bs : Bytes) : NodeHeader :=
  ⟨(bs.getD 0 0).val, bs.getD 1 0, leVal ((bs.drop 4).take 4), leVal ((bs.drop 8).take 4),
    leVal ((bs.drop 16).take 8)⟩

/-- `&*ptr`. -/
def loadHeader (m : Mem Byte) (p : ℕ) : Option NodeHeader :=
  if 8 ∣ p then (load m p headerSize).map .ofBytes else none

def nodeKeyPtr (p height : ℕ) : ℕ := p + headerSize + height * pointerSize

def nodeForwardPtr (p i : ℕ) : ℕ := p + headerSize + i * pointerSize

/-! ### `NodeRef` -/

def nodeSeqno (m : Mem Byte) (p : ℕ) : Option ℕ := (loadHeader m p).map NodeHeader.seqno

/-- `op_type`; a byte that is no `OpType` panics. -/
def nodeOpType (m : Mem Byte) (p : ℕ) : Option OpType :=
  (loadHeader m p).bind fun h => RecordOp.fromByte h.opType

def nodeKey (m : Mem Byte) (p : ℕ) : Option Key :=
  (loadHeader m p).bind fun h => load m (nodeKeyPtr p h.height) h.keyLen

def nodeValue (m : Mem Byte) (p : ℕ) : Option Value :=
  (loadHeader m p).bind fun h => load m (nodeKeyPtr p h.height + h.keyLen) h.valueLen

/-! ### Forward pointers -/

def loadForward (m : Mem Byte) (p i : ℕ) : Option (Option ℕ) :=
  if 8 ∣ nodeForwardPtr p i then
    (load m (nodeForwardPtr p i) pointerSize).map fun bs =>
      if leVal bs = 0 then none else some (leVal bs)
  else none

/-- A store into a slot that was initialised. -/
def storeForward (m : Mem Byte) (p i : ℕ) (q : Option ℕ) : Option (Mem Byte) :=
  if 8 ∣ nodeForwardPtr p i then
    (load m (nodeForwardPtr p i) pointerSize).map fun _ =>
      store m (nodeForwardPtr p i) (leBytes pointerSize (q.getD 0))
  else none

/-! ### Initialisation -/

/-- The header and a forward array of null pointers, as both `allocate_node` and
`build_head` write them. -/
def writeHeader (m : Mem Byte) (p : ℕ) (h : NodeHeader) : Mem Byte :=
  (List.range h.height).foldl
    (fun m i => store m (nodeForwardPtr p i) (leBytes pointerSize 0)) (store m p h.bytes)

/-- The writes of `allocate_node`. -/
def writeNode (m : Mem Byte) (p height : ℕ) (op : OpType) (seqno : ℕ) (key : Key) (value : Value) :
    Mem Byte :=
  let m := writeHeader m p ⟨height, op.toByte, key.length, value.length, seqno⟩
  let m := store m (nodeKeyPtr p height) key
  if 0 < value.length then store m (nodeKeyPtr p height + key.length) value else m

/-! ### Headers -/

@[simp] theorem NodeHeader.length_bytes (h : NodeHeader) : h.bytes.length = headerSize := by
  simp [NodeHeader.bytes, headerSize]

theorem NodeHeader.ofBytes_bytes {h : NodeHeader} (hheight : h.height < 256)
    (hkey : h.keyLen < u32Size) (hvalue : h.valueLen < u32Size) (hseqno : h.seqno < u64Size) :
    ofBytes h.bytes = h := by
  obtain ⟨height, op, keyLen, valueLen, seqno⟩ := h
  dsimp only at hheight hkey hvalue hseqno
  have hk : leVal (leBytes 4 keyLen) = keyLen := by
    rw [leVal_leBytes]
    exact Nat.mod_eq_of_lt hkey
  have hv : leVal (leBytes 4 valueLen) = valueLen := by
    rw [leVal_leBytes]
    exact Nat.mod_eq_of_lt hvalue
  have hs : leVal (leBytes 8 seqno) = seqno := by
    rw [leVal_leBytes]
    exact Nat.mod_eq_of_lt hseqno
  simp only [ofBytes, bytes, NodeHeader.mk.injEq]
  refine ⟨?_, rfl, ?_, ?_, ?_⟩
  · simpa using hheight
  · simp [hk]
  · simp [hv]
  · simp [List.drop_append, List.drop_of_length_le, List.take_of_length_le, hs]

/-! ### Reading a node back -/

def Node.header (n : Node) : NodeHeader :=
  ⟨n.height, n.op.toByte, n.key.length, n.value.length, n.seqno⟩

/-- The node's numbers fit their fields. -/
structure Node.Fits (n : Node) : Prop where
  pos : 0 < n.height
  height : n.height ≤ maxLevels
  key : n.key.length < u32Size
  value : n.value.length < u32Size
  seqno : n.seqno < u64Size

/-- The bytes at `p` are those of node `n`; its forward pointers are left open. -/
structure NodeAt (m : Mem Byte) (p : ℕ) (n : Node) : Prop where
  aligned : 8 ∣ p
  header : Holds m p n.header.bytes
  body : Holds m (nodeKeyPtr p n.height) (n.key ++ n.value)

section

variable {m : Mem Byte} {p : ℕ} {n : Node}

theorem NodeAt.loadHeader (h : NodeAt m p n) (hf : n.Fits) : loadHeader m p = some n.header := by
  have hload := load_of_holds h.header
  rw [NodeHeader.length_bytes] at hload
  have hheight : n.header.height < 256 := lt_of_le_of_lt hf.height (by decide)
  rw [Memtable.loadHeader, if_pos h.aligned, hload, Option.map_some,
    NodeHeader.ofBytes_bytes hheight hf.key hf.value hf.seqno]

theorem NodeAt.seqno (h : NodeAt m p n) (hf : n.Fits) : nodeSeqno m p = some n.seqno := by
  rw [nodeSeqno, h.loadHeader hf, Option.map_some]
  rfl

theorem NodeAt.opType (h : NodeAt m p n) (hf : n.Fits) : nodeOpType m p = some n.op := by
  rw [nodeOpType, h.loadHeader hf, Option.bind_some]
  exact RecordOp.fromByte_toByte n.op

theorem NodeAt.key (h : NodeAt m p n) (hf : n.Fits) : nodeKey m p = some n.key := by
  rw [nodeKey, h.loadHeader hf, Option.bind_some]
  exact load_of_holds (holds_append.mp h.body).1

theorem NodeAt.value (h : NodeAt m p n) (hf : n.Fits) : nodeValue m p = some n.value := by
  rw [nodeValue, h.loadHeader hf, Option.bind_some]
  exact load_of_holds (holds_append.mp h.body).2

theorem loadForward_of_holds {i w : ℕ} (halign : 8 ∣ p) (hw : w < u64Size)
    (h : Holds m (nodeForwardPtr p i) (leBytes pointerSize w)) :
    loadForward m p i = some (if w = 0 then none else some w) := by
  have hdvd : 8 ∣ nodeForwardPtr p i := by
    unfold nodeForwardPtr headerSize pointerSize
    omega
  have hload := load_of_holds h
  rw [leBytes_length] at hload
  have hval : leVal (leBytes pointerSize w) = w := by
    rw [leVal_leBytes]
    exact Nat.mod_eq_of_lt hw
  rw [loadForward, if_pos hdvd, hload, Option.map_some, hval]

theorem storeForward_of_holds {i w : ℕ} (q : Option ℕ) (halign : 8 ∣ p)
    (h : Holds m (nodeForwardPtr p i) (leBytes pointerSize w)) :
    storeForward m p i q =
      some (store m (nodeForwardPtr p i) (leBytes pointerSize (q.getD 0))) := by
  have hdvd : 8 ∣ nodeForwardPtr p i := by
    unfold nodeForwardPtr headerSize pointerSize
    omega
  have hload := load_of_holds h
  rw [leBytes_length] at hload
  rw [storeForward, if_pos hdvd, hload, Option.map_some]

end

/-! ### What initialisation writes -/

theorem forwardLoop_spec (m : Mem Byte) (p k : ℕ) :
    let m' := (List.range k).foldl
      (fun m i => store m (nodeForwardPtr p i) (leBytes pointerSize 0)) m
    (∀ i < k, Holds m' (nodeForwardPtr p i) (leBytes pointerSize 0)) ∧
      ∀ x, x < p + headerSize ∨ nodeForwardPtr p k ≤ x → m' x = m x := by
  induction k with
  | zero => simp
  | succ k ih =>
    rw [List.range_succ, List.foldl_append]
    obtain ⟨hold, hframe⟩ := ih
    refine ⟨fun i hi => ?_, fun x hx => ?_⟩
    · rcases Nat.lt_succ_iff_lt_or_eq.mp hi with hlt | rfl
      · refine (hold i hlt).store ?_
        unfold Apart nodeForwardPtr pointerSize
        rw [leBytes_length]
        omega
      · exact holds_store _ _ _
    · rw [List.foldl_cons, List.foldl_nil, store_of_out, hframe]
      · unfold nodeForwardPtr pointerSize at hx ⊢
        omega
      · rw [leBytes_length]
        unfold nodeForwardPtr pointerSize at hx ⊢
        omega

theorem writeHeader_spec (m : Mem Byte) (p : ℕ) (h : NodeHeader) :
    Holds (writeHeader m p h) p h.bytes ∧
      (∀ i < h.height,
        Holds (writeHeader m p h) (nodeForwardPtr p i) (leBytes pointerSize 0)) ∧
      ∀ x, x < p ∨ nodeKeyPtr p h.height ≤ x → writeHeader m p h x = m x := by
  obtain ⟨hold, hframe⟩ := forwardLoop_spec (store m p h.bytes) p h.height
  refine ⟨?_, hold, fun x hx => ?_⟩
  · refine (holds_store m p h.bytes).congr fun x _ hhi => hframe x ?_
    rw [NodeHeader.length_bytes] at hhi
    exact .inl hhi
  · have hkey : nodeKeyPtr p h.height = nodeForwardPtr p h.height := rfl
    rw [writeHeader, hframe, store_of_out]
    · rw [NodeHeader.length_bytes]
      unfold nodeKeyPtr at hx
      omega
    · rw [hkey] at hx
      omega

/-- What `allocate_node` and `build_head` ask of the arena: the header, one
pointer a level, the key and the value. -/
def Node.request (n : Node) : Request :=
  ⟨24 + n.height * 8 + n.key.length + n.value.length, 8⟩

/-- `allocate_node` leaves the node in memory, its forward pointers null, and
nothing changes outside the bytes it asked for. -/
theorem writeNode_spec (m : Mem Byte) {p : ℕ} (n : Node) (halign : 8 ∣ p) :
    let m' := writeNode m p n.height n.op n.seqno n.key n.value
    NodeAt m' p n ∧
      (∀ i < n.height, Holds m' (nodeForwardPtr p i) (leBytes pointerSize 0)) ∧
      ∀ x, x < p ∨ p + n.request.size ≤ x → m' x = m x := by
  obtain ⟨hheader, hfwd, hframe⟩ := writeHeader_spec m p n.header
  have hkeyPtr : nodeKeyPtr p n.height = p + 24 + n.height * 8 := rfl
  have hsize : n.request.size = 24 + n.height * 8 + n.key.length + n.value.length := rfl
  -- the value is copied only if there is one, which makes no difference
  have hval : writeNode m p n.height n.op n.seqno n.key n.value =
      store (store (writeHeader m p n.header) (nodeKeyPtr p n.height) n.key)
        (nodeKeyPtr p n.height + n.key.length) n.value := by
    simp only [writeNode]
    split
    · rfl
    · rename_i hnil
      funext x
      exact (store_of_out (by omega)).symm
  have hlow : ∀ a bs, Holds (writeHeader m p n.header) a bs →
      a + bs.length ≤ nodeKeyPtr p n.height →
      Holds (writeNode m p n.height n.op n.seqno n.key n.value) a bs := by
    intro a bs h hle
    rw [hval]
    refine (h.store (.inl ?_)).store (.inl ?_)
    · exact hle
    · exact hle.trans (Nat.le_add_right _ _)
  refine ⟨⟨halign, ?_, ?_⟩, fun i hi => ?_, fun x hx => ?_⟩
  · refine hlow _ _ hheader ?_
    rw [NodeHeader.length_bytes, headerSize, hkeyPtr]
    omega
  · rw [hval, holds_append]
    refine ⟨(holds_store _ _ _).store (.inl le_rfl), holds_store _ _ _⟩
  · refine hlow _ _ (hfwd i hi) ?_
    rw [leBytes_length, hkeyPtr]
    unfold nodeForwardPtr headerSize pointerSize
    omega
  · rw [hval, store_of_out (by omega), store_of_out (by omega), hframe x (by
      have : nodeKeyPtr p n.header.height = p + 24 + n.height * 8 := rfl
      omega)]

end PaddockKV.Memtable
