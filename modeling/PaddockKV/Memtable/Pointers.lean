import PaddockKV.Memtable.Concurrent
import PaddockKV.Memtable.Layout

/-!
# The skip list over the bytes of its arena

`insert` and `get` once more, one atomic access a step, but now with addresses:
nodes are read through their headers, links are words of the forward arrays, and
new nodes come from the arena. The places between two accesses are those of
`WriterPc` and `ReaderPc` with addresses in them. A step without a result reads
or writes memory that is not the list's own.
-/

namespace PaddockKV.Memtable

open Memory

/-- `SkipList`, with the memory its pointers lead to. -/
structure RawList where
  arena : Arena
  mem : Mem Byte
  head : ℕ
  maxHeight : ℕ
  rngState : UInt32
  len : ℕ

section Construction

variable (alloc : GlobalAlloc) (fuel : ℕ)

/-- `SkipList::new` with `build_head`. -/
def RawList.new : Option RawList :=
  match Arena.allocate alloc fuel (headerSize + maxLevels * pointerSize) 8 Arena.new with
  | .ok p arena =>
    some ⟨arena, writeHeader (fun _ => none) p.address ⟨maxLevels, RecordOp.put.toByte, 0, 0, 0⟩,
      p.address, 1, 0x9E3779B9, 0⟩
  | .error _ _ => none

/-- `allocate_node`; `none` when it panics. -/
def RawList.allocateNode (r : RawList) (key : Key) (value : Value) (seqno : ℕ) (op : OpType)
    (height : ℕ) : Option (RawList × ℕ) :=
  let value := if op = .put then value else []
  let total := headerSize + height * pointerSize + key.length + value.length
  match Arena.allocate alloc fuel total 8 r.arena with
  | .ok p arena =>
    if key.length < u32Size ∧ value.length < u32Size then
      some ({ r with
        arena := arena, mem := writeNode r.mem p.address height op seqno key value }, p.address)
    else none
  | .error _ _ => none

/-- The writer: where it stands, and the arguments and locals of `insert` that
later accesses use. -/
structure RawWriter where
  pc : WriterPc
  key : Key
  seqno : ℕ
  height : ℕ

/-- `insert` up to its first shared access. -/
def RawList.startInsert (r : RawList) (key : Key) (value : Value) (seqno : ℕ) (op : OpType) :
    Option (RawList × RawWriter) :=
  let s := xorshift r.rngState
  let height := randomHeight s
  (RawList.allocateNode alloc fuel { r with rngState := s } key value seqno op height).map
    fun x => (x.1, ⟨.findActive x.2, key, seqno, height⟩)

end Construction

/-- `compare_internal_key` with the node at `p` on the left is `Less`. -/
def rawLess (m : Mem Byte) (p : ℕ) (key : Key) (seqno : ℕ) : Option Bool :=
  (nodeKey m p).bind fun k => (nodeSeqno m p).map fun s =>
    decide (compareInternalKey k s key seqno = .lt)

/-- `predecessors` and `following` at the start of `insert`. -/
def Links.start (head : ℕ) : Links := ⟨fun _ => head, fun _ => none⟩

/-- `predecessors` filled with the head from level `lo` up to `hi`. -/
def Links.fillWith (l : Links) (head lo hi : ℕ) : Links :=
  { l with prev := fun i => if lo ≤ i ∧ i < hi then head else l.prev i }

/-- One atomic access of `insert`. -/
def RawList.writerStep (r : RawList) (w : RawWriter) : Option (RawList × RawWriter) :=
  match w.pc with
  | .idle => some (r, w)
  | .findActive n =>
    let links := (Links.start r.head).fillWith r.head r.maxHeight maxLevels
    if r.maxHeight = 0 then some (r, { w with pc := .loadMax n links })
    else some (r, { w with pc := .find n (r.maxHeight - 1) r.head links })
  | .find n level cur links =>
    (loadForward r.mem cur level).bind fun
      | none => some (r, { w with pc := settle n level cur none links })
      | some q => (rawLess r.mem q w.key w.seqno).map fun less =>
        if less then (r, { w with pc := .find n level q links })
        else (r, { w with pc := settle n level cur (some q) links })
  | .loadMax n links =>
    if r.maxHeight < w.height then
      some (r, { w with pc := .storeMax n (links.fillWith r.head r.maxHeight w.height) })
    else some (r, { w with pc := .linkNode n 0 links })
  | .storeMax n links =>
    some ({ r with maxHeight := w.height }, { w with pc := .linkNode n 0 links })
  | .linkNode n level links =>
    (storeForward r.mem n level (links.following level)).map fun mem =>
      ({ r with mem := mem }, { w with pc := .linkPrev n level links })
  | .linkPrev n level links =>
    (storeForward r.mem (links.prev level) level (some n)).map fun mem =>
      if level + 1 < w.height then
        ({ r with mem := mem }, { w with pc := .linkNode n (level + 1) links })
      else ({ r with mem := mem, len := r.len + 1 }, { w with pc := .idle })

/-- One atomic load of `get(key, snapshot)`. -/
def RawList.readerStep (r : RawList) (key : Key) (snapshot : ℕ) : ReaderPc → Option ReaderPc
  | .idle => some .idle
  | .loadMax => some (enterLevel r.maxHeight r.head)
  | .walk level cur =>
    (loadForward r.mem cur level).bind fun
      | none => some (enterLevel level cur)
      | some q => (rawLess r.mem q key snapshot).map fun less =>
        if less then .walk level q else enterLevel level cur
  | .candidate cur =>
    (loadForward r.mem cur 0).bind fun
      | none => some (.done none)
      | some q => (nodeKey r.mem q).bind fun k => (nodeSeqno r.mem q).map fun s =>
        if k = key ∧ s ≤ snapshot then .done (some q) else .done none
  | .done q => some (.done q)

/-! ### One writer and any number of readers -/

structure RawReader where
  key : Key
  snapshot : ℕ
  pc : ReaderPc

structure RawMachine (ι : Type) where
  list : RawList
  writer : RawWriter
  readers : ι → RawReader

/-- The calls of `Action`; a sequence number is a `u64`. -/
inductive RawAction (ι : Type) where
  | insert (key : Key) (value : Value) (seqno : UInt64) (op : OpType)
  | write
  | get (i : ι) (key : Key) (snapshot : ℕ)
  | read (i : ι)

namespace RawMachine

variable {ι : Type} (alloc : GlobalAlloc) (fuel : ℕ)

def init : Option (RawMachine ι) :=
  (RawList.new alloc fuel).map fun r => ⟨r, ⟨.idle, [], 0, 0⟩, fun _ => ⟨[], 0, .idle⟩⟩

variable [DecidableEq ι]

def setReader (s : RawMachine ι) (i : ι) (x : RawReader) : RawMachine ι :=
  { s with readers := Function.update s.readers i x }

def next (s : RawMachine ι) : RawAction ι → Option (RawMachine ι)
  | .insert key value seqno op =>
    match s.writer.pc with
    | .idle =>
      (RawList.startInsert alloc fuel s.list key value seqno.toNat op).map fun x =>
        { s with list := x.1, writer := x.2 }
    | _ => none
  | .write =>
    match s.writer.pc with
    | .idle => none
    | _ => (s.list.writerStep s.writer).map fun x => { s with list := x.1, writer := x.2 }
  | .get i key snapshot =>
    match (s.readers i).pc with
    | .idle | .done _ => some (s.setReader i ⟨key, snapshot, .loadMax⟩)
    | _ => none
  | .read i =>
    let x := s.readers i
    match x.pc with
    | .idle | .done _ => none
    | pc => (s.list.readerStep x.key x.snapshot pc).map fun pc => s.setReader i { x with pc := pc }

end RawMachine

end PaddockKV.Memtable
