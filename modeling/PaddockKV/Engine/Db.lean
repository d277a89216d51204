import PaddockKV.Engine.Range
import PaddockKV.History
import PaddockKV.Memtable.Sequential
import PaddockKV.Sstable.Reader
import PaddockKV.Sstable.Writer
import PaddockKV.Wal.Segment

/-!
# The engine (`engine.rs`, `compaction/compact.rs`)

One caller at a time: a call runs from the state the last one left. The engine
state and the writer context change together with the file system, so a call is
an action on both, and what it changed before a `?` stays changed.
-/

namespace PaddockKV.Engine

open Io Wal Memtable Sstable Crypto Compaction PaddockKV.Filter

structure DbConfig where
  memtableThresholdBytes : ℕ
  bloomBitsPerKey : Byte
  bloomNumHashes : Byte
  sstableCapacityHint : ℕ
  masterKey : Option Bytes
  deriving Repr, DecidableEq

namespace DbConfig

def default : DbConfig := ⟨4 * 1024 * 1024, 10, 8, 10000, none⟩

def bloomParams (c : DbConfig) : BloomParams := ⟨c.bloomNumHashes, c.bloomBitsPerKey⟩

/-- The context under which the blocks of a table are sealed and opened. -/
def cryptoFor (prims : Primitives) (c : DbConfig) (sstableId : ℕ) : Option CryptoCtx :=
  c.masterKey.map fun master => ⟨deriveSstableKey prims master sstableId, sstableId⟩

end DbConfig

structure LiveSst where
  id : ℕ
  reader : SstReader

structure ImmutableMemtable where
  memtable : SkipList
  walSegmentId : ℕ

/-- Immutable memtables and SSTables stand newest first. -/
structure EngineState where
  activeMemtable : SkipList
  immutableMemtables : List ImmutableMemtable
  sstables : List LiveSst

structure WriterCtx where
  wal : SegmentWriter
  walSegmentId : ℕ
  activeMemtableBytes : ℕ
  nextFileNumber : ℕ

structure Db where
  config : DbConfig
  seqno : ℕ
  state : EngineState
  ctx : WriterCtx

/-- An open database and the file system under it. -/
structure Env where
  db : Db
  world : World

def onWorld {α : Type} (x : Act World α) : Act Env α :=
  Act.zoom Env.world (fun w e => { e with world := w }) x

def onWal {α : Type} (x : Act WalEnv α) : Act Env α :=
  Act.zoom (fun e => ⟨e.db.ctx.wal, e.world⟩)
    (fun t e => ⟨{ e.db with ctx := { e.db.ctx with wal := t.writer } }, t.world⟩) x

def setState (f : EngineState → EngineState) : Act Env Unit :=
  modify fun e => { e with db := { e.db with state := f e.db.state } }

/-! ### Opening -/

def parseWalSegmentName : FileName → Option ℕ
  | .wal id => some id
  | .sst _ => none

def parseSstName : FileName → Option ℕ
  | .wal _ => none
  | .sst id => some id

def applyBatchToMemtable (memtable : SkipList) (seqno : ℕ) (batch : WriteBatch) : Res SkipList :=
  batch.foldlM (fun m op =>
    match op with
    | .put key value =>
      match m.insert key value seqno .put with
      | some m => .ok m
      | none => .error (.panicked "SkipList::insert")
    | .delete key =>
      match m.insert key [] seqno .tombstone with
      | some m => .ok m
      | none => .error (.panicked "SkipList::insert")) memtable

/-- `open_readonly` and `open_sst_reader`. -/
def openTable (prims : Primitives) (config : DbConfig) (id : ℕ) : Act World SstReader := do
  let file ← openReadonly (.sst id)
  tryReads
  Act.lift (SstReader.openInner file (config.cryptoFor prims id))

/-- The loop of `open_with` over the tables, with the highest sequence number
their headers give. -/
def openTables (prims : Primitives) (config : DbConfig) : List ℕ → Act World (List LiveSst × ℕ)
  | [] => return ([], 0)
  | n :: ns => do
    let reader ← openTable prims config n
    let (rest, maxSeenSeqno) ← openTables prims config ns
    return (⟨n, reader⟩ :: rest, max reader.header.maxSeqno maxSeenSeqno)

structure Recovered where
  memtable : SkipList
  maxSeenSeqno : ℕ

/-- The callback of `replay`. -/
def replayRecord (view : RecordView) : Act Recovered Unit := do
  modify fun s => { s with maxSeenSeqno := max s.maxSeenSeqno view.seqno }
  let batch ← Act.lift (decode view.payload)
  let s ← get
  let memtable ← Act.lift (applyBatchToMemtable s.memtable view.seqno batch)
  set { s with memtable := memtable }

/-- The loop of `open_with` over the segments. -/
def replaySegments : List ℕ → Recovered → Act World Recovered
  | [], s => return s
  | seg :: segs, s => do
    let file ← openReadonly (.wal seg)
    tryReads
    match replayFile file replayRecord s with
    | .ok _ s => replaySegments segs s
    | .error f _ => throw f

def raiseAbove (n : ℕ) : Option ℕ → Act World ℕ
  | none => return n
  | some m => do
    let k ← addU64 m 1 overflowMsg
    return max n k

def openWith (prims : Primitives) (config : DbConfig) : Act World Db := do
  let names ← Act.orDefault Io.list []
  let walSegments := (names.filterMap parseWalSegmentName).insertionSort (· ≤ ·)
  let next ← addU64 (walSegments.max?.getD 0) 1 overflowMsg
  let names ← Act.orDefault Io.list []
  let sstFiles := names.filterMap parseSstName
  let walSegmentId ← raiseAbove next sstFiles.max?
  let (sstables, maxSst) ← openTables prims config (sstFiles.insertionSort (· ≥ ·))
  let s ← replaySegments walSegments ⟨.new, maxSst⟩
  let nextFileNumber ← addU64 walSegmentId 1 overflowMsg
  openWritable (.wal walSegmentId)
  let firstSeqno ← addU64 s.maxSeenSeqno 1 overflowMsg
  let wal ← SegmentWriter.create (.wal walSegmentId) walSegmentId firstSeqno
  return ⟨config, s.maxSeenSeqno, ⟨s.memtable, [], sstables⟩, ⟨wal, walSegmentId, 0, nextFileNumber⟩⟩

/-! ### Commits -/

def reserveFileNumber : Act Env ℕ := do
  let e ← get
  let next ← addU64 e.db.ctx.nextFileNumber 1 overflowMsg
  modify fun e => { e with db := { e.db with ctx := { e.db.ctx with nextFileNumber := next } } }
  return e.db.ctx.nextFileNumber

/-- The first half of `rotate_memtable_locked`: the new state is stored. -/
def queueActive (e : Env) : Env :=
  { e with db := { e.db with state := {
      activeMemtable := .new
      immutableMemtables :=
        ⟨e.db.state.activeMemtable, e.db.ctx.walSegmentId⟩ :: e.db.state.immutableMemtables
      sstables := e.db.state.sstables } } }

def rotateMemtableLocked : Act Env Unit := do
  modify queueActive
  let newSegmentId ← reserveFileNumber
  onWorld (openWritable (.wal newSegmentId))
  let e ← get
  let firstSeqno ← addU64 e.db.seqno 1 overflowMsg
  let newWal ← onWorld (SegmentWriter.create (.wal newSegmentId) newSegmentId firstSeqno)
  modify fun e => { e with db := { e.db with ctx :=
    ⟨newWal, newSegmentId, 0, e.db.ctx.nextFileNumber⟩ } }

/-- `commit_batch` up to the rotation, with whether it rotates. -/
def commitHead (batch : WriteBatch) : Act Env Bool := do
  let e ← get
  let seqno ← addU64 e.db.seqno 1 overflowMsg
  modify fun e => { e with db := { e.db with seqno := seqno } }
  let encoded ← Act.lift (encode batch)
  let _ ← onWal (SegmentWriter.appendRecord seqno encoded)
  onWal SegmentWriter.sync
  let e ← get
  let memtable ← Act.lift (applyBatchToMemtable e.db.state.activeMemtable seqno batch)
  setState fun s => { s with activeMemtable := memtable }
  let bytes ← addU64 e.db.ctx.activeMemtableBytes encoded.length overflowMsg
  modify fun e => { e with db := { e.db with ctx := { e.db.ctx with activeMemtableBytes := bytes } } }
  return decide (e.db.config.memtableThresholdBytes ≤ bytes)

def commitBatch (batch : WriteBatch) : Act Env Unit := do
  let full ← commitHead batch
  if full then rotateMemtableLocked

def put (key : Key) (value : Value) : Act Env Unit := commitBatch [.put key value]

def delete (key : Key) : Act Env Unit := commitBatch [.delete key]

/-! ### Flushing -/

/-- The state `flush_one` stores. -/
def publishFlush (im : ImmutableMemtable) (sst : LiveSst) (s : EngineState) : EngineState :=
  { s with
    immutableMemtables :=
      s.immutableMemtables.filter fun m => decide (m.walSegmentId ≠ im.walSegmentId)
    sstables := sst :: s.sstables }

def removeFile (name : FileName) : Act Env Unit := onWorld (Act.orDefault (remove name) ())

def flushOne (prims : Primitives) (im : ImmutableMemtable) : Act Env Unit := do
  let fileNumber ← reserveFileNumber
  let e ← get
  let config := e.db.config
  onWorld (SstWriter.writeTable prims (.sst fileNumber) (max im.memtable.len 1) config.bloomParams
    (config.cryptoFor prims fileNumber) defaultBlockSize im.memtable.recs)
  let reader ← onWorld (openTable prims config fileNumber)
  setState (publishFlush im ⟨fileNumber, reader⟩)
  if im.walSegmentId ≠ 0 then removeFile (.wal im.walSegmentId)

/-- The loop of `flush`: every round takes a memtable off the queue. -/
def flushLoop (prims : Primitives) : ℕ → Act Env Unit
  | 0 => Act.panic "flush: loop did not end"
  | fuel + 1 => do
    let e ← get
    match e.db.state.immutableMemtables.getLast? with
    | none => return ()
    | some im => do
      flushOne prims im
      flushLoop prims fuel

/-- The rotation at the start of `flush`. -/
def flushRotate : Act Env Unit := do
  let e ← get
  if e.db.state.activeMemtable.len ≠ 0 then rotateMemtableLocked

def flush (prims : Primitives) : Act Env Unit := do
  flushRotate
  let e ← get
  flushLoop prims (e.db.state.immutableMemtables.length + 1)

/-! ### Compaction -/

-- a saturating sum
def estimateTotalEntries (inputs : List SstReader) : ℕ :=
  max (inputs.foldl (fun sum r => min (sum + r.footer.indexHandle.length) (u64Size - 1)) 0) 1024

/-- The loop of `compact_sstables`; the blocks are read as the merge goes. -/
def mergeLoop (prims : Primitives) : ℕ → KWayMerge → SstWriter → Act World SstWriter
  | 0, _, _ => Act.panic "compact_sstables: loop did not end"
  | fuel + 1, m, w => do
    tryReads
    match KWayMerge.nextRecord m with
    | .ok none _ => return w
    | .ok (some r) m => do
      let w ← w.add prims r
      mergeLoop prims fuel m w
    | .error f _ => throw f

def compactSstables (prims : Primitives) (config : DbConfig) (inputs : List SstReader)
    (outputId : ℕ) : Act World SstReader := do
  let streams ← Act.lift (inputs.mapM (SstReader.scanStream prims))
  openWritable (.sst outputId)
  let w ← SstWriter.createInner (.sst outputId)
    (max config.sstableCapacityHint (estimateTotalEntries inputs)) config.bloomParams
    (config.cryptoFor prims outputId)
  let w ← mergeLoop prims ((streams.map List.length).sum + 1) (.new streams) w
  w.finish prims
  openTable prims config outputId

/-- The state `compact_all` stores. -/
def publishCompaction (inputs : List LiveSst) (sst : LiveSst) (s : EngineState) : EngineState :=
  { s with sstables := sst :: s.sstables.filter fun x => decide (x.id ∉ inputs.map LiveSst.id) }

def removeTables : List LiveSst → Act Env Unit
  | [] => return ()
  | input :: inputs => do
    removeFile (.sst input.id)
    removeTables inputs

def compactAll (prims : Primitives) : Act Env Unit := do
  let e ← get
  let inputs := e.db.state.sstables
  if inputs.length < 2 then return ()
  else
    let outputId ← reserveFileNumber
    let reader ← onWorld
      (compactSstables prims e.db.config (inputs.map LiveSst.reader) outputId)
    setState (publishCompaction inputs ⟨outputId, reader⟩)
    removeTables inputs

/-! ### Reads -/

/-- The probe of the tables in `get_at`. -/
def probeTables (prims : Primitives) (key : Key) (snapshot : ℕ) : List LiveSst → Res (Option Rec)
  | [] => .ok none
  | sst :: ssts => do
    match ← sst.reader.get prims key snapshot with
    | some r => return some r
    | none => probeTables prims key snapshot ssts

/-- The record `get_at` comes upon. -/
def findRec (prims : Primitives) (state : EngineState) (key : Key) (snapshot : ℕ) :
    Res (Option Rec) :=
  match state.activeMemtable.get key snapshot with
  | some r => .ok (some r)
  | none =>
    match state.immutableMemtables.findSome? fun im => im.memtable.get key snapshot with
    | some r => .ok (some r)
    | none => probeTables prims key snapshot state.sstables

def getAt (prims : Primitives) (state : EngineState) (key : Key) (snapshot : ℕ) :
    Res (Option Value) := do
  let hit ← findRec prims state key snapshot
  return hit.bind hitValue

/-- `get`, at the latest sequence number. -/
def Db.get (prims : Primitives) (db : Db) (key : Key) : Res (Option Value) :=
  getAt prims db.state key db.seqno

/-- The sources of `DbRangeIter::new`. -/
def rangeSources (prims : Primitives) (state : EngineState) (start stop : Bound) :
    Res (List (List (Res Rec))) := do
  let tables ← state.sstables.mapM fun sst => do
    let stream ← sst.reader.scanStream prims
    return sstableSource start stop stream
  return items (memtableSource start stop state.activeMemtable.recs) ::
    (state.immutableMemtables.map fun im => items (memtableSource start stop im.memtable.recs)) ++
    tables

/-- `range_bounds` and `collect_records`. -/
def rangeBounds (prims : Primitives) (state : EngineState) (start stop : Bound) (snapshot : ℕ) :
    Res (List RangeRecord) := do
  let sources ← rangeSources prims state start stop
  match DbRangeIter.collectRecords ((sources.map List.length).sum + 1)
      ⟨stop, snapshot, .new sources, none⟩ with
  | .ok out _ => .ok out
  | .error f _ => .error f

end PaddockKV.Engine
