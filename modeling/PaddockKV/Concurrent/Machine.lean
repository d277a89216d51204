import PaddockKV.Lib.Threads
import PaddockKV.History
import PaddockKV.Probe
import PaddockKV.Engine.Range

/-!
# Concurrent calls on one `Db` (`engine.rs`)

Threads run `commit_batch`, `flush`, `compact_all`, `snapshot`, `get_at` and
`range_bounds`. A step is one acquisition or release of `write_lock`, one access
to `state` or `seqno`, one memtable insert, one probe of an SSTable, or the VFS
calls a function makes on one file between two such points. VFS calls succeed.

Memtables are named by their allocation, and a memtable is its list of records:
an insert is `insertRec`. `SkipList::get` is two steps, since it loads its last
link twice: the comparison that ends its walk on level 0 and the load of its
candidate. A walk over a memtable (`iter`) may or may not meet records that are
inserted while it is under way. Both are what the skip list shows its callers, one
memory access at a time (`Memtable/Probes.lean`, `Memtable/Iteration.lean`).
-/

namespace PaddockKV.Concurrent

open Wal Engine

/-- `ImmutableMemtable`. -/
structure Imm where
  mem : ℕ
  wal : ℕ
  deriving DecidableEq

/-- `LiveSst`, with the records its reader serves. -/
structure Sst where
  id : ℕ
  recs : List Rec
  deriving DecidableEq

structure EngineState where
  active : ℕ
  imms : List Imm
  ssts : List Sst
  deriving DecidableEq

/-- A finished read. -/
inductive Read where
  | got (key : Key) (snapshot : ℕ) (result : Option Value)
  | ranged (start stop : Bound) (snapshot : ℕ) (result : List RangeRecord)
  deriving DecidableEq

/-- The `Db` (with the fields of `WriterCtx`), the memtables, the SSTable files,
and a record of what was done: `history` lists the commits in the order of their
sequence numbers, `applied` the records inserted, the latest first, `acked` the
commits that returned, `inflight` the commit between its `fetch_add` and its last
insert, `owner` and `walMem` which call reserved a file number and which memtable
a WAL segment fed. -/
structure Shared (ι : Type) where
  state : EngineState
  mem : ℕ → List Rec
  nextMem : ℕ
  seqno : ℕ
  lock : Option ι
  walId : ℕ
  bytes : ℕ
  nextFile : ℕ
  files : ℕ → Option (List Rec)
  history : List (ℕ × WriteBatch)
  applied : List Rec
  acked : List (ℕ × WriteBatch)
  inflight : Option ℕ
  owner : ℕ → Option ι
  walMem : ℕ → ℕ
  snaps : List ℕ
  reads : List Read

/-- Who rotates the memtable. -/
inductive Caller where
  | commit (batch : WriteBatch) (seqno : ℕ)
  | flush

inductive Call where
  | commit (batch : WriteBatch)
  | flush
  | compact
  | snapshot
  | getAt (key : Key) (snapshot : ℕ)
  | range (start stop : Bound) (snapshot : ℕ)

/-- A scan under construction. -/
structure Scan where
  start : Bound
  stop : Bound
  snapshot : ℕ

inductive Pc where
  | idle
  | commitLock (batch : WriteBatch)
  | commitSeqno (batch : WriteBatch)
  | commitAppend (batch : WriteBatch) (seqno : ℕ)
  | commitSync (batch : WriteBatch) (seqno : ℕ)
  | commitLoad (batch : WriteBatch) (seqno : ℕ)
  | commitApply (batch : WriteBatch) (seqno target : ℕ) (rest : List Op)
  | rotateLoad (k : Caller)
  | rotateStore (k : Caller) (prev : EngineState)
  | rotateOpen (k : Caller)
  | rotateHeader (k : Caller)
  | unlock (k : Caller)
  | flushLock
  | flushCheck
  | flushPeek
  | flushReserve (im : Imm)
  | flushNumber (im : Imm)
  | flushRelease (im : Imm) (id : ℕ)
  | flushOpen (im : Imm) (id : ℕ)
  | flushWalk (im : Imm) (id : ℕ) (seen : List Rec)
  | flushReader (im : Imm) (id : ℕ) (recs : List Rec)
  | flushLoad (im : Imm) (id : ℕ) (recs : List Rec)
  | flushStore (im : Imm) (id : ℕ) (recs : List Rec) (prev : EngineState)
  | flushRemove (im : Imm)
  | compactLoad
  | compactReserve (inputs : List Sst)
  | compactNumber (inputs : List Sst)
  | compactRelease (inputs : List Sst) (id : ℕ)
  | compactWrite (inputs : List Sst) (id : ℕ)
  | compactPublish (inputs : List Sst) (id : ℕ) (recs : List Rec)
  | compactStore (inputs : List Sst) (id : ℕ) (recs : List Rec) (prev : EngineState)
  | compactRemove (inputs : List Sst)
  | snapLoad
  | getLoad (key : Key) (snapshot : ℕ)
  | getProbe (key : Key) (snapshot : ℕ) (mems : List ℕ) (ssts : List Sst)
  | getCandidate (key : Key) (snapshot : ℕ) (cur : Option Rec) (id : ℕ) (mems : List ℕ)
      (ssts : List Sst)
  | rangeLoad (scan : Scan)
  | rangeNext (scan : Scan) (mems : List ℕ) (ssts : List Sst) (got : List (List Rec))
  | rangeWalk (scan : Scan) (id : ℕ) (seen : List Rec) (mems : List ℕ) (ssts : List Sst)
      (got : List (List Rec))

/-- What a thread chooses: which call to make, or what a memtable walk met. -/
inductive Choice where
  | call (c : Call)
  | go
  | met (recs : List Rec)

/-! ### Steps -/

variable {ι : Type}

/-- `Db::open` on an empty directory. -/
def Shared.init : Shared ι where
  state := ⟨0, [], []⟩
  mem := fun _ => []
  nextMem := 1
  seqno := 0
  lock := none
  walId := 1
  bytes := 0
  nextFile := 2
  files := fun _ => none
  history := []
  applied := []
  acked := []
  inflight := none
  owner := fun _ => none
  walMem := fun _ => 0
  snaps := []
  reads := []

/-- `encoded.len()`. -/
def encodedLen (batch : WriteBatch) : ℕ :=
  match encode batch with
  | .ok bs => bs.length
  | .error _ => 0

def pending (seqno : ℕ) (rest : List Op) : Option ℕ := if rest = [] then none else some seqno

def acquire (t : ι) (s : Shared ι) (pc : Pc) : Option (Shared ι × Pc) :=
  if s.lock.isNone then some ({ s with lock := some t }, pc) else none

def begin (s : Shared ι) : Call → Option (Shared ι × Pc)
  | .commit batch => some (s, .commitLock batch)
  | .flush => some (s, .flushLock)
  | .compact => some (s, .compactLoad)
  | .snapshot => some (s, .snapLoad)
  | .getAt key snapshot => if snapshot ∈ s.snaps then some (s, .getLoad key snapshot) else none
  | .range start stop snapshot =>
    if snapshot ∈ s.snaps then some (s, .rangeLoad ⟨start, stop, snapshot⟩) else none

/-- The insert of one operation into memtable `target`. -/
def Shared.insert (s : Shared ι) (target : ℕ) (r : Rec) : Shared ι :=
  { s with
    mem := Function.update s.mem target (insertRec r (s.mem target))
    applied := r :: s.applied }

/-- `rotate_memtable_locked` from its `store` on: the fields of `WriterCtx` are
read under the lock only, so their update is taken together with the store. -/
def Shared.rotate (s : Shared ι) (prev : EngineState) : Shared ι :=
  { s with
    state := ⟨s.nextMem, ⟨prev.active, s.walId⟩ :: prev.imms, prev.ssts⟩
    nextMem := s.nextMem + 1
    walMem := Function.update s.walMem s.walId prev.active
    walId := s.nextFile
    nextFile := s.nextFile + 1
    bytes := 0 }

def Shared.reserve (t : ι) (s : Shared ι) : Shared ι :=
  { s with nextFile := s.nextFile + 1, owner := Function.update s.owner s.nextFile (some t) }

def Shared.write (s : Shared ι) (id : ℕ) (recs : List Rec) : Shared ι :=
  { s with files := Function.update s.files id (some recs) }

/-- The state `flush_one` publishes. -/
def flushed (im : Imm) (id : ℕ) (recs : List Rec) (prev : EngineState) : EngineState :=
  ⟨prev.active, prev.imms.filter fun x => x.wal ≠ im.wal, ⟨id, recs⟩ :: prev.ssts⟩

/-- The state `compact_all` publishes. -/
def compacted (inputs : List Sst) (id : ℕ) (recs : List Rec) (prev : EngineState) : EngineState :=
  ⟨prev.active, prev.imms,
    ⟨id, recs⟩ :: prev.ssts.filter fun x => x.id ∉ inputs.map Sst.id⟩

/-- What `compact_sstables` writes: the merger's output on sorted inputs. -/
def mergedRecs (inputs : List Sst) : List Rec := isort (inputs.map Sst.recs).flatten

/-- The records a scan returns, given what was read from its sources. -/
def scanResult (scan : Scan) (sources : List (List Rec)) : Option (List RangeRecord) :=
  let it : DbRangeIter := ⟨scan.stop, scan.snapshot,
    .new ((sources.map (memtableSource scan.start scan.stop)).map Compaction.items), none⟩
  match DbRangeIter.collectRecords (sources.flatten.length + 1) it with
  | .ok out _ => some out
  | .error _ _ => none

/-- One step of thread `t`. -/
def act (threshold : ℕ) (t : ι) (s : Shared ι) : Pc → Choice → Option (Shared ι × Pc)
  | .idle, .call c => begin s c
  -- `commit_batch`
  | .commitLock b, .go => acquire t s (.commitSeqno b)
  | .commitSeqno b, .go =>
    let q := s.seqno + 1
    some ({ s with seqno := q, history := s.history ++ [(q, b)], inflight := some q },
      .commitAppend b q)
  | .commitAppend b q, .go =>
    match encode b with
    | .ok _ => some (s, .commitSync b q)
    | .error _ => none
  | .commitSync b q, .go => some (s, .commitLoad b q)
  | .commitLoad b q, .go =>
    some ({ s with inflight := pending q b }, .commitApply b q s.state.active b)
  | .commitApply b q target (op :: rest), .go =>
    some ({ s.insert target (op.toRec q) with inflight := pending q rest },
      .commitApply b q target rest)
  | .commitApply b q _ [], .go =>
    let bytes := s.bytes + encodedLen b
    some ({ s with bytes := bytes },
      if threshold ≤ bytes then .rotateLoad (.commit b q) else .unlock (.commit b q))
  -- `rotate_memtable_locked`
  | .rotateLoad k, .go => some (s, .rotateStore k s.state)
  | .rotateStore k prev, .go => some (s.rotate prev, .rotateOpen k)
  | .rotateOpen k, .go => some (s, .rotateHeader k)
  | .rotateHeader k, .go => some (s, .unlock k)
  | .unlock (.commit b q), .go => some ({ s with lock := none, acked := (q, b) :: s.acked }, .idle)
  | .unlock .flush, .go => some ({ s with lock := none }, .flushPeek)
  -- `flush` and `flush_one`
  | .flushLock, .go => acquire t s .flushCheck
  | .flushCheck, .go =>
    some (s, if s.mem s.state.active = [] then .unlock .flush else .rotateLoad .flush)
  | .flushPeek, .go =>
    match s.state.imms.getLast? with
    | none => some (s, .idle)
    | some im => some (s, .flushReserve im)
  | .flushReserve im, .go => acquire t s (.flushNumber im)
  | .flushNumber im, .go => some (s.reserve t, .flushRelease im s.nextFile)
  | .flushRelease im id, .go => some ({ s with lock := none }, .flushOpen im id)
  | .flushOpen im id, .go => some (s, .flushWalk im id (s.mem im.mem))
  | .flushWalk im id seen, .met recs =>
    if seen.Sublist recs ∧ recs.Sublist (s.mem im.mem) then
      some (s.write id recs, .flushReader im id recs)
    else none
  | .flushReader im id recs, .go => some (s, .flushLoad im id recs)
  | .flushLoad im id recs, .go => some (s, .flushStore im id recs s.state)
  | .flushStore im id recs prev, .go =>
    some ({ s with state := flushed im id recs prev }, .flushRemove im)
  | .flushRemove _, .go => some (s, .flushPeek)
  -- `compact_all`
  | .compactLoad, .go =>
    some (s, if s.state.ssts.length < 2 then .idle else .compactReserve s.state.ssts)
  | .compactReserve inputs, .go => acquire t s (.compactNumber inputs)
  | .compactNumber inputs, .go => some (s.reserve t, .compactRelease inputs s.nextFile)
  | .compactRelease inputs id, .go => some ({ s with lock := none }, .compactWrite inputs id)
  | .compactWrite inputs id, .go =>
    some (s.write id (mergedRecs inputs), .compactPublish inputs id (mergedRecs inputs))
  | .compactPublish inputs id recs, .go => some (s, .compactStore inputs id recs s.state)
  | .compactStore inputs id recs prev, .go =>
    some ({ s with state := compacted inputs id recs prev }, .compactRemove inputs)
  | .compactRemove (_ :: xs), .go => some (s, .compactRemove xs)
  | .compactRemove [], .go => some (s, .idle)
  -- readers
  | .snapLoad, .go => some ({ s with snaps := s.seqno :: s.snaps }, .idle)
  | .getLoad key snapshot, .go =>
    some (s, .getProbe key snapshot (s.state.active :: s.state.imms.map Imm.mem) s.state.ssts)
  | .getProbe key snapshot (m :: ms) ssts, .go =>
    some (s, .getCandidate key snapshot (walkEnd (s.mem m) key snapshot) m ms ssts)
  | .getCandidate key snapshot cur m ms ssts, .go =>
    match (following (s.mem m) cur).filter fun r => r.Visible key snapshot with
    | some r => some ({ s with reads := .got key snapshot (hitValue r) :: s.reads }, .idle)
    | none => some (s, .getProbe key snapshot ms ssts)
  | .getProbe key snapshot [] (x :: xs), .go =>
    match lookup x.recs key snapshot with
    | some r => some ({ s with reads := .got key snapshot (hitValue r) :: s.reads }, .idle)
    | none => some (s, .getProbe key snapshot [] xs)
  | .getProbe key snapshot [] [], .go =>
    some ({ s with reads := .got key snapshot none :: s.reads }, .idle)
  | .rangeLoad scan, .go =>
    some (s, .rangeNext scan (s.state.active :: s.state.imms.map Imm.mem) s.state.ssts [])
  | .rangeNext scan (m :: ms) ssts got, .go => some (s, .rangeWalk scan m (s.mem m) ms ssts got)
  | .rangeWalk scan m seen ms ssts got, .met recs =>
    if seen.Sublist recs ∧ recs.Sublist (s.mem m) then
      some (s, .rangeNext scan ms ssts (got ++ [recs]))
    else none
  | .rangeNext scan [] ssts got, .go =>
    (scanResult scan (got ++ ssts.map Sst.recs)).map fun out =>
      ({ s with reads := .ranged scan.start scan.stop scan.snapshot out :: s.reads }, .idle)
  | _, _ => none

abbrev Sys (ι : Type) := Threads.Config ι (Shared ι) Pc

def Sys.init : Sys ι := ⟨.init, fun _ => .idle⟩

def step [DecidableEq ι] (threshold : ℕ) : Sys ι → ι × Choice → Option (Sys ι) :=
  Threads.next (act threshold)

end PaddockKV.Concurrent
