import PaddockKV.Engine.RangeFaults
import PaddockKV.Engine.Sessions
import PaddockKV.Sstable.Seek

/-!
# The sources of reads

The memtables and tables of the engine hold what the sources of the store hold, in
the same order. A scan merges them and sees the newest version of every key; `get_at`
probes one after the other and depends on where a lookup in a table lands.
-/

namespace PaddockKV.Engine

open Io Wal Memtable Sstable Crypto Compaction History

theorem blocksOf_ne_nil (h : History) : ∀ b ∈ blocksOf h, b ≠ [] := cutBlocks_ne_nil _ _ _

theorem blocksOf_sorted (h : History) : SortedRecs (blocksOf h).flatten := by
  rw [blocksOf_flatten]
  exact sortedRecs_sorted h

/-- The tables hold these records. -/
def TablesHold (prims : Primitives) (ssts : List LiveSst) (tables : List (List Rec)) : Prop :=
  List.Forall₂ (fun sst t => sst.reader.scan prims = .ok t) ssts tables

/-- The record that probing the sources in turn finds. -/
def Store.probe (s : Store) (key : Key) (snapshot : ℕ) : Option Rec :=
  ((s.active :: s.queue.map Prod.snd).findSome? fun h => lookup (sortedRecs h) key snapshot).or
    (s.tables.findSome? fun x => tableGet (blocksOf x.2) key snapshot)

section

variable {prims : Primitives} {state : EngineState} {s : Store}

/-- A queued memtable lists what the store has for it. -/
abbrev Queued (im : ImmutableMemtable) (x : ℕ × History) : Prop :=
  im.walSegmentId = x.1 ∧ im.memtable.recs = sortedRecs x.2

theorem queued_recs {ims : List ImmutableMemtable} {queue : List (ℕ × History)}
    (h : List.Forall₂ Queued ims queue) :
    ims.map (fun im => im.memtable.recs) = (queue.map Prod.snd).map sortedRecs := by
  induction h with
  | nil => rfl
  | cons hx _ ih => rw [List.map_cons, ih, hx.2, List.map_cons, List.map_cons]

theorem queued_get {ims : List ImmutableMemtable} {queue : List (ℕ × History)}
    (h : List.Forall₂ Queued ims queue) (key : Key) (snapshot : ℕ) :
    (ims.findSome? fun im => im.memtable.get key snapshot) =
      (queue.map Prod.snd).findSome? fun h => lookup (sortedRecs h) key snapshot := by
  induction h with
  | nil => rfl
  | cons hx _ ih =>
    rw [List.findSome?_cons, List.map_cons, List.findSome?_cons, ih, SkipList.get_eq, hx.2]

theorem memtableRecs_serving (h : Serving prims state s) :
    memtableRecs state = (s.active :: s.queue.map Prod.snd).map sortedRecs := by
  rw [memtableRecs, h.active, queued_recs h.queue, List.map_cons]

theorem tablesHold_serving (h : Serving prims state s) :
    TablesHold prims state.sstables ((s.tables.map Prod.snd).map sortedRecs) := by
  rw [TablesHold, List.map_map, List.forall₂_map_right_iff]
  refine h.tables.imp ?_
  rintro sst x ⟨-, dataEnd, index, hreader⟩
  rw [scan_eq hreader, blocksOf_flatten]
  rfl

theorem sources_serving (h : Serving prims state s) :
    memtableRecs state ++ (s.tables.map Prod.snd).map sortedRecs =
      s.sources.map sortedRecs := by
  rw [memtableRecs_serving h, ← List.map_append]
  rfl

/-! ### Scans -/

theorem rangeSources_serving (h : Serving prims state s) (start stop : Bound) :
    rangeSources prims state start stop =
      .ok (((s.sources.map sortedRecs).map (memtableSource start stop)).map items) := by
  have hflat : (s.tables.map fun x => blocksOf x.2).map List.flatten =
      (s.tables.map Prod.snd).map sortedRecs := by
    rw [List.map_map, List.map_map]
    exact List.map_congr_left fun x _ => blocksOf_flatten x.2
  have hstreams : (state.sstables.mapM fun sst : LiveSst => sst.reader.scanStream prims) =
      .ok (((s.tables.map Prod.snd).map sortedRecs).map items) := by
    have hscan := mapM_scanStream (serves_tables h)
    rw [List.mapM_map, hflat] at hscan
    exact hscan
  have hcut : ∀ l ∈ (s.tables.map Prod.snd).map sortedRecs,
      sstableSource start stop (items l) = items (memtableSource start stop l) := by
    intro l hl
    obtain ⟨x, -, rfl⟩ := List.mem_map.mp hl
    exact sstableSource_eq start stop (sortedRecs_sorted x)
  rw [rangeSources_eq, hstreams, ← sources_serving h]
  show Except.ok (scanSources start stop _ _) = _
  rw [scanSources, List.map_append, List.map_append]
  congr 2
  · rw [List.map_map]
    rfl
  · generalize (s.tables.map Prod.snd).map sortedRecs = tables at hcut ⊢
    rw [List.map_map, List.map_map]
    exact List.map_congr_left hcut

theorem rangeBounds_serving (h : Serving prims state s) (start stop : Bound) (snapshot : ℕ) :
    ∃ out, rangeBounds prims state start stop snapshot = .ok out ∧
      IsScan (fun k => newestRec (records s.history).reverse k snapshot) start stop out := by
  have hsorted : ∀ l ∈ s.sources.map sortedRecs, SortedRecs l := by
    intro l hl
    obtain ⟨x, -, rfl⟩ := List.mem_map.mp hl
    exact sortedRecs_sorted x
  have hfuel := items_lengths ((s.sources.map sortedRecs).map (memtableSource start stop))
  obtain ⟨out, it', hcol, hscan⟩ := collectRecords_isScan hsorted start stop snapshot
    (Nat.lt_succ_of_le hfuel.ge)
  refine ⟨out, ?_, ?_⟩
  · rw [rangeBounds, rangeSources_serving h, res_ok_bind]
    simp only [hcol]
  · have hview : (fun k => newestRec (s.sources.map sortedRecs).flatten k snapshot) =
        fun k => newestRec (records s.history).reverse k snapshot := by
      funext k
      rw [newestRec_sortedRecs, Store.history_eq]
    rwa [hview] at hscan

/-! ### Probing -/

theorem probeTables_eq {ssts : List LiveSst} {tables : List (ℕ × History)} (key : Key)
    (snapshot : ℕ)
    (h : List.Forall₂ (fun sst x => sst.id = x.1 ∧ Serves prims sst.reader (blocksOf x.2)) ssts
      tables) :
    probeTables prims key snapshot ssts =
      .ok (tables.findSome? fun x => tableGet (blocksOf x.2) key snapshot) := by
  induction h with
  | nil => rfl
  | @cons sst x ssts tables hx _ ih =>
    obtain ⟨-, dataEnd, index, hreader⟩ := hx
    rw [probeTables, get_eq hreader, res_ok_bind, List.findSome?_cons]
    cases tableGet (blocksOf x.2) key snapshot with
    | none => exact ih
    | some r => rfl

theorem findRec_serving (h : Serving prims state s) (key : Key) (snapshot : ℕ) :
    findRec prims state key snapshot = .ok (s.probe key snapshot) := by
  rw [findRec, SkipList.get_eq, h.active, queued_get h.queue, probeTables_eq key snapshot h.tables, Store.probe,
    List.findSome?_cons]
  cases lookup (sortedRecs s.active) key snapshot with
  | some r => rfl
  | none =>
    dsimp only
    cases (s.queue.map Prod.snd).findSome? fun h => lookup (sortedRecs h) key snapshot with
    | some r => rfl
    | none => rfl

theorem getAt_serving (h : Serving prims state s) (key : Key) (snapshot : ℕ) :
    getAt prims state key snapshot = .ok ((s.probe key snapshot).bind hitValue) := by
  rw [getAt, findRec_serving h]
  rfl

end

end PaddockKV.Engine
