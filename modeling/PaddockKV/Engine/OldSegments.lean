import PaddockKV.Engine.Refinement

/-!
# Segments of earlier sessions

A session replays all segments it finds into one memtable. The memtable is flushed
with the segment that the session opened, and that one is unlinked: the segments it
was replayed from stay. A flush empties the log if and only if they hold nothing.
-/

namespace PaddockKV.Engine

open Io Wal Crypto History Transition

namespace Store

section

variable {t t' : Store} {x : ℕ × History}

/-- A segment that feeds no memtable of the session. -/
def Old (t : Store) (x : ℕ × History) : Prop := x ∈ t.wals ∧ ∀ y ∈ t.memtables, x.1 ≠ y.1

theorem old_iff : t.Old x ↔ x ∈ t.wals ∧ x.1 ≠ t.walId ∧ ∀ y ∈ t.queue, x.1 ≠ y.1 := by
  unfold Old memtables
  rw [List.forall_mem_cons]

theorem old_reopen : t.reopen.Old x ↔ x ∈ t.wals := by
  rw [old_iff]
  show x ∈ t.wals ++ [(t.free, [])] ∧ x.1 ≠ t.free ∧
    (∀ y ∈ ([] : List (ℕ × History)), x.1 ≠ y.1) ↔ _
  rw [List.mem_append, List.mem_singleton]
  constructor
  · rintro ⟨hx | rfl, hne, -⟩
    · exact hx
    · exact absurd rfl hne
  · intro hx
    exact ⟨.inl hx, (t.free_above.1 x hx).ne, by simp⟩

theorem old_commit (batch : WriteBatch) : (t.commit batch).Old x ↔ t.Old x := by
  rw [old_iff, old_iff]
  refine and_congr_left ?_
  rintro ⟨hne, -⟩
  -- only the open segment changes
  constructor
  · intro hx
    obtain ⟨y, hy, rfl⟩ := List.mem_map.mp hx
    split at hne
    · rename_i heq
      exact absurd heq hne
    · rename_i heq
      rw [if_neg heq]
      exact hy
  · intro hx
    exact List.mem_map.mpr ⟨x, hx, if_neg hne⟩

theorem old_rotate (h : t.WellFed) : t.rotate.Old x ↔ t.Old x := by
  rw [old_iff, old_iff]
  show x ∈ t.wals ++ [(t.next, [])] ∧ x.1 ≠ t.next ∧ (∀ y ∈ (t.walId, t.active) :: t.queue, _) ↔ _
  rw [List.mem_append, List.mem_singleton, List.forall_mem_cons]
  constructor
  · rintro ⟨hx | rfl, hne, hids⟩
    · exact ⟨hx, hids⟩
    · exact absurd rfl hne
  · rintro ⟨hx, hids⟩
    exact ⟨.inl hx, (h.wals_lt x hx).ne, hids⟩

theorem old_flushOne (h : t.WellFed) {y : ℕ × History} (hy : y ∈ t.queue) :
    (t.flushOne y).Old x ↔ t.Old x := by
  rw [old_iff, old_iff]
  show x ∈ (if y.1 ≠ 0 then t.wals.filter fun z => decide (z.1 ≠ y.1) else t.wals) ∧ x.1 ≠ t.walId ∧
    (∀ z ∈ t.queue.filter fun z => decide (z.1 ≠ y.1), x.1 ≠ z.1) ↔ _
  rw [if_pos (h.queue_pos y hy).ne']
  simp only [List.mem_filter, decide_eq_true_eq, and_imp]
  constructor
  · rintro ⟨⟨hx, hxy⟩, hne, hids⟩
    refine ⟨hx, hne, ?_⟩
    intro z hz
    by_cases hzy : z.1 = y.1
    · rw [hzy]
      exact hxy
    · exact hids z hz hzy
  · rintro ⟨hx, hne, hids⟩
    exact ⟨⟨hx, hids y hy⟩, hne, fun z hz _ => hids z hz⟩

theorem old_works (h : t.WellFed) (hworks : Works t t') :
    t'.WellFed ∧ ∀ x, t'.Old x ↔ t.Old x := by
  refine Works.invariant (I := fun t' => t'.WellFed ∧ ∀ x, t'.Old x ↔ t.Old x) ?_ hworks
    ⟨h, fun _ => Iff.rfl⟩
  rintro s s' ⟨hs, hold⟩ hwork
  refine ⟨hs.work hwork, ?_⟩
  intro x
  rw [← hold x]
  cases hwork with
  | rotate => exact old_rotate hs
  | flushOne hq => exact old_flushOne hs (by simp [hq])
  | compact => exact Iff.rfl

/-- All commits of the segment are without operations. -/
def Blank (x : ℕ × History) : Prop := ∀ c ∈ x.2, c.2 = []

theorem blank_of_records {h : History} (hnil : records h = []) : ∀ c ∈ h, c.2 = [] := by
  intro c hc
  by_contra hne
  obtain ⟨op, hop⟩ := List.exists_mem_of_ne_nil c.2 hne
  have hr := mem_records.mpr ⟨c, hc, op, hop, rfl⟩
  rw [hnil] at hr
  cases hr

theorem blank_flushed (h : t.WellFed) (hworks : Works t t') (hqueue : t'.queue = [])
    (hactive : records t'.active = []) :
    (∀ x ∈ t'.wals, Blank x) ↔ ∀ x, t.Old x → Blank x := by
  obtain ⟨hfed, hold⟩ := old_works h hworks
  constructor
  · intro hall x hx
    exact hall x ((hold x).mpr hx).1
  · intro hall x hx
    by_cases hid : x.1 = t'.walId
    · intro c hc
      exact blank_of_records hactive c (hfed.active x hx hid c hc)
    · refine hall x ((hold x).mp (old_iff.mpr ⟨hx, hid, ?_⟩))
      rw [hqueue]
      intro y hy
      cases hy

end

end Store

/-- The segment is replayed to batches without operations. -/
def Drained (d : Disk) (n : ℕ) : Prop := ∃ h, SegmentAt d n h ∧ ∀ c ∈ h, c.2 = []

/-- A segment in the directory that is neither the open one nor that of a queued
memtable. -/
def OldSegment (s : Sys) (db : Db) (n : ℕ) : Prop :=
  (diskOf s.log (.wal n)).isSome = true ∧ n ≠ db.ctx.walSegmentId ∧
    ∀ im ∈ db.state.immutableMemtables, n ≠ im.walSegmentId

section

variable {prims : Primitives} {config : DbConfig} {d : Disk} {t : Store} {s s' : Sys} {db : Db}
  {key : Option Bytes}

theorem wal_isSome_iff (hd : Directory prims config d t) (n : ℕ) :
    (d (.wal n)).isSome = true ↔ ∃ x ∈ t.wals, x.1 = n := by
  constructor
  · intro hsome
    exact List.mem_map.mp (hd.wal_mem n hsome)
  · rintro ⟨x, hx, rfl⟩
    obtain ⟨file, sync, hdisk, -⟩ := hd.wals x hx
    rw [hdisk]
    rfl

theorem drained_iff (hd : Directory prims config d t) {x : ℕ × History} (hx : x ∈ t.wals) :
    Drained d x.1 ↔ Store.Blank x := by
  constructor
  · rintro ⟨h, hat, hblank⟩
    rw [((segmentAt_iff hd hx).mp hat).1] at hblank
    exact hblank
  · intro hblank
    refine ⟨x.2, (segmentAt_iff hd hx).mpr ⟨rfl, ?_⟩, hblank⟩
    intro c hc
    rw [hblank c hc]
    exact Nat.zero_le _

theorem forall_drained_iff (hd : Directory prims config d t) {p : ℕ × History → Prop}
    (hp : ∀ x, p x → x ∈ t.wals) :
    (∀ n, (∃ x, p x ∧ x.1 = n) → Drained d n) ↔ ∀ x, p x → Store.Blank x := by
  constructor
  · intro hall x hx
    exact (drained_iff hd (hp x hx)).mp (hall x.1 ⟨x, hx, rfl⟩)
  · rintro hall n ⟨x, hx, rfl⟩
    exact (drained_iff hd (hp x hx)).mpr (hall x hx)

theorem oldSegment_iff (h : Simulates prims ⟨db, ⟨s.log, []⟩⟩ t) (n : ℕ) :
    OldSegment s db n ↔ ∃ x, t.Old x ∧ x.1 = n := by
  have hqueue : (∀ im ∈ db.state.immutableMemtables, n ≠ im.walSegmentId) ↔
      ∀ y ∈ t.queue, n ≠ y.1 := by
    constructor
    · intro hims y hy
      obtain ⟨im, him, hid, -⟩ := forall₂_exists_left h.queue hy
      rw [← hid]
      exact hims im him
    · intro hys im him
      obtain ⟨y, hy, hid, -⟩ := forall₂_exists_right h.queue him
      rw [hid]
      exact hys y hy
  unfold OldSegment
  rw [show (diskOf s.log (.wal n)).isSome = true ↔ _ from wal_isSome_iff h.dir n, hqueue,
    show db.ctx.walSegmentId = t.walId from h.walId]
  constructor
  · rintro ⟨⟨x, hx, rfl⟩, hne, hids⟩
    exact ⟨x, Store.old_iff.mpr ⟨hx, hne, hids⟩, rfl⟩
  · rintro ⟨x, hold, rfl⟩
    obtain ⟨hx, hne, hids⟩ := Store.old_iff.mp hold
    exact ⟨⟨x, hx, rfl⟩, hne, hids⟩

theorem flush_moves {acked acked' : History} {t' : Store}
    (h : Moves acked t (.call .flush []) acked' t') :
    Store.Works t t' ∧ t'.queue = [] ∧ records t'.active = [] := by
  cases h with
  | flushed hworks hqueue hactive => exact ⟨hworks, hqueue, hactive⟩

/-- In any run without failures, a `flush` leaves a log without operations if and only
if the segments of earlier sessions have none when it is called. -/
theorem flush_drains_iff (hseal : SealWorks prims)
    (h : Reach (Sys.next prims) (Quiet key) Sys.start s) (hdb : s.db = some db)
    (hn : s.next prims (.call .flush []) = some s') :
    (∀ n, (diskOf s'.log (.wal n)).isSome = true → Drained (diskOf s'.log) n) ↔
      ∀ n, OldSegment s db n → Drained (diskOf s.log) n := by
  obtain ⟨t, hmodels, hkept⟩ := reach_kept hseal h
  obtain ⟨-, hsim⟩ := hmodels.opened db hdb
  have hdir : Directory prims db.config (diskOf s.log) t := hsim.dir
  obtain ⟨t', hmodels', hmoves⟩ := step_moves (a := .call .flush []) hseal rfl hmodels hn
  have hdir' : ∃ config : DbConfig, Directory prims config (diskOf s'.log) t' := by
    cases hdb' : s'.db with
    | none => exact ⟨{ DbConfig.default with masterKey := key }, hmodels'.closed hdb' _ rfl⟩
    | some db' => exact ⟨db'.config, (hmodels'.opened db' hdb').2.dir⟩
  obtain ⟨config, hdir'⟩ := hdir'
  obtain ⟨hworks, hqueue, hactive⟩ := flush_moves hmoves
  simp only [wal_isSome_iff hdir', oldSegment_iff hsim]
  rw [forall_drained_iff hdir' fun _ hx => hx, forall_drained_iff hdir fun _ hx => hx.1]
  exact Store.blank_flushed hkept.fed hworks hqueue hactive

end

section Runs

set_option maxRecDepth 100000

theorem flush_drains_iff_put : ∃ s s' db,
    Reach (Sys.next .blank) (Quiet none) Sys.start s ∧ s.db = some db ∧
      s.acked = [(1, [.put [1] [2]])] ∧ s.next .blank (.call .flush []) = some s' ∧
      ((∀ n, (diskOf s'.log (.wal n)).isSome = true → Drained (diskOf s'.log) n) ↔
        ∀ n, OldSegment s db n → Drained (diskOf s.log) n) := by
  obtain ⟨s, hreach, hs⟩ := reach_of_runDecided
    (show (runOk (Sys.next .blank) (fun s a => decide (Quiet none s a)) Sys.start
      [.openDb .default [], .call (.commit [.put [1] [2]]) []]).map
      (fun s => decide (s.db.isSome = true ∧ s.acked = [(1, [.put [1] [2]])] ∧
        (s.next .blank (.call .flush [])).isSome = true)) = some true by
      decide +kernel)
  obtain ⟨hopen, hacked, hflush⟩ := of_decide_eq_true hs
  obtain ⟨db, hdb⟩ := Option.isSome_iff_exists.mp hopen
  obtain ⟨s', hn⟩ := Option.isSome_iff_exists.mp hflush
  exact ⟨s, s', db, hreach, hdb, hacked, hn, flush_drains_iff sealWorks_blank hreach hdb hn⟩

theorem segmentFile_put : SegmentFile 1 [(1, [.put [1] [2]])]
    ((SegmentHeader.newSigned 1 1).asBytes ++ layout 0 [⟨1, [1, 0, 1, 1, 1, 2]⟩]) :=
  segmentFile_layout _ (by decide) (.cons ⟨rfl, by decide⟩ .nil) (by decide)

theorem segmentAt_put {d : Disk} (h : (d (.wal 1)).map File.bytes =
    some ((SegmentHeader.newSigned 1 1).asBytes ++ layout 0 [⟨1, [1, 0, 1, 1, 1, 2]⟩])) :
    SegmentAt d 1 [(1, [.put [1] [2]])] := by
  obtain ⟨⟨file, sync⟩, hdisk, hbytes⟩ := Option.map_eq_some_iff.mp h
  have hfile : SegmentFile 1 [(1, [.put [1] [2]])] file := by
    rw [show file = _ from hbytes]
    exact segmentFile_put
  obtain ⟨hopen, views, out, henc, hreads⟩ := segmentFile_reads hfile (by decide)
  refine ⟨file, sync, hdisk, hopen, views, out, hreads, decodes_of_encodes henc ?_⟩
  intro c hc
  rw [List.mem_singleton.mp hc]
  decide

-- the put was replayed from the first segment, flushed, and is still in that segment
theorem flush_leaves_segment : ∃ s,
    run (Sys.next .blank) Sys.start
      [.openDb .default [], .call (.commit [.put [1] [2]]) [], .drop, .openDb .default [],
        .call .flush []] = some s ∧
      SegmentAt (diskOf s.log) 1 [(1, [.put [1] [2]])] := by
  have hrun : (run (Sys.next .blank) Sys.start
      [.openDb .default [], .call (.commit [.put [1] [2]]) [], .drop, .openDb .default [],
        .call .flush []]).map (fun s => decide ((diskOf s.log (.wal 1)).map File.bytes =
          some ((SegmentHeader.newSigned 1 1).asBytes ++ layout 0 [⟨1, [1, 0, 1, 1, 1, 2]⟩]))) =
      some true := by
    decide +kernel
  obtain ⟨s, hs, heq⟩ := Option.map_eq_some_iff.mp hrun
  exact ⟨s, hs, segmentAt_put (of_decide_eq_true heq)⟩

end Runs

end PaddockKV.Engine
