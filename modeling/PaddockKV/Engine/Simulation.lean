import PaddockKV.Engine.Directory
import PaddockKV.Engine.Faultless
import PaddockKV.Wal.Torn

/-!
# The engine and the store

`Simulates` says that the files are those of the store, and so are the sources and
the counters of the database. Without failing file operations every call takes the
database from a store to the next. After an append that failed the database still
`Mirrors` the store.
-/

namespace PaddockKV.Engine

open Io Wal Memtable Sstable Crypto History

/-- The database and its directory are those of the store. -/
structure Simulates (prims : Primitives) (e : Env) (s : Store) : Prop where
  dir : Directory prims e.db.config e.world.disk s
  active : e.db.state.activeMemtable.recs = sortedRecs s.active
  queue : List.Forall₂ (fun im x => im.walSegmentId = x.1 ∧ im.memtable.recs = sortedRecs x.2)
    e.db.state.immutableMemtables s.queue
  tables : List.Forall₂ (fun sst x => sst.id = x.1 ∧ Serves prims sst.reader (blocksOf x.2))
    e.db.state.sstables s.tables
  walId : e.db.ctx.walSegmentId = s.walId
  next : e.db.ctx.nextFileNumber = s.next
  seqno : e.db.seqno = s.seqno
  -- the open segment, as its writer counts it
  writer : ∃ firstSeqno views h, firstSeqno < u64Size ∧ (s.walId, h) ∈ s.wals ∧
    List.Forall₂ Encodes views h ∧ e.db.ctx.wal.file = .wal s.walId ∧
    Holds (walEnv e) (SegmentHeader.newSigned s.walId firstSeqno) views
  tables_lt : ∀ x ∈ s.tables, x.1 < s.next
  wals_lt : ∀ x ∈ s.wals, x.1 < s.next
  queue_lt : ∀ x ∈ s.queue, x.1 < s.walId
  queue_sorted : (s.queue.map Prod.fst).Pairwise (· > ·)
  walId_lt : s.walId < s.next
  active_seqnos : ∀ c ∈ s.active, c.1 < u64Size
  queue_seqnos : ∀ x ∈ s.queue, ∀ c ∈ x.2, c.1 < u64Size
  faults : e.world.faults = []

/-- The sources of reads are those of the store. -/
structure Serving (prims : Primitives) (state : EngineState) (s : Store) : Prop where
  active : state.activeMemtable.recs = sortedRecs s.active
  queue : List.Forall₂ (fun im x => im.walSegmentId = x.1 ∧ im.memtable.recs = sortedRecs x.2)
    state.immutableMemtables s.queue
  tables : List.Forall₂ (fun sst x => sst.id = x.1 ∧ Serves prims sst.reader (blocksOf x.2))
    state.sstables s.tables

/-- As `Simulates`, but the open segment may end in what a failed append left. -/
structure Mirrors (prims : Primitives) (e : Env) (s : Store) : Prop
    extends Serving prims e.db.state s where
  dir : Directory prims e.db.config e.world.disk s
  walId : e.db.ctx.walSegmentId = s.walId
  next : e.db.ctx.nextFileNumber = s.next
  seqno : e.db.seqno = s.seqno
  file : e.db.ctx.wal.file = .wal s.walId
  segment : ∃ h, (s.walId, h) ∈ s.wals
  tables_lt : ∀ x ∈ s.tables, x.1 < s.next
  wals_lt : ∀ x ∈ s.wals, x.1 < s.next
  queue_lt : ∀ x ∈ s.queue, x.1 < s.walId
  queue_sorted : (s.queue.map Prod.fst).Pairwise (· > ·)
  walId_lt : s.walId < s.next
  active_seqnos : ∀ c ∈ s.active, c.1 < u64Size
  queue_seqnos : ∀ x ∈ s.queue, ∀ c ∈ x.2, c.1 < u64Size
  faults : e.world.faults = []

/-- A call that left the open segment and its writer alone. -/
structure SameSegment (e e' : Env) (s s' : Store) : Prop where
  wal : e'.db.ctx.wal = e.db.ctx.wal
  disk : e'.world.disk (.wal s.walId) = e.world.disk (.wal s.walId)
  walId : s'.walId = s.walId
  mem : ∀ h, (s.walId, h) ∈ s.wals → (s.walId, h) ∈ s'.wals

theorem Holds.of_disk {t t' : WalEnv} {header : SegmentHeader} {views : List RecordView}
    (h : Holds t header views) (hwriter : t'.writer = t.writer)
    (hdisk : t'.world.disk t.writer.file = t.world.disk t.writer.file) : Holds t' header views := by
  obtain ⟨hbytes, hle, hoff, hcount⟩ := h
  refine ⟨?_, hwriter ▸ hle, hwriter ▸ hoff, hwriter ▸ hcount⟩
  rw [hwriter, hdisk]
  exact hbytes

section Mirrors

variable {prims : Primitives} {e e' : Env} {s s' : Store}

theorem Simulates.mirrors (h : Simulates prims e s) : Mirrors prims e s := by
  obtain ⟨-, -, hist, -, hmem, -, hfile, -⟩ := h.writer
  exact { h with file := hfile, segment := ⟨hist, hmem⟩ }

theorem Simulates.serving (h : Simulates prims e s) : Serving prims e.db.state s :=
  h.mirrors.toServing

theorem Simulates.of_mirrors (h : Simulates prims e s) (hm : Mirrors prims e' s')
    (hsame : SameSegment e e' s s') : Simulates prims e' s' := by
  obtain ⟨firstSeqno, views, hist, hfs, hmem, henc, hfile, hholds⟩ := h.writer
  refine { hm with writer := ⟨firstSeqno, views, hist, hfs, ?_, henc, hm.file, ?_⟩ }
  · rw [hsame.walId]
    exact hsame.mem hist hmem
  · rw [hsame.walId]
    refine Holds.of_disk hholds hsame.wal ?_
    show e'.world.disk e.db.ctx.wal.file = e.world.disk e.db.ctx.wal.file
    rw [hfile]
    exact hsame.disk

end Mirrors

theorem forall₂_filter {α β : Type} {R : α → β → Prop} {p : α → Bool} {q : β → Bool} {as : List α}
    {bs : List β} (h : List.Forall₂ R as bs) (hpq : ∀ a b, R a b → p a = q b) :
    List.Forall₂ R (as.filter p) (bs.filter q) := by
  induction h with
  | nil => exact .nil
  | @cons a b as bs hab _ ih =>
    rw [List.filter_cons, List.filter_cons, hpq a b hab]
    split
    · exact .cons hab ih
    · exact ih

/-! ### Commits -/

section Steps

variable {prims : Primitives} {e : Env} {s : Store}

theorem walSync_nil {t : WalEnv} (h : t.world.faults = []) :
    SegmentWriter.sync t = .ok () { t with world := t.world.call (.sync t.writer.file) } := by
  have hrun : Io.sync t.writer.file t.world = .ok () (t.world.call (.sync t.writer.file)) :=
    perform_nil _ _ _ h
  unfold SegmentWriter.sync
  rw [act_bind, show (get : Act WalEnv WalEnv) t = .ok t t from rfl]
  exact act_zoom_ok hrun

theorem logged_holds {batch : WriteBatch} {encoded : Bytes} {t : WalEnv} {header : SegmentHeader}
    {views : List RecordView} (hlog : Logged batch e encoded t) (hfaults : e.world.faults = [])
    (hholds : Holds (walEnv e) header views) :
    Holds t header (views ++ [⟨e.db.seqno + 1, encoded⟩]) := by
  obtain ⟨-, -, start, t₁, happ, hsync⟩ := hlog
  obtain ⟨hholds₁, -, hf₁⟩ :=
    (SegmentWriter.appendRecord_holds _ _ hholds hfaults).of_ok happ
  rw [walSync_nil hf₁] at hsync
  cases hsync
  obtain ⟨sync, hbytes⟩ := hholds₁.bytes
  refine ⟨⟨true, ?_⟩, hholds₁.offset_le, hholds₁.offset, hholds₁.counted⟩
  show (t₁.world.call (.sync t₁.writer.file)).disk t₁.writer.file = _
  rw [World.disk_call, Disk.apply, Function.update_self, hbytes]
  rfl

theorem Mirrors.applied {batch : WriteBatch} {t : WalEnv} {m : SkipList} (bytes : ℕ)
    (h : Mirrors prims e s) (hdir : Directory prims e.db.config t.world.disk (s.commit batch))
    (hm : applyBatchToMemtable e.db.state.activeMemtable (e.db.seqno + 1) batch = .ok m)
    (hseq : e.db.seqno + 1 < u64Size) (hfile : t.writer.file = e.db.ctx.wal.file)
    (hf : t.world.faults = []) : Mirrors prims (applied e t m bytes) (s.commit batch) := by
  rw [h.seqno] at hm hseq
  obtain ⟨hist, hmem⟩ := h.segment
  constructor
  · exact ⟨recs_apply h.active hm, h.queue, h.tables⟩
  · exact hdir
  · exact h.walId
  · exact h.next
  · show e.db.seqno + 1 = s.seqno + 1
    rw [h.seqno]
  · exact hfile.trans h.file
  · exact ⟨_, mem_update_self (· ++ [(s.seqno + 1, batch)]) hmem⟩
  · exact h.tables_lt
  · intro x hx
    have hx' : x.1 ∈ (s.commit batch).wals.map Prod.fst := List.mem_map_of_mem hx
    rw [show (s.commit batch).wals.map Prod.fst = s.wals.map Prod.fst from
      map_fst_update s.walId (· ++ [(s.seqno + 1, batch)]) s.wals] at hx'
    obtain ⟨y, hy, heq⟩ := List.mem_map.mp hx'
    exact heq ▸ h.wals_lt y hy
  · exact h.queue_lt
  · exact h.queue_sorted
  · exact h.walId_lt
  · intro c hc
    rcases List.mem_append.mp hc with hc | hc
    · exact h.active_seqnos c hc
    · rw [List.mem_singleton.mp hc]
      exact hseq
  · exact h.queue_seqnos
  · exact hf

/-- The open segment holds the commits of the store, and its writer stands behind
them. -/
def TidySegment (e : Env) (s : Store) : Prop :=
  ∃ firstSeqno views hist, firstSeqno < u64Size ∧ (s.walId, hist) ∈ s.wals ∧
    List.Forall₂ Encodes views hist ∧ e.db.ctx.wal.file = .wal s.walId ∧
    Tidy (walEnv e) (SegmentHeader.newSigned s.walId firstSeqno) views

theorem Simulates.tidySegment (h : Simulates prims e s) : TidySegment e s := by
  obtain ⟨firstSeqno, views, hist, hfs, hmem, henc, hfile, hholds⟩ := h.writer
  exact ⟨firstSeqno, views, hist, hfs, hmem, henc, hfile, hholds.tidy⟩

theorem TidySegment.offset_le (h : TidySegment e s) : e.db.ctx.wal.blockOffset ≤ blockSize := by
  obtain ⟨-, -, -, -, -, -, -, -, -, -, -, hle, -⟩ := h
  exact hle

theorem Directory.appended {config : DbConfig} {batch : WriteBatch} {encoded p : Bytes}
    {evs : List VfsCall} (hd : Directory prims config e.world.disk s) (htidy : TidySegment e s)
    (hencode : encode batch = .ok encoded) (hseq : s.seqno + 1 < u64Size)
    (happ : Appends (.wal s.walId) evs p)
    (hp : p <+: recordBytes e.db.ctx.wal.blockOffset (s.seqno + 1) encoded) :
    p = recordBytes e.db.ctx.wal.blockOffset (s.seqno + 1) encoded ∧
        Directory prims config (diskOf (evs ++ e.world.log)) (s.commit batch) ∨
      p ≠ recordBytes e.db.ctx.wal.blockOffset (s.seqno + 1) encoded ∧
        Directory prims config (diskOf (evs ++ e.world.log)) s := by
  obtain ⟨firstSeqno, views, hist, hfs, hmem, henc, hfile, pad, sync, hpad, hbytes, hle, hoff⟩ := htidy
  have hdisk : diskOf e.world.log (.wal s.walId) = some _ := hfile ▸ hbytes
  obtain ⟨sync', -, hupdate⟩ := diskOf_appends happ hdisk
  have hrecord := recordBytes_padded hle hpad hoff (s.seqno + 1) encoded
  rw [hupdate, List.append_assoc, List.append_assoc]
  by_cases hwhole : p = recordBytes e.db.ctx.wal.blockOffset (s.seqno + 1) encoded
  · refine .inl ⟨hwhole, ?_⟩
    have henc' : List.Forall₂ Encodes (views ++ [⟨s.seqno + 1, encoded⟩])
        (hist ++ [(s.seqno + 1, batch)]) :=
      List.rel_append henc (.cons ⟨rfl, hencode⟩ .nil)
    have hsegment := segmentFile_layout s.walId hfs henc'
      (hd.commit_seqnos hmem hseq batch)
    rw [layout_snoc, hrecord, show recordBytes (walEnv e).writer.blockOffset _ _ = p from
      hwhole.symm] at hsegment
    exact hd.commit sync' hmem hseq hsegment
  · refine .inr ⟨hwhole, ?_⟩
    have hviews : ∀ v ∈ views, v.seqno < u64Size := by
      intro v hv
      obtain ⟨c, hc, hvc⟩ := forall₂_exists_right henc hv
      rw [hvc.1]
      exact hd.wal_seqnos _ hmem c hc
    have hp' : zeros pad ++ p <+:
        recordBytes ((layout 0 views).length % blockSize) (s.seqno + 1) encoded := by
      rw [hrecord]
      exact (List.prefix_append_right_inj _).mpr hp
    obtain ⟨vs, out, rfl | ⟨hfull, -⟩, hreads⟩ :=
      reads_leaves (SegmentHeader.newSigned s.walId firstSeqno) hp' hviews hseq
    · have hdir := hd.write_wal hmem sync' id rfl ⟨firstSeqno, vs, _, out, hfs, henc, rfl, hreads⟩
        (hd.wal_seqnos _ hmem)
      have hsame : (s.wals.map fun x => if x.1 = s.walId then (x.1, id x.2) else x) = s.wals := by
        simp
      rwa [hsame] at hdir
    · rw [hrecord] at hfull
      exact absurd (List.append_cancel_left hfull) hwhole

theorem logged_directory {batch : WriteBatch} {encoded : Bytes} {t : WalEnv}
    (hlog : Logged batch e encoded t) (h : Mirrors prims e s) (htidy : TidySegment e s) :
    Directory prims e.db.config t.world.disk (s.commit batch) ∧
      t.writer.file = e.db.ctx.wal.file ∧ t.world.faults = [] := by
  obtain ⟨hencode, hseq, start, t₁, happ, hsync⟩ := hlog
  have hle := htidy.offset_le
  obtain ⟨happended, hf₁⟩ := (Ends.and (SegmentWriter.appendRecord_ends _ _ _ hle)
    (panics_appendRecord _ _ (walEnv e) h.faults)).of_ok happ
  obtain ⟨hfile₁, evs, hevs, hlog₁⟩ := happended.wrote
  rw [walSync_nil hf₁] at hsync
  cases hsync
  refine ⟨?_, hfile₁, hf₁⟩
  rw [h.seqno] at hseq hevs
  rw [show (walEnv e).writer.file = .wal s.walId from h.file] at hevs
  rcases h.dir.appended htidy hencode hseq hevs List.prefix_rfl with ⟨-, hdir⟩ | ⟨hne, -⟩
  · refine Directory.of_bytes hdir fun name => ?_
    show (diskOf (.sync _ :: t₁.world.log) name).map _ = _
    rw [diskOf_sync, hlog₁]
    rfl
  · exact absurd rfl hne

theorem commitHead_mirrors (batch : WriteBatch) (h : Mirrors prims e s) (htidy : TidySegment e s) :
    Ends (commitHead batch) e
      (fun _ e' => Mirrors prims e' (s.commit batch) ∧
        (Simulates prims e s → Simulates prims e' (s.commit batch)))
      fun f _ => Panicked f := by
  have hpanic : ∀ q payload, Ends (SegmentWriter.appendRecord q payload) (walEnv e)
      (fun _ t => t.world.faults = []) fun f _ => Panicked f :=
    fun q payload => panics_appendRecord q payload (walEnv e) h.faults
  refine Ends.mono (commitHead_ends batch e) ?_ ?_
  · rintro full _ ⟨encoded, t, m, hlog, hm, rfl, -⟩
    obtain ⟨hdir, hfile', hf'⟩ := logged_directory hlog h htidy
    have hmirrors := h.applied (e.db.ctx.activeMemtableBytes + encoded.length) hdir hm hlog.2.1
      hfile' hf'
    refine ⟨hmirrors, ?_⟩
    intro hsim
    obtain ⟨firstSeqno, views, hist, hfs, hmem, henc, hfile, hholds⟩ := hsim.writer
    have hholds' := logged_holds hlog h.faults hholds
    have henc' : List.Forall₂ Encodes (views ++ [⟨s.seqno + 1, encoded⟩])
        (hist ++ [(s.seqno + 1, batch)]) :=
      List.rel_append henc (.cons ⟨rfl, hlog.1⟩ .nil)
    rw [h.seqno] at hholds'
    exact { hmirrors with writer := ⟨firstSeqno, _, _, hfs,
      mem_update_self (· ++ [(s.seqno + 1, batch)]) hmem, henc', hmirrors.file, hholds'⟩ }
  · intro f e' hstop
    cases hstop with
    | before _ => exact ⟨_, rfl⟩
    | append _ happ => exact (hpanic _ _).of_error happ
    | sync _ happ hsync =>
      exact (panics_walSync _ ((hpanic _ _).of_ok happ)).of_error hsync
    | after _ _ => exact ⟨_, rfl⟩

theorem commitHead_simulates (batch : WriteBatch) (h : Simulates prims e s) :
    Ends (commitHead batch) e (fun _ e' => Simulates prims e' (s.commit batch))
      fun f _ => Panicked f :=
  Ends.mono (commitHead_mirrors batch h.mirrors h.tidySegment) (fun _ _ hdone => hdone.2 h)
    fun _ _ hstop => hstop

/-! ### Rotation -/

theorem segmentMade_holds {w w' : World} {id firstSeqno : ℕ} (hnew : w.disk (.wal id) = none)
    (h : SegmentMade id firstSeqno w.log w'.log) :
    Holds ⟨⟨.wal id, 0, 0⟩, w'⟩ (SegmentHeader.newSigned id firstSeqno) [] ∧
    w'.disk = Function.update w.disk (.wal id)
      (some ⟨(SegmentHeader.newSigned id firstSeqno).asBytes, false⟩) := by
  unfold SegmentMade at h
  generalize SegmentHeader.newSigned id firstSeqno = header at h ⊢
  have hd : w'.disk = Function.update w.disk (.wal id) (some ⟨header.asBytes, false⟩) := by
    generalize header.asBytes = bytes at h ⊢
    unfold World.disk at hnew ⊢
    rw [h, diskOf_cons, diskOf_cons, Disk.apply, Disk.apply, hnew, Function.update_self,
      Function.update_idem, Option.getD_none, Option.map_some, List.nil_append]
  refine ⟨⟨⟨false, ?_⟩, Nat.zero_le _, rfl, rfl⟩, hd⟩
  show w'.disk (.wal id) = _
  rw [hd, Function.update_self, layout, List.append_nil]

theorem wal_next_none (h : Mirrors prims e s) : e.world.disk (.wal s.next) = none := by
  refine h.dir.wal_none ?_
  intro hmem
  obtain ⟨x, hx, heq⟩ := List.mem_map.mp hmem
  exact absurd (h.wals_lt x hx) (by omega)

theorem Serving.queueActive (h : Serving prims e.db.state s)
    (hid : e.db.ctx.walSegmentId = s.walId) :
    Serving prims (queueActive e).db.state s.rotate :=
  ⟨rfl, .cons ⟨hid, h.active⟩ h.queue, h.tables⟩

theorem rotate_simulates (h : Mirrors prims e s) :
    Ends rotateMemtableLocked e (fun _ e' => Simulates prims e' s.rotate) fun f _ => Panicked f := by
  refine Ends.mono (rotateMemtableLocked_ends e) ?_ ?_
  · rintro - e' ⟨hdb, hnum, hseq, hmade, hf⟩
    rw [h.next] at hmade hnum
    rw [h.seqno] at hmade hseq
    obtain ⟨hholds, hdisk⟩ := segmentMade_holds (wal_next_none h) hmade
    have hdir := h.dir.open_wal false h.wals_lt (by omega : s.next < u64Size) hseq
    rw [← hdisk] at hdir
    have hctx : e'.db.ctx = ⟨⟨.wal s.next, 0, 0⟩, s.next, 0, s.next + 1⟩ := by
      rw [hdb, ← h.next]
      rfl
    have hserving : Serving prims e'.db.state s.rotate := by
      rw [hdb]
      exact h.toServing.queueActive h.walId
    constructor
    · have hconfig : e'.db.config = e.db.config := by rw [hdb]; rfl
      rw [hconfig]
      exact { hdir with }
    · exact hserving.active
    · exact hserving.queue
    · exact hserving.tables
    · rw [hctx]
      rfl
    · rw [hctx]
      rfl
    · rw [hdb]
      exact h.seqno
    · refine ⟨s.seqno + 1, [], [], hseq, List.mem_append_right _ (List.mem_singleton_self _), .nil,
        ?_, ?_⟩
      · rw [hctx]
        rfl
      · have hwal : walEnv e' = ⟨⟨.wal s.next, 0, 0⟩, e'.world⟩ := by
          unfold walEnv
          rw [hctx]
        rw [hwal]
        exact hholds
    · intro x hx
      exact (h.tables_lt x hx).trans (Nat.lt_succ_self _)
    · intro x hx
      rcases List.mem_append.mp hx with hx | hx
      · exact (h.wals_lt x hx).trans (Nat.lt_succ_self _)
      · rw [List.mem_singleton.mp hx]
        exact Nat.lt_succ_self _
    · intro x hx
      rcases List.mem_cons.mp hx with rfl | hx
      · exact h.walId_lt
      · exact (h.queue_lt x hx).trans h.walId_lt
    · refine List.pairwise_cons.mpr ⟨?_, h.queue_sorted⟩
      intro n hn
      obtain ⟨x, hx, rfl⟩ := List.mem_map.mp hn
      exact h.queue_lt x hx
    · exact Nat.lt_succ_self _
    · intro c hc
      cases hc
    · intro x hx
      rcases List.mem_cons.mp hx with rfl | hx
      · exact h.active_seqnos
      · exact h.queue_seqnos x hx
    · exact hf h.faults
  · intro f e' hstop
    rcases hstop.cause with ⟨-, hne⟩ | ⟨hpanic, -⟩
    · exact absurd h.faults hne
    · exact hpanic

/-! ### Flushing -/

theorem removed_disk {names : List FileName} {w w' : World} (h : Removed names w w')
    (hf : w.faults = []) :
    w'.faults = [] ∧ w'.log = (names.map VfsCall.remove).reverse ++ w.log := by
  obtain ⟨gone, -, hlog, hall⟩ := h
  obtain ⟨rfl, hf'⟩ := hall hf
  exact ⟨hf', hlog⟩

theorem records_lt {h : History} (hseq : ∀ c ∈ h, c.1 < u64Size) :
    ∀ r ∈ sortedRecs h, r.seqno < u64Size := by
  intro r hr
  obtain ⟨c, hc, op, -, rfl⟩ := mem_records.mp (mem_sortedRecs.mp hr)
  rw [toRec_seqno]
  exact hseq c hc

theorem sst_next_none (h : Mirrors prims e s) : e.world.disk (.sst s.next) = none := by
  refine h.dir.sst_none ?_
  intro hmem
  obtain ⟨x, hx, heq⟩ := List.mem_map.mp hmem
  exact absurd (h.tables_lt x hx) (by omega)

theorem flush_directory {im : ImmutableMemtable} {x : ℕ × History} {w₁ w₂ w' : World}
    (h : Mirrors prims e s) (hid : im.walSegmentId = x.1) (hseq : ∀ c ∈ x.2, c.1 < u64Size)
    (hmade : TableMade prims (e.db.config.cryptoFor prims s.next) (.sst s.next) e.world w₁
      (blocksOf x.2)) (hlog : w₂.log = w₁.log) (hf : w₂.faults = [])
    (hremoved : Removed (fedBy im) w₂ w') :
    Directory prims e.db.config w'.disk (s.flushOne x) ∧ w'.faults = [] ∧
      ∀ n, n ≠ x.1 → w'.disk (.wal n) = e.world.disk (.wal n) := by
  obtain ⟨file, sync, hdisk₁, hfile⟩ := disk_made hmade (sst_next_none h)
  have hdir := h.dir.make_table sync h.tables_lt hfile hseq
  rw [← hdisk₁] at hdir
  obtain ⟨hf', hlog'⟩ := removed_disk hremoved hf
  by_cases hzero : im.walSegmentId = 0
  · rw [fedBy, if_neg (not_not.mpr hzero)] at hlog'
    have hd : w'.disk = w₁.disk := congrArg diskOf (hlog'.trans hlog)
    refine ⟨?_, hf', ?_⟩
    · rw [hd]
      have hwals : (s.flushOne x).wals = s.wals := if_neg (not_not.mpr (hid ▸ hzero))
      exact { hdir with
        wals := hwals ▸ hdir.wals
        wal_mem := hwals ▸ hdir.wal_mem
        wals_sorted := hwals ▸ hdir.wals_sorted
        ids := hwals ▸ hdir.ids
        wal_seqnos := hwals ▸ hdir.wal_seqnos }
    · intro n _
      rw [hd, hdisk₁, Function.update_of_ne (by simp)]
  · rw [fedBy, if_pos hzero] at hlog'
    have hd : w'.disk = Function.update w₁.disk (.wal x.1) none := by
      unfold World.disk
      rw [hlog', ← hid, ← hlog]
      rfl
    have hwals : (s.flushOne x).wals = s.wals.filter fun y => decide (y.1 ≠ x.1) :=
      if_pos (hid ▸ hzero)
    have hdir' := hdir.remove_wal x.1
    refine ⟨?_, hf', ?_⟩
    · rw [hd]
      exact { hdir' with
        wals := hwals ▸ hdir'.wals
        wal_mem := hwals ▸ hdir'.wal_mem
        wals_sorted := hwals ▸ hdir'.wals_sorted
        ids := hwals ▸ hdir'.ids
        wal_seqnos := hwals ▸ hdir'.wal_seqnos }
    · intro n hn
      rw [hd, Function.update_of_ne (by simpa using hn), hdisk₁, Function.update_of_ne (by simp)]

theorem mem_flushOne_wals {x y : ℕ × History} (hy : y ∈ s.wals) (hne : y.1 ≠ x.1) :
    y ∈ (s.flushOne x).wals := by
  show y ∈ if x.1 ≠ 0 then _ else _
  split
  · exact List.mem_filter.mpr ⟨hy, decide_eq_true hne⟩
  · exact hy

theorem flushOne_wals_subset {x y : ℕ × History} (hy : y ∈ (s.flushOne x).wals) : y ∈ s.wals := by
  change y ∈ if x.1 ≠ 0 then _ else _ at hy
  split at hy
  · exact List.mem_of_mem_filter hy
  · exact hy

theorem writeFlush_ends {im : ImmutableMemtable} {x : ℕ × History} (hseal : SealWorks prims)
    (h : Mirrors prims e s) (hx : x ∈ s.queue) (hrecs : im.memtable.recs = sortedRecs x.2) :
    Ends (writeFlush prims e.db im) e.world
      (fun _ w => TableMade prims (e.db.config.cryptoFor prims s.next) (.sst s.next) e.world w
        (blocksOf x.2) ∧ w.faults = [])
      fun f w => TableLeft prims (e.db.config.cryptoFor prims s.next) (.sst s.next) e.world w
        (blocksOf x.2) ∧ Panicked f := by
  have hlt : ∀ r ∈ im.memtable.recs, r.seqno < u64Size := hrecs ▸ records_lt (h.queue_seqnos x hx)
  unfold writeFlush
  rw [h.next]
  refine Ends.mono (Ends.and (writeTable_ends (sst_next_none h) hlt)
    (writeTable_panics hseal _ h.faults)) ?_ ?_
  · rintro - w ⟨⟨hmade, -⟩, hf⟩
    rw [hrecs] at hmade
    exact ⟨hmade, hf⟩
  · rintro f w ⟨⟨hleft, -⟩, hpanic⟩
    rw [hrecs] at hleft
    exact ⟨hleft, hpanic⟩

theorem flushOne_mirrors {im : ImmutableMemtable} {x : ℕ × History} (hseal : SealWorks prims)
    (h : Mirrors prims e s) (hx : x ∈ s.queue) (hid : im.walSegmentId = x.1)
    (hrecs : im.memtable.recs = sortedRecs x.2) :
    Ends (flushOne prims im) e
      (fun _ e' => Mirrors prims e' (s.flushOne x) ∧
        (Simulates prims e s → Simulates prims e' (s.flushOne x)))
      fun f _ => Panicked f := by
  have hseq := h.queue_seqnos x hx
  have hwrite := writeFlush_ends hseal h hx hrecs
  refine Ends.mono (flushOne_ends prims im e) ?_ ?_
  · rintro - e' ⟨reader, w₁, w₂, hnum, hrun, hopen, hdb, hremoved⟩
    obtain ⟨hmade, hf₁⟩ := hwrite.of_ok hrun
    rw [h.next] at hopen hnum
    obtain ⟨hlog₂, hf₂, hserves, -⟩ := (openTable_made hmade (sst_next_none h)).of_ok hopen
    obtain ⟨hdir, hf', hwal⟩ := flush_directory h hid hseq hmade hlog₂ (hf₂ hf₁) hremoved
    have hne : s.walId ≠ x.1 := (h.queue_lt x hx).ne'
    have hstate : e'.db.state = publishFlush im ⟨s.next, reader⟩ e.db.state := by
      rw [hdb, ← h.next]
      rfl
    have hctx : e'.db.ctx = { e.db.ctx with nextFileNumber := s.next + 1 } := by
      rw [hdb, ← h.next]
      rfl
    have hsame : SameSegment e e' s (s.flushOne x) := by
      refine ⟨?_, hwal _ hne, rfl, fun hist hmem => mem_flushOne_wals hmem hne⟩
      rw [hctx]
    suffices hm : Mirrors prims e' (s.flushOne x) from ⟨hm, fun hsim => hsim.of_mirrors hm hsame⟩
    constructor
    · rw [hstate]
      refine ⟨h.active, forall₂_filter h.queue ?_, .cons ⟨rfl, hserves⟩ h.tables⟩
      intro y z hyz
      rw [hyz.1, hid]
    · rw [hdb]
      exact hdir
    · rw [hctx]
      exact h.walId
    · rw [hctx]
      rfl
    · rw [hdb]
      exact h.seqno
    · rw [hctx]
      exact h.file
    · obtain ⟨hist, hmem⟩ := h.segment
      exact ⟨hist, hsame.mem hist hmem⟩
    · intro y hy
      rcases List.mem_cons.mp hy with rfl | hy
      · exact Nat.lt_succ_self _
      · exact (h.tables_lt y hy).trans (Nat.lt_succ_self _)
    · intro y hy
      exact (h.wals_lt y (flushOne_wals_subset hy)).trans (Nat.lt_succ_self _)
    · intro y hy
      exact h.queue_lt y (List.mem_of_mem_filter hy)
    · exact h.queue_sorted.sublist (List.filter_sublist.map _)
    · exact h.walId_lt.trans (Nat.lt_succ_self _)
    · exact h.active_seqnos
    · intro y hy
      exact h.queue_seqnos y (List.mem_of_mem_filter hy)
    · exact hf'
  · intro f e' hstop
    cases hstop with
    | number _ => exact ⟨_, rfl⟩
    | table hrun => exact (hwrite.of_error hrun).2
    | reader hrun hopen =>
      obtain ⟨hmade, hf₁⟩ := hwrite.of_ok hrun
      rw [h.next] at hopen
      exact absurd hf₁ ((openTable_made hmade (sst_next_none h)).of_error hopen).2

theorem flushOne_simulates {im : ImmutableMemtable} {x : ℕ × History} (hseal : SealWorks prims)
    (h : Simulates prims e s) (hx : x ∈ s.queue) (hid : im.walSegmentId = x.1)
    (hrecs : im.memtable.recs = sortedRecs x.2) :
    Ends (flushOne prims im) e (fun _ e' => Simulates prims e' (s.flushOne x))
      fun f _ => Panicked f :=
  Ends.mono (flushOne_mirrors hseal h.mirrors hx hid hrecs) (fun _ _ hdone => hdone.2 h)
    fun _ _ hstop => hstop

end Steps

end PaddockKV.Engine
