import PaddockKV.Engine.Simulation

/-!
# Sessions without failing file operations

Compactions, whole flushes and openings keep the simulation of `Simulation`, so
every run of sessions is one of the store.
-/

namespace PaddockKV.Engine

open Io Wal Memtable Sstable Crypto Compaction History

/-! ### Compaction -/

theorem merged_blocksOf (tables : List (ℕ × History)) :
    merged (tables.map fun x => blocksOf x.2) = sortedRecs (Store.oldestFirst tables) := by
  have hblocks : (tables.map fun x => blocksOf x.2).map List.flatten =
      (tables.map Prod.snd).map sortedRecs := by
    rw [List.map_map, List.map_map]
    exact List.map_congr_left fun x _ => blocksOf_flatten x.2
  rw [merged, hblocks, isort_sortedRecs]
  rfl

theorem diskOf_removes (names : List FileName) (log : List VfsCall) (name : FileName) :
    diskOf ((names.map VfsCall.remove).reverse ++ log) name =
      if name ∈ names then none else diskOf log name := by
  induction names using List.reverseRecOn with
  | nil => rfl
  | append_singleton names x ih =>
    rw [List.map_append, List.map_singleton, List.reverse_append, List.reverse_singleton,
      List.append_assoc, List.singleton_append, diskOf_cons, Disk.apply]
    by_cases hx : name = x
    · rw [hx, Function.update_self, if_pos (by simp)]
    · rw [Function.update_of_ne hx, ih]
      simp [hx]

section Steps

variable {prims : Primitives} {e : Env} {s : Store}

theorem serves_tables {state : EngineState} (h : Serving prims state s) :
    List.Forall₂ (Serves prims) (state.sstables.map LiveSst.reader)
      (s.tables.map fun x => blocksOf x.2) := by
  rw [List.forall₂_map_left_iff, List.forall₂_map_right_iff]
  exact h.tables.imp fun _ _ hx => hx.2

theorem tables_sortedRecs (s : Store) :
    ∀ t ∈ s.tables.map (fun x => blocksOf x.2), SortedRecs t.flatten := by
  intro t ht
  obtain ⟨x, -, rfl⟩ := List.mem_map.mp ht
  rw [blocksOf_flatten]
  exact sortedRecs_sorted x.2

theorem tables_seqnos {d : Disk} {config : DbConfig} (hd : Directory prims config d s) :
    ∀ t ∈ s.tables.map (fun x => blocksOf x.2), ∀ r ∈ t.flatten, r.seqno < u64Size := by
  intro t ht
  obtain ⟨x, hx, rfl⟩ := List.mem_map.mp ht
  rw [blocksOf_flatten]
  exact records_lt (hd.table_seqnos x hx)

theorem mergeTables_panics {config : DbConfig} {inputs : List SstReader}
    {tables : List (List (List Rec))} {id : ℕ} {wd : World} (hseal : SealWorks prims)
    (hin : List.Forall₂ (Serves prims) inputs tables)
    (hsorted : ∀ t ∈ tables, SortedRecs t.flatten) (hfaults : wd.faults = []) :
    Ends (mergeTables prims config inputs id) wd (fun _ wd' => wd'.faults = [])
      fun f _ => Panicked f := by
  unfold mergeTables
  rw [mapM_scanStream hin]
  refine Ends.lift_bind ?_ (fun _ h => by cases h)
  rintro _ ⟨⟩
  refine Ends.ok_bind (openWritable_nil _ hfaults) ?_
  have hfile : ∃ f, (wd.call (.openWritable (.sst id))).disk (.sst id) = some f := by
    rw [World.disk_call, Disk.apply, Function.update_self]
    exact ⟨_, rfl⟩
  refine Ends.bind (createInner_ready hfaults hfile) ?_ (fun _ _ h => h)
  intro w wd₁ h₁
  refine Ends.bind (mergeLoop_ready hseal (yields_merged hsorted) h₁) ?_ (fun _ _ h => h)
  intro w' wd₂ h₂
  exact finish_ready hseal h₂

theorem oldestFirst_seqnos {config : DbConfig} {d : Disk} (hd : Directory prims config d s) :
    ∀ c ∈ Store.oldestFirst s.tables, c.1 < u64Size := by
  intro c hc
  obtain ⟨h, hh, hc⟩ := List.mem_flatten.mp hc
  obtain ⟨x, hx, rfl⟩ := List.mem_map.mp (List.mem_reverse.mp hh)
  exact hd.table_seqnos x hx c hc

theorem writeCompaction_made (hseal : SealWorks prims) (h : Mirrors prims e s) :
    Ends (writeCompaction prims e.db) e.world
      (fun reader w => Serves prims reader (blocksOf (Store.oldestFirst s.tables)) ∧
        w.faults = [] ∧ ∃ w₁, w.log = w₁.log ∧
          TableMade prims (e.db.config.cryptoFor prims s.next) (.sst s.next) e.world w₁
            (blocksOf (Store.oldestFirst s.tables)))
      fun f w => TableLeft prims (e.db.config.cryptoFor prims s.next) (.sst s.next) e.world w
        (blocksOf (Store.oldestFirst s.tables)) ∧ Panicked f := by
  have hin := serves_tables h.toServing
  have hsorted := tables_sortedRecs s
  have hblocks : cutBlocks defaultBlockSize [] (merged (s.tables.map fun x => blocksOf x.2)) =
      blocksOf (Store.oldestFirst s.tables) := by
    rw [merged_blocksOf]
    rfl
  unfold writeCompaction
  rw [compactSstables_eq, h.next]
  refine Ends.bind (Ends.and (mergeTables_ends hin hsorted (tables_seqnos h.dir) (sst_next_none h))
    (mergeTables_panics hseal hin hsorted h.faults)) ?_ ?_
  · rintro - w₁ ⟨⟨hmade, -⟩, hf₁⟩
    rw [hblocks] at hmade
    refine Ends.mono (openTable_made hmade (sst_next_none h)) ?_ ?_
    · rintro reader w₂ ⟨hlog₂, hf₂, hserves, -⟩
      exact ⟨hserves, hf₂ hf₁, w₁, hlog₂, hmade⟩
    · rintro f w₂ ⟨-, hne⟩
      exact absurd hf₁ hne
  · rintro f w₁ ⟨⟨hleft, -⟩, hpanic⟩
    rw [hblocks] at hleft
    exact ⟨hleft, hpanic⟩

theorem writeCompaction_ends (hseal : SealWorks prims) (h : Mirrors prims e s) :
    Ends (writeCompaction prims e.db) e.world
      (fun reader w => Serves prims reader (blocksOf (Store.oldestFirst s.tables)) ∧
        w.faults = [] ∧ ∃ file sync, w.disk = Function.update e.world.disk (.sst s.next)
          (some ⟨file, sync⟩) ∧ TableFile prims (e.db.config.cryptoFor prims s.next) file
            (blocksOf (Store.oldestFirst s.tables)))
      fun f _ => Panicked f := by
  refine Ends.mono (writeCompaction_made hseal h) ?_ (fun _ _ hstop => hstop.2)
  rintro reader w ⟨hserves, hf, w₁, hlog, hmade⟩
  obtain ⟨file, sync, hdisk, hfile⟩ := disk_made hmade (sst_next_none h)
  refine ⟨hserves, hf, file, sync, ?_, hfile⟩
  rw [← hdisk]
  exact congrArg diskOf hlog

theorem inputs_names {ssts : List LiveSst} {tables : List (ℕ × History)}
    (h : List.Forall₂ (fun sst x => sst.id = x.1 ∧ Serves prims sst.reader (blocksOf x.2)) ssts
      tables) :
    ssts.map (fun sst => FileName.sst sst.id) = tables.map fun x => FileName.sst x.1 := by
  induction h with
  | nil => rfl
  | cons hx _ ih => rw [List.map_cons, List.map_cons, ih, hx.1]

theorem compact_directory {w w' : World} {file : Bytes} {sync : Bool} (h : Mirrors prims e s)
    (hdisk : w.disk = Function.update e.world.disk (.sst s.next) (some ⟨file, sync⟩))
    (hfile : TableFile prims (e.db.config.cryptoFor prims s.next) file
      (blocksOf (Store.oldestFirst s.tables)))
    (hremoved : Removed (e.db.state.sstables.map fun sst => .sst sst.id) w w')
    (hf : w.faults = []) :
    Directory prims e.db.config w'.disk s.compact ∧ w'.faults = [] ∧
      ∀ n, w'.disk (.wal n) = e.world.disk (.wal n) := by
  obtain ⟨hf', hlog⟩ := removed_disk hremoved hf
  have hdir := h.dir.make_table sync h.tables_lt hfile (oldestFirst_seqnos h.dir)
  rw [← hdisk] at hdir
  have hdir : Directory prims e.db.config w.disk
      { s with tables := (s.next, Store.oldestFirst s.tables) :: (s.tables ++ []) } := by
    rw [List.append_nil]
    exact hdir
  have hdisk' : ∀ name, w'.disk name =
      if name ∈ s.tables.map (fun x => FileName.sst x.1) then none else w.disk name := by
    intro name
    unfold World.disk
    rw [hlog, diskOf_removes, inputs_names h.tables]
  have hdir' : Directory prims e.db.config w'.disk
      { s with tables := [(s.next, Store.oldestFirst s.tables)] } := by
    refine hdir.remove_tables ?_ ?_
    · intro n hn
      obtain ⟨x, hx, rfl⟩ := List.mem_map.mp hn
      rw [hdisk', if_pos (List.mem_map_of_mem (f := fun x => FileName.sst x.1) hx)]
    · intro name hname
      rw [hdisk', if_neg]
      intro hmem
      obtain ⟨x, hx, rfl⟩ := List.mem_map.mp hmem
      exact hname x.1 (List.mem_map_of_mem hx) rfl
  refine ⟨{ hdir' with }, hf', ?_⟩
  · intro n
    rw [hdisk', if_neg (by simp), hdisk, Function.update_of_ne (by simp)]

theorem filter_inputs {ssts : List LiveSst} : ssts.filter
    (fun x => decide (x.id ∉ ssts.map LiveSst.id)) = [] := by
  rw [List.filter_eq_nil_iff]
  intro x hx
  simpa using ⟨x, hx, rfl⟩

theorem compactAll_mirrors (hseal : SealWorks prims) (h : Mirrors prims e s) :
    Ends (compactAll prims) e
      (fun _ e' => Mirrors prims e' (if s.tables.length < 2 then s else s.compact) ∧
        (Simulates prims e s →
          Simulates prims e' (if s.tables.length < 2 then s else s.compact)))
      fun f _ => Panicked f := by
  have hlen := h.tables.length_eq
  refine Ends.mono (compactAll_ends prims e) ?_ ?_
  · rintro - e' (⟨hfew, rfl⟩ | ⟨hmany, reader, w, hnum, hrun, hdb, hremoved⟩)
    · rw [if_pos (hlen ▸ hfew)]
      exact ⟨h, id⟩
    · rw [if_neg (by omega)]
      obtain ⟨hserves, hf, file, sync, hdisk, hfile⟩ := (writeCompaction_ends hseal h).of_ok hrun
      obtain ⟨hdir, hf', hwal⟩ := compact_directory h hdisk hfile hremoved hf
      have hstate : e'.db.state = { e.db.state with sstables := [⟨s.next, reader⟩] } := by
        rw [hdb, ← h.next]
        show publishCompaction _ _ _ = _
        unfold publishCompaction
        rw [filter_inputs]
      have hctx : e'.db.ctx = { e.db.ctx with nextFileNumber := s.next + 1 } := by
        rw [hdb, ← h.next]
        rfl
      have hsame : SameSegment e e' s s.compact := by
        refine ⟨?_, hwal _, rfl, fun _ hmem => hmem⟩
        rw [hctx]
      suffices hm : Mirrors prims e' s.compact from ⟨hm, fun hsim => hsim.of_mirrors hm hsame⟩
      constructor
      · rw [hstate]
        exact ⟨h.active, h.queue, .cons ⟨rfl, hserves⟩ .nil⟩
      · rw [hdb]
        exact hdir
      · rw [hctx]
        exact h.walId
      · rw [hctx]
        rfl
      · rw [hdb]
        exact h.seqno
      · rw [hctx]
        exact h.file
      · exact h.segment
      · intro y hy
        rw [List.mem_singleton.mp hy]
        exact Nat.lt_succ_self _
      · intro y hy
        exact (h.wals_lt y hy).trans (Nat.lt_succ_self _)
      · exact h.queue_lt
      · exact h.queue_sorted
      · exact h.walId_lt.trans (Nat.lt_succ_self _)
      · exact h.active_seqnos
      · exact h.queue_seqnos
      · exact hf'
  · intro f e' hstop
    cases hstop with
    | number _ => exact ⟨_, rfl⟩
    | table _ hrun => exact (writeCompaction_ends hseal h).of_error hrun

theorem compactAll_simulates (hseal : SealWorks prims) (h : Simulates prims e s) :
    Ends (compactAll prims) e
      (fun _ e' => Simulates prims e' (if s.tables.length < 2 then s else s.compact))
      fun f _ => Panicked f :=
  Ends.mono (compactAll_mirrors hseal h.mirrors) (fun _ _ hdone => hdone.2 h) fun _ _ hstop => hstop

/-! ### Commits and flushes -/

theorem commitBatch_mirrors (batch : WriteBatch) (h : Mirrors prims e s) (htidy : TidySegment e s) :
    Ends (commitBatch batch) e
      (fun _ e' => ∃ s', Mirrors prims e' s' ∧ (Simulates prims e s → Simulates prims e' s') ∧
        (s' = s.commit batch ∨ s' = (s.commit batch).rotate))
      fun f _ => Panicked f := by
  unfold commitBatch
  refine Ends.bind (commitHead_mirrors batch h htidy) ?_ (fun _ _ hstop => hstop)
  rintro full e₁ ⟨h₁, hsim₁⟩
  split
  · refine Ends.mono (rotate_simulates h₁) ?_ (fun _ _ hstop => hstop)
    intro _ e₂ h₂
    exact ⟨_, h₂.mirrors, fun _ => h₂, .inr rfl⟩
  · exact Ends.ret ⟨_, h₁, hsim₁, .inl rfl⟩

theorem commitBatch_rotates (batch : WriteBatch) (h : Simulates prims e s) :
    Ends (commitBatch batch) e
      (fun _ e' => ∃ s', Simulates prims e' s' ∧
        (s' = s.commit batch ∨ s' = (s.commit batch).rotate))
      fun f _ => Panicked f := by
  refine Ends.mono (commitBatch_mirrors batch h.mirrors h.tidySegment) ?_ (fun _ _ hstop => hstop)
  rintro _ e' ⟨s', -, hsim, hs'⟩
  exact ⟨s', hsim h, hs'⟩

theorem sortedRecs_eq_nil {h : History} (hs : sortedRecs h = []) : records h = [] := by
  have hlen := length_isort (records h).reverse
  rw [show isort (records h).reverse = [] from hs] at hlen
  rw [← List.reverse_eq_nil_iff, ← List.length_eq_zero_iff]
  exact hlen.symm

theorem Serving.active_nil {state : EngineState} (h : Serving prims state s)
    (hlen : state.activeMemtable.len = 0) : records s.active = [] := by
  refine sortedRecs_eq_nil ?_
  rw [← h.active, ← List.length_eq_zero_iff, ← SkipList.len_eq]
  exact hlen

theorem Serving.queue_nil {state : EngineState} (h : Serving prims state s)
    (hqueue : state.immutableMemtables = []) : s.queue = [] := by
  have hrel := h.queue
  rw [hqueue] at hrel
  exact List.forall₂_nil_left_iff.mp hrel

theorem flushRotate_mirrors (h : Mirrors prims e s) :
    Ends flushRotate e
      (fun _ e' => ∃ s', Mirrors prims e' s' ∧ (Simulates prims e s → Simulates prims e' s') ∧
        Store.Works s s' ∧ records s'.active = [])
      fun f _ => Panicked f := by
  unfold flushRotate
  refine Ends.read_bind ?_
  split
  · refine Ends.mono (rotate_simulates h) ?_ (fun _ _ hstop => hstop)
    intro _ e₁ h₁
    exact ⟨_, h₁.mirrors, fun _ => h₁, .single (.rotate s), rfl⟩
  · rename_i hlen
    exact Ends.ret ⟨s, h, id, .refl, h.active_nil (not_not.mp hlen)⟩

theorem forall₂_getLast {α β : Type} {R : α → β → Prop} {as : List α} {bs : List β} {a : α}
    (h : List.Forall₂ R as bs) (ha : as.getLast? = some a) :
    ∃ front b, bs = front ++ [b] ∧ R a b := by
  obtain ⟨init, rfl⟩ := List.getLast?_eq_some_iff.mp ha
  have hrev := List.rel_reverse h
  rw [List.reverse_append, List.reverse_singleton, List.singleton_append] at hrev
  cases hbs : bs.reverse with
  | nil =>
    rw [hbs] at hrev
    cases hrev
  | cons b rest =>
    rw [hbs] at hrev
    cases hrev with
    | cons hab _ =>
      refine ⟨rest.reverse, b, ?_, hab⟩
      rw [← List.reverse_cons, ← hbs, List.reverse_reverse]

theorem flush_mirrors (hseal : SealWorks prims) (h : Mirrors prims e s) :
    Ends (flush prims) e
      (fun _ e' => ∃ s', Mirrors prims e' s' ∧ (Simulates prims e s → Simulates prims e' s') ∧
        Store.Works s s' ∧ s'.queue = [] ∧ records s'.active = [])
      fun f _ => Panicked f := by
  refine Ends.mono (flush_ends
    (I := fun e' => ∃ s', Mirrors prims e' s' ∧ (Simulates prims e s → Simulates prims e' s') ∧
      Store.Works s s' ∧ records s'.active = [])
    (flushRotate_mirrors h) ?_) ?_ (fun _ _ hstop => hstop)
  swap
  · rintro - e' ⟨⟨s', h', hsim, hworks, hactive⟩, hqueue⟩
    exact ⟨s', h', hsim, hworks, h'.queue_nil hqueue, hactive⟩
  · rintro e' im ⟨s', h', hsim, hworks, hactive⟩ hlast
    obtain ⟨front, x, hq, hid, hrecs⟩ := forall₂_getLast h'.queue hlast
    have hx : x ∈ s'.queue := by
      rw [hq]
      exact List.mem_append_right _ (List.mem_singleton_self _)
    refine Ends.mono (flushOne_mirrors hseal h' hx hid hrecs) ?_ (fun _ _ hstop => hstop)
    rintro _ e'' ⟨h'', hsim'⟩
    exact ⟨_, h'', fun h => hsim' (hsim h), hworks.tail (.flushOne hq), hactive⟩

end Steps

end PaddockKV.Engine
