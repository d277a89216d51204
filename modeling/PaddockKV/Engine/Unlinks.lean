import PaddockKV.Engine.Synced

/-!
# What is durable when a file is unlinked (`engine.rs`, `sstable/writer.rs`)

`SstWriter::finish` returns without `sync`, and nobody syncs the table later. So when
`flush_one` unlinks a segment and `compact_all` its inputs, only a segment can hold
their records durably. That is so for records that were replayed from segments of
earlier sessions, and for no others.
-/

namespace PaddockKV.Engine

open Io Wal Memtable Sstable Crypto History Transition

/-- The open segment and those of the queued memtables. -/
def SessionSegment (db : Db) (n : ℕ) : Prop :=
  n = db.ctx.walSegmentId ∨ ∃ im ∈ db.state.immutableMemtables, n = im.walSegmentId

/-- A flush only when the segments of the session hold no operation. -/
def FlushesReplayed (s : Sys) (a : Action) : Prop :=
  ∀ db faults, s.db = some db → a = .call .flush faults →
    ∀ n, SessionSegment db n → (diskOf s.log (.wal n)).isSome = true → Drained (diskOf s.log) n

/-! ### Calls -/

section Calls

variable {prims : Primitives} {e : Env} {t : Store} {acked : History}

theorem rotate_synced (h : Simulates prims e t) (hs : Synced e.world.log t) :
    Ends rotateMemtableLocked e
      (fun _ e' => Synced e'.world.log t.rotate ∧
        Written (.wal t.next) e.world.log e'.world.log) fun _ _ => True := by
  refine Ends.mono (rotateMemtableLocked_ends e) ?_ (fun _ _ _ => trivial)
  rintro - e' ⟨-, -, -, hmade, -⟩
  rw [h.next] at hmade
  have hwritten := written_segment hmade
  exact ⟨hs.segment hwritten (wal_next_none h.mirrors) rfl, hwritten⟩

theorem commitHead_synced (batch : WriteBatch) (h : Simulates prims e t)
    (hs : Synced e.world.log t) (hkept : t.Kept acked) :
    Ends (commitHead batch) e
      (fun _ e' => Synced e'.world.log (t.commit batch) ∧
        ∃ l, Written (.wal t.walId) e.world.log l ∧ e'.world.log = .sync (.wal t.walId) :: l)
      fun _ _ => True := by
  refine Ends.mono (commitHead_ends batch e) ?_ (fun _ _ _ => trivial)
  rintro full _ ⟨encoded, t₂, m, ⟨-, -, start, t₁, happ, hsync⟩, -, rfl, -⟩
  obtain ⟨hfile, evs, hevs, hlog⟩ :=
    ((SegmentWriter.appendRecord_ends _ _ _ h.tidySegment.offset_le).of_ok happ).wrote
  obtain ⟨-, hlog₂⟩ := (walSync_ends t₁).of_ok hsync
  have hname : (walEnv e).writer.file = .wal t.walId := h.mirrors.file
  rw [hfile, hname, hlog] at hlog₂
  rw [hname] at hevs
  have hwritten : Written (.wal t.walId) e.world.log (evs ++ e.world.log) :=
    ⟨evs, rfl, written_appends hevs⟩
  obtain ⟨hist, hmem⟩ := h.mirrors.segment
  obtain ⟨file, sync, hdisk, -⟩ := h.dir.wals _ hmem
  obtain ⟨sync', -, hdisk'⟩ := diskOf_appends hevs hdisk
  have hsome := congrFun hdisk' (.wal t.walId)
  rw [Function.update_self] at hsome
  refine ⟨?_, _, hwritten, hlog₂⟩
  show Synced t₂.world.log _
  rw [hlog₂]
  exact hs.commit hkept batch hwritten hsome

theorem commitBatch_unlinks (batch : WriteBatch) (h : Simulates prims e t)
    (hs : Synced e.world.log t) (hkept : t.Kept acked) :
    Ends (commitBatch batch) e
      (fun _ e' => ∃ t', Simulates prims e' t' ∧ Synced e'.world.log t' ∧
        (t' = t.commit batch ∨ t' = (t.commit batch).rotate) ∧
        ∀ config, RemovesSafely prims config e.world.log e'.world.log)
      fun f _ => Panicked f := by
  unfold commitBatch
  refine Ends.bind (Ends.and (commitHead_simulates batch h) (commitHead_synced batch h hs hkept)) ?_
    (fun _ _ hstop => hstop.1)
  rintro full e₁ ⟨h₁, hs₁, l, hwritten, hlog⟩
  have hsafe : ∀ config, RemovesSafely prims config e.world.log e₁.world.log := by
    intro config
    rw [hlog, removesSafely_cons hwritten.suffix, hwritten.removesSafely List.suffix_rfl]
    exact ⟨by simp, removesSafely_refl⟩
  have hsuffix : e.world.log <:+ e₁.world.log := by
    rw [hlog]
    exact hwritten.suffix.trans (List.suffix_cons _ _)
  split
  · refine Ends.mono (Ends.and (rotate_simulates h₁.mirrors) (rotate_synced h₁ hs₁)) ?_
      (fun _ _ hstop => hstop.1)
    rintro _ e₂ ⟨h₂, hs₂, hwritten₂⟩
    refine ⟨_, h₂, hs₂, .inr rfl, ?_⟩
    intro config
    rw [hwritten₂.removesSafely hsuffix]
    exact hsafe config
  · exact Ends.ret ⟨_, h₁, hs₁, .inl rfl, hsafe⟩

theorem flushOne_unlinks {im : ImmutableMemtable} {x : ℕ × History} (hseal : SealWorks prims)
    (h : Simulates prims e t) (hs : Synced e.world.log t) (hkept : t.Kept acked)
    (hsmall : ∀ c ∈ acked, c.2.length ≤ maxOpsPerBatch) (hx : x ∈ t.queue)
    (hid : im.walSegmentId = x.1) (hrecs : im.memtable.recs = sortedRecs x.2)
    {log : List VfsCall} (hlog : log <:+ e.world.log) :
    Ends (flushOne prims im) e
      (fun _ e' => Synced e'.world.log (t.flushOne x) ∧ log <:+ e'.world.log ∧
        (RemovesSafely prims e.db.config log e'.world.log ↔
          (∀ w ∈ t.wals, w.1 = x.1 → Store.Blank w) ∧
            RemovesSafely prims e.db.config log e.world.log))
      fun _ _ => True := by
  have hnew := sst_next_none h.mirrors
  refine Ends.mono (flushOne_ends prims im e) ?_ (fun _ _ _ => trivial)
  rintro - e' ⟨reader, w₁, w₂, -, hrun, hopen, hdb, hremoved⟩
  obtain ⟨hmade, hf₁⟩ := (writeFlush_ends hseal h.mirrors hx hrecs).of_ok hrun
  rw [h.next] at hopen
  obtain ⟨hlog₂, hf₂, -⟩ := (openTable_made hmade hnew).of_ok hopen
  obtain ⟨-, hlog'⟩ := removed_disk hremoved (hf₂ hf₁)
  have hpos : im.walSegmentId ≠ 0 := hid ▸ (hkept.fed.queue_pos x hx).ne'
  rw [fedBy, if_pos hpos, hlog₂, hid] at hlog'
  change e'.world.log = .remove (.wal x.1) :: w₁.log at hlog'
  -- the table is there when the segment goes
  have hwritten := written_table hmade
  obtain ⟨file, sync, hdisk, hfile⟩ := disk_made hmade hnew
  have hdir := h.dir.make_table sync h.tables_lt hfile (h.queue_seqnos x hx)
  rw [← hdisk] at hdir
  have hs₁ : Synced w₁.log { t with tables := (t.next, x.2) :: t.tables } := hs.table hwritten rfl
  have hsuffix : log <:+ w₁.log := hlog.trans hwritten.suffix
  have hsafe := safelyRemoved_wal_iff hdir hs₁ (hkept.add_table hx t.next)
    (hkept.replayable hsmall) x.1
  have hwals : (t.flushOne x).wals = t.wals.filter fun w => decide (w.1 ≠ x.1) :=
    if_pos (hkept.fed.queue_pos x hx).ne'
  rw [hlog']
  refine ⟨hs₁.remove_wal hwals, hsuffix.trans (List.suffix_cons _ _), ?_⟩
  rw [removesSafely_cons hsuffix, hwritten.removesSafely hlog]
  refine and_congr_left fun _ => ?_
  rw [← hsafe]
  constructor
  · intro hall
    exact hall _ rfl
  · rintro hone name heq
    cases heq
    exact hone

/-- A flush under way: what it has unlinked so far was safely unlinked if and only if
it held no operation. -/
structure Flushing (prims : Primitives) (acked : History) (e : Env) (t : Store) (e' : Env)
    (t' : Store) : Prop where
  simulates : Simulates prims e' t'
  works : Store.Works t t'
  kept : t'.Kept acked
  active : records t'.active = []
  synced : Synced e'.world.log t'
  wals : ∀ w ∈ t'.wals, w ∈ t.wals ∨ Store.Blank w
  config : e'.db.config = e.db.config
  grown : e.world.log <:+ e'.world.log
  safe : RemovesSafely prims e.db.config e.world.log e'.world.log ↔
    ∀ x ∈ t.wals, x ∉ t'.wals → Store.Blank x

theorem flushRotate_unlinks (h : Simulates prims e t) (hs : Synced e.world.log t)
    (hkept : t.Kept acked) :
    Ends flushRotate e (fun _ e' => ∃ t', Flushing prims acked e t e' t') fun f _ => Panicked f := by
  unfold flushRotate
  refine Ends.read_bind ?_
  split
  · refine Ends.mono (Ends.and (keepsConfig_rotate e rfl)
      (Ends.and (rotate_simulates h.mirrors) (rotate_synced h hs))) ?_ (fun _ _ hstop => hstop.2.1)
    rintro _ e₁ ⟨hconfig, h₁, hs₁, hwritten⟩
    refine ⟨t.rotate, h₁, .single (.rotate t), hkept.rotate, rfl, hs₁, ?_, hconfig,
      hwritten.suffix, ?_⟩
    · intro w hw
      rcases List.mem_append.mp hw with hw | hw
      · exact .inl hw
      · rw [List.mem_singleton.mp hw]
        refine .inr fun c hc => ?_
        cases hc
    · rw [hwritten.removesSafely List.suffix_rfl]
      refine iff_of_true removesSafely_refl ?_
      intro x hx hgone
      exact absurd (List.mem_append_left _ hx) hgone
  · rename_i hlen
    refine Ends.ret ⟨t, h, .refl, hkept, h.serving.active_nil (not_not.mp hlen), hs,
      fun w hw => .inl hw, rfl, List.suffix_rfl, iff_of_true removesSafely_refl ?_⟩
    intro x hx hgone
    exact absurd hx hgone

theorem Flushing.flushOne {im : ImmutableMemtable} {e₁ : Env} {t₁ : Store}
    (hseal : SealWorks prims) (h : Flushing prims acked e t e₁ t₁)
    (hsmall : ∀ c ∈ acked, c.2.length ≤ maxOpsPerBatch)
    (hlast : e₁.db.state.immutableMemtables.getLast? = some im) :
    Ends (flushOne prims im) e₁ (fun _ e' => ∃ t', Flushing prims acked e t e' t')
      fun f _ => Panicked f := by
  obtain ⟨front, x, hq, hid, hrecs⟩ := forall₂_getLast h.simulates.queue hlast
  have hx : x ∈ t₁.queue := by
    rw [hq]
    exact List.mem_append_right _ (List.mem_singleton_self _)
  refine Ends.mono (Ends.and (keepsConfig_flushOne prims im e₁ h.config)
    (Ends.and (flushOne_simulates hseal h.simulates hx hid hrecs)
      (flushOne_unlinks hseal h.simulates h.synced h.kept hsmall hx hid hrecs h.grown))) ?_
    (fun _ _ hstop => hstop.2.1)
  rintro _ e₂ ⟨hconfig, h₂, hs₂, hgrown, hsafe⟩
  rw [h.config] at hsafe
  refine ⟨_, h₂, h.works.tail (.flushOne hq), h.kept.flushOne hq, h.active, hs₂,
    fun w hw => h.wals w (flushOne_wals_subset hw), hconfig, hgrown, ?_⟩
  rw [hsafe, h.safe]
  -- a segment that is gone now was gone before or is the one of `x`
  constructor
  · rintro ⟨hblank, hbefore⟩ y hy hgone
    by_cases hy₁ : y ∈ t₁.wals
    · refine hblank y hy₁ ?_
      by_contra hne
      exact hgone (mem_flushOne_wals hy₁ hne)
    · exact hbefore y hy hy₁
  · intro hall
    refine ⟨?_, fun y hy hgone => hall y hy fun hmem => hgone (flushOne_wals_subset hmem)⟩
    intro w hw heq
    rcases h.wals w hw with hw₀ | hblank
    · refine hall w hw₀ ?_
      intro hmem
      rw [show (t₁.flushOne x).wals = t₁.wals.filter fun z => decide (z.1 ≠ x.1) from
        if_pos (h.kept.fed.queue_pos x hx).ne'] at hmem
      exact of_decide_eq_true (List.mem_filter.mp hmem).2 heq
    · exact hblank

theorem flush_unlinks (hseal : SealWorks prims) (h : Simulates prims e t)
    (hs : Synced e.world.log t) (hkept : t.Kept acked)
    (hsmall : ∀ c ∈ acked, c.2.length ≤ maxOpsPerBatch) :
    Ends (flush prims) e
      (fun _ e' => ∃ t', Simulates prims e' t' ∧ Synced e'.world.log t' ∧ Store.Works t t' ∧
        (RemovesSafely prims e.db.config e.world.log e'.world.log ↔ t.SessionBlank))
      fun f _ => Panicked f := by
  refine Ends.mono (flush_ends (I := fun e' => ∃ t', Flushing prims acked e t e' t')
    (flushRotate_unlinks h hs hkept) ?_) ?_ (fun _ _ hstop => hstop)
  · rintro e₁ im ⟨t₁, h₁⟩ hlast
    exact h₁.flushOne hseal hsmall hlast
  · rintro - e' ⟨⟨t', h'⟩, hqueue⟩
    refine ⟨t', h'.simulates, h'.synced, h'.works, ?_⟩
    rw [h'.safe]
    exact Store.flushed_blank_iff hkept h'.works (h'.simulates.serving.queue_nil hqueue) h'.active

theorem compactAll_unlinks (hseal : SealWorks prims) (h : Simulates prims e t)
    (hs : Synced e.world.log t) (hkept : t.Kept acked)
    (hsmall : ∀ c ∈ acked, c.2.length ≤ maxOpsPerBatch) :
    Ends (compactAll prims) e
      (fun _ e' => Synced e'.world.log (if t.tables.length < 2 then t else t.compact) ∧
        (t.Covered → RemovesSafely prims e.db.config e.world.log e'.world.log))
      fun _ _ => True := by
  have hlen := h.tables.length_eq
  have hnew := sst_next_none h.mirrors
  refine Ends.mono (compactAll_ends prims e) ?_ (fun _ _ _ => trivial)
  rintro - e' (⟨hfew, rfl⟩ | ⟨hmany, reader, w, -, hrun, -, hremoved⟩)
  · rw [if_pos (hlen ▸ hfew)]
    exact ⟨hs, fun _ => removesSafely_refl⟩
  · rw [if_neg (by omega)]
    obtain ⟨-, hf, w₁, hlog, hmade⟩ := (writeCompaction_made hseal h.mirrors).of_ok hrun
    obtain ⟨-, hlog'⟩ := removed_disk hremoved hf
    have hwritten := written_table hmade
    rw [← hlog] at hwritten
    have hids : (e.db.state.sstables.map fun sst => FileName.sst sst.id) =
        (t.tables.map Prod.fst).map FileName.sst := by
      rw [inputs_names h.tables, List.map_map]
      rfl
    rw [hids] at hlog'
    rw [hlog']
    have hs₁ : Synced w.log t := hs.table hwritten rfl
    refine ⟨hs₁.remove_tables _ rfl, ?_⟩
    intro hcov
    -- one input after the other
    have hne : ∀ n ∈ t.tables.map Prod.fst, n ≠ t.next := by
      intro n hn
      obtain ⟨x, hx, rfl⟩ := List.mem_map.mp hn
      exact (h.tables_lt x hx).ne
    generalize t.tables.map Prod.fst = ids at hne
    induction ids using List.reverseRecOn with
    | nil => exact (hwritten.removesSafely List.suffix_rfl).mpr removesSafely_refl
    | append_singleton ids n ih =>
      have hrest := ih fun m hm => hne m (List.mem_append_left _ hm)
      rw [List.map_append, List.map_append, List.map_singleton, List.map_singleton,
        List.reverse_append, List.reverse_singleton, List.append_assoc, List.singleton_append,
        removesSafely_cons (hwritten.suffix.trans (List.suffix_append _ _))]
      refine ⟨?_, hrest⟩
      rintro name heq
      cases heq
      refine hcov.safelyRemoved h.dir hs (hkept.replayable hsmall) ?_ ?_
      · intro m
        rw [diskOf_removes, if_neg (by simp)]
        exact hwritten.disk (by simp)
      · rw [diskOf_removes]
        split
        · exact .inl rfl
        · refine .inr (hwritten.disk ?_)
          have := hne n (List.mem_append_right _ (List.mem_singleton_self _))
          simpa using this

theorem openWith_synced {config : DbConfig} {w : World} (hd : Directory prims config w.disk t)
    (hf : w.faults = []) (hs : Synced w.log t) :
    Ends (openWith prims config) w
      (fun _ w' => Synced w'.log t.reopen ∧ Written (.wal t.free) w.log w'.log)
      fun _ _ => True := by
  have hlists : listed w w.faults.head? = w.list ∧ listed w w.faults.tail.head? = w.list := by
    rw [hf]
    exact ⟨rfl, rfl⟩
  have hends := openWith_ends prims config w
  rw [hlists.1, hlists.2] at hends
  refine Ends.mono hends ?_ (fun _ _ _ => trivial)
  intro db w' hopened
  obtain ⟨-, -, hmade⟩ := hopened.ctx t.free (firstFree_eq hd).symm
  have hwritten := written_segment hmade
  exact ⟨hs.segment hwritten hd.free_none rfl, hwritten⟩

end Calls

/-! ### Runs -/

/-- The store of a run without failures, with what is known of its files. -/
structure Settled (prims : Primitives) (key : Option Bytes) (s : Sys) (t : Store) : Prop where
  models : Models prims key s t
  kept : t.Kept s.acked
  small : ∀ c ∈ s.acked, c.2.length ≤ maxOpsPerBatch
  synced : Synced s.log t

/-- Runs without failures that flush only what was replayed. -/
def QuietReplayed (key : Option Bytes) (s : Sys) (a : Action) : Prop :=
  QuietSmall key s a ∧ FlushesReplayed s a

section Runs

variable {prims : Primitives} {key : Option Bytes} {config : DbConfig} {s s' : Sys} {t : Store}
  {a : Action}

theorem settled_start (prims : Primitives) (key : Option Bytes) :
    Settled prims key Sys.start Store.empty := by
  refine ⟨models_start prims key, Store.kept_empty, ?_, synced_empty⟩
  intro c hc
  cases hc

theorem holdsRec_config {config' : DbConfig} (h : config'.masterKey = config.masterKey) :
    HoldsRec prims config' = HoldsRec prims config := by
  funext d name r
  cases name with
  | wal n => rfl
  | sst n => simp only [HoldsRec, TableOpens, DbConfig.cryptoFor, h]

theorem removesSafely_config {config' : DbConfig} (h : config'.masterKey = config.masterKey)
    (log log' : List VfsCall) :
    RemovesSafely prims config' log log' ↔ RemovesSafely prims config log log' := by
  unfold RemovesSafely SafelyRemoved
  rw [holdsRec_config h]

theorem flushesReplayed_iff {db : Db} (faults : List Outcome)
    (h : Simulates prims ⟨db, ⟨s.log, []⟩⟩ t) (hdb : s.db = some db) :
    FlushesReplayed s (.call .flush faults) ↔ t.SessionBlank := by
  have hdir : Directory prims db.config (diskOf s.log) t := h.dir
  have hsession : ∀ n, SessionSegment db n ↔ ∃ y ∈ t.memtables, n = y.1 := by
    intro n
    unfold SessionSegment Store.memtables
    rw [List.exists_mem_cons_iff, show db.ctx.walSegmentId = t.walId from h.walId]
    refine or_congr_right ?_
    constructor
    · rintro ⟨im, him, rfl⟩
      obtain ⟨y, hy, hid, -⟩ := forall₂_exists_right h.queue him
      exact ⟨y, hy, hid⟩
    · rintro ⟨y, hy, rfl⟩
      obtain ⟨im, him, hid, -⟩ := forall₂_exists_left h.queue hy
      exact ⟨im, him, hid.symm⟩
  constructor
  · intro hall y hy w hw heq
    have hsome := (wal_isSome_iff hdir w.1).mpr ⟨w, hw, rfl⟩
    exact (drained_iff hdir hw).mp
      (hall db faults hdb rfl w.1 ((hsession w.1).mpr ⟨y, hy, heq⟩) hsome)
  · intro hblank db' faults' hdb' _ n hn hsome
    cases hdb.symm.trans hdb'
    obtain ⟨y, hy, rfl⟩ := (hsession n).mp hn
    obtain ⟨w, hw, heq⟩ := (wal_isSome_iff hdir y.1).mp hsome
    rw [← heq]
    exact (drained_iff hdir hw).mpr (hblank y hy w hw heq)

theorem flushesReplayed_of_ne (h : ∀ faults, a ≠ .call .flush faults) : FlushesReplayed s a :=
  fun _ faults _ ha => absurd ha (h faults)

theorem Store.sessionBlank_reopen (t : Store) : t.reopen.SessionBlank := by
  intro y hy w hw heq
  rw [List.mem_singleton.mp hy] at heq
  rcases List.mem_append.mp hw with hw | hw
  · exact absurd heq (t.free_above.1 w hw).ne
  · rw [List.mem_singleton.mp hw]
    intro c hc
    cases hc

theorem Settled.opened_flushes {config' : DbConfig} (h : Settled prims key s t)
    (hkey : config'.masterKey = key) (hdb : s.db = none)
    (hn : s.next prims (.openDb config' []) = some s') (faults : List Outcome) :
    FlushesReplayed s' (.call .flush faults) := by
  obtain ⟨db, hdb', -, hsim⟩ :=
    opens_small (h.models.closed hdb config' hkey) h.kept h.small hn
  exact (flushesReplayed_iff faults hsim hdb').mpr t.sessionBlank_reopen

theorem Settled.step (config : DbConfig) (hseal : SealWorks prims) (hkey : config.masterKey = key)
    (h : Settled prims key s t) (hok : QuietSmall key s a) (hn : s.next prims a = some s') :
    ∃ t', Settled prims key s' t' ∧ (t.Covered → FlushesReplayed s a → t'.Covered) ∧
      (t.Covered →
        (RemovesSafely prims config s.log s'.log ↔ FlushesReplayed s a)) := by
  have hsmall := small_next hok.2 hn h.small
  have hreplay := h.kept.replayable h.small
  cases step_of_next hn with
  | @opened config' faults db w hdb hopen =>
    obtain ⟨⟨hkey', rfl⟩, -⟩ := hok
    have hdir := h.models.closed hdb config' hkey'
    obtain ⟨hconfig, hsim, -⟩ := (openWith_simulates (w := ⟨s.log, []⟩) hdir rfl).of_ok hopen
    obtain ⟨hs', hwritten⟩ := (openWith_synced (w := ⟨s.log, []⟩) hdir rfl h.synced).of_ok hopen
    refine ⟨t.reopen, ⟨models_open s.acked (hconfig ▸ hkey') rfl hsim, h.kept.reopen, hsmall, hs'⟩,
      fun hcov _ => hcov.reopen, fun _ => iff_of_true ?_ (flushesReplayed_of_ne (by simp))⟩
    exact (hwritten.removesSafely List.suffix_rfl).mpr removesSafely_refl
  | @notOpened config' faults e w hdb hopen =>
    obtain ⟨⟨hkey', rfl⟩, -⟩ := hok
    -- only a batch that is too long keeps a directory from being opened
    rcases (openWith_simulates (h.models.closed hdb config' hkey') rfl).of_error hopen with
      ⟨⟨msg, hmsg⟩, -⟩ | ⟨-, x, hx, hlong⟩
    · cases hmsg
    · exact absurd (hreplay x hx) hlong
  | @returned c faults db u e hdb hrun =>
    cases (show faults = [] from hok.1)
    obtain ⟨hkey', hsim⟩ := h.models.opened db hdb
    have hconfig := (keepsConfig_run prims c _ rfl).of_ok hrun
    have hmodels : ∀ {t'}, Simulates prims e t' →
        Models prims key ⟨e.world.log, some e.db, s.acked ++ c.commits db⟩ t' :=
      fun h' => models_open _ hkey' hconfig h'
    rw [removesSafely_config (hkey.trans hkey'.symm)]
    cases c with
    | commit batch =>
      obtain ⟨t', hsim', hs', ht', hsafe⟩ :=
        (commitBatch_unlinks batch hsim h.synced h.kept).of_ok hrun
      have hcommits : (Call.commit batch).commits db = [(t.seqno + 1, batch)] := by
        rw [← hsim.seqno]
        rfl
      have hkept := h.kept.commit batch hsim.mirrors.segment
      rw [← hcommits] at hkept
      refine ⟨t', ⟨hmodels hsim', ?_, hsmall, hs'⟩, ?_, fun _ => iff_of_true (hsafe _) ?_⟩
      · rcases ht' with rfl | rfl
        · exact hkept
        · exact hkept.rotate
      · intro hcov _
        rcases ht' with rfl | rfl
        · exact hcov.commit batch
        · exact (hcov.commit batch).rotate
      · exact flushesReplayed_of_ne (by simp)
    | flush =>
      obtain ⟨t', hsim', hs', hworks, hsafe⟩ :=
        (flush_unlinks hseal hsim h.synced h.kept h.small).of_ok hrun
      have hiff := flushesReplayed_iff [] hsim hdb
      refine ⟨t', ⟨hmodels hsim', ?_, hsmall, hs'⟩, ?_, fun _ => hsafe.trans hiff.symm⟩
      · show t'.Kept (s.acked ++ [])
        rw [List.append_nil]
        exact h.kept.works hworks
      · intro hcov hflush
        exact Store.covered_works h.kept hworks hcov (hiff.mp hflush)
    | compactAll =>
      obtain ⟨hsim', hs', hsafe⟩ := (Ends.and (compactAll_simulates hseal hsim)
        (compactAll_unlinks hseal hsim h.synced h.kept h.small)).of_ok hrun
      refine ⟨_, ⟨hmodels hsim', ?_, hsmall, hs'⟩, ?_,
        fun hcov => iff_of_true (hsafe hcov) (flushesReplayed_of_ne (by simp))⟩
      · show Store.Kept (s.acked ++ []) _
        rw [List.append_nil]
        split
        · exact h.kept
        · exact h.kept.compact
      · intro hcov _
        split
        · exact hcov
        · exact hcov.compact
  | @failed c faults db err e hdb hrun =>
    -- without failures a call returns or panics
    cases (show faults = [] from hok.1)
    have hsim := (h.models.opened db hdb).2
    obtain ⟨msg, hmsg⟩ := (call_moves hseal s.acked hsim.mirrors fun _ _ => hsim.tidySegment).of_error
      hrun
    cases hmsg
  | @dropped db hdb =>
    obtain ⟨hkey', hsim⟩ := h.models.opened db hdb
    refine ⟨t, ⟨models_closed s.acked fun config' hkey'' => ?_, h.kept, hsmall, h.synced⟩,
      fun hcov _ => hcov, fun _ => iff_of_true removesSafely_refl (flushesReplayed_of_ne (by simp))⟩
    exact hsim.dir.config (hkey''.trans hkey'.symm)
  | crashedOpen kept hdb => cases hok.1
  | crashedCall kept hdb => cases hok.1

theorem reach_settled (hseal : SealWorks prims)
    (h : Reach (Sys.next prims) (QuietReplayed key) Sys.start s) :
    ∃ t, Settled prims key s t ∧ t.Covered := by
  refine h.invariant (I := fun s => ∃ t, Settled prims key s t ∧ t.Covered) ?_ ?_
  · refine ⟨_, settled_start prims key, ?_⟩
    intro x hx
    cases hx
  · rintro s a s' ⟨t, hsettled, hcov⟩ ⟨hok, hflush⟩ hn
    obtain ⟨t', hsettled', hcov', -⟩ :=
      hsettled.step { DbConfig.default with masterKey := key } hseal rfl hok hn
    exact ⟨t', hsettled', hcov' hcov hflush⟩

/-- In every run without failures that flushes only while the segments of the session
hold no operation, all records that were acknowledged are in synced files, and the
next step unlinks safely if and only if it meets the condition. -/
theorem unlinks_safely_iff (config : DbConfig) (hseal : SealWorks prims)
    (h : Reach (Sys.next prims) (QuietReplayed key) Sys.start s) (hkey : config.masterKey = key) :
    (∀ r ∈ records s.acked, ∃ name, HoldsRec prims config (synced (diskOf s.log)) name r) ∧
    ∀ a s', QuietSmall key s a → s.next prims a = some s' →
      (RemovesSafely prims config s.log s'.log ↔ FlushesReplayed s a) := by
  obtain ⟨t, hsettled, hcov⟩ := reach_settled hseal h
  constructor
  · intro r hr
    have hdir : Directory prims config (diskOf s.log) t := by
      cases hdb : s.db with
      | none => exact hsettled.models.closed hdb config hkey
      | some db =>
        obtain ⟨hkey', hsim⟩ := hsettled.models.opened db hdb
        exact hsim.dir.config (hkey.trans hkey'.symm)
    exact hcov.durable hdir hsettled.synced hsettled.kept
      (hsettled.kept.replayable hsettled.small) hr
  · intro a s' hok hn
    obtain ⟨t', -, -, hsafe⟩ := hsettled.step config hseal hkey hok hn
    exact hsafe hcov

end Runs

/-! ### A put that is flushed -/

section Puts

set_option maxRecDepth 100000

-- the put was replayed from segment 1; the flush unlinks segment 2
theorem unlinks_safely_iff_replayed : ∃ s s',
    Reach (Sys.next .blank) (QuietReplayed none) Sys.start s ∧
      s.acked = [(1, [.put [1] [2]])] ∧ s.next .blank (.call .flush []) = some s' ∧
      .remove (.wal 2) ∈ s'.log ∧
      (∀ r ∈ records s.acked, ∃ name,
        HoldsRec .blank .default (synced (diskOf s.log)) name r) ∧
      RemovesSafely .blank .default s.log s'.log := by
  have hsound : ∀ s a, (decide (QuietSmall none s a) && decide (a ≠ .call .flush [])) = true →
      QuietReplayed none s a := by
    intro s a ha
    rw [Bool.and_eq_true, decide_eq_true_eq, decide_eq_true_eq] at ha
    refine ⟨ha.1, flushesReplayed_of_ne ?_⟩
    rintro faults rfl
    cases (show faults = [] from ha.1.1)
    exact ha.2 rfl
  obtain ⟨s₀, hreach, hs⟩ := reach_of_runOk hsound
    (show (runOk (Sys.next .blank)
      (fun s a => decide (QuietSmall none s a) && decide (a ≠ .call .flush [])) Sys.start
      [.openDb .default [], .call (.commit [.put [1] [2]]) [], .drop]).map
      (fun s => s.db.isNone && (((s.next .blank (.openDb .default [])).bind fun s₁ =>
        (s₁.next .blank (.call .flush [])).map fun s₂ =>
          decide (s₁.acked = [(1, [.put [1] [2]])] ∧ .remove (.wal 2) ∈ s₂.log)) ==
        some true)) = some true by
      decide +kernel)
  rw [Bool.and_eq_true, beq_iff_eq] at hs
  obtain ⟨hclosed, hs⟩ := hs
  obtain ⟨s, hopen, hs⟩ := Option.bind_eq_some_iff.mp hs
  obtain ⟨s', hflush, heq⟩ := Option.map_eq_some_iff.mp hs
  obtain ⟨hacked, hremoved⟩ := of_decide_eq_true heq
  obtain ⟨t, hsettled, -⟩ := reach_settled sealWorks_blank hreach
  have hquiet : QuietSmall none s₀ (.openDb .default []) := ⟨⟨rfl, rfl⟩, trivial⟩
  have hreach' : Reach (Sys.next .blank) (QuietReplayed none) Sys.start s :=
    .step _ hreach ⟨hquiet, flushesReplayed_of_ne (by simp)⟩ hopen
  obtain ⟨hdurable, hsafe⟩ := unlinks_safely_iff .default sealWorks_blank hreach' rfl
  have hcall : QuietSmall none s (.call .flush []) := ⟨rfl, trivial⟩
  refine ⟨s, s', hreach', hacked, hflush, hremoved, hdurable, ?_⟩
  exact (hsafe _ s' hcall hflush).mpr
    (hsettled.opened_flushes rfl (Option.isNone_iff_eq_none.mp hclosed) hopen [])

-- segment 1 has the put and is the only synced file when it is unlinked
theorem flush_unlinks_unsynced : ∃ s l,
    run (Sys.next .blank) Sys.start
      [.openDb .default [], .call (.commit [.put [1] [2]]) [], .call .flush []] = some s ∧
      s.acked = [(1, [.put [1] [2]])] ∧ s.log = .remove (.wal 1) :: l ∧
      SegmentAt (diskOf l) 1 [(1, [.put [1] [2]])] ∧
      (∀ name, name ≠ .wal 1 → synced (diskOf l) name = none) ∧
      ∀ name, synced (diskOf s.log) name = none := by
  have hrun : (run (Sys.next .blank) Sys.start
      [.openDb .default [], .call (.commit [.put [1] [2]]) [], .call .flush []]).map (fun s =>
        decide (s.acked = [(1, [.put [1] [2]])] ∧ s.log.head? = some (.remove (.wal 1)) ∧
          (diskOf s.log.tail (.wal 1)).map File.bytes = some ((SegmentHeader.newSigned 1 1).asBytes ++
            layout 0 [⟨1, [1, 0, 1, 1, 1, 2]⟩]) ∧
          ∀ name ∈ (⟨s.log.tail, []⟩ : World).list, name ≠ .wal 1 →
            synced (diskOf s.log.tail) name = none)) = some true := by
    decide +kernel
  obtain ⟨s, hs, heq⟩ := Option.map_eq_some_iff.mp hrun
  obtain ⟨hacked, hhead, hbytes, hlist⟩ := of_decide_eq_true heq
  obtain ⟨l, hlog⟩ := List.head?_eq_some_iff.mp hhead
  rw [hlog, List.tail_cons] at hbytes hlist
  have hothers : ∀ name, name ≠ .wal 1 → synced (diskOf l) name = none := by
    intro name hname
    by_cases hmem : name ∈ (⟨l, []⟩ : World).list
    · exact hlist name hmem hname
    · rw [World.mem_list, Bool.not_eq_true, Option.isSome_eq_false_iff, Option.isNone_iff_eq_none]
        at hmem
      rw [synced, show diskOf l name = none from hmem]
      rfl
  refine ⟨s, l, hs, hacked, hlog, segmentAt_put hbytes, hothers, ?_⟩
  intro name
  rw [hlog, synced, diskOf_cons, Disk.apply]
  by_cases hname : name = .wal 1
  · rw [hname, Function.update_self]
    rfl
  · rw [Function.update_of_ne hname]
    exact hothers name hname

end Puts

end PaddockKV.Engine
