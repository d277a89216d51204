import PaddockKV.Engine.Nonces
import PaddockKV.Engine.Refinement
import PaddockKV.Engine.WalIds

/-!
# Calls that fail within a session

A call that returns `Err` leaves the database open. Whatever file operations of
commits, flushes and compactions fail, the sources of reads keep the commits that
were acknowledged and no others, as long as every rotation gets its segment. The
files are another matter: the record of a commit that failed may stand in its
segment.
-/

namespace PaddockKV.Engine

open Io Wal Memtable Sstable Crypto History Transition

/-- The sources and the counters of the database are those of the store. Nothing is
said about the files. -/
structure Shadows (prims : Primitives) (db : Db) (t : Store) : Prop
    extends Serving prims db.state t where
  walId : db.ctx.walSegmentId = t.walId
  next : db.ctx.nextFileNumber = t.next
  seqno : db.seqno = t.seqno
  segment : ∃ h, (t.walId, h) ∈ t.wals
  seqnos : ∀ c ∈ t.history, c.1 < u64Size

/-- The sources hold the commits `acked`. -/
def Shown (prims : Primitives) (acked : History) (db : Db) : Prop :=
  ∃ t, Shadows prims db t ∧ t.Kept acked

/-- After a panic nothing is said. -/
def ShownLeft (prims : Primitives) (acked : History) (f : Fault) (e : Env) : Prop :=
  (∃ err, f = .err err) → Shown prims acked e.db

theorem Store.Kept.raise {acked : History} {t : Store} (h : t.Kept acked) {next seqno : ℕ}
    (hnext : t.next ≤ next) (hseqno : t.seqno ≤ seqno) :
    Store.Kept acked { t with next := next, seqno := seqno } where
  fed := { h.fed with
    walId_lt := h.fed.walId_lt.trans_le hnext
    wals_lt := fun x hx => (h.fed.wals_lt x hx).trans_le hnext }
  same := h.same
  wals := h.wals
  logged := h.logged
  le_seqno := fun c hc hne => (h.le_seqno c hc hne).trans hseqno
  ascending := h.ascending

theorem Fresh.sst_none {db : Db} {w : World} (h : Fresh db w.log) :
    w.disk (.sst db.ctx.nextFileNumber) = none := by
  by_contra hsome
  have hlt := h.opened_lt _ (opened_of_isSome (Option.isSome_iff_ne_none.mpr hsome))
  exact lt_irrefl _ hlt

section Calls

variable {prims : Primitives} {acked : History} {e : Env} {t : Store}

theorem Shadows.raise (h : Shadows prims e.db t) (hkept : t.Kept acked) {db : Db}
    (hstate : db.state = e.db.state) (hwal : db.ctx.walSegmentId = e.db.ctx.walSegmentId)
    (hnext : e.db.ctx.nextFileNumber ≤ db.ctx.nextFileNumber) (hseqno : e.db.seqno ≤ db.seqno) :
    Shown prims acked db := by
  have hserving := h.toServing
  rw [← hstate] at hserving
  rw [h.next] at hnext
  rw [h.seqno] at hseqno
  refine ⟨{ t with next := db.ctx.nextFileNumber, seqno := db.seqno }, ?_, hkept.raise hnext hseqno⟩
  exact { hserving with
    walId := hwal.trans h.walId
    next := rfl
    seqno := rfl
    segment := h.segment
    seqnos := h.seqnos }

theorem commitHead_shown (batch : WriteBatch) (h : Shown prims acked e.db) :
    Ends (commitHead batch) e
      (fun _ e' => Shown prims (acked ++ [(e.db.seqno + 1, batch)]) e'.db)
      (ShownLeft prims acked) := by
  obtain ⟨t, hsh, hkept⟩ := h
  apply Ends.mono (commitHead_ends batch e)
  · rintro full _ ⟨encoded, w, m, hlog, hm, rfl, -⟩
    have hlt := hlog.2.1
    rw [hsh.seqno] at hm hlt ⊢
    obtain ⟨hist, hmem⟩ := hsh.segment
    refine ⟨t.commit batch, ⟨⟨recs_apply hsh.active hm, hsh.queue, hsh.tables⟩, hsh.walId, hsh.next,
      ?_, ⟨_, mem_update_self (· ++ [(t.seqno + 1, batch)]) hmem⟩, ?_⟩,
      hkept.commit batch hsh.segment⟩
    · exact congrArg (· + 1) hsh.seqno
    · intro c hc
      rw [Store.history_commit] at hc
      rcases List.mem_append.mp hc with hc | hc
      · exact hsh.seqnos c hc
      · rw [List.mem_singleton.mp hc]
        exact hlt
  · intro f e' hstop herr
    obtain ⟨err, rfl⟩ := herr
    cases hstop with
    | append => exact hsh.raise hkept rfl rfl le_rfl (Nat.le_succ _)
    | sync => exact hsh.raise hkept rfl rfl le_rfl (Nat.le_succ _)

theorem rotate_shown (h : Shown prims acked e.db) (hserved : SegmentServed e.world.faults) :
    Ends rotateMemtableLocked e (fun _ e' => Shown prims acked e'.db) (ShownLeft prims acked) := by
  obtain ⟨t, hsh, hkept⟩ := h
  apply Ends.mono (Ends.and (rotateMemtableLocked_ends e) (rotate_served e hserved))
  · intro _ e' hdone
    have hserving : Serving prims (rotated e.db).state t.rotate :=
      hsh.toServing.queueActive hsh.walId
    rw [hdone.1.1]
    refine ⟨t.rotate, ⟨hserving, hsh.next, congrArg (· + 1) hsh.next, hsh.seqno,
      ⟨[], List.mem_append_right _ (List.mem_singleton_self _)⟩, ?_⟩, hkept.rotate⟩
    rw [Store.history_rotate]
    exact hsh.seqnos
  · intro f e' hstop herr
    obtain ⟨⟨err, rfl⟩, msg, hmsg⟩ := herr, hstop.2
    cases hmsg

theorem flushOne_shown {im : ImmutableMemtable} (h : Shown prims acked e.db)
    (hfresh : Fresh e.db e.world.log)
    (hlast : e.db.state.immutableMemtables.getLast? = some im) :
    Ends (flushOne prims im) e (fun _ e' => Shown prims acked e'.db) (ShownLeft prims acked) := by
  obtain ⟨t, hsh, hkept⟩ := h
  obtain ⟨front, x, hq, hid, hrecs⟩ := forall₂_getLast hsh.queue hlast
  have hx : x ∈ t.queue := by simp [hq]
  have hlt : ∀ r ∈ im.memtable.recs, r.seqno < u64Size := by
    rw [hrecs]
    refine records_lt fun c hc => hsh.seqnos c (Store.mem_history.mpr (.inr ?_))
    exact ⟨x, List.mem_cons_of_mem _ hx, hc⟩
  apply Ends.mono (flushOne_ends prims im e)
  · rintro - e' ⟨reader, w₁, w₂, -, hrun, hopen, hdb, -⟩
    have hmade := ((writeTable_ends hfresh.sst_none hlt).of_ok hrun).1
    rw [hrecs] at hmade
    have hserves := ((openTable_made hmade hfresh.sst_none).of_ok hopen).2.2.1
    have hqueue : ∀ (im' : ImmutableMemtable) (y : ℕ × History),
        im'.walSegmentId = y.1 ∧ im'.memtable.recs = sortedRecs y.2 →
        decide (im'.walSegmentId ≠ im.walSegmentId) = decide (y.1 ≠ x.1) := by
      intro im' y hy
      rw [hy.1, hid]
    obtain ⟨hist, hmem⟩ := hsh.segment
    rw [hdb]
    refine ⟨t.flushOne x, ⟨⟨hsh.active, forall₂_filter hsh.queue hqueue,
      .cons ⟨hsh.next, hserves⟩ hsh.tables⟩, hsh.walId, congrArg (· + 1) hsh.next, hsh.seqno,
      ⟨hist, mem_flushOne_wals hmem (hkept.fed.queue_lt x hx).ne'⟩, ?_⟩, hkept.flushOne hq⟩
    rw [Store.history_flushOne hkept.fed.queueApart hq]
    exact hsh.seqnos
  · intro f e' hstop _
    cases hstop with
    | number => exact ⟨t, hsh, hkept⟩
    | table => exact hsh.raise hkept rfl rfl (Nat.le_succ _) le_rfl
    | reader => exact hsh.raise hkept rfl rfl (Nat.le_succ _) le_rfl

theorem writeCompaction_serves (h : Shadows prims e.db t) (hfresh : Fresh e.db e.world.log) :
    Ends (writeCompaction prims e.db) e.world
      (fun reader _ => Serves prims reader (blocksOf (Store.oldestFirst t.tables)))
      fun _ _ => True := by
  have hseq : ∀ b ∈ t.tables.map (fun x => blocksOf x.2), ∀ r ∈ b.flatten, r.seqno < u64Size := by
    intro b hb
    obtain ⟨x, hx, rfl⟩ := List.mem_map.mp hb
    rw [blocksOf_flatten]
    exact records_lt fun c hc => h.seqnos c (Store.mem_history.mpr (.inl ⟨x, hx, hc⟩))
  have hblocks : cutBlocks defaultBlockSize [] (merged (t.tables.map fun x => blocksOf x.2)) =
      blocksOf (Store.oldestFirst t.tables) := by
    rw [merged_blocksOf]
    rfl
  unfold writeCompaction
  rw [compactSstables_eq]
  apply Ends.bind (mergeTables_ends (serves_tables h.toServing) (tables_sortedRecs t) hseq
    hfresh.sst_none)
  · intro _ w₁ hdone
    rw [hblocks] at hdone
    exact Ends.mono (openTable_made hdone.1 hfresh.sst_none) (fun _ _ h => h.2.2.1)
      fun _ _ _ => trivial
  · intro _ _ _
    trivial

theorem compactAll_shown (h : Shown prims acked e.db) (hfresh : Fresh e.db e.world.log) :
    Ends (compactAll prims) e (fun _ e' => Shown prims acked e'.db) (ShownLeft prims acked) := by
  obtain ⟨t, hsh, hkept⟩ := h
  apply Ends.mono (compactAll_ends prims e)
  · rintro - e' (⟨-, rfl⟩ | ⟨-, reader, w, -, hrun, hdb, -⟩)
    · exact ⟨t, hsh, hkept⟩
    · have hserves := (writeCompaction_serves hsh hfresh).of_ok hrun
      have htables : (compacted reader e.db).state.sstables = [⟨e.db.ctx.nextFileNumber, reader⟩] := by
        show _ :: List.filter _ _ = _
        rw [filter_inputs]
      rw [hdb]
      refine ⟨t.compact, ⟨⟨hsh.active, hsh.queue, ?_⟩, hsh.walId, congrArg (· + 1) hsh.next,
        hsh.seqno, hsh.segment, ?_⟩, hkept.compact⟩
      · rw [htables]
        exact .cons ⟨hsh.next, hserves⟩ .nil
      · rw [Store.history_compact]
        exact hsh.seqnos
  · intro f e' hstop _
    cases hstop with
    | number => exact ⟨t, hsh, hkept⟩
    | table => exact hsh.raise hkept rfl rfl (Nat.le_succ _) le_rfl

theorem flush_shown (h : NumberInv e) (hshown : Shown prims acked e.db)
    (hserved : e.db.state.activeMemtable.len ≠ 0 → SegmentServed e.world.faults) :
    Ends (flush prims) e (fun _ e' => Shown prims acked e'.db) (ShownLeft prims acked) := by
  have hrotate : Ends flushRotate e (fun _ e' => NumberInv e' ∧ Shown prims acked e'.db)
      (ShownLeft prims acked) := by
    unfold flushRotate
    apply Ends.read_bind
    split
    · rename_i hlen
      exact Ends.mono (Ends.and (rotate_number h) (rotate_shown hshown (hserved hlen)))
        (fun _ _ hdone => hdone) fun _ _ hstop => hstop.2
    · exact Ends.ret ⟨h, hshown⟩
  have hflush : ∀ e' im, NumberInv e' ∧ Shown prims acked e'.db →
      e'.db.state.immutableMemtables.getLast? = some im →
      Ends (flushOne prims im) e' (fun _ e'' => NumberInv e'' ∧ Shown prims acked e''.db)
        (ShownLeft prims acked) := by
    intro e' im he' hlast
    exact Ends.mono (Ends.and (flushOne_number im he'.1 (List.mem_of_getLast? hlast))
      (flushOne_shown he'.2 he'.1.2 hlast)) (fun _ _ hdone => hdone) fun _ _ hstop => hstop.2
  exact Ends.mono (flush_ends hrotate hflush) (fun _ _ hdone => hdone.1.2) fun _ _ hstop => hstop

theorem call_shown {s : Sys} {c : Call} {faults : List Outcome} {db : Db} (hdb : s.db = some db)
    (hserved : RotationServed s (.call c faults)) (h : NumberInv ⟨db, ⟨s.log, faults⟩⟩)
    (hshown : Shown prims acked db) :
    Ends (c.run prims) ⟨db, ⟨s.log, faults⟩⟩
      (fun _ e' => Shown prims (acked ++ c.commits db) e'.db) (ShownLeft prims acked) := by
  cases c with
  | commit batch =>
    apply Ends.bind (Ends.and (commitHead_shown batch hshown) (Ends.self _ _))
    · intro full e' hdone
      obtain ⟨h', hrun⟩ := hdone
      cases full with
      | false => exact Ends.ret h'
      | true =>
        -- the rotation is served, so an error is a panic
        have hrot := hserved db hdb e' hrun
        apply Ends.mono (Ends.and (rotate_shown h' hrot) (rotate_served e' hrot))
        · exact fun _ _ hdone => hdone.1
        · rintro f _ ⟨-, msg, rfl⟩ ⟨err, herr⟩
          cases herr
    · exact fun _ _ hstop => hstop.1
  | flush =>
    rw [show Call.flush.commits db = [] from rfl, List.append_nil]
    exact flush_shown h hshown (hserved db hdb)
  | compactAll =>
    rw [show Call.compactAll.commits db = [] from rfl, List.append_nil]
    exact compactAll_shown hshown h.2

theorem Simulates.shadows {log : List VfsCall} {db : Db} (h : Simulates prims ⟨db, ⟨log, []⟩⟩ t) :
    Shadows prims db t := by
  have hm := h.mirrors
  refine ⟨hm.toServing, hm.walId, hm.next, hm.seqno, hm.segment, ?_⟩
  intro c hc
  rcases Store.mem_history.mp hc with ⟨x, hx, hcx⟩ | ⟨y, hy, hcy⟩
  · exact hm.dir.table_seqnos x hx c hcx
  · rcases List.mem_cons.mp hy with rfl | hy
    · exact hm.active_seqnos c hcy
    · exact hm.queue_seqnos y hy c hcy

end Calls

/-! ### Runs -/

/-- The calls of one session. Any of their file operations may fail, but for those
that make the next segment. -/
def Struggles (s : Sys) (a : Action) : Prop :=
  (∃ c faults, a = .call c faults) ∧ RotationServed s a

instance (s : Sys) : (a : Action) → Decidable (Struggles s a)
  | .call c faults => decidable_of_iff (RotationServed s (.call c faults))
      ⟨fun h => ⟨⟨c, faults, rfl⟩, h⟩, And.right⟩
  | .openDb _ _ | .drop | .crashOpen _ _ _ | .crashCall _ _ _ =>
    isFalse fun ⟨⟨_, _, h⟩, _⟩ => by cases h

section Runs

variable {prims : Primitives} {key : Option Bytes} {s₀ s : Sys} {db : Db}

theorem shown_step {s' : Sys} {a : Action} (hnum : Numbered s.log)
    (hfresh : ∀ db, s.db = some db → Fresh db s.log)
    (hshown : ∀ db, s.db = some db → Shown prims s.acked db) (hok : Struggles s a)
    (hnext : s.next prims a = some s') : ∀ db, s'.db = some db → Shown prims s'.acked db := by
  obtain ⟨⟨c, faults, rfl⟩, hserved⟩ := hok
  cases step_of_next hnext with
  | @returned _ _ db u e hdb hrun =>
    rintro _ ⟨⟩
    exact (call_shown hdb hserved ⟨hnum, hfresh db hdb⟩ (hshown db hdb)).of_ok hrun
  | @failed _ _ db err e hdb hrun =>
    rintro _ ⟨⟩
    exact (call_shown hdb hserved ⟨hnum, hfresh db hdb⟩ (hshown db hdb)).of_error hrun ⟨err, rfl⟩

theorem listsServed_of_quiet (s : Sys) (a : Action) (h : Quiet key s a) : ListsServed s a := by
  cases a with
  | openDb config faults =>
    rw [ListsServed, h.2]
    simp
  | crashOpen => exact h.elim
  | _ => trivial

theorem listsServed_of_struggles (s : Sys) (a : Action) (h : Struggles s a) : ListsServed s a := by
  obtain ⟨⟨c, faults, rfl⟩, -⟩ := h
  trivial

/-- After sessions without failures the last one may run into any, of commits, flushes
and compactions. As long as its rotations are served its scans return what was
acknowledged: a commit that failed is not seen, and neither is a flush or a
compaction, whether it failed or not. -/
theorem failures_unseen (hseal : SealWorks prims)
    (h₀ : Reach (Sys.next prims) (Quiet key) Sys.start s₀)
    (h : Reach (Sys.next prims) Struggles s₀ s) (hdb : s.db = some db) :
    ShowsExactly prims db s.acked := by
  obtain ⟨t₀, hmodels, hkept⟩ := reach_kept hseal h₀
  have hnum₀ : Numbered s₀.log ∧ ∀ db, s₀.db = some db → Fresh db s₀.log := by
    apply h₀.invariant (I := fun s => Numbered s.log ∧ ∀ db, s.db = some db → Fresh db s.log)
    · exact ⟨.nil, fun db hdb => by cases hdb⟩
    · exact fun s a s' hs hok hnext => numbered_step hs (listsServed_of_quiet s a hok) hnext
  have hinv : (Numbered s.log ∧ ∀ db, s.db = some db → Fresh db s.log) ∧
      ∀ db, s.db = some db → Shown prims s.acked db := by
    apply h.invariant (I := fun s => (Numbered s.log ∧ ∀ db, s.db = some db → Fresh db s.log) ∧
      ∀ db, s.db = some db → Shown prims s.acked db)
    · exact ⟨hnum₀, fun db hdb => ⟨t₀, (hmodels.opened db hdb).2.shadows, hkept⟩⟩
    · intro s a s' hs hok hnext
      exact ⟨numbered_step hs.1 (listsServed_of_struggles s a hok) hnext,
        shown_step hs.1.1 hs.1.2 hs.2 hok hnext⟩
  obtain ⟨t, hsh, hkept'⟩ := hinv.2 db hdb
  exact showsExactly_of_kept hsh.toServing hkept'

end Runs

/-- A commit whose record is cut short, one that is not synced and a flush that cannot
open its table. -/
theorem failures_unseen_mixed : ∃ s₀ s db,
    Reach (Sys.next .blank) (Quiet none) Sys.start s₀ ∧
    Reach (Sys.next .blank) Struggles s₀ s ∧ s.db = some db ∧
    s.acked = [(1, [.put [1] [2]]), (4, [.put [3] [4]])] ∧
    db.state.immutableMemtables.length = 1 ∧ ShowsExactly .blank db s.acked := by
  obtain ⟨s₀, hreach₀, hs₀⟩ := reach_of_runDecided
    (show (runOk (Sys.next .blank) (fun s a => decide (Quiet none s a)) Sys.start
      [.openDb .default [], .call (.commit [.put [1] [2]]) []]).map
      (fun s => decide ((runOk (Sys.next .blank) (fun s a => decide (Struggles s a)) s
        [.call (.commit [.put [1] [7]]) [.failed 5], .call (.commit [.delete [1]]) [.done, .failed 0],
          .call .flush [.done, .done, .failed 0], .call (.commit [.put [3] [4]]) []]).map
        (fun s' => decide (s'.acked = [(1, [.put [1] [2]]), (4, [.put [3] [4]])] ∧
          s'.db.map (fun db => db.state.immutableMemtables.length) = some 1)) = some true)) =
      some true by decide +kernel)
  obtain ⟨s, hreach, hs⟩ := reach_of_runDecided (of_decide_eq_true hs₀)
  obtain ⟨hacked, hqueue⟩ := of_decide_eq_true hs
  obtain ⟨db, hdb, hlen⟩ := Option.map_eq_some_iff.mp hqueue
  exact ⟨s₀, s, db, hreach₀, hreach, hdb, hacked, hlen,
    failures_unseen sealWorks_blank hreach₀ hreach hdb⟩

end PaddockKV.Engine
