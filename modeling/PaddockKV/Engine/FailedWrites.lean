import PaddockKV.Engine.Crashes

/-!
# What a failed write leaves behind

A commit that fails in the append leaves a part of its record, which no replay
delivers. After the whole record is in the segment nothing takes it back: when the
sync fails the record is replayed at the next open, and when the rotation fails the
batch is in a memtable already.
-/

namespace PaddockKV.Engine

open Io Wal Memtable Sstable Crypto History Transition

/-- The writer stands behind the whole records of its segment. -/
def TidyEnd (e : Env) : Prop :=
  ∃ header rs, (∀ r ∈ rs, r.seqno < u64Size) ∧ Tidy (walEnv e) header rs

/-- The outcomes do not let all of the record through. -/
def CutShort (db : Db) (batch : WriteBatch) (faults : List Outcome) : Prop :=
  ∀ encoded, encode batch = .ok encoded →
    reaching faults (recordAppends db.ctx.wal.blockOffset (db.seqno + 1) encoded) ≠
      recordBytes db.ctx.wal.blockOffset (db.seqno + 1) encoded

/-- Steps as in `QuietSmall`, but a commit may be cut short. Each commit finds the
writer behind the last whole record. -/
def Careful (key : Option Bytes) (s : Sys) : Action → Prop
  | .call (.commit batch) faults => batch.length ≤ maxOpsPerBatch ∧ ∀ db, s.db = some db →
      TidyEnd ⟨db, ⟨s.log, []⟩⟩ ∧ (faults = [] ∨ CutShort db batch faults)
  | a => Quiet key s a

/-- Reads show the commits that returned and nothing else: scans return their last
operations, and whatever record a lookup comes upon is one of theirs. -/
def ShowsAcked (prims : Primitives) (s : Sys) : Prop :=
  ∀ db, s.db = some db → ShowsExactly prims db s.acked ∧
    ∀ key snapshot r, findRec prims db.state key snapshot = .ok (some r) → r ∈ records s.acked

/-- After a call that returned an error. -/
def Sys.after (s : Sys) (e : Env) : Sys := ⟨e.world.log, some e.db, s.acked⟩

/-! ### Records in the store -/

section Store

variable {prims : Primitives} {t : Store} {acked : History}

theorem Store.probe_mem {key : Key} {snapshot : ℕ} {r : Rec}
    (h : t.probe key snapshot = some r) : r ∈ records t.history := by
  have hsource : ∃ x : ℕ × History, (x ∈ t.tables ∨ x ∈ t.memtables) ∧ r ∈ records x.2 := by
    rcases Option.or_eq_some_iff.mp h with hmem | ⟨-, htable⟩
    · obtain ⟨hist, hhist, hr⟩ := List.exists_of_findSome?_eq_some hmem
      have hx : ∃ x ∈ t.memtables, x.2 = hist := by
        rcases List.mem_cons.mp hhist with rfl | hhist
        · exact ⟨_, List.mem_cons_self, rfl⟩
        · obtain ⟨x, hx, rfl⟩ := List.mem_map.mp hhist
          exact ⟨x, List.mem_cons_of_mem _ hx, rfl⟩
      obtain ⟨x, hx, rfl⟩ := hx
      exact ⟨x, .inr hx, mem_sortedRecs.mp (List.mem_of_find?_eq_some hr)⟩
    · obtain ⟨x, hx, hr⟩ := List.exists_of_findSome?_eq_some htable
      have hr := (tableGet_some hr).1
      rw [blocksOf_flatten] at hr
      exact ⟨x, .inl hx, mem_sortedRecs.mp hr⟩
  obtain ⟨x, hx, hr⟩ := hsource
  obtain ⟨c, hc, hr⟩ := mem_records.mp hr
  refine mem_records.mpr ⟨c, Store.mem_history.mpr ?_, hr⟩
  rcases hx with hx | hx
  · exact .inl ⟨x, hx, hc⟩
  · exact .inr ⟨x, hx, hc⟩

theorem Store.Kept.records_history (h : t.Kept acked) {r : Rec} (hr : r ∈ records t.history) :
    r ∈ records acked := by
  obtain ⟨c, hc, op, hop, rfl⟩ := mem_records.mp hr
  exact mem_records.mpr ⟨c, (h.same c (List.ne_nil_of_mem hop)).mp hc, op, hop, rfl⟩

theorem Store.Kept.skip (h : t.Kept acked) : Store.Kept acked { t with seqno := t.seqno + 1 } :=
  { h with
    fed := { h.fed with }
    le_seqno := fun c hc hne => (h.le_seqno c hc hne).trans (Nat.le_succ _) }

theorem Store.Kept.not_mem_records (h : t.Kept acked) {r : Rec} (hr : t.seqno < r.seqno) :
    r ∉ records acked := by
  intro hmem
  obtain ⟨c, hc, op, hop, rfl⟩ := mem_records.mp hmem
  have hle := h.le_seqno c hc (List.ne_nil_of_mem hop)
  rw [toRec_seqno] at hr
  omega

theorem lookup_newest {h : History} {q : ℕ} {batch : WriteBatch} {op : Op}
    (hmem : (q, batch) ∈ h) (hop : op ∈ batch) :
    ∃ r, lookup (sortedRecs h) op.key q = some r ∧ r.seqno = q := by
  have hrec : op.toRec q ∈ sortedRecs h :=
    mem_sortedRecs.mpr (mem_records.mpr ⟨_, hmem, op, hop, rfl⟩)
  have hvis : (op.toRec q).Visible op.key q := by
    refine ⟨?_, (toRec_seqno q op).le⟩
    cases op <;> rfl
  rw [lookup_eq_newestRec (sortedRecs_sorted h)]
  cases hr : newestRec (sortedRecs h) op.key q with
  | none => exact absurd hvis (Newest.newest_eq_none_iff.mp hr _ hrec)
  | some r =>
    refine ⟨r, rfl, le_antisymm (Newest.newest_mem hr).2.2 ?_⟩
    have hle := Newest.le_newest hr hrec hvis
    rwa [toRec_seqno] at hle

theorem showsAcked_of_serving {s : Sys} (hkept : t.Kept s.acked)
    (hserving : ∀ db, s.db = some db → Serving prims db.state t) : ShowsAcked prims s := by
  intro db hdb
  refine ⟨showsExactly_of_kept (hserving db hdb) hkept, ?_⟩
  intro key snapshot r hr
  rw [findRec_serving (hserving db hdb)] at hr
  exact hkept.records_history (Store.probe_mem (Except.ok.inj hr))

theorem not_showsAcked {s : Sys} {db : Db} {t' : Store} {r : Rec} (key : Key) (snapshot : ℕ)
    (hdb : s.db = some db) (hserving : Serving prims db.state t') (hkept : t.Kept s.acked)
    (hprobe : t'.probe key snapshot = some r) (hr : t.seqno < r.seqno) : ¬ ShowsAcked prims s := by
  intro hshows
  refine hkept.not_mem_records hr ((hshows db hdb).2 key snapshot r ?_)
  rw [findRec_serving hserving, hprobe]

end Store

/-! ### Commits that fail -/

section Commits

variable {prims : Primitives} {e : Env} {t : Store} {batch : WriteBatch}

theorem TidyEnd.offset_le (h : TidyEnd e) : e.db.ctx.wal.blockOffset ≤ blockSize := by
  obtain ⟨-, -, -, -, -, -, -, hle, -⟩ := h
  exact hle

theorem Mirrors.tidySegment (h : Mirrors prims e t) (htidy : TidyEnd e) : TidySegment e t := by
  obtain ⟨header, rs, hrs, pad, sync, hpad, hdisk, hle, hoff⟩ := htidy
  obtain ⟨hist, hmem⟩ := h.segment
  obtain ⟨file, sync', hdisk', firstSeqno, views, area, out, hfs, henc, hfile, hreads⟩ :=
    h.dir.wals _ hmem
  have hsome : e.world.disk (.wal t.walId) = some _ := h.file ▸ hdisk
  cases hdisk'.symm.trans hsome
  -- both headers have the same length, and a file is read in one way only
  have hheader : (SegmentHeader.newSigned t.walId firstSeqno).asBytes = header.asBytes := by
    refine (List.append_inj hfile.symm ?_).1
    rw [segmentHeader_length, segmentHeader_length]
  have hviews : views = rs := reads_unique hreads (reads_then_zeros header rs pad hrs)
  subst hviews
  refine ⟨firstSeqno, views, hist, hfs, hmem, henc, h.file, pad, sync, hpad, ?_, hle, hoff⟩
  rw [hheader]
  exact hdisk

theorem commitBatch_failed (batch : WriteBatch) (e : Env) :
    Ends (commitBatch batch) e
      (fun _ _ => ∃ full e₁, HeadDone batch e full e₁) fun f e' => HeadStopped batch e f e' ∨
        ∃ e₁, HeadDone batch e true e₁ ∧ RotateStopped e₁ f e' := by
  unfold commitBatch
  refine Ends.bind (commitHead_ends batch e) ?_ (fun _ _ hstop => .inl hstop)
  intro full e₁ hdone
  cases full with
  | false => exact Ends.ret ⟨false, e₁, hdone⟩
  | true =>
    refine Ends.mono (rotateMemtableLocked_ends e₁) ?_ ?_
    · intro _ _ _
      exact ⟨true, e₁, hdone⟩
    · intro _ _ hstop
      exact .inr ⟨e₁, hdone, hstop⟩

variable {db : Db} {log : List VfsCall} {faults : List Outcome}

theorem commit_cut (h : Mirrors prims ⟨db, ⟨log, []⟩⟩ t) (htidy : TidyEnd ⟨db, ⟨log, []⟩⟩)
    (hcut : CutShort db batch faults) :
    Ends (commitBatch batch) ⟨db, ⟨log, faults⟩⟩ (fun _ _ => False) fun f e' => Panicked f ∨
      e'.db.config = db.config ∧
        Mirrors prims ⟨e'.db, ⟨e'.world.log, []⟩⟩ { t with seqno := t.seqno + 1 } := by
  have hsegment := h.tidySegment htidy
  have hle : db.ctx.wal.blockOffset ≤ blockSize := htidy.offset_le
  have happend := fun encoded => SegmentWriter.appendRecord_reaching (db.seqno + 1) encoded
    (walEnv ⟨db, ⟨log, faults⟩⟩) hle
  refine Ends.mono (commitBatch_failed batch ⟨db, ⟨log, faults⟩⟩) ?_ ?_
  · rintro _ _ ⟨full, e₁, encoded, t₁, m, ⟨hencode, -, start, t₂, happ, -⟩, -⟩
    exact hcut encoded hencode ((happend encoded).of_ok happ)
  · rintro f e' (hstop | ⟨e₁, ⟨encoded, t₁, m, ⟨hencode, -, start, t₂, happ, -⟩, -⟩, -⟩)
    · cases hstop with
      | before _ => exact .inl ⟨_, rfl⟩
      | after _ _ => exact .inl ⟨_, rfl⟩
      | sync hencode happ _ _ => exact absurd ((happend _).of_ok happ) (hcut _ hencode)
      | @append encoded _ t' hencode happ hseq =>
        refine ((happend encoded).of_error happ).imp id ?_
        rintro ⟨hfile, evs, hevs, hlog⟩
        have hne := hcut encoded hencode
        have hprefix := reaching_prefix faults
          (recordAppends db.ctx.wal.blockOffset (db.seqno + 1) encoded)
        rw [recordAppends_flatten] at hprefix
        have hseqno : db.seqno = t.seqno := h.seqno
        rw [show (walEnv ⟨db, ⟨log, faults⟩⟩).writer.file = .wal t.walId from h.file] at hevs
        rw [hseqno] at hseq hne hprefix
        change Appends _ _ (reaching faults (recordAppends db.ctx.wal.blockOffset (db.seqno + 1)
          encoded)) at hevs
        rw [hseqno] at hevs
        rcases h.dir.appended hsegment hencode hseq hevs hprefix with ⟨hfull, -⟩ | ⟨-, hdir⟩
        · exact absurd hfull hne
        · have hdisk : diskOf t'.world.log = diskOf (evs ++ log) := congrArg diskOf hlog
          refine ⟨rfl, { h with
            dir := ?_
            seqno := congrArg (· + 1) hseqno
            file := hfile.trans h.file
            faults := rfl }⟩
          show Directory prims db.config (diskOf t'.world.log) _
          rw [hdisk]
          exact { hdir with }
    · exact absurd ((happend encoded).of_ok happ) (hcut encoded hencode)

/-- The whole record reached the segment. Then it is there for the next session, or
the batch is in the first queued memtable. -/
theorem commit_whole (h : Mirrors prims ⟨db, ⟨log, []⟩⟩ t) (htidy : TidyEnd ⟨db, ⟨log, []⟩⟩)
    (hwhole : ¬ CutShort db batch faults) :
    Ends (commitBatch batch) ⟨db, ⟨log, faults⟩⟩ (fun _ _ => True) fun f e' => Panicked f ∨
      Directory prims db.config (diskOf e'.world.log) (t.commit batch) ∨
      Serving prims e'.db.state (t.commit batch).rotate := by
  have hsegment := h.tidySegment htidy
  have hseqno : db.seqno = t.seqno := h.seqno
  have hle : db.ctx.wal.blockOffset ≤ blockSize := htidy.offset_le
  -- a record that was written whole
  have hdir : ∀ {encoded : Bytes} {t' : WalEnv}, encode batch = .ok encoded →
      db.seqno + 1 < u64Size → Wal.Wrote (walEnv ⟨db, ⟨log, faults⟩⟩) t'
        (recordBytes db.ctx.wal.blockOffset (db.seqno + 1) encoded) →
      Directory prims db.config (diskOf t'.world.log) (t.commit batch) := by
    rintro encoded t' hencode hseq ⟨-, evs, hevs, hlog⟩
    rw [show (walEnv ⟨db, ⟨log, faults⟩⟩).writer.file = .wal t.walId from h.file] at hevs
    rw [hseqno] at hevs hseq
    rw [hlog]
    rcases h.dir.appended hsegment hencode hseq hevs List.prefix_rfl with ⟨-, hdir⟩ | ⟨hne, -⟩
    · exact hdir
    · exact absurd rfl hne
  refine Ends.mono (commitBatch_failed batch ⟨db, ⟨log, faults⟩⟩) (fun _ _ _ => trivial) ?_
  rintro f e' (hstop | ⟨e₁, ⟨encoded, t₁, m, -, hm, rfl, -⟩, hrotate⟩)
  · cases hstop with
    | before _ => exact .inl ⟨_, rfl⟩
    | after _ _ => exact .inl ⟨_, rfl⟩
    | @sync encoded _ start t' t'' hencode happ hsync hseq =>
      refine .inr (.inl ?_)
      have hdone := (SegmentWriter.appendRecord_ends _ _ _ hle).of_ok happ
      show Directory prims db.config (diskOf t''.world.log) _
      rw [((walSync_ends t').of_error hsync).2]
      exact hdir hencode hseq hdone.wrote
    | @append encoded _ t' hencode happ hseq =>
      have hend := (SegmentWriter.appendRecord_reaching (db.seqno + 1) encoded
        (walEnv ⟨db, ⟨log, faults⟩⟩) hle).of_error happ
      refine hend.imp id fun hwrote => .inl ?_
      simp only [CutShort, not_forall, not_not] at hwhole
      obtain ⟨encoded', hencode', hall⟩ := hwhole
      cases hencode.symm.trans hencode'
      refine hdir hencode hseq ?_
      rw [← hall]
      exact hwrote
  · refine .inr (.inr ?_)
    rw [hseqno] at hm
    have happlied : Serving prims { db.state with activeMemtable := m } (t.commit batch) :=
      ⟨recs_apply h.active hm, h.queue, h.tables⟩
    rw [hrotate.state]
    exact happlied.queueActive h.walId

end Commits

/-! ### Careful runs -/

/-- The store follows the system and holds the commits that returned. -/
structure Tracked (prims : Primitives) (key : Option Bytes) (s : Sys) (t : Store) : Prop where
  follows : Follows prims key s t
  kept : t.Kept s.acked
  small : ∀ c ∈ s.acked, c.2.length ≤ maxOpsPerBatch

section Runs

variable {prims : Primitives} {key : Option Bytes} {s s' s₂ : Sys} {t : Store} {db : Db}
  {batch : WriteBatch} {faults : List Outcome}

theorem tracked_start (prims : Primitives) (key : Option Bytes) :
    Tracked prims key Sys.start Store.empty := by
  refine ⟨(models_start prims key).follows, Store.kept_empty, ?_⟩
  intro c hc
  cases hc

theorem Tracked.showsAcked (h : Tracked prims key s t) : ShowsAcked prims s :=
  showsAcked_of_serving h.kept fun db hdb => (h.follows.opened db hdb).2.toServing

theorem Tracked.quiet {a : Action} (hseal : SealWorks prims) (h : Tracked prims key s t)
    (hok : Quiet key s a) (hsmall : SmallBatch a)
    (htidy : ∀ batch db, a = .call (.commit batch) [] → s.db = some db →
      TidyEnd ⟨db, ⟨s.log, []⟩⟩)
    (hn : s.next prims a = some s') : ∃ t', Tracked prims key s' t' := by
  obtain ⟨t', hfollows, -, hmoves⟩ := step_follows hseal hok
    (fun batch db ha hdb => (h.follows.opened db hdb).2.tidySegment (htidy batch db ha hdb))
    h.follows hn
  exact ⟨t', hfollows, kept_moves h.kept hmoves, small_next hsmall hn h.small⟩

theorem Tracked.cut {err : Error} {e : Env} (h : Tracked prims key s t) (hdb : s.db = some db)
    (htidy : TidyEnd ⟨db, ⟨s.log, []⟩⟩) (hcut : CutShort db batch faults)
    (hfail : commitBatch batch ⟨db, ⟨s.log, faults⟩⟩ = .error (.err err) e) :
    Tracked prims key (s.after e) { t with seqno := t.seqno + 1 } := by
  obtain ⟨hkey, hm⟩ := h.follows.opened db hdb
  rcases (commit_cut hm htidy hcut).of_error hfail with ⟨msg, hmsg⟩ | ⟨hconfig, hm'⟩
  · cases hmsg
  · refine ⟨⟨?_, ?_⟩, h.kept.skip, h.small⟩
    · intro hnone
      cases hnone
    · rintro _ ⟨⟩
      rw [hconfig]
      exact ⟨hkey, hm'⟩

theorem Tracked.step {a : Action} (hseal : SealWorks prims) (h : Tracked prims key s t)
    (hok : Careful key s a) (hn : s.next prims a = some s') : ∃ t', Tracked prims key s' t' := by
  have hother : Quiet key s a → SmallBatch a → (∀ batch, a ≠ .call (.commit batch) []) →
      ∃ t', Tracked prims key s' t' := fun hquiet hsmall hne =>
    h.quiet hseal hquiet hsmall (fun batch _ ha _ => absurd ha (hne batch)) hn
  cases a with
  | call c faults =>
    cases c with
    | commit batch =>
      obtain ⟨hsmall, hdbs⟩ := hok
      by_cases hquiet : faults = []
      · subst hquiet
        refine Tracked.quiet (a := .call (.commit batch) []) hseal h rfl hsmall ?_ hn
        intro _ db _ hdb
        exact (hdbs db hdb).1
      · cases step_of_next hn with
        | @returned _ _ db u e hdb hrun =>
          obtain ⟨htidy, hcut⟩ := hdbs db hdb
          have hm := (h.follows.opened db hdb).2
          exact ((commit_cut hm htidy (hcut.resolve_left hquiet)).of_ok hrun).elim
        | @failed _ _ db err e hdb hrun =>
          obtain ⟨htidy, hcut⟩ := hdbs db hdb
          exact ⟨_, h.cut hdb htidy (hcut.resolve_left hquiet) hrun⟩
    | flush => exact hother hok trivial (by simp)
    | compactAll => exact hother hok trivial (by simp)
  | openDb config faults => exact hother hok trivial (by simp)
  | drop => exact hother hok trivial (by simp)
  | crashOpen config faults kept => cases hok
  | crashCall c faults kept => cases hok

theorem reach_tracked {s₀ : Sys} {t₀ : Store} (hseal : SealWorks prims)
    (h : Reach (Sys.next prims) (Careful key) s₀ s) (h₀ : Tracked prims key s₀ t₀) :
    ∃ t, Tracked prims key s t := by
  refine h.invariant (I := fun s => ∃ t, Tracked prims key s t) ⟨t₀, h₀⟩ ?_
  rintro s a s' ⟨t, ht⟩ hok hn
  exact ht.step hseal hok hn

theorem reach_careful (hseal : SealWorks prims)
    (h : Reach (Sys.next prims) (QuietSmall key) Sys.start s) :
    Reach (Sys.next prims) (Careful key) Sys.start s ∧
      ∀ db, s.db = some db → TidyEnd ⟨db, ⟨s.log, []⟩⟩ := by
  have htidy : ∀ {s}, Reach (Sys.next prims) (QuietSmall key) Sys.start s →
      ∀ db, s.db = some db → TidyEnd ⟨db, ⟨s.log, []⟩⟩ := by
    intro s h db hdb
    obtain ⟨t, hmodels, -⟩ := reach_kept hseal (h.mono fun _ _ hok => hok.1)
    have hsim := (hmodels.opened db hdb).2
    obtain ⟨firstSeqno, views, hist, -, hmem, henc, -, htidy⟩ := hsim.tidySegment
    refine ⟨_, views, ?_, htidy⟩
    intro v hv
    obtain ⟨c, hc, hvc⟩ := forall₂_exists_right henc hv
    rw [hvc.1]
    exact hsim.dir.wal_seqnos _ hmem c hc
  refine ⟨?_, htidy h⟩
  induction h with
  | refl => exact .refl
  | @step s s' a hreach hok hn ih =>
    refine .step a ih ?_ hn
    obtain ⟨hquiet, hsmall⟩ := hok
    cases a with
    | call c faults =>
      cases c with
      | commit batch => exact ⟨hsmall, fun db hdb => ⟨htidy hreach db hdb, .inl hquiet⟩⟩
      | flush => exact hquiet
      | compactAll => exact hquiet
    | openDb config faults => exact hquiet
    | drop => exact hquiet
    | crashOpen config faults kept => exact hquiet
    | crashCall c faults kept => exact hquiet

theorem Tracked.whole_shows {config : DbConfig} {err : Error} {e : Env}
    (h : Tracked prims key s t) (hdb : s.db = some db) (htidy : TidyEnd ⟨db, ⟨s.log, []⟩⟩)
    (hne : batch ≠ []) (hsmall : batch.length ≤ maxOpsPerBatch)
    (hwhole : ¬ CutShort db batch faults)
    (hfail : commitBatch batch ⟨db, ⟨s.log, faults⟩⟩ = .error (.err err) e)
    (hkey : config.masterKey = key)
    (hagain : run (Sys.next prims) (s.after e) [.drop, .openDb config []] = some s₂) :
    ¬ (ShowsAcked prims (s.after e) ∧ ShowsAcked prims s₂) := by
  obtain ⟨hkey', hm⟩ := h.follows.opened db hdb
  obtain ⟨op, hop⟩ := List.exists_mem_of_ne_nil batch hne
  rintro ⟨hshows, hshows'⟩
  rcases (commit_whole hm htidy hwhole).of_error hfail with ⟨msg, hmsg⟩ | hdir | hserving
  · cases hmsg
  · -- the record is replayed
    have hdir := hdir.config (hkey.trans hkey'.symm)
    have hkept := h.kept.commit batch hm.segment
    have hsmall' : ∀ c ∈ s.acked ++ [(t.seqno + 1, batch)], c.2.length ≤ maxOpsPerBatch := by
      intro c hc
      rcases List.mem_append.mp hc with hc | hc
      · exact h.small c hc
      · rw [List.mem_singleton.mp hc]
        exact hsmall
    obtain ⟨s₁, hdrop, hagain⟩ := Option.bind_eq_some_iff.mp hagain
    obtain ⟨s₃, hopen, hnil⟩ := Option.bind_eq_some_iff.mp hagain
    cases hnil
    cases hdrop
    obtain ⟨db₂, hdb₂, hacked, hsim⟩ := opens_small hdir hkept hsmall' hopen
    obtain ⟨x, hx⟩ := hm.segment
    have hmem : (t.seqno + 1, batch) ∈ (t.commit batch).reopen.active :=
      Store.mem_flatten_snd.mpr ⟨_, mem_update_self (· ++ [(t.seqno + 1, batch)]) hx,
        List.mem_append_right _ (List.mem_singleton_self _)⟩
    obtain ⟨r, hr, hseq⟩ := lookup_newest hmem hop
    refine not_showsAcked (t := t) (r := r) op.key (t.seqno + 1) hdb₂ hsim.serving ?_ ?_ ?_ hshows'
    · rw [hacked]
      exact h.kept
    · rw [Store.probe, List.findSome?_cons, hr]
      rfl
    · omega
  · -- the batch is in the memtable that was queued
    have hmem : (t.seqno + 1, batch) ∈ t.active ++ [(t.seqno + 1, batch)] :=
      List.mem_append_right _ (List.mem_singleton_self _)
    obtain ⟨r, hr, hseq⟩ := lookup_newest hmem hop
    refine not_showsAcked (s := s.after e) (r := r) op.key (t.seqno + 1) rfl hserving h.kept ?_ ?_
      hshows
    · show (([] :: (t.active ++ [(t.seqno + 1, batch)]) :: _).findSome? _).or _ = _
      rw [List.findSome?_cons, List.findSome?_cons, hr]
      rfl
    · omega

/-- A write that returned an error leaves no trace in this session and the next if and
only if its record did not get through whole. Then no later read of a careful run
shows it. -/
theorem failed_write_unseen_iff {config : DbConfig} {err : Error} {e : Env}
    (hseal : SealWorks prims) (h : Reach (Sys.next prims) (Careful key) Sys.start s)
    (hdb : s.db = some db) (htidy : TidyEnd ⟨db, ⟨s.log, []⟩⟩) (hne : batch ≠ [])
    (hsmall : batch.length ≤ maxOpsPerBatch)
    (hfail : commitBatch batch ⟨db, ⟨s.log, faults⟩⟩ = .error (.err err) e)
    (hkey : config.masterKey = key)
    (hagain : run (Sys.next prims) (s.after e) [.drop, .openDb config []] = some s₂) :
    (ShowsAcked prims (s.after e) ∧ ShowsAcked prims s₂ ↔ CutShort db batch faults) ∧
    (CutShort db batch faults →
      ∀ s', Reach (Sys.next prims) (Careful key) (s.after e) s' → ShowsAcked prims s') := by
  obtain ⟨t, ht⟩ := reach_tracked hseal h (tracked_start prims key)
  have hlater : CutShort db batch faults →
      ∀ s', Reach (Sys.next prims) (Careful key) (s.after e) s' → ShowsAcked prims s' := by
    intro hcut s' hreach
    obtain ⟨t', ht'⟩ := reach_tracked hseal hreach (ht.cut hdb htidy hcut hfail)
    exact ht'.showsAcked
  refine ⟨⟨?_, ?_⟩, hlater⟩
  · intro hshows
    by_contra hwhole
    exact ht.whole_shows hdb htidy hne hsmall hwhole hfail hkey hagain hshows
  · intro hcut
    refine ⟨hlater hcut _ .refl, hlater hcut _ ?_⟩
    obtain ⟨s₁, hdrop, hagain⟩ := Option.bind_eq_some_iff.mp hagain
    obtain ⟨s₃, hopen, hnil⟩ := Option.bind_eq_some_iff.mp hagain
    cases hnil
    have hcareful : Careful key s₁ (.openDb config []) := ⟨hkey, rfl⟩
    exact .step _ (.step .drop .refl trivial hdrop) hcareful hopen

end Runs

/-! ### A put that fails -/

section Puts

set_option maxRecDepth 100000

-- the header of the record is torn after five bytes
theorem failed_write_unseen_iff_torn : ∃ s db err e s₂,
    Reach (Sys.next .blank) (Careful none) Sys.start s ∧ s.db = some db ∧
      commitBatch [.put [1] [2]] ⟨db, ⟨s.log, [.failed 5]⟩⟩ = .error (.err err) e ∧
      run (Sys.next .blank) (s.after e) [.drop, .openDb .default []] = some s₂ ∧
      CutShort db [.put [1] [2]] [.failed 5] ∧
      ShowsAcked .blank (s.after e) ∧ ShowsAcked .blank s₂ ∧
      ∀ s', Reach (Sys.next .blank) (Careful none) (s.after e) s' → ShowsAcked .blank s' := by
  obtain ⟨s, hreach, hs⟩ := reach_of_runDecided
    (show (runOk (Sys.next .blank) (fun s a => decide (QuietSmall none s a)) Sys.start
      [.openDb .default []]).map (fun s => (s.db.bind fun db =>
        (s.next .blank (.call (.commit [.put [1] [2]]) [.failed 5])).bind fun s₁ =>
          (run (Sys.next .blank) s₁ [.drop, .openDb .default []]).map fun _ =>
            decide (s₁.acked = [] ∧
              reaching [.failed 5]
                (recordAppends db.ctx.wal.blockOffset (db.seqno + 1) [1, 0, 1, 1, 1, 2]) ≠
                recordBytes db.ctx.wal.blockOffset (db.seqno + 1) [1, 0, 1, 1, 1, 2])) ==
        some true) = some true by
      decide +kernel)
  obtain ⟨hcareful, htidy⟩ := reach_careful sealWorks_blank hreach
  obtain ⟨db, hdb, hs⟩ := Option.bind_eq_some_iff.mp (beq_iff_eq.mp hs)
  obtain ⟨s₁, hcommit, hs⟩ := Option.bind_eq_some_iff.mp hs
  obtain ⟨s₂, hagain, heq⟩ := Option.map_eq_some_iff.mp hs
  obtain ⟨hacked, hbytes⟩ := of_decide_eq_true heq
  have hcut : CutShort db [.put [1] [2]] [.failed 5] := by
    intro encoded henc
    cases (show encode [.put [1] [2]] = .ok [1, 0, 1, 1, 1, 2] by decide).symm.trans henc
    exact hbytes
  cases step_of_next hcommit with
  | returned => exact absurd hacked (by simp [Call.commits])
  | @failed _ _ db' err e hdb' hfail =>
    cases hdb.symm.trans hdb'
    obtain ⟨hiff, hlater⟩ := failed_write_unseen_iff sealWorks_blank hcareful hdb (htidy db hdb)
      (List.cons_ne_nil _ _) (by decide) hfail rfl hagain
    exact ⟨s, db, err, e, s₂, hcareful, hdb, hfail, hagain, hcut, (hiff.mpr hcut).1,
      (hiff.mpr hcut).2, hlater hcut⟩

-- the sync fails, and the next session shows the put; or with a threshold of one byte
-- the rotation fails, and this session shows it
theorem failed_write_shows :
    (∃ s db, run (Sys.next .blank) Sys.start
      [.openDb .default [], .call (.commit [.put [1] [2]]) [.done, .done, .failed 0], .drop,
        .openDb .default []] = some s ∧
      s.acked = [] ∧ s.db = some db ∧ getAt .blank db.state [1] db.seqno = .ok (some [2])) ∧
    ∃ s db, run (Sys.next .blank) Sys.start
      [.openDb { DbConfig.default with memtableThresholdBytes := 1 } [],
        .call (.commit [.put [1] [2]]) [.done, .done, .done, .failed 0]] = some s ∧
      s.acked = [] ∧ s.db = some db ∧ getAt .blank db.state [1] db.seqno = .ok (some [2]) := by
  have hshown : ∀ actions : List Action, (run (Sys.next .blank) Sys.start actions).map (fun s =>
      decide (s.acked = [] ∧ (s.db.map fun db => getAt .blank db.state [1] db.seqno) =
        some (.ok (some [2])))) = some true →
      ∃ s db, run (Sys.next .blank) Sys.start actions = some s ∧ s.acked = [] ∧
        s.db = some db ∧ getAt .blank db.state [1] db.seqno = .ok (some [2]) := by
    intro actions hrun
    obtain ⟨s, hs, heq⟩ := Option.map_eq_some_iff.mp hrun
    obtain ⟨hacked, hget⟩ := of_decide_eq_true heq
    obtain ⟨db, hdb, hget⟩ := Option.map_eq_some_iff.mp hget
    exact ⟨s, db, hs, hacked, hdb, hget⟩
  exact ⟨hshown _ (by decide +kernel), hshown _ (by decide +kernel)⟩

end Puts

end PaddockKV.Engine
