import PaddockKV.Engine.Recovery

/-!
# Segments and the memtables they feed

`flush_one` takes a memtable off the queue, and unlinks a segment, by the id of
the segment. That is right as long as no two memtables share an id. A rotation
stores the new engine state before it has the next segment, so when the segment
cannot be made the memtable that was queued and the one that now fills have the
same id. In runs without such a failure the ids stay apart.
-/

namespace PaddockKV.Engine

open Io Wal Memtable Crypto Transition

/-- The ids of the queue are distinct and none is that of the open segment. -/
structure WalIdsApart (db : Db) : Prop where
  nodup : (db.state.immutableMemtables.map ImmutableMemtable.walSegmentId).Nodup
  notOpen : ∀ im ∈ db.state.immutableMemtables, im.walSegmentId ≠ db.ctx.walSegmentId

/-- The outcomes of the calls a rotation makes: `open_writable` and the append of
the header. -/
def SegmentServed (faults : List Outcome) : Prop := ∀ o ∈ faults.take 2, o = .done

instance (faults : List Outcome) : Decidable (SegmentServed faults) :=
  inferInstanceAs (Decidable (∀ o ∈ faults.take 2, _))

/-- No file-layer call of a rotation fails. -/
def RotationServed (s : Sys) : Action → Prop
  | .call (.commit batch) faults => ∀ db, s.db = some db → ∀ e,
      commitHead batch ⟨db, ⟨s.log, faults⟩⟩ = .ok true e → SegmentServed e.world.faults
  | .call .flush faults => ∀ db, s.db = some db → db.state.activeMemtable.len ≠ 0 →
      SegmentServed faults
  | _ => True

/-- What is to hold where a call has answered `true`. -/
def decidableReturned {σ : Type} (P : σ → Prop) [DecidablePred P] :
    (r : EStateM.Result Fault σ Bool) → Decidable (∀ e, r = .ok true e → P e)
  | .ok true e => decidable_of_iff (P e)
      ⟨fun h _ heq => (EStateM.Result.ok.inj heq).2 ▸ h, fun h => h e rfl⟩
  | .ok false _ => isTrue fun _ h => by cases h
  | .error _ _ => isTrue fun _ h => by cases h

instance (s : Sys) : (a : Action) → Decidable (RotationServed s a)
  | .call (.commit batch) faults =>
    haveI : ∀ db : Db, Decidable (∀ e, commitHead batch ⟨db, ⟨s.log, faults⟩⟩ = .ok true e →
        SegmentServed e.world.faults) :=
      fun _ => decidableReturned (fun e : Env => SegmentServed e.world.faults) _
    inferInstanceAs (Decidable (∀ db ∈ s.db, _))
  | .call .flush faults =>
    inferInstanceAs (Decidable (∀ db ∈ s.db, db.state.activeMemtable.len ≠ 0 → SegmentServed faults))
  | .call .compactAll _ | .openDb _ _ | .drop | .crashOpen _ _ _ | .crashCall _ _ _ =>
    instDecidableTrue

/-- Ids are handed out in ascending order. -/
structure WalIdsInv (db : Db) : Prop extends WalIdsApart db where
  queued_lt : ∀ im ∈ db.state.immutableMemtables, im.walSegmentId < db.ctx.nextFileNumber
  open_lt : db.ctx.walSegmentId < db.ctx.nextFileNumber

section

variable {prims : Primitives} {db db' : Db}

theorem WalIdsInv.of_eq (h : WalIdsInv db)
    (hqueue : db'.state.immutableMemtables = db.state.immutableMemtables)
    (hopen : db'.ctx.walSegmentId = db.ctx.walSegmentId)
    (hnext : db.ctx.nextFileNumber ≤ db'.ctx.nextFileNumber) : WalIdsInv db' := by
  refine ⟨⟨?_, ?_⟩, ?_, ?_⟩
  · rw [hqueue]
    exact h.nodup
  · rw [hqueue, hopen]
    exact h.notOpen
  · rw [hqueue]
    intro im him
    exact (h.queued_lt im him).trans_le hnext
  · rw [hopen]
    exact h.open_lt.trans_le hnext

theorem walIdsInv_rotated (h : WalIdsInv db) : WalIdsInv (rotated db) := by
  have hopen := h.open_lt
  refine ⟨⟨?_, ?_⟩, ?_, Nat.lt_succ_self _⟩
  · refine List.nodup_cons.mpr ⟨?_, h.nodup⟩
    intro hmem
    obtain ⟨im, him, heq⟩ := List.mem_map.mp hmem
    exact h.notOpen im him heq
  · intro im him heq
    change im.walSegmentId = db.ctx.nextFileNumber at heq
    rcases List.mem_cons.mp him with rfl | him
    · exact hopen.ne heq
    · exact (h.queued_lt im him).ne heq
  · intro im him
    change im.walSegmentId < db.ctx.nextFileNumber + 1
    rcases List.mem_cons.mp him with rfl | him
    · exact hopen.trans (Nat.lt_succ_self _)
    · exact (h.queued_lt im him).trans (Nat.lt_succ_self _)

theorem walIdsInv_flushed (h : WalIdsInv db) (im : ImmutableMemtable) (reader : Sstable.SstReader) :
    WalIdsInv (flushed im reader db) := by
  have hsub := List.filter_sublist (p := fun m => decide (m.walSegmentId ≠ im.walSegmentId))
    (l := db.state.immutableMemtables)
  refine ⟨⟨h.nodup.sublist (hsub.map _), ?_⟩, ?_, ?_⟩
  · intro x hx
    exact h.notOpen x (hsub.subset hx)
  · intro x hx
    exact (h.queued_lt x (hsub.subset hx)).trans (Nat.lt_succ_self _)
  · exact h.open_lt.trans (Nat.lt_succ_self _)

theorem perform_served {w : World} (onDone : World → World) (onFailed : ℕ → World → World)
    (msg : String) (h : ∀ o ∈ w.faults.take 1, o = .done) :
    Ends (perform onDone onFailed msg) w
      (fun _ w' => w' = onDone { w with faults := w.faults.tail }) fun _ _ => False := by
  obtain ⟨log, faults⟩ := w
  unfold Ends
  cases faults with
  | nil => exact rfl
  | cons o faults =>
    obtain rfl : o = .done := h o (by simp)
    exact rfl

theorem create_served {w : World} (name : FileName) (id firstSeqno : ℕ)
    (h : ∀ o ∈ w.faults.take 1, o = .done) :
    Ends (SegmentWriter.create name id firstSeqno) w (fun _ _ => True) fun _ _ => False :=
  Ends.bind (perform_served _ _ _ h) (fun _ _ _ => Ends.ret trivial) fun _ _ h => h

theorem rotate_served (e : Env) (h : SegmentServed e.world.faults) :
    Ends rotateMemtableLocked e (fun _ _ => True) fun f _ => ∃ msg, f = .panicked msg := by
  have hfirst : ∀ o ∈ e.world.faults.take 1, o = .done := by
    intro o ho
    exact h o ((List.take_prefix_take_left (by omega)).subset ho)
  have hsecond : ∀ o ∈ e.world.faults.tail.take 1, o = .done := by
    intro o ho
    rw [← List.drop_one, List.take_drop] at ho
    exact h o (List.mem_of_mem_drop ho)
  unfold rotateMemtableLocked
  refine Ends.update_bind (Ends.bind (reserveFileNumber_ends _) ?_ ?_)
  · rintro n _ ⟨rfl, rfl, -⟩
    refine Ends.bind (Ends.zoom (perform_served _ _ _ hfirst)) ?_ (fun _ _ ⟨_, _, h⟩ => h.elim)
    rintro - _ ⟨_, rfl, rfl⟩
    refine Ends.read_bind (Ends.addU64_bind ?_ (fun _ => ⟨_, rfl⟩))
    intro _
    exact Ends.bind (Ends.zoom (create_served _ _ _ hsecond)) (fun _ _ _ => Ends.update trivial)
      (fun _ _ ⟨_, _, h⟩ => h.elim)
  · rintro f _ ⟨rfl, -⟩
    exact ⟨_, rfl⟩

/-! ### Calls -/

theorem walIdsInv_commitHead (batch : WriteBatch) {e : Env} (h : WalIdsInv e.db) :
    Ends (commitHead batch) e (fun _ e' => WalIdsInv e'.db)
      fun f e' => (∃ err, f = .err err) → WalIdsInv e'.db := by
  refine Ends.mono (commitHead_ends batch e) ?_ ?_
  · rintro full _ ⟨encoded, t, m, -, -, rfl, -⟩
    exact h.of_eq rfl rfl le_rfl
  · rintro f e' hstop ⟨err, rfl⟩
    cases hstop with
    | append _ _ => exact h.of_eq rfl rfl le_rfl
    | sync _ _ _ => exact h.of_eq rfl rfl le_rfl

theorem walIdsInv_rotate {e : Env} (h : WalIdsInv e.db) (hserved : SegmentServed e.world.faults) :
    Ends rotateMemtableLocked e (fun _ e' => WalIdsInv e'.db)
      fun f e' => (∃ err, f = .err err) → WalIdsInv e'.db := by
  refine Ends.mono (Ends.and (rotateMemtableLocked_ends e) (rotate_served e hserved)) ?_ ?_
  · rintro - e' ⟨⟨hdb, -⟩, -⟩
    rw [hdb]
    exact walIdsInv_rotated h
  · rintro f e' ⟨-, msg, rfl⟩ ⟨err, hf⟩
    cases hf

theorem walIdsInv_flushOne (im : ImmutableMemtable) {e : Env} (h : WalIdsInv e.db) :
    Ends (flushOne prims im) e (fun _ e' => WalIdsInv e'.db) fun f e' =>
      (∃ err, f = .err err) → WalIdsInv e'.db := by
  refine Ends.mono (flushOne_ends prims im e) ?_ ?_
  · rintro - e' ⟨reader, w₁, w₂, -, -, -, hdb, -⟩
    rw [hdb]
    exact walIdsInv_flushed h im reader
  · rintro f e' hstop -
    cases hstop with
    | number _ => exact h
    | table _ => exact h.of_eq rfl rfl (Nat.le_succ _)
    | reader _ _ => exact h.of_eq rfl rfl (Nat.le_succ _)

theorem walIdsInv_call {s : Sys} {c : Call} {faults : List Outcome} (hdb : s.db = some db)
    (hserved : RotationServed s (.call c faults)) (h : WalIdsInv db) :
    Ends (c.run prims) ⟨db, ⟨s.log, faults⟩⟩ (fun _ e' => WalIdsInv e'.db) fun f e' =>
      (∃ err, f = .err err) → WalIdsInv e'.db := by
  cases c with
  | commit batch =>
    refine Ends.bind (Ends.and (walIdsInv_commitHead batch h) (Ends.self _ _)) ?_
      (fun _ _ h => h.1)
    rintro full e' ⟨h', hrun⟩
    cases full with
    | false => exact Ends.ret h'
    | true => exact walIdsInv_rotate h' (hserved db hdb e' hrun)
  | flush =>
    have hrotate : Ends flushRotate ⟨db, ⟨s.log, faults⟩⟩ (fun _ e' => WalIdsInv e'.db) fun f e' =>
        (∃ err, f = .err err) → WalIdsInv e'.db := by
      unfold flushRotate
      refine Ends.read_bind ?_
      split
      · rename_i hlen
        exact walIdsInv_rotate h (hserved db hdb hlen)
      · exact Ends.ret h
    refine Ends.mono (flush_ends hrotate ?_) (fun _ _ h => h.1) (fun _ _ h => h)
    intro e im he _
    exact walIdsInv_flushOne im he
  | compactAll =>
    refine Ends.mono (compactAll_ends prims _) ?_ ?_
    · rintro - e' (⟨-, rfl⟩ | ⟨-, reader, w, -, -, hdb', -⟩)
      · exact h
      · rw [hdb']
        exact h.of_eq rfl rfl (Nat.le_succ _)
    · rintro f e' hstop -
      cases hstop with
      | number _ => exact h
      | table _ _ => exact h.of_eq rfl rfl (Nat.le_succ _)

theorem walIdsInv_opened {config : DbConfig} {w w' : World} {wals ssts : List FileName}
    (h : Opened prims config w wals ssts db w') : WalIdsInv db := by
  obtain ⟨hctx, -⟩ := h.ctx _ rfl
  refine ⟨⟨?_, ?_⟩, ?_, ?_⟩
  · rw [h.queue]
    exact .nil
  · rw [h.queue]
    simp
  · rw [h.queue]
    simp
  · rw [hctx]
    exact Nat.lt_succ_self _

/-! ### Runs -/

theorem walIdsInv_step {s s' : Sys} {a : Action} (h : ∀ db, s.db = some db → WalIdsInv db)
    (hserved : RotationServed s a) (hnext : s.next prims a = some s') :
    ∀ db, s'.db = some db → WalIdsInv db := by
  cases step_of_next hnext with
  | opened _ hopen =>
    rintro _ ⟨⟩
    exact walIdsInv_opened ((openWith_ends _ _ _).of_ok hopen)
  | returned hdb hrun =>
    rintro _ ⟨⟩
    exact (walIdsInv_call hdb hserved (h _ hdb)).of_ok hrun
  | failed hdb hrun =>
    rintro _ ⟨⟩
    exact (walIdsInv_call hdb hserved (h _ hdb)).of_error hrun ⟨_, rfl⟩
  | notOpened _ _ | dropped _ | crashedOpen _ _ | crashedCall _ _ => rintro _ ⟨⟩

theorem WalIdsApart.flush_exact (h : WalIdsApart db) {im : ImmutableMemtable}
    (hlast : db.state.immutableMemtables.getLast? = some im) (sst : LiveSst) :
    (publishFlush im sst db.state).immutableMemtables = db.state.immutableMemtables.dropLast ∧
      FileName.wal db.ctx.walSegmentId ∉ fedBy im := by
  obtain ⟨front, hfront⟩ : ∃ front, db.state.immutableMemtables = front ++ [im] :=
    List.getLast?_eq_some_iff.mp hlast
  have hnodup := h.nodup
  rw [hfront, List.map_append, List.nodup_append] at hnodup
  constructor
  · show db.state.immutableMemtables.filter _ = _
    rw [hfront, List.dropLast_concat, List.filter_append, List.filter_eq_self.mpr]
    · simp
    · intro x hx
      rw [decide_eq_true_eq]
      exact hnodup.2.2 _ (List.mem_map_of_mem hx) _ (by simp)
  · unfold fedBy
    split
    · intro hmem
      have hid : db.ctx.walSegmentId = im.walSegmentId := by simpa using hmem
      exact h.notOpen im (hfront ▸ by simp) hid.symm
    · simp

/-- As long as every rotation gets its segment, the ids of the queue and of the
open segment stay distinct, and a flush drops the memtable it wrote and no other,
and keeps the open segment. -/
theorem walIds_apart (prims : Primitives) (log : List VfsCall) {s : Sys} {db : Db}
    (h : Reach (Sys.next prims) RotationServed ⟨log, none, []⟩ s) (hdb : s.db = some db) :
    WalIdsApart db ∧ ∀ im, db.state.immutableMemtables.getLast? = some im → ∀ sst,
      (publishFlush im sst db.state).immutableMemtables = db.state.immutableMemtables.dropLast ∧
      FileName.wal db.ctx.walSegmentId ∉ fedBy im := by
  have hinv : ∀ db, s.db = some db → WalIdsInv db := by
    refine h.invariant (I := fun s => ∀ db, s.db = some db → WalIdsInv db) ?_ ?_
    · rintro _ ⟨⟩
    · intro s a s' hs hserved hnext
      exact walIdsInv_step hs hserved hnext
  have hapart := (hinv db hdb).toWalIdsApart
  exact ⟨hapart, fun im him sst => hapart.flush_exact him sst⟩

end

/-- Every commit is followed by a rotation. -/
def rotateAlways : DbConfig := ⟨1, 10, 8, 10, none⟩

/-- The ids of the queue and of the open segment. -/
def segmentIds (s : Sys) : Option (List ℕ × ℕ) :=
  s.db.map fun db =>
    (db.state.immutableMemtables.map ImmutableMemtable.walSegmentId, db.ctx.walSegmentId)

theorem segmentIds_eq {s : Sys} {ids : List ℕ} {id : ℕ}
    (h : decide (segmentIds s = some (ids, id)) = true) :
    ∃ db, s.db = some db ∧ db.ctx.walSegmentId = id ∧
      db.state.immutableMemtables.map ImmutableMemtable.walSegmentId = ids := by
  obtain ⟨db, hdb, heq⟩ := Option.map_eq_some_iff.mp (of_decide_eq_true h)
  exact ⟨db, hdb, congrArg Prod.snd heq, congrArg Prod.fst heq⟩

theorem walIds_apart_once : ∃ s db,
    Reach (Sys.next .blank) RotationServed Sys.start s ∧ s.db = some db ∧
      db.state.immutableMemtables.map ImmutableMemtable.walSegmentId = [1] ∧
      WalIdsApart db := by
  obtain ⟨s, hreach, hids⟩ := reach_of_runDecided
    (show (runOk (Sys.next .blank) (fun s a => decide (RotationServed s a)) Sys.start
      [.openDb rotateAlways [], .call (.commit [.put [1] [2]]) []]).map
      (fun s => decide (segmentIds s = some ([1], 2))) = some true by decide +kernel)
  obtain ⟨db, hdb, -, hqueue⟩ := segmentIds_eq hids
  exact ⟨s, db, hreach, hdb, hqueue, (walIds_apart .blank [] hreach hdb).1⟩

/-- A commit whose rotation cannot open the next segment leaves its memtable in the
queue under the id of the segment still open, and with the next rotation two
memtables of the queue have that id. -/
theorem walIds_not_apart :
    (∃ s db, Reach (Sys.next .blank) always Sys.start s ∧ s.db = some db ∧
      ¬ ∀ im ∈ db.state.immutableMemtables, im.walSegmentId ≠ db.ctx.walSegmentId) ∧
    ∃ s db, Reach (Sys.next .blank) always Sys.start s ∧ s.db = some db ∧
      ¬ (db.state.immutableMemtables.map ImmutableMemtable.walSegmentId).Nodup := by
  constructor
  · obtain ⟨s, hreach, hids⟩ := reach_of_run
      (show (run (Sys.next .blank) Sys.start
        [.openDb rotateAlways [],
          .call (.commit [.put [1] [2]]) [.done, .done, .done, .failed 0]]).map
        (fun s => decide (segmentIds s = some ([1], 1))) = some true by decide +kernel)
    obtain ⟨db, hdb, hopen, hqueue⟩ := segmentIds_eq hids
    refine ⟨s, db, hreach, hdb, ?_⟩
    intro h
    obtain ⟨im, him, hid⟩ := List.mem_map.mp (show 1 ∈ _ from hqueue ▸ List.mem_singleton_self 1)
    exact h im him (hid.trans hopen.symm)
  · obtain ⟨s, hreach, hids⟩ := reach_of_run
      (show (run (Sys.next .blank) Sys.start
        [.openDb rotateAlways [],
          .call (.commit [.put [1] [2]]) [.done, .done, .done, .failed 0],
          .call (.commit [.put [3] [4]]) []]).map
        (fun s => decide (segmentIds s = some ([1, 1], 3))) = some true by decide +kernel)
    obtain ⟨db, hdb, -, hqueue⟩ := segmentIds_eq hids
    refine ⟨s, db, hreach, hdb, ?_⟩
    rw [hqueue]
    decide

end PaddockKV.Engine
