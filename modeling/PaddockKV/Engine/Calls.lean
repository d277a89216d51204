import PaddockKV.Engine.Db

/-!
# How the calls of the engine end

One lemma for each call: in which states it can return or fail, and with which
runs of the layers below. Everything said later about the engine starts from
these.
-/

namespace PaddockKV.Engine

open Io Wal Memtable Sstable Crypto Compaction

/-- A file number was handed out. -/
def bumpFile (e : Env) : Env :=
  { e with db := { e.db with ctx :=
    { e.db.ctx with nextFileNumber := e.db.ctx.nextFileNumber + 1 } } }

theorem reserveFileNumber_ends (e : Env) :
    Ends reserveFileNumber e
      (fun n e' => n = e.db.ctx.nextFileNumber ∧ e' = bumpFile e ∧
        e.db.ctx.nextFileNumber + 1 < u64Size)
      fun f e' => f = .panicked overflowMsg ∧ e' = e ∧ u64Size ≤ e.db.ctx.nextFileNumber + 1 := by
  unfold reserveFileNumber
  refine Ends.read_bind (Ends.addU64_bind ?_ ?_)
  · intro h
    exact Ends.update_bind (Ends.ret ⟨rfl, rfl, h⟩)
  · intro h
    exact ⟨rfl, rfl, h⟩

theorem onWorld_ends {α : Type} (x : Act World α) (e : Env) :
    Ends (onWorld x) e
      (fun a e' => ∃ w, x e.world = .ok a w ∧ e' = { e with world := w })
      fun f e' => ∃ w, x e.world = .error f w ∧ e' = { e with world := w } := by
  refine Ends.mono (Ends.zoom (Ends.self x e.world)) ?_ ?_
  · rintro a e' ⟨w, he, hx⟩
    exact ⟨w, hx, he⟩
  · rintro f e' ⟨w, he, hx⟩
    exact ⟨w, hx, he⟩

/-- Of the files `names` those in `gone` were removed; the calls for the others
failed. -/
def Removed (names : List FileName) (w w' : World) : Prop :=
  ∃ gone : List FileName, gone.Sublist names ∧
    w'.log = (gone.map VfsCall.remove).reverse ++ w.log ∧
    (w.faults = [] → gone = names ∧ w'.faults = [])

theorem Removed.nil (w : World) : Removed [] w w :=
  ⟨[], List.Sublist.refl _, rfl, fun h => ⟨rfl, h⟩⟩

theorem Removed.cons {name : FileName} {names : List FileName} {w w₁ w₂ : World}
    (h : Removed [name] w w₁) (h' : Removed names w₁ w₂) : Removed (name :: names) w w₂ := by
  obtain ⟨gone, hsub, hlog, hf⟩ := h
  obtain ⟨gone', hsub', hlog', hf'⟩ := h'
  refine ⟨gone ++ gone', hsub.append hsub', ?_, ?_⟩
  · rw [hlog', hlog, List.map_append, List.reverse_append, List.append_assoc]
  · intro h
    obtain ⟨rfl, h₁⟩ := hf h
    obtain ⟨rfl, h₂⟩ := hf' h₁
    exact ⟨rfl, h₂⟩

theorem removeFile_ends (name : FileName) (e : Env) {Q : Fault → Env → Prop} :
    Ends (removeFile name) e (fun _ e' => e'.db = e.db ∧ Removed [name] e.world e'.world) Q := by
  unfold removeFile remove
  have hrun : Ends (Act.orDefault
      (perform (·.call (.remove name)) (fun _ => id) "remove failed") ()) e.world
      (fun _ w => Removed [name] e.world w) fun _ _ => False := by
    refine Ends.orDefault (perform_ends _ _ _ e.world) ?_ ?_ ?_
    · rintro - _ rfl
      refine ⟨[name], List.Sublist.refl _, rfl, fun h => ⟨rfl, ?_⟩⟩
      rw [World.faults_call, h]
      rfl
    · rintro f _ ⟨-, hne, n, rfl⟩
      exact ⟨[], List.nil_sublist _, rfl, fun h => absurd h hne⟩
    · rintro msg _ ⟨h, -⟩
      cases h
  refine Ends.mono (Ends.zoom hrun) ?_ ?_
  · rintro - _ ⟨w, rfl, h⟩
    exact ⟨rfl, h⟩
  · rintro - _ ⟨w, -, hfalse⟩
    exact hfalse.elim

/-! ### Rotation -/

/-- What opening the segment `id` leaves when it does not end well. -/
def SegmentLeft (faults : List Outcome) (id firstSeqno : ℕ) (log log' : List VfsCall) : Prop :=
  log' = log ∨ log' = .openWritable (.wal id) :: log ∨
    faults ≠ [] ∧ ∃ n, log' = .append (.wal id) ((SegmentHeader.newSigned id firstSeqno).asBytes.take n) ::
      .openWritable (.wal id) :: log

/-- The segment `id` was opened and has its header. -/
def SegmentMade (id firstSeqno : ℕ) (log log' : List VfsCall) : Prop :=
  log' = .append (.wal id) (SegmentHeader.newSigned id firstSeqno).asBytes ::
    .openWritable (.wal id) :: log

theorem create_ends (id firstSeqno : ℕ) (wd : World) :
    Ends (SegmentWriter.create (.wal id) id firstSeqno) wd
      (fun wal wd' => wal = ⟨.wal id, 0, 0⟩ ∧
        wd'.log = .append (.wal id) (SegmentHeader.newSigned id firstSeqno).asBytes :: wd.log ∧
        (wd.faults = [] → wd'.faults = []))
      fun f wd' => wd.faults ≠ [] ∧ (∃ e, f = .err e) ∧
        ∃ n, wd'.log =
          .append (.wal id) ((SegmentHeader.newSigned id firstSeqno).asBytes.take n) :: wd.log := by
  unfold SegmentWriter.create append
  generalize (SegmentHeader.newSigned id firstSeqno).asBytes = header
  refine Ends.bind (perform_ends _ _ _ wd) ?_ ?_
  · rintro - _ rfl
    refine Ends.ret ⟨rfl, rfl, ?_⟩
    intro h
    rw [World.faults_call, h]
    rfl
  · rintro f _ ⟨hf, hne, n, rfl⟩
    exact ⟨hne, ⟨_, hf⟩, n, rfl⟩

/-- The database after a rotation that found the segment `n` free. -/
def rotated (db : Db) : Db :=
  { (queueActive ⟨db, ⟨[], []⟩⟩).db with
    ctx := ⟨⟨.wal db.ctx.nextFileNumber, 0, 0⟩, db.ctx.nextFileNumber, 0,
      db.ctx.nextFileNumber + 1⟩ }

/-- A rotation that failed has queued the memtable all the same. -/
structure RotateStopped (e : Env) (f : Fault) (e' : Env) : Prop where
  state : e'.db.state = (queueActive e).db.state
  db : e'.db = { e.db with
    state := (queueActive e).db.state
    ctx := { e.db.ctx with nextFileNumber := e'.db.ctx.nextFileNumber } }
  number : e'.db.ctx.nextFileNumber = e.db.ctx.nextFileNumber ∧ e'.world.log = e.world.log ∨
    e'.db.ctx.nextFileNumber = e.db.ctx.nextFileNumber + 1
  log : SegmentLeft e.world.faults e.db.ctx.nextFileNumber (e.db.seqno + 1) e.world.log
    e'.world.log
  cause : (∃ err, f = .err err) ∧ e.world.faults ≠ [] ∨
    (∃ msg, f = .panicked msg) ∧
      (u64Size ≤ e.db.ctx.nextFileNumber + 1 ∨ u64Size ≤ e.db.seqno + 1)

theorem rotateMemtableLocked_ends (e : Env) :
    Ends rotateMemtableLocked e
      (fun _ e' => e'.db = rotated e.db ∧ e.db.ctx.nextFileNumber + 1 < u64Size ∧
        e.db.seqno + 1 < u64Size ∧
        SegmentMade e.db.ctx.nextFileNumber (e.db.seqno + 1) e.world.log e'.world.log ∧
        (e.world.faults = [] → e'.world.faults = []))
      (RotateStopped e) := by
  unfold rotateMemtableLocked
  refine Ends.update_bind (Ends.bind (reserveFileNumber_ends _) ?_ ?_)
  · rintro n _ ⟨rfl, rfl, hlt⟩
    refine Ends.bind (Ends.zoom (openWritable_ends _ _)) ?_ ?_
    · rintro - _ ⟨w₁, rfl, hlog₁, hf₁, -⟩
      refine Ends.read_bind (Ends.addU64_bind ?_ ?_)
      · intro hseq
        refine Ends.bind (Ends.zoom (create_ends _ _ _)) ?_ ?_
        · rintro wal _ ⟨w₂, rfl, rfl, hlog₂, hf₂⟩
          refine Ends.update ⟨rfl, hlt, hseq, ?_, fun h => hf₂ (hf₁ h)⟩
          show w₂.log = _
          rw [hlog₂]
          exact congrArg _ hlog₁
        · rintro f _ ⟨w₂, rfl, hne, hf, k, hlog₂⟩
          have hfaulty : e.world.faults ≠ [] := fun h => hne (hf₁ h)
          refine ⟨rfl, rfl, .inr rfl, .inr (.inr ⟨hfaulty, k, ?_⟩), .inl ⟨hf, hfaulty⟩⟩
          show w₂.log = _
          rw [hlog₂]
          exact congrArg _ hlog₁
      · intro hover
        exact ⟨rfl, rfl, .inr rfl, .inr (.inl hlog₁), .inr ⟨⟨_, rfl⟩, .inr hover⟩⟩
    · rintro f _ ⟨w₁, rfl, hlog₁, hne, hf⟩
      exact ⟨rfl, rfl, .inr rfl, .inl hlog₁, .inl ⟨hf, hne⟩⟩
  · rintro f _ ⟨rfl, rfl, hover⟩
    exact ⟨rfl, rfl, .inl ⟨rfl, rfl⟩, .inl rfl, .inr ⟨⟨_, rfl⟩, .inl hover⟩⟩

/-! ### Commits -/

def walEnv (e : Env) : WalEnv := ⟨e.db.ctx.wal, e.world⟩

theorem walSync_ends (t : WalEnv) :
    Ends SegmentWriter.sync t
      (fun _ t' => t'.writer = t.writer ∧ t'.world.log = .sync t.writer.file :: t.world.log)
      fun _ t' => t'.writer = t.writer ∧ t'.world.log = t.world.log := by
  refine Ends.read_bind (Ends.mono (Ends.zoom (perform_ends _ _ _ _)) ?_ ?_)
  · rintro _ _ ⟨w, rfl, rfl⟩
    exact ⟨rfl, rfl⟩
  · rintro _ _ ⟨w, rfl, -, -, n, rfl⟩
    exact ⟨rfl, rfl⟩

/-- A sequence number was taken and the WAL came to `t`. -/
def loggedTo (e : Env) (t : WalEnv) : Env :=
  ⟨{ e.db with seqno := e.db.seqno + 1, ctx := { e.db.ctx with wal := t.writer } }, t.world⟩

/-- The batch is in the active memtable `m`, which stands for `bytes` bytes. -/
def applied (e : Env) (t : WalEnv) (m : SkipList) (bytes : ℕ) : Env :=
  ⟨{ e.db with
      seqno := e.db.seqno + 1
      state := { e.db.state with activeMemtable := m }
      ctx := { e.db.ctx with wal := t.writer, activeMemtableBytes := bytes } }, t.world⟩

/-- The WAL has the batch, and was synced. -/
def Logged (batch : WriteBatch) (e : Env) (encoded : Bytes) (t : WalEnv) : Prop :=
  encode batch = .ok encoded ∧ e.db.seqno + 1 < u64Size ∧
    ∃ start t₁, SegmentWriter.appendRecord (e.db.seqno + 1) encoded (walEnv e) = .ok start t₁ ∧
      SegmentWriter.sync t₁ = .ok () t

/-- The commit returned from its first part. -/
def HeadDone (batch : WriteBatch) (e : Env) (full : Bool) (e' : Env) : Prop :=
  ∃ encoded t m, Logged batch e encoded t ∧
    applyBatchToMemtable e.db.state.activeMemtable (e.db.seqno + 1) batch = .ok m ∧
    e' = applied e t m (e.db.ctx.activeMemtableBytes + encoded.length) ∧
    full = decide (e.db.config.memtableThresholdBytes ≤
      e.db.ctx.activeMemtableBytes + encoded.length)

/-- Where the first part of a commit can fail: before, in or after the append, or
in the sync. -/
inductive HeadStopped (batch : WriteBatch) (e : Env) : Fault → Env → Prop where
  | before {msg : String} {e' : Env} (h : e'.world = e.world) :
    HeadStopped batch e (.panicked msg) e'
  | append {encoded : Bytes} {f : Fault} {t : WalEnv} (hencode : encode batch = .ok encoded)
    (h : SegmentWriter.appendRecord (e.db.seqno + 1) encoded (walEnv e) = .error f t)
    (hseq : e.db.seqno + 1 < u64Size) : HeadStopped batch e f (loggedTo e t)
  | sync {encoded : Bytes} {f : Fault} {start : ℕ} {t t' : WalEnv}
    (hencode : encode batch = .ok encoded)
    (h : SegmentWriter.appendRecord (e.db.seqno + 1) encoded (walEnv e) = .ok start t)
    (hsync : SegmentWriter.sync t = .error f t') (hseq : e.db.seqno + 1 < u64Size) :
    HeadStopped batch e f (loggedTo e t')
  | after {encoded : Bytes} {msg : String} {t : WalEnv} {e' : Env} (hlog : Logged batch e encoded t)
    (h : e'.world = t.world) : HeadStopped batch e (.panicked msg) e'

theorem applyBatch_error {m : SkipList} {seqno : ℕ} {batch : WriteBatch} {f : Fault}
    (h : applyBatchToMemtable m seqno batch = .error f) : ∃ msg, f = .panicked msg := by
  induction batch generalizing m with
  | nil => cases h
  | cons op batch ih =>
    unfold applyBatchToMemtable at h
    rw [List.foldlM_cons] at h
    cases op with
    | put key value =>
      cases hins : m.insert key value seqno .put with
      | none =>
        simp only [hins] at h
        cases h
        exact ⟨_, rfl⟩
      | some m' =>
        simp only [hins, res_ok_bind] at h
        exact ih h
    | delete key =>
      cases hins : m.insert key [] seqno .tombstone with
      | none =>
        simp only [hins] at h
        cases h
        exact ⟨_, rfl⟩
      | some m' =>
        simp only [hins, res_ok_bind] at h
        exact ih h

theorem commitHead_ends (batch : WriteBatch) (e : Env) :
    Ends (commitHead batch) e (HeadDone batch e) (HeadStopped batch e) := by
  unfold commitHead
  refine Ends.read_bind (Ends.addU64_bind ?_ ?_)
  · intro hseq
    refine Ends.update_bind (Ends.lift_bind ?_ ?_)
    · intro encoded hencode
      refine Ends.bind (Ends.zoom (Ends.self _ _)) ?_ ?_
      · rintro start _ ⟨t, rfl, happ⟩
        refine Ends.bind (Ends.zoom (Ends.self _ _)) ?_ ?_
        · rintro _ _ ⟨t', rfl, hsync⟩
          have hlog : Logged batch e encoded t' := ⟨hencode, hseq, start, t, happ, hsync⟩
          refine Ends.read_bind (Ends.lift_bind ?_ ?_)
          · intro m hm
            refine Ends.update_bind (Ends.addU64_bind ?_ ?_)
            · intro _
              exact Ends.update_bind (Ends.ret ⟨encoded, t', m, hlog, hm, rfl, rfl⟩)
            · intro _
              exact .after hlog rfl
          · intro f hf
            obtain ⟨msg, rfl⟩ := applyBatch_error hf
            exact .after hlog rfl
        · rintro f _ ⟨t', rfl, hsync⟩
          exact .sync hencode happ hsync hseq
      · rintro f _ ⟨t, rfl, happ⟩
        exact .append hencode happ hseq
    · intro f hf
      obtain ⟨msg, rfl⟩ := encode_error hf
      exact .before rfl
  · intro _
    exact .before rfl

/-! ### Flushing -/

theorem openReadonly_ends (name : FileName) (w : World) :
    Ends (openReadonly name) w
      (fun file w' => w'.log = w.log ∧ (∃ s, w.disk name = some ⟨file, s⟩) ∧
        (w.faults = [] → w'.faults = []))
      fun f w' => w'.log = w.log ∧ (∃ err, f = .err err) ∧
        (w.faults ≠ [] ∨ w.disk name = none) := by
  unfold openReadonly
  refine Ends.bind (perform_ends _ _ _ w) ?_ ?_
  · rintro - _ rfl
    refine Ends.read_bind ?_
    have hdisk : (id { w with faults := w.faults.tail } : World).disk name = w.disk name := rfl
    rw [hdisk]
    cases hd : w.disk name with
    | none => exact Ends.fail ⟨rfl, ⟨_, rfl⟩, .inr rfl⟩
    | some f =>
      refine Ends.ret ⟨rfl, ⟨f.synced, rfl⟩, ?_⟩
      intro h
      show w.faults.tail = []
      rw [h]
      rfl
  · rintro f _ ⟨hf, hne, n, rfl⟩
    exact ⟨rfl, ⟨_, hf⟩, .inl hne⟩

theorem tryReads_ends (w : World) :
    Ends tryReads w (fun _ w' => w'.log = w.log ∧ (w.faults = [] → w'.faults = []))
      fun f w' => w'.log = w.log ∧ (∃ err, f = .err err) ∧ w.faults ≠ [] := by
  refine Ends.mono (perform_ends _ _ _ w) ?_ ?_
  · rintro - _ rfl
    refine ⟨rfl, ?_⟩
    intro h
    show w.faults.tail = []
    rw [h]
    rfl
  · rintro f _ ⟨hf, hne, n, rfl⟩
    exact ⟨rfl, ⟨_, hf⟩, hne⟩

theorem openTable_ends (prims : Primitives) (config : DbConfig) (id : ℕ) (w : World) :
    Ends (openTable prims config id) w
      (fun reader w' => w'.log = w.log ∧ (w.faults = [] → w'.faults = []) ∧
        ∃ file s, w.disk (.sst id) = some ⟨file, s⟩ ∧
          SstReader.openInner file (config.cryptoFor prims id) = .ok reader)
      fun f w' => w'.log = w.log ∧ (w.faults ≠ [] ∨ w.disk (.sst id) = none ∨
        ∃ file s, w.disk (.sst id) = some ⟨file, s⟩ ∧
          SstReader.openInner file (config.cryptoFor prims id) = .error f) := by
  unfold openTable
  refine Ends.bind (openReadonly_ends _ w) ?_ ?_
  · rintro file w₁ ⟨hlog₁, ⟨s, hdisk⟩, hf₁⟩
    refine Ends.bind (tryReads_ends w₁) ?_ ?_
    · rintro - w₂ ⟨hlog₂, hf₂⟩
      cases hopen : SstReader.openInner file (config.cryptoFor prims id) with
      | ok reader =>
        exact Ends.ret ⟨hlog₂.trans hlog₁, fun h => hf₂ (hf₁ h), file, s, hdisk, hopen⟩
      | error f =>
        exact Ends.fail ⟨hlog₂.trans hlog₁, .inr (.inr ⟨file, s, hdisk, hopen⟩)⟩
    · rintro f w₂ ⟨hlog₂, -, hne⟩
      exact ⟨hlog₂.trans hlog₁, .inl fun h => hne (hf₁ h)⟩
  · rintro f w₁ ⟨hlog₁, -, hne⟩
    exact ⟨hlog₁, hne.imp_right .inl⟩

/-- The table `flush_one` writes for `im`. -/
def writeFlush (prims : Primitives) (db : Db) (im : ImmutableMemtable) : Act World Unit :=
  SstWriter.writeTable prims (.sst db.ctx.nextFileNumber) (max im.memtable.len 1)
    db.config.bloomParams (db.config.cryptoFor prims db.ctx.nextFileNumber) defaultBlockSize
    im.memtable.recs

def flushed (im : ImmutableMemtable) (reader : SstReader) (db : Db) : Db :=
  { db with
    state := publishFlush im ⟨db.ctx.nextFileNumber, reader⟩ db.state
    ctx := { db.ctx with nextFileNumber := db.ctx.nextFileNumber + 1 } }

/-- The segments a flush of `im` unlinks. -/
def fedBy (im : ImmutableMemtable) : List FileName :=
  if im.walSegmentId ≠ 0 then [.wal im.walSegmentId] else []

def FlushDone (prims : Primitives) (im : ImmutableMemtable) (e e' : Env) : Prop :=
  ∃ reader w₁ w₂, e.db.ctx.nextFileNumber + 1 < u64Size ∧
    writeFlush prims e.db im e.world = .ok () w₁ ∧
    openTable prims e.db.config e.db.ctx.nextFileNumber w₁ = .ok reader w₂ ∧
    e'.db = flushed im reader e.db ∧ Removed (fedBy im) w₂ e'.world

/-- A flush that failed has used up a file number. -/
inductive FlushStopped (prims : Primitives) (im : ImmutableMemtable) (e : Env) : Fault → Env → Prop
    where
  | number (h : u64Size ≤ e.db.ctx.nextFileNumber + 1) :
    FlushStopped prims im e (.panicked overflowMsg) e
  | table {f : Fault} {w : World} (h : writeFlush prims e.db im e.world = .error f w) :
    FlushStopped prims im e f { bumpFile e with world := w }
  | reader {f : Fault} {w₁ w : World} (h : writeFlush prims e.db im e.world = .ok () w₁)
    (hopen : openTable prims e.db.config e.db.ctx.nextFileNumber w₁ = .error f w) :
    FlushStopped prims im e f { bumpFile e with world := w }

theorem flushOne_ends (prims : Primitives) (im : ImmutableMemtable) (e : Env) :
    Ends (flushOne prims im) e (fun _ => FlushDone prims im e) (FlushStopped prims im e) := by
  unfold flushOne
  refine Ends.bind (reserveFileNumber_ends e) ?_ ?_
  · rintro n _ ⟨rfl, rfl, hlt⟩
    refine Ends.read_bind (Ends.bind (onWorld_ends _ _) ?_ ?_)
    · rintro _ _ ⟨w₁, htable, rfl⟩
      refine Ends.bind (onWorld_ends _ _) ?_ ?_
      · rintro reader _ ⟨w₂, hopen, rfl⟩
        refine Ends.update_bind ?_
        by_cases hid : im.walSegmentId ≠ 0
        · rw [if_pos hid]
          refine Ends.mono (removeFile_ends (Q := fun _ _ => False) _ _) ?_ (fun _ _ h => h.elim)
          rintro - e' ⟨hdb, hremoved⟩
          refine ⟨reader, w₁, w₂, hlt, htable, hopen, hdb, ?_⟩
          rw [fedBy, if_pos hid]
          exact hremoved
        · rw [if_neg hid]
          refine Ends.ret ⟨reader, w₁, w₂, hlt, htable, hopen, rfl, ?_⟩
          rw [fedBy, if_neg hid]
          exact Removed.nil w₂
      · rintro f _ ⟨w₂, hopen, rfl⟩
        exact .reader htable hopen
    · rintro f _ ⟨w₁, htable, rfl⟩
      exact .table htable
  · rintro f _ ⟨rfl, rfl, hover⟩
    exact .number hover

/-! ### Compaction -/

def compacted (reader : SstReader) (db : Db) : Db :=
  { db with
    state := publishCompaction db.state.sstables ⟨db.ctx.nextFileNumber, reader⟩ db.state
    ctx := { db.ctx with nextFileNumber := db.ctx.nextFileNumber + 1 } }

/-- The table `compact_all` writes. -/
def writeCompaction (prims : Primitives) (db : Db) : Act World SstReader :=
  compactSstables prims db.config (db.state.sstables.map LiveSst.reader) db.ctx.nextFileNumber

def CompactDone (prims : Primitives) (e e' : Env) : Prop :=
  e.db.state.sstables.length < 2 ∧ e' = e ∨
  2 ≤ e.db.state.sstables.length ∧ ∃ reader w, e.db.ctx.nextFileNumber + 1 < u64Size ∧
    writeCompaction prims e.db e.world = .ok reader w ∧ e'.db = compacted reader e.db ∧
    Removed (e.db.state.sstables.map fun sst => .sst sst.id) w e'.world

inductive CompactStopped (prims : Primitives) (e : Env) : Fault → Env → Prop where
  | number (h : u64Size ≤ e.db.ctx.nextFileNumber + 1) :
    CompactStopped prims e (.panicked overflowMsg) e
  | table {f : Fault} {w : World} (hmany : 2 ≤ e.db.state.sstables.length)
    (h : writeCompaction prims e.db e.world = .error f w) :
    CompactStopped prims e f { bumpFile e with world := w }

theorem removeTables_ends (inputs : List LiveSst) (e : Env) {Q : Fault → Env → Prop} :
    Ends (removeTables inputs) e
      (fun _ e' => e'.db = e.db ∧
        Removed (inputs.map fun sst => .sst sst.id) e.world e'.world) Q := by
  induction inputs generalizing e with
  | nil => exact Ends.ret ⟨rfl, Removed.nil _⟩
  | cons input inputs ih =>
    refine Ends.bind (removeFile_ends (Q := fun _ _ => False) _ e) ?_ (fun _ _ h => h.elim)
    rintro - e₁ ⟨hdb₁, h₁⟩
    refine Ends.mono (ih e₁) ?_ (fun _ _ h => h)
    rintro - e₂ ⟨hdb₂, h₂⟩
    exact ⟨hdb₂.trans hdb₁, h₁.cons h₂⟩

theorem compactAll_ends (prims : Primitives) (e : Env) :
    Ends (compactAll prims) e (fun _ => CompactDone prims e) (CompactStopped prims e) := by
  unfold compactAll
  refine Ends.read_bind ?_
  dsimp only
  split
  · rename_i hfew
    exact Ends.ret (.inl ⟨hfew, rfl⟩)
  · rename_i hmany
    refine Ends.bind (reserveFileNumber_ends e) ?_ ?_
    · rintro n _ ⟨rfl, rfl, hlt⟩
      refine Ends.bind (onWorld_ends _ _) ?_ ?_
      · rintro reader _ ⟨w₁, htable, rfl⟩
        refine Ends.update_bind (Ends.mono (removeTables_ends (Q := fun _ _ => False) _ _) ?_
          (fun _ _ h => h.elim))
        rintro - e' ⟨hdb, hremoved⟩
        exact .inr ⟨not_lt.mp hmany, reader, w₁, hlt, htable, hdb, hremoved⟩
      · rintro f _ ⟨w₁, htable, rfl⟩
        exact .table (not_lt.mp hmany) htable
    · rintro f _ ⟨rfl, rfl, hover⟩
      exact .number hover

end PaddockKV.Engine
