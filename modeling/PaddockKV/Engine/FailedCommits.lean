import PaddockKV.Engine.Simulation
import PaddockKV.Engine.System
import PaddockKV.Wal.Torn

/-!
# Commits that fail

`commit_batch` goes on to the next record whatever an earlier call left in the
segment. As long as every commit finds the segment tidy, those that return are
replayed; a record put behind the remains of another is not.
-/

namespace PaddockKV.Engine

open Io Wal Crypto Transition

section

variable {prims : Primitives} {batch : WriteBatch} {e : Env}

/-- The memtable stays below its threshold, so that no segment is opened. -/
def StaysBelow (db : Db) (batch : WriteBatch) : Prop :=
  ∀ encoded, encode batch = .ok encoded →
    db.ctx.activeMemtableBytes + encoded.length < db.config.memtableThresholdBytes

theorem commitBatch_below (h : StaysBelow e.db batch) :
    Ends (commitBatch batch) e (fun _ e' => HeadDone batch e false e') (HeadStopped batch e) := by
  unfold commitBatch
  refine Ends.bind (commitHead_ends batch e) ?_ (fun _ _ hstop => hstop)
  rintro full e' ⟨encoded, t, m, hlog, hm, he', hfull⟩
  have hnot : full = false := by
    rw [hfull]
    exact decide_eq_false (not_le.mpr (h encoded hlog.1))
  subst hnot
  exact Ends.ret ⟨encoded, t, m, hlog, hm, he', hfull⟩

/-! ### What is in the segment -/

/-- The segment starts with the header and is read as `vs`. -/
def Delivers (d : Disk) (name : FileName) (header : SegmentHeader) (vs : List RecordView) : Prop :=
  ∃ area sync out, d name = some ⟨header.asBytes ++ area, sync⟩ ∧
    SegmentReader.Reads (header.asBytes ++ area) 0 vs out

section

variable {t t' : WalEnv} {header : SegmentHeader} {rs vs : List RecordView}

theorem tidy_delivers (h : Tidy t header rs) (hrs : ∀ r ∈ rs, r.seqno < u64Size) :
    Delivers (diskOf t.world.log) t.writer.file header rs := by
  obtain ⟨pad, sync, -, hdisk, -⟩ := h
  exact ⟨_, sync, .clean, hdisk, reads_then_zeros header rs pad hrs⟩

theorem Delivers.unique {d : Disk} {name : FileName} (h : Delivers d name header rs)
    (h' : Delivers d name header vs) : rs = vs := by
  obtain ⟨area, sync, out, hd, hreads⟩ := h
  obtain ⟨area', sync', out', hd', hreads'⟩ := h'
  rw [hd] at hd'
  have hfile := congrArg File.bytes (Option.some.inj hd')
  dsimp only at hfile
  rw [← hfile] at hreads'
  exact reads_unique hreads hreads'

theorem Delivers.sync {log : List VfsCall} {name : FileName} (file : FileName)
    (h : Delivers (diskOf log) name header vs) :
    Delivers (diskOf (.sync file :: log)) name header vs := by
  obtain ⟨area, sync, out, hd, hreads⟩ := h
  by_cases hname : name = file
  · subst hname
    refine ⟨area, true, out, ?_, hreads⟩
    show Function.update (diskOf log) name _ name = _
    rw [Function.update_self]
    show Option.map _ (diskOf log name) = _
    rw [hd]
    rfl
  · refine ⟨area, sync, out, ?_, hreads⟩
    show Function.update (diskOf log) file _ name = _
    rw [Function.update_of_ne hname]
    exact hd

end

/-- A commit to a tidy segment: all that was there is still delivered, and what the
commit logged, if it returns. -/
theorem commitBatch_delivers {header : SegmentHeader} {rs : List RecordView}
    (hbelow : StaysBelow e.db batch) (htidy : Tidy (walEnv e) header rs)
    (hrs : ∀ r ∈ rs, r.seqno < u64Size) :
    Ends (commitBatch batch) e
      (fun _ e' => e'.db.ctx.wal.file = e.db.ctx.wal.file ∧ ∃ encoded, encode batch = .ok encoded ∧
        Delivers (diskOf e'.world.log) e.db.ctx.wal.file header
          (rs ++ [⟨e.db.seqno + 1, encoded⟩]))
      fun f e' => Panicked f ∨ e'.db.ctx.wal.file = e.db.ctx.wal.file ∧
        ∃ vs, rs <+: vs ∧ Delivers (diskOf e'.world.log) e.db.ctx.wal.file header vs := by
  have happend := fun encoded => SegmentWriter.appendRecord_tidy htidy (e.db.seqno + 1) encoded
  have hsnoc : ∀ encoded, e.db.seqno + 1 < u64Size →
      ∀ r ∈ rs ++ [⟨e.db.seqno + 1, encoded⟩], r.seqno < u64Size := by
    intro encoded hseq r hr
    rcases List.mem_append.mp hr with hr | hr
    · exact hrs r hr
    · rw [List.mem_singleton.mp hr]
      exact hseq
  refine Ends.mono (commitBatch_below hbelow) ?_ ?_
  · rintro _ _ ⟨encoded, t, m, ⟨hencode, hseq, start, t₁, happ, hsync⟩, -, rfl, -⟩
    obtain ⟨htidy₁, hfile₁⟩ := (happend encoded).of_ok happ
    obtain ⟨hwriter, hlog⟩ := (walSync_ends t₁).of_ok hsync
    have hdel := tidy_delivers htidy₁ (hsnoc encoded hseq)
    rw [hfile₁] at hdel
    refine ⟨(congrArg SegmentWriter.file hwriter).trans hfile₁, encoded, hencode, ?_⟩
    show Delivers (diskOf t.world.log) _ _ _
    rw [hlog]
    exact hdel.sync _
  · intro f e' hstop
    cases hstop with
    | before _ => exact .inl ⟨_, rfl⟩
    | after _ _ => exact .inl ⟨_, rfl⟩
    | @append encoded _ t hencode happ hseq =>
      obtain ⟨hfile, p, hp, sync, hleaves⟩ := (happend encoded).of_error happ
      obtain ⟨vs, out, hvs, hreads⟩ := reads_leaves header hp hrs hseq
      refine .inr ⟨hfile, vs, ?_, _, sync, out, ?_, hreads⟩
      · rcases hvs with rfl | ⟨-, rfl⟩
        · exact List.prefix_rfl
        · exact List.prefix_append _ _
      · rw [hfile] at hleaves
        exact hleaves
    | @sync encoded _ start t t' hencode happ hsync hseq =>
      obtain ⟨htidy₁, hfile₁⟩ := (happend encoded).of_ok happ
      obtain ⟨hwriter, hlog⟩ := (walSync_ends t).of_error hsync
      have hdel := tidy_delivers htidy₁ (hsnoc encoded hseq)
      rw [hfile₁] at hdel
      refine .inr ⟨(congrArg SegmentWriter.file hwriter).trans hfile₁,
        rs ++ [⟨e.db.seqno + 1, encoded⟩], List.prefix_append _ _, ?_⟩
      show Delivers (diskOf t'.world.log) _ _ _
      rw [hlog]
      exact hdel

end

/-- Commits to one segment, with any outcomes of the file operations, each at a time
when the segment is tidy. -/
def TidyCommit (header : SegmentHeader) : Sys → Action → Prop
  | s, .call (.commit batch) _ => ∀ db, s.db = some db → StaysBelow db batch ∧
      ∃ rs, (∀ r ∈ rs, r.seqno < u64Size) ∧ Tidy ⟨db.ctx.wal, ⟨s.log, []⟩⟩ header rs
  | _, _ => False

/-- The commits that returned are among the records of the segment, in order. -/
def AckedIn (name : FileName) (header : SegmentHeader) (s : Sys) : Prop :=
  ∃ db vs ws, s.db = some db ∧ db.ctx.wal.file = name ∧ Delivers (diskOf s.log) name header vs ∧
    ws.Sublist vs ∧ List.Forall₂ Encodes ws s.acked

section

variable {prims : Primitives} {header : SegmentHeader} {name : FileName} {s s' : Sys}

theorem ackedIn_next {a : Action} (h : AckedIn name header s) (hok : TidyCommit header s a)
    (hn : s.next prims a = some s') : AckedIn name header s' := by
  obtain ⟨db, vs, ws, hdb, hname, hdel, hsub, henc⟩ := h
  cases a with
  | call c faults =>
    cases c with
    | commit batch =>
      obtain ⟨hbelow, rs, hrs, htidy⟩ := hok db hdb
      have hvs : rs = vs := by
        refine Delivers.unique (tidy_delivers htidy hrs) ?_
        rw [show (⟨db.ctx.wal, ⟨s.log, []⟩⟩ : WalEnv).writer.file = name from hname]
        exact hdel
      subst hvs
      have hstep := commitBatch_delivers (e := ⟨db, ⟨s.log, faults⟩⟩) hbelow htidy hrs
      cases step_of_next hn with
      | @returned _ _ db₁ u e hdb₁ hrun =>
        cases hdb.symm.trans hdb₁
        obtain ⟨hfile, encoded, hencode, hdel'⟩ := hstep.of_ok hrun
        rw [show (⟨db, ⟨s.log, faults⟩⟩ : Env).db.ctx.wal.file = name from hname] at hdel' hfile
        refine ⟨e.db, _, ws ++ [⟨db.seqno + 1, encoded⟩], rfl, hfile, hdel', ?_, ?_⟩
        · exact hsub.append (List.Sublist.refl _)
        · exact List.rel_append henc (.cons ⟨rfl, hencode⟩ .nil)
      | @failed _ _ db₁ err e hdb₁ hrun =>
        cases hdb.symm.trans hdb₁
        rcases hstep.of_error hrun with ⟨msg, hmsg⟩ | ⟨hfile, vs', hprefix, hdel'⟩
        · cases hmsg
        · rw [show (⟨db, ⟨s.log, faults⟩⟩ : Env).db.ctx.wal.file = name from hname] at hdel' hfile
          exact ⟨e.db, vs', ws, rfl, hfile, hdel', hsub.trans hprefix.sublist, henc⟩
    | flush => cases hok
    | compactAll => cases hok
  | openDb config faults => cases hok
  | drop => cases hok
  | crashOpen config faults kept => cases hok
  | crashCall c faults kept => cases hok

/-- Commits to one new segment whose file operations may fail in any way: as long as
each finds the segment tidy, replaying the segment returns, and delivers those that
returned in the order in which they did. -/
theorem acked_delivered {id firstSeqno : ℕ} {log₀ : List VfsCall} {db₀ : Db}
    (hid : id < u64Size) (hfirst : firstSeqno < u64Size)
    (hfresh : Holds ⟨db₀.ctx.wal, ⟨log₀, []⟩⟩ (SegmentHeader.newSigned id firstSeqno) [])
    (h : Reach (Sys.next prims) (TidyCommit (SegmentHeader.newSigned id firstSeqno))
      ⟨log₀, some db₀, []⟩ s) :
    ∃ file sync vs out, diskOf s.log db₀.ctx.wal.file = some ⟨file, sync⟩ ∧
      (∀ (σ : Type) (onRecord : RecordView → Act σ Unit),
        replayFile file onRecord = do
          vs.forM onRecord
          return out) ∧
      ∃ ws, ws.Sublist vs ∧ List.Forall₂ Encodes ws s.acked := by
  have hstart : AckedIn db₀.ctx.wal.file (SegmentHeader.newSigned id firstSeqno)
      ⟨log₀, some db₀, []⟩ := by
    have hnil : ∀ r ∈ ([] : List RecordView), r.seqno < u64Size := by
      intro r hr
      cases hr
    exact ⟨db₀, [], [], rfl, rfl, tidy_delivers hfresh.tidy hnil, List.Sublist.refl _, .nil⟩
  obtain ⟨db, vs, ws, -, -, ⟨area, sync, out, hd, hreads⟩, hsub, henc⟩ :=
    h.invariant hstart fun _ _ _ hI hok hn => ackedIn_next hI hok hn
  exact ⟨_, sync, vs, out, hd, fun σ onRecord => replayFile_reads hid hfirst hreads onRecord,
    ws, hsub, henc⟩

end

/-! ### Runs with failing appends -/

/-- The first segment of a database, without records. -/
def AtFirst (s : Sys) : Bool :=
  match s.db with
  | none => false
  | some db => decide (db.ctx.wal = ⟨.wal 1, 0, 0⟩ ∧ db.ctx.activeMemtableBytes = 0 ∧
      db.config.memtableThresholdBytes = 4194304 ∧
      (diskOf s.log (.wal 1)).map File.bytes = some (SegmentHeader.newSigned 1 1).asBytes)

theorem atFirst_holds {s : Sys} {db : Db} (h : AtFirst s = true) (hdb : s.db = some db) :
    Holds ⟨db.ctx.wal, ⟨s.log, []⟩⟩ (SegmentHeader.newSigned 1 1) [] ∧
      db.ctx.activeMemtableBytes = 0 ∧ db.config.memtableThresholdBytes = 4194304 := by
  unfold AtFirst at h
  rw [hdb] at h
  obtain ⟨hwal, hbytes, hthreshold, hdisk⟩ := of_decide_eq_true h
  obtain ⟨⟨file, sync⟩, hfile, rfl⟩ := Option.map_eq_some_iff.mp hdisk
  refine ⟨⟨⟨sync, ?_⟩, ?_, ?_, ?_⟩, hbytes, hthreshold⟩
  · rw [hwal, layout, List.append_nil]
    exact hfile
  · rw [hwal]
    exact Nat.zero_le _
  · rw [hwal]
    rfl
  · rw [hwal]
    rfl

theorem atFirst_tidyCommit {s : Sys} {batch : WriteBatch} {encoded : Bytes} (h : AtFirst s = true)
    (hencode : encode batch = .ok encoded) (hlen : encoded.length < 4194304)
    (faults : List Outcome) :
    TidyCommit (SegmentHeader.newSigned 1 1) s (.call (.commit batch) faults) := by
  intro db hdb
  obtain ⟨hholds, hbytes, hthreshold⟩ := atFirst_holds h hdb
  refine ⟨?_, [], ?_, hholds.tidy⟩
  · intro encoded' hencode'
    cases hencode.symm.trans hencode'
    omega
  · intro r hr
    cases hr

/-- The records that replaying the segment delivers. -/
def replayed (d : Disk) (name : FileName) : Option (List RecordView) :=
  (d name).bind fun f =>
    match replayFile f.bytes (fun v => modify (· ++ [v])) ([] : List RecordView) with
    | .ok _ vs => some vs
    | .error _ _ => none

-- the first append of the first commit fails and writes nothing
theorem acked_delivered_retry : ∃ log₀ db₀ s,
    Holds ⟨db₀.ctx.wal, ⟨log₀, []⟩⟩ (SegmentHeader.newSigned 1 1) [] ∧
      Reach (Sys.next .blank) (TidyCommit (SegmentHeader.newSigned 1 1)) ⟨log₀, some db₀, []⟩ s ∧
      s.acked = [(2, [.put [1] [2]])] ∧
      ∃ file sync vs out, diskOf s.log db₀.ctx.wal.file = some ⟨file, sync⟩ ∧
        (∀ (σ : Type) (onRecord : RecordView → Act σ Unit),
          replayFile file onRecord = do
            vs.forM onRecord
            return out) ∧
        ∃ ws, ws.Sublist vs ∧ List.Forall₂ Encodes ws s.acked := by
  have hencode : encode [.put [1] [2]] = .ok [1, 0, 1, 1, 1, 2] := by decide
  have hrun : ((run (Sys.next .blank) Sys.start [.openDb .default []]).bind fun s₁ =>
      (s₁.next .blank (.call (.commit [.put [1] [2]]) [.failed 0])).bind fun s₂ =>
        (s₂.next .blank (.call (.commit [.put [1] [2]]) [])).map fun s₃ =>
          decide (AtFirst s₁ = true ∧ s₁.acked = [] ∧ AtFirst s₂ = true ∧
            s₃.acked = [(2, [.put [1] [2]])])) = some true := by
    decide +kernel
  obtain ⟨s₁, -, hrun⟩ := Option.bind_eq_some_iff.mp hrun
  obtain ⟨s₂, hn₂, hrun⟩ := Option.bind_eq_some_iff.mp hrun
  obtain ⟨s₃, hn₃, hrun⟩ := Option.map_eq_some_iff.mp hrun
  obtain ⟨hfirst₁, hacked₁, hfirst₂, hacked₃⟩ := of_decide_eq_true hrun
  obtain ⟨log₁, db, acked₁⟩ := s₁
  cases hacked₁
  cases db with
  | none => cases hfirst₁
  | some db₁ =>
    have hreach := Reach.step _ (Reach.step _ .refl
      (atFirst_tidyCommit hfirst₁ hencode (by decide) [.failed 0]) hn₂)
      (atFirst_tidyCommit hfirst₂ hencode (by decide) []) hn₃
    have hholds := (atFirst_holds hfirst₁ rfl).1
    exact ⟨log₁, db₁, s₃, hholds, hreach, hacked₃,
      acked_delivered (by decide) (by decide) hholds hreach⟩

-- five bytes of a header stay in the segment, and the next record stands behind them
theorem acked_behind_torn_lost : ∃ s,
    run (Sys.next .blank) Sys.start
      [.openDb .default [], .call (.commit [.put [1] [2]]) [.failed 5],
        .call (.commit [.put [3] [4]]) []] = some s ∧
      s.acked = [(2, [.put [3] [4]])] ∧ replayed (diskOf s.log) (.wal 1) = some [] := by
  have hrun : (run (Sys.next .blank) Sys.start
      [.openDb .default [], .call (.commit [.put [1] [2]]) [.failed 5],
        .call (.commit [.put [3] [4]]) []]).map (fun s =>
          decide (s.acked = [(2, [.put [3] [4]])] ∧
            replayed (diskOf s.log) (.wal 1) = some [])) = some true := by
    decide +kernel
  obtain ⟨s, hs, heq⟩ := Option.map_eq_some_iff.mp hrun
  exact ⟨s, hs, of_decide_eq_true heq⟩

end PaddockKV.Engine
