import PaddockKV.Engine.FileUse

/-!
# Readers and their files

Through every run the calls on files are disciplined, and the file of every table
that is open for reading stands in the directory with the bytes its reader serves.
-/

namespace PaddockKV.Engine

open Io Wal Sstable Crypto Transition

/-- The table's file is in the directory and has the bytes its reader serves. -/
def OnDisk (log : List VfsCall) (sst : LiveSst) : Prop :=
  ∃ s, diskOf log (.sst sst.id) = some ⟨sst.reader.file, s⟩

structure Filed (db : Db) (log : List VfsCall) : Prop where
  small : db.ctx.nextFileNumber < u64Size
  writer : ∃ n, db.ctx.wal.file = .wal n ∧ .wal n ∈ log.filterMap opened
  tables : ∀ sst ∈ db.state.sstables, OnDisk log sst

structure FileInv (e : Env) : Prop where
  numbers : NumberInv e
  disciplined : Disciplined e.world.log
  filed : Filed e.db e.world.log

/-- After a panic nothing is said about the database. -/
def FiledLeft (f : Fault) (e : Env) : Prop :=
  Disciplined e.world.log ∧ ((∃ err, f = .err err) → Filed e.db e.world.log)

def FiledNow (e : Env) : Prop := Disciplined e.world.log ∧ Filed e.db e.world.log

theorem Filed.of_log {db db' : Db} {log log' : List VfsCall} (h : Filed db log)
    (hsmall : db'.ctx.nextFileNumber < u64Size) (hwal : db'.ctx.wal.file = db.ctx.wal.file)
    (htables : db'.state.sstables = db.state.sstables)
    (hopened : ∀ n, .wal n ∈ log.filterMap opened → .wal n ∈ log'.filterMap opened)
    (hdisk : ∀ sst ∈ db.state.sstables, diskOf log' (.sst sst.id) = diskOf log (.sst sst.id)) :
    Filed db' log' := by
  obtain ⟨n, hn, hmem⟩ := h.writer
  refine ⟨hsmall, ⟨n, hwal.trans hn, hopened n hmem⟩, ?_⟩
  rw [htables]
  intro sst hsst
  obtain ⟨s, hs⟩ := h.tables sst hsst
  exact ⟨s, (hdisk sst hsst).trans hs⟩

theorem openTable_onDisk {prims : Primitives} {config : DbConfig} {id : ℕ} {w w' : World}
    {reader : SstReader} (h : openTable prims config id w = .ok reader w') :
    OnDisk w'.log ⟨id, reader⟩ := by
  obtain ⟨hlog, -, file, s, hdisk, hopen⟩ := (openTable_ends prims config id w).of_ok h
  refine ⟨s, ?_⟩
  rw [hlog, (openInner_fields hopen).1]
  exact hdisk

section Calls

variable {prims : Primitives} {e : Env}

theorem Fresh.not_opened {db : Db} {log : List VfsCall} (h : Fresh db log) {name : FileName}
    (hname : number name = db.ctx.nextFileNumber) : name ∉ log.filterMap opened := by
  intro hmem
  exact absurd (h.opened_lt name hmem) (by omega)

theorem Fresh.table_ne {db : Db} {log : List VfsCall} (h : Fresh db log) {sst : LiveSst}
    (hsst : sst ∈ db.state.sstables) : FileName.sst sst.id ≠ .sst db.ctx.nextFileNumber := by
  intro heq
  have hlt := h.tables_lt sst hsst
  rw [FileName.sst.inj heq] at hlt
  exact lt_irrefl _ hlt

theorem commitHead_filed (batch : WriteBatch) (h : FileInv e) :
    Ends (commitHead batch) e (fun _ => FiledNow) FiledLeft := by
  obtain ⟨n, hname, hopened⟩ := h.filed.writer
  have hstart : WalWithin (.wal n) e.world.log (walEnv e) := ⟨hname, .refl⟩
  have hkeep : ∀ {t : WalEnv} {db : Db}, WalWithin (.wal n) e.world.log t →
      db.ctx.nextFileNumber = e.db.ctx.nextFileNumber → db.ctx.wal = t.writer →
      db.state.sstables = e.db.state.sstables → FiledNow ⟨db, t.world⟩ := by
    intro t db ht hnext hwal htables
    refine ⟨ht.2.disciplined h.disciplined hopened, h.filed.of_log ?_ ?_ htables ?_ ?_⟩
    · exact hnext ▸ h.filed.small
    · rw [hwal, ht.1, hname]
    · rw [ht.2.opened_eq]
      exact fun _ hmem => hmem
    · exact fun sst _ => ht.2.disk (by simp)
  have hlogged : ∀ {encoded : Bytes} {t : WalEnv}, Logged batch e encoded t →
      WalWithin (.wal n) e.world.log t := by
    intro encoded t hlog
    obtain ⟨-, -, start, t₁, happ, hsync⟩ := hlog
    exact (segment_sync t₁ ((segment_appendRecord _ _ _ hstart).of_ok happ)).of_ok hsync
  apply Ends.mono (commitHead_ends batch e)
  · rintro full _ ⟨encoded, t, m, hlog, -, rfl, -⟩
    exact hkeep (hlogged hlog) rfl rfl rfl
  · intro f e' hstop
    cases hstop with
    | before hw =>
      refine ⟨?_, fun ⟨_, herr⟩ => by cases herr⟩
      rw [hw]
      exact h.disciplined
    | @append encoded f t _ happ =>
      have ht := (segment_appendRecord _ _ _ hstart).of_error happ
      have hdone : FiledNow (loggedTo e t) := hkeep ht rfl rfl rfl
      exact ⟨hdone.1, fun _ => hdone.2⟩
    | @sync encoded f start t t' _ happ hsync =>
      have ht := (segment_sync t ((segment_appendRecord _ _ _ hstart).of_ok happ)).of_error hsync
      have hdone : FiledNow (loggedTo e t') := hkeep ht rfl rfl rfl
      exact ⟨hdone.1, fun _ => hdone.2⟩
    | after hlog hw =>
      refine ⟨?_, fun ⟨_, herr⟩ => by cases herr⟩
      rw [hw]
      exact (hlogged hlog).2.disciplined h.disciplined hopened

theorem rotate_overflow (h : u64Size ≤ e.db.ctx.nextFileNumber + 1) :
    rotateMemtableLocked e = .error (.panicked overflowMsg) (queueActive e) := by
  unfold rotateMemtableLocked
  rw [act_bind]
  exact reserve_overflow (e := queueActive e) h

theorem rotate_filed (h : FileInv e) :
    Ends rotateMemtableLocked e (fun _ => FiledNow) FiledLeft := by
  have hfresh := h.numbers.2
  by_cases hlt : e.db.ctx.nextFileNumber + 1 < u64Size
  · have hnew : FileName.wal e.db.ctx.nextFileNumber ∉ e.world.log.filterMap opened :=
      hfresh.not_opened rfl
    apply Ends.mono (rotateMemtableLocked_ends e)
    · intro _ e' hdone
      have hmade := created_of_segmentMade hdone.2.2.2.1
      refine ⟨Created.disciplined (.inr hmade) h.disciplined hnew (Nat.lt_of_succ_lt hlt), ?_⟩
      rw [hdone.1]
      refine ⟨hlt, ⟨_, rfl, ?_⟩, ?_⟩
      · rw [hmade.opened_eq]
        exact List.mem_cons_self
      · intro sst hsst
        obtain ⟨s, hs⟩ := h.filed.tables sst hsst
        exact ⟨s, (Created.disk (.inr hmade) (by simp)).trans hs⟩
    · intro f e' hstop
      have hcreated := created_of_segmentLeft hstop.log
      refine ⟨hcreated.disciplined h.disciplined hnew (Nat.lt_of_succ_lt hlt), fun _ => ?_⟩
      refine h.filed.of_log ?_ ?_ ?_ ?_ ?_
      · rcases hstop.number with ⟨heq, -⟩ | heq <;> omega
      · rw [hstop.db]
      · rw [hstop.state]
        rfl
      · intro n hmem
        rcases hcreated with heq | hw
        · exact heq ▸ hmem
        · rw [hw.opened_eq]
          exact List.mem_cons_of_mem _ hmem
      · exact fun sst _ => hcreated.disk (by simp)
  · unfold Ends
    rw [rotate_overflow (not_lt.mp hlt)]
    exact ⟨h.disciplined, fun ⟨_, herr⟩ => by cases herr⟩

theorem writeFlush_within (im : ImmutableMemtable) (w : World) (db : Db) :
    Ends (writeFlush prims db im) w
      (fun _ w' => Within (.sst db.ctx.nextFileNumber)
        (.openWritable (.sst db.ctx.nextFileNumber) :: w.log) w'.log)
      fun _ w' => Created (.sst db.ctx.nextFileNumber) w.log w'.log := by
  have hfill : ∀ sw : SstWriter, TableStep (.sst db.ctx.nextFileNumber)
      (.openWritable (.sst db.ctx.nextFileNumber) :: w.log) sw
      ((sw.setBlockSize defaultBlockSize).addAll prims im.memtable.recs) := by
    intro sw hw
    exact table_addAll (sw.setBlockSize defaultBlockSize) _ hw
  exact table_created w hfill

theorem writeCompaction_within (w : World) (db : Db) :
    Ends (writeCompaction prims db) w
      (fun reader w' => Within (.sst db.ctx.nextFileNumber)
          (.openWritable (.sst db.ctx.nextFileNumber) :: w.log) w'.log ∧
        OnDisk w'.log ⟨db.ctx.nextFileNumber, reader⟩)
      fun _ w' => Created (.sst db.ctx.nextFileNumber) w.log w'.log := by
  unfold writeCompaction
  rw [compactSstables_eq]
  have hmerge : Ends (mergeTables prims db.config (db.state.sstables.map LiveSst.reader)
      db.ctx.nextFileNumber) w
      (fun _ w' => Within (.sst db.ctx.nextFileNumber)
        (.openWritable (.sst db.ctx.nextFileNumber) :: w.log) w'.log)
      fun _ w' => Created (.sst db.ctx.nextFileNumber) w.log w'.log := by
    unfold mergeTables
    apply Ends.lift_bind
    · intro streams _
      exact table_created w fun w => table_mergeLoop _ _ w
    · exact fun _ _ => .inl rfl
  apply Ends.bind hmerge
  · intro _ w₁ h₁
    apply Ends.mono (Ends.and (keeps_openTable (J := Within _ _) prims _ _ w₁ h₁) (Ends.self _ _))
    · exact fun reader w₂ h₂ => ⟨h₂.1, openTable_onDisk h₂.2⟩
    · exact fun _ _ h₂ => .inr h₂.1
  · exact fun _ _ h => h

theorem FileInv.bump (h : FileInv e) (hlt : e.db.ctx.nextFileNumber + 1 < u64Size) {w : World}
    (hw : Created (.sst e.db.ctx.nextFileNumber) e.world.log w.log) (f : Fault) :
    FiledLeft f { bumpFile e with world := w } := by
  have hfresh := h.numbers.2
  refine ⟨hw.disciplined h.disciplined (hfresh.not_opened rfl) (Nat.lt_of_succ_lt hlt), fun _ => ?_⟩
  refine h.filed.of_log hlt rfl rfl ?_ fun sst hsst => hw.disk (hfresh.table_ne hsst)
  intro n hmem
  rcases hw with heq | hw
  · exact heq ▸ hmem
  · show _ ∈ w.log.filterMap opened
    rw [hw.opened_eq]
    exact List.mem_cons_of_mem _ hmem

theorem flushOne_filed (im : ImmutableMemtable) (h : FileInv e)
    (him : im ∈ e.db.state.immutableMemtables) :
    Ends (flushOne prims im) e (fun _ => FiledNow) FiledLeft := by
  have hfresh := h.numbers.2
  by_cases hlt : e.db.ctx.nextFileNumber + 1 < u64Size
  · apply Ends.mono (flushOne_ends prims im e)
    · rintro - e' ⟨reader, w₁, w₂, -, hrun, hopen, hdb, hremoved⟩
      have hw₁ := (writeFlush_within im e.world e.db).of_ok hrun
      have hlog₂ := ((openTable_ends _ _ _ w₁).of_ok hopen).1
      rw [← hlog₂] at hw₁
      have hfed : ∀ name ∈ fedBy im, number name < u64Size ∧ ∀ n, FileName.sst n ≠ name := by
        intro name hname
        unfold fedBy at hname
        split at hname
        · rw [List.mem_singleton.mp hname]
          exact ⟨(hfresh.queued_lt im him).trans h.filed.small, fun n heq => by cases heq⟩
        · cases hname
      have hdisk : ∀ n, diskOf e'.world.log (.sst n) = diskOf w₂.log (.sst n) :=
        fun n => hremoved.disk fun hmem => (hfed _ hmem).2 n rfl
      have hd₂ := Created.disciplined (.inr hw₁) h.disciplined (hfresh.not_opened rfl)
        (Nat.lt_of_succ_lt hlt)
      refine ⟨hremoved.disciplined hd₂ fun name hname => (hfed name hname).1, ?_⟩
      obtain ⟨n, hn, hmem⟩ := h.filed.writer
      rw [hdb]
      refine ⟨hlt, ⟨n, hn, ?_⟩, ?_⟩
      · rw [hremoved.opened_eq, hw₁.opened_eq]
        exact List.mem_cons_of_mem _ hmem
      · intro sst hsst
        rcases List.mem_cons.mp hsst with rfl | hsst
        · obtain ⟨s, hs⟩ := openTable_onDisk hopen
          exact ⟨s, (hdisk _).trans hs⟩
        · obtain ⟨s, hs⟩ := h.filed.tables sst hsst
          exact ⟨s, (hdisk _).trans
            ((Created.disk (.inr hw₁) (hfresh.table_ne hsst)).trans hs)⟩
    · intro f e' hstop
      cases hstop with
      | number hover => omega
      | table hrun => exact h.bump hlt ((writeFlush_within im e.world e.db).of_error hrun) f
      | @reader _ w₁ w hrun hopen =>
        have hw₁ := (writeFlush_within im e.world e.db).of_ok hrun
        have hlog := ((openTable_ends _ _ _ w₁).of_error hopen).1
        exact h.bump hlt (.inr (hlog ▸ hw₁)) f
  · unfold Ends
    rw [flushOne, reserve_overflow (not_lt.mp hlt)]
    exact ⟨h.disciplined, fun _ => h.filed⟩

theorem compactAll_filed (h : FileInv e) :
    Ends (compactAll prims) e (fun _ => FiledNow) FiledLeft := by
  have hfresh := h.numbers.2
  by_cases hlt : e.db.ctx.nextFileNumber + 1 < u64Size
  · apply Ends.mono (compactAll_ends prims e)
    · rintro - e' (⟨-, rfl⟩ | ⟨-, reader, w, -, hrun, hdb, hremoved⟩)
      · exact ⟨h.disciplined, h.filed⟩
      · obtain ⟨hw, s, hs⟩ := (writeCompaction_within e.world e.db).of_ok hrun
        have hd := Created.disciplined (.inr hw) h.disciplined (hfresh.not_opened rfl)
          (Nat.lt_of_succ_lt hlt)
        have hinputs : ∀ name ∈ e.db.state.sstables.map (fun sst => FileName.sst sst.id),
            number name < e.db.ctx.nextFileNumber := by
          intro name hname
          obtain ⟨sst, hsst, rfl⟩ := List.mem_map.mp hname
          exact hfresh.tables_lt sst hsst
        refine ⟨hremoved.disciplined hd fun name hname =>
          (hinputs name hname).trans h.filed.small, ?_⟩
        obtain ⟨n, hn, hmem⟩ := h.filed.writer
        rw [hdb]
        refine ⟨hlt, ⟨n, hn, ?_⟩, ?_⟩
        · rw [hremoved.opened_eq, hw.opened_eq]
          exact List.mem_cons_of_mem _ hmem
        · have htables : (compacted reader e.db).state.sstables =
              [⟨e.db.ctx.nextFileNumber, reader⟩] := by
            show _ :: List.filter _ _ = _
            rw [filter_inputs]
          intro sst hsst
          rw [htables] at hsst
          rw [List.mem_singleton.mp hsst]
          refine ⟨s, (hremoved.disk ?_).trans hs⟩
          exact fun hmem => lt_irrefl _ (hinputs _ hmem)
    · intro f e' hstop
      cases hstop with
      | number hover => omega
      | table _ hrun => exact h.bump hlt ((writeCompaction_within e.world e.db).of_error hrun) f
  · have hover : compactAll prims e = .ok () e ∨
        compactAll prims e = .error (.panicked overflowMsg) e := by
      unfold compactAll
      rw [act_bind, act_get]
      dsimp only
      split
      · exact .inl rfl
      · exact .inr (reserve_overflow (not_lt.mp hlt))
    unfold Ends
    rcases hover with heq | heq
    · rw [heq]
      exact ⟨h.disciplined, h.filed⟩
    · rw [heq]
      exact ⟨h.disciplined, fun _ => h.filed⟩

theorem fileInv_of_now {e : Env} (hn : NumberInv e) (h : FiledNow e) : FileInv e := ⟨hn, h.1, h.2⟩

theorem call_filed (c : Call) (h : FileInv e) :
    Ends (c.run prims) e (fun _ => FiledNow) FiledLeft := by
  cases c with
  | commit batch =>
    apply Ends.bind (Ends.and (commitHead_number batch h.numbers) (commitHead_filed batch h))
    · intro full e₁ h₁
      cases full with
      | false => exact Ends.ret h₁.2
      | true => exact rotate_filed (fileInv_of_now h₁.1 h₁.2)
    · exact fun _ _ h => h.2
  | flush =>
    have hrotate : Ends flushRotate e (fun _ => FileInv) FiledLeft := by
      unfold flushRotate
      apply Ends.read_bind
      split
      · exact Ends.mono (Ends.and (rotate_number h.numbers) (rotate_filed h))
          (fun _ _ h => fileInv_of_now h.1 h.2) fun _ _ h => h.2
      · exact Ends.ret h
    apply Ends.mono (flush_ends hrotate ?_)
    · exact fun _ _ h => ⟨h.1.disciplined, h.1.filed⟩
    · exact fun _ _ h => h
    · intro e₁ im h₁ hlast
      have him := List.mem_of_getLast? hlast
      exact Ends.mono (Ends.and (flushOne_number im h₁.numbers him) (flushOne_filed im h₁ him))
        (fun _ _ h => fileInv_of_now h.1 h.2) fun _ _ h => h.2
  | compactAll => exact compactAll_filed h

end Calls

/-! ### Opening -/

theorem openWith_number (prims : Primitives) (config : DbConfig) (w : World) :
    Ends (openWith prims config) w (fun _ _ => True) fun _ w' => w'.log = w.log ∨
      firstFree (walIds (listed w w.faults.head?))
        ((listed w w.faults.tail.head?).filterMap parseSstName) + 1 < u64Size := by
  unfold openWith
  refine Ends.bind (list_ends w (Q := fun _ _ => False)) ?_ (fun _ _ h => h.elim)
  rintro wals w₁ ⟨hwals, hlog₁, hf₁⟩
  dsimp only
  refine Ends.addU64_bind ?_ fun _ => .inl hlog₁
  intro _
  refine Ends.bind (list_ends w₁ (Q := fun _ _ => False)) ?_ (fun _ _ h => h.elim)
  rintro ssts w₂ ⟨hssts, hlog₂, -⟩
  have hsame : listed w₁ = listed w := by
    funext o
    unfold listed World.list World.disk
    rw [hlog₁]
  rw [hf₁, hsame] at hssts
  rw [← hwals, ← hssts]
  have hlog₂ := hlog₂.trans hlog₁
  refine Ends.bind (raiseAbove_ends _ _ w₂) ?_ ?_
  · rintro n w₂' ⟨rfl, hw⟩
    rw [hw]
    refine Ends.bind (openTables_ends prims config (sstIds ssts) w₂) ?_ ?_
    · rintro ⟨tables, m⟩ w₃ ⟨hlog₃, -⟩
      have hempty : Memtable.SkipList.new.recs = History.sortedRecs [] := rfl
      refine Ends.bind (replaySegments_ends (walIds wals) (s := ⟨.new, m⟩) hempty w₃) ?_ ?_
      · rintro s w₄ ⟨hlog₄, -⟩
        refine Ends.addU64_bind ?_ fun _ => .inl (hlog₄.trans (hlog₃.trans hlog₂))
        intro hnum
        refine Ends.bind (Ends.self _ _) (fun _ _ _ => ?_) (fun _ _ _ => .inr hnum)
        refine Ends.addU64_bind ?_ fun _ => .inr hnum
        intro _
        exact Ends.bind (Ends.self _ _) (fun _ _ _ => Ends.ret trivial) fun _ _ _ => .inr hnum
      · exact fun _ _ h => .inl (h.1.trans (hlog₃.trans hlog₂))
    · exact fun _ _ h => .inl (h.1.trans hlog₂)
  · rintro _ _ ⟨rfl, -⟩
    exact .inl hlog₂

theorem open_filed {prims : Primitives} {config : DbConfig} {w : World} (hnum : Numbered w.log)
    (hd : Disciplined w.log) (hlists : ∀ o ∈ w.faults.take 2, o = .done) :
    Ends (openWith prims config) w (fun db w' => Disciplined w'.log ∧ Filed db w'.log)
      fun _ w' => Disciplined w'.log := by
  obtain ⟨hfirst, hsecond⟩ := listed_of_served hlists
  have hfree := firstFree_fresh hnum
  apply Ends.mono (Ends.and (openWith_ends prims config w) (openWith_number prims config w))
  · rintro db w' ⟨hopened, -⟩
    rw [hfirst, hsecond] at hopened
    obtain ⟨hctx, hlt, hmade⟩ := hopened.ctx _ rfl
    generalize firstFree (walIds w.list) (w.list.filterMap parseSstName) = n at *
    have hw := created_of_segmentMade hmade
    have hnew : FileName.wal n ∉ w.log.filterMap opened := fun hmem => lt_irrefl _ (hfree _ hmem)
    refine ⟨Created.disciplined (.inr hw) hd hnew (Nat.lt_of_succ_lt hlt), ?_, ?_, ?_⟩
    · rw [hctx]
      exact hlt
    · rw [hctx]
      refine ⟨n, rfl, ?_⟩
      rw [hw.opened_eq]
      exact List.mem_cons_self
    · intro sst hsst
      obtain ⟨m, -, rfl, file, s, hdisk, hopen⟩ := forall₂_exists_left hopened.tables hsst
      refine ⟨s, ?_⟩
      rw [Created.disk (.inr hw) (by simp), (openInner_fields hopen).1]
      exact hdisk
  · rintro f w' ⟨⟨-, q, hleft⟩, hnumber⟩
    rw [hfirst, hsecond] at hleft hnumber
    rcases hnumber with heq | hlt
    · exact heq ▸ hd
    · exact (created_of_segmentLeft hleft).disciplined hd
        (fun hmem => lt_irrefl _ (hfree _ hmem)) (Nat.lt_of_succ_lt hlt)

/-! ### Runs -/

/-- What holds between the steps of a run. -/
structure RunFiled (s : Sys) : Prop where
  numbered : Numbered s.log
  disciplined : Disciplined s.log
  fresh : ∀ db, s.db = some db → Fresh db s.log
  filed : ∀ db, s.db = some db → Filed db s.log

theorem runFiled_step {prims : Primitives} {s s' : Sys} {a : Action} (h : RunFiled s)
    (hok : ListsServed s a) (hnext : s.next prims a = some s') : RunFiled s' := by
  obtain ⟨hnum, hfresh⟩ := numbered_step ⟨h.numbered, h.fresh⟩ hok hnext
  have hcall : ∀ c db faults, s.db = some db →
      Ends (Call.run prims c) ⟨db, ⟨s.log, faults⟩⟩ (fun _ => FiledNow) FiledLeft := by
    intro c db faults hdb
    exact call_filed c ⟨⟨h.numbered, h.fresh db hdb⟩, h.disciplined, h.filed db hdb⟩
  suffices hrest : Disciplined s'.log ∧ ∀ db, s'.db = some db → Filed db s'.log from
    ⟨hnum, hrest.1, hfresh, hrest.2⟩
  cases step_of_next hnext with
  | opened hdb hopen =>
    obtain ⟨hd, hfiled⟩ := (open_filed (w := ⟨s.log, _⟩) h.numbered h.disciplined hok).of_ok hopen
    refine ⟨hd, ?_⟩
    rintro _ ⟨⟩
    exact hfiled
  | notOpened hdb hopen =>
    refine ⟨(open_filed (w := ⟨s.log, _⟩) h.numbered h.disciplined hok).of_error hopen, ?_⟩
    rintro _ ⟨⟩
  | @returned c faults db u e hdb hrun =>
    obtain ⟨hd, hfiled⟩ := (hcall c db faults hdb).of_ok hrun
    refine ⟨hd, ?_⟩
    rintro _ ⟨⟩
    exact hfiled
  | @failed c faults db err e hdb hrun =>
    obtain ⟨hd, hfiled⟩ := (hcall c db faults hdb).of_error hrun
    refine ⟨hd, ?_⟩
    rintro _ ⟨⟩
    exact hfiled ⟨err, rfl⟩
  | dropped hdb =>
    refine ⟨h.disciplined, ?_⟩
    rintro _ ⟨⟩
  | @crashedOpen config faults kept hdb =>
    have hend : Disciplined (resultState (openWith prims config ⟨s.log, faults⟩)).log :=
      Ends.resultState (I := fun w => Disciplined w.log)
        (Ends.mono (open_filed (w := ⟨s.log, faults⟩) h.numbered h.disciplined hok)
          (fun _ _ h => h.1) fun _ _ h => h)
    refine ⟨hend.of_suffix (cutLog_suffix _ _ _), ?_⟩
    rintro _ ⟨⟩
  | @crashedCall c faults db kept hdb =>
    have hend : Disciplined (resultState (c.run prims ⟨db, ⟨s.log, faults⟩⟩)).world.log :=
      Ends.resultState (I := fun e => Disciplined e.world.log)
        (Ends.mono (hcall c db faults hdb) (fun _ _ h => h.1) fun _ _ h => h.1)
    refine ⟨hend.of_suffix (cutLog_suffix _ _ _), ?_⟩
    rintro _ ⟨⟩

theorem reach_filed {prims : Primitives} {s : Sys}
    (h : Reach (Sys.next prims) ListsServed Sys.start s) : RunFiled s := by
  apply h.invariant (I := RunFiled)
  · exact ⟨.nil, .nil, fun _ hdb => (nomatch hdb), fun _ hdb => (nomatch hdb)⟩
  · exact fun s a s' hs hok hnext => runFiled_step hs hok hnext

end PaddockKV.Engine
