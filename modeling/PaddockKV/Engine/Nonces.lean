import PaddockKV.Engine.FileNumbers

/-!
# Nonces (`engine.rs`, `crypto/kdf.rs`, `crypto/envelope.rs`)

A block is sealed under a key that depends on the table's id and a nonce that
depends on the block's offset. Ids are not stored: `open_with` goes on above the
numbers it finds in the directory. They stay fresh because every number ever used
is at most that of a file still there.
-/

namespace PaddockKV.Engine

open Io Wal Sstable Crypto Transition

/-! ### Sessions -/

/-- All numbers in use are below the next one. -/
structure Fresh (db : Db) (log : List VfsCall) : Prop where
  opened_lt : ∀ x ∈ log.filterMap opened, number x < db.ctx.nextFileNumber
  queued_lt : ∀ im ∈ db.state.immutableMemtables, im.walSegmentId < db.ctx.nextFileNumber
  open_lt : db.ctx.walSegmentId < db.ctx.nextFileNumber
  tables_lt : ∀ sst ∈ db.state.sstables, sst.id < db.ctx.nextFileNumber

theorem Fresh.of_opened {db : Db} {log log' : List VfsCall} (h : Fresh db log)
    (heq : log'.filterMap opened = log.filterMap opened) : Fresh db log' :=
  ⟨heq ▸ h.opened_lt, h.queued_lt, h.open_lt, h.tables_lt⟩

theorem Fresh.opened_succ {db : Db} {log log' : List VfsCall} {name : FileName} (h : Fresh db log)
    (hname : number name = db.ctx.nextFileNumber)
    (hlog : log' = log ∨ Extends (.openWritable name :: log) log') :
    ∀ x ∈ log'.filterMap opened, number x < db.ctx.nextFileNumber + 1 := by
  intro x hx
  rcases hlog with rfl | hext
  · exact (h.opened_lt x hx).trans (Nat.lt_succ_self _)
  · rw [hext.opened_eq, List.filterMap_cons_some (show opened (.openWritable name) = some name
      from rfl)] at hx
    rcases List.mem_cons.mp hx with rfl | hx
    · rw [hname]
      exact Nat.lt_succ_self _
    · exact (h.opened_lt x hx).trans (Nat.lt_succ_self _)

def NumberInv (e : Env) : Prop := Numbered e.world.log ∧ Fresh e.db e.world.log

/-- After a panic nothing is said about the database, only about the files. -/
def NumberLeft (f : Fault) (e : Env) : Prop :=
  Numbered e.world.log ∧ ((∃ err, f = .err err) → Fresh e.db e.world.log)

theorem Fresh.bump {e : Env} (h : Fresh e.db e.world.log) {w : World}
    (hw : ∀ x ∈ w.log.filterMap opened, number x < e.db.ctx.nextFileNumber + 1) :
    Fresh ({ bumpFile e with world := w } : Env).db w.log :=
  ⟨hw, fun im him => (h.queued_lt im him).trans (Nat.lt_succ_self _),
    h.open_lt.trans (Nat.lt_succ_self _),
    fun sst hsst => (h.tables_lt sst hsst).trans (Nat.lt_succ_self _)⟩

theorem numbered_removed {names : List FileName} {w w' : World} {other : FileName}
    (h : Removed names w w') (hlog : Numbered w.log) (hother : (diskOf w.log other).isSome = true)
    (hlt : ∀ name ∈ names, number name < number other) :
    Numbered w'.log ∧ w'.log.filterMap opened = w.log.filterMap opened := by
  obtain ⟨gone, hsub, hlog', -⟩ := h
  rw [hlog']
  have hall : ∀ name ∈ gone, number name < number other := fun name hn => hlt name (hsub.subset hn)
  clear hsub hlog'
  suffices hgoal : Numbered ((gone.map VfsCall.remove).reverse ++ w.log) ∧
      ((gone.map VfsCall.remove).reverse ++ w.log).filterMap opened = w.log.filterMap opened ∧
      (diskOf ((gone.map VfsCall.remove).reverse ++ w.log) other).isSome = true from
    ⟨hgoal.1, hgoal.2.1⟩
  induction gone using List.reverseRecOn with
  | nil => exact ⟨hlog, rfl, hother⟩
  | append_singleton gone name ih =>
    obtain ⟨hnum, hopened, hstays⟩ := ih fun n hn => hall n (List.mem_append_left _ hn)
    have hname := hall name (List.mem_append_right _ (List.mem_singleton_self _))
    rw [List.map_append, List.reverse_append]
    have hne : VfsCall.remove name ≠ .remove other := by
      intro heq
      cases heq
      exact lt_irrefl _ hname
    exact ⟨hnum.removed hstays hname, hopened, isSome_apply_of_ne hne hstays⟩

theorem segmentLeft_cases {faults : List Outcome} {id q : ℕ} {log log' : List VfsCall}
    (h : SegmentLeft faults id q log log') :
    log' = log ∨ Extends (.openWritable (.wal id) :: log) log' ∧
      (Numbered (.openWritable (.wal id) :: log) → Numbered log') := by
  rcases h with rfl | rfl | ⟨-, n, rfl⟩
  · exact .inl rfl
  · exact .inr ⟨Extends.refl _, fun h => h⟩
  · exact .inr ⟨(Extends.refl _).cons rfl (fun _ h => by cases h), fun h => h.plain trivial⟩

section Calls

variable {prims : Primitives} {e : Env}

theorem reserve_overflow {α : Type} {f : ℕ → Act Env α} (h : u64Size ≤ e.db.ctx.nextFileNumber + 1) :
    (reserveFileNumber >>= f) e = .error (.panicked overflowMsg) e := by
  cases hres : reserveFileNumber e with
  | ok n e' =>
    obtain ⟨-, -, hlt⟩ := (reserveFileNumber_ends e).of_ok hres
    omega
  | error g e' =>
    obtain ⟨rfl, rfl, -⟩ := (reserveFileNumber_ends e).of_error hres
    exact act_bind_error hres

theorem commitHead_number (batch : WriteBatch) (h : NumberInv e) :
    Ends (commitHead batch) e (fun _ => NumberInv) NumberLeft := by
  have hwal : ∀ q payload, Ends (SegmentWriter.appendRecord q payload) (walEnv e)
      (fun _ t => Stopped e.world.log t.world.log) fun _ t => Stopped e.world.log t.world.log :=
    fun q payload => keeps_appendRecord Stopped.plain q payload (walEnv e) ⟨h.1, Extends.refl _⟩
  have hkeep : ∀ db t, Stopped e.world.log t → Fresh db e.world.log → Fresh db t :=
    fun db t ht hf => hf.of_opened ht.2.opened_eq
  have hlogged : ∀ {encoded t}, Logged batch e encoded t → Stopped e.world.log t.world.log := by
    rintro encoded t ⟨-, -, start, t₁, happ, hsync⟩
    exact (keeps_walSync Stopped.plain t₁ ((hwal _ _).of_ok happ)).of_ok hsync
  refine Ends.mono (commitHead_ends batch e) ?_ ?_
  · rintro full _ ⟨encoded, t, m, hlog, -, rfl, -⟩
    have ht := hlogged hlog
    exact ⟨ht.1, hkeep _ _ ht ⟨h.2.opened_lt, h.2.queued_lt, h.2.open_lt, h.2.tables_lt⟩⟩
  · intro f e' hstop
    have hf : Fresh { e.db with seqno := e.db.seqno + 1 } e.world.log :=
      ⟨h.2.opened_lt, h.2.queued_lt, h.2.open_lt, h.2.tables_lt⟩
    cases hstop with
    | before hw => exact ⟨hw ▸ h.1, fun ⟨_, herr⟩ => by cases herr⟩
    | append _ happ =>
      have ht := (hwal _ _).of_error happ
      exact ⟨ht.1, fun _ => hkeep _ _ ht ⟨hf.opened_lt, hf.queued_lt, hf.open_lt, hf.tables_lt⟩⟩
    | sync _ happ hsync =>
      have ht := (keeps_walSync Stopped.plain _ ((hwal _ _).of_ok happ)).of_error hsync
      exact ⟨ht.1, fun _ => hkeep _ _ ht ⟨hf.opened_lt, hf.queued_lt, hf.open_lt, hf.tables_lt⟩⟩
    | after hlog hw => exact ⟨hw ▸ (hlogged hlog).1, fun ⟨_, herr⟩ => by cases herr⟩

theorem rotate_number (h : NumberInv e) :
    Ends rotateMemtableLocked e (fun _ => NumberInv) NumberLeft := by
  obtain ⟨hnum, hfresh⟩ := h
  have hcreated : Numbered (.openWritable (.wal e.db.ctx.nextFileNumber) :: e.world.log) :=
    hnum.created hfresh.opened_lt
  -- the memtable is queued under the number of the open segment
  have hqueued : ∀ im ∈ (queueActive e).db.state.immutableMemtables,
      im.walSegmentId < e.db.ctx.nextFileNumber := by
    intro im him
    rcases List.mem_cons.mp him with rfl | him
    · exact hfresh.open_lt
    · exact hfresh.queued_lt im him
  refine Ends.mono (rotateMemtableLocked_ends e) ?_ ?_
  · rintro - e' ⟨hdb, -, -, hmade, -⟩
    have hext : Extends (.openWritable (.wal e.db.ctx.nextFileNumber) :: e.world.log)
        e'.world.log := by
      rw [hmade]
      exact (Extends.refl _).cons rfl (fun _ h => by cases h)
    refine ⟨hmade ▸ hcreated.plain trivial, ?_⟩
    rw [hdb]
    exact ⟨hfresh.opened_succ rfl (.inr hext),
      fun im him => (hqueued im him).trans (Nat.lt_succ_self _), Nat.lt_succ_self _,
      fun sst hsst => (hfresh.tables_lt sst hsst).trans (Nat.lt_succ_self _)⟩
  · intro f e' hstop
    have hleft := segmentLeft_cases hstop.log
    have hnum' : Numbered e'.world.log := by
      rcases hleft with heq | ⟨-, hnum'⟩
      · exact heq ▸ hnum
      · exact hnum' hcreated
    refine ⟨hnum', fun _ => ?_⟩
    have hle : e.db.ctx.nextFileNumber ≤ e'.db.ctx.nextFileNumber := by
      rcases hstop.number with ⟨heq, -⟩ | heq <;> omega
    have hopened : ∀ x ∈ e'.world.log.filterMap opened, number x < e'.db.ctx.nextFileNumber := by
      rcases hstop.number with ⟨heq, hlog⟩ | heq
      · rw [heq, hlog]
        exact hfresh.opened_lt
      · rw [heq]
        exact hfresh.opened_succ rfl (hleft.imp_right And.left)
    have hctx : e'.db.ctx.walSegmentId = e.db.ctx.walSegmentId := by rw [hstop.db]
    refine ⟨hopened, ?_, hctx ▸ hfresh.open_lt.trans_le hle, ?_⟩
    · rw [hstop.state]
      exact fun im him => (hqueued im him).trans_le hle
    · rw [hstop.state]
      exact fun sst hsst => (hfresh.tables_lt sst hsst).trans_le hle

theorem replaced_number {names : List FileName} {log : List VfsCall} {w w' : World} (db : Db)
    (hfresh : Fresh db log) (hw : Stopped (.openWritable (.sst db.ctx.nextFileNumber) :: log) w.log)
    (hremoved : Removed names w w') (hlt : ∀ name ∈ names, number name < db.ctx.nextFileNumber) :
    Numbered w'.log ∧ ∀ x ∈ w'.log.filterMap opened, number x < db.ctx.nextFileNumber + 1 := by
  obtain ⟨hnum, hopened⟩ := numbered_removed hremoved hw.1
    (hw.2.present (isSome_openWritable _ _)) hlt
  refine ⟨hnum, ?_⟩
  rw [hopened]
  exact hfresh.opened_succ rfl (.inr hw.2)

theorem flushOne_number (im : ImmutableMemtable) (h : NumberInv e)
    (him : im ∈ e.db.state.immutableMemtables) :
    Ends (flushOne prims im) e (fun _ => NumberInv) NumberLeft := by
  obtain ⟨hnum, hfresh⟩ := h
  have htable : ∀ (_ : e.db.ctx.nextFileNumber < u64Size), Ends (writeFlush prims e.db im) e.world
      (fun _ w => Stopped (.openWritable (.sst e.db.ctx.nextFileNumber) :: e.world.log) w.log)
      fun _ w => TableLog e.db.ctx.nextFileNumber e.world.log w.log :=
    fun hlt => writeTable_log hlt hnum hfresh.opened_lt _ _
  refine Ends.mono (Ends.and (flushOne_ends prims im e) (Ends.self _ _)) ?_ ?_
  · rintro - e' ⟨⟨reader, w₁, w₂, hlt, hwrite, hopen, hdb, hremoved⟩, -⟩
    have hw₁ := (htable (by omega)).of_ok hwrite
    have hw₂ := (keeps_openTable (J := Stopped _) prims _ _ w₁ hw₁).of_ok hopen
    have hfed : ∀ name ∈ fedBy im, number name < e.db.ctx.nextFileNumber := by
      intro name hname
      unfold fedBy at hname
      split at hname
      · rw [List.mem_singleton.mp hname]
        exact hfresh.queued_lt im him
      · cases hname
    obtain ⟨hnum', hopened⟩ := replaced_number e.db hfresh hw₂ hremoved hfed
    refine ⟨hnum', ?_⟩
    rw [hdb]
    refine ⟨hopened, ?_, hfresh.open_lt.trans (Nat.lt_succ_self _), ?_⟩
    · intro x hx
      exact (hfresh.queued_lt x (List.mem_of_mem_filter hx)).trans (Nat.lt_succ_self _)
    · intro sst hsst
      rcases List.mem_cons.mp hsst with rfl | hsst
      · exact Nat.lt_succ_self _
      · exact (hfresh.tables_lt sst hsst).trans (Nat.lt_succ_self _)
  · rintro f e' ⟨hstop, hrun⟩
    by_cases hlt : e.db.ctx.nextFileNumber < u64Size
    · cases hstop with
      | number _ => exact ⟨hnum, fun _ => hfresh⟩
      | table hwrite =>
        have hw := (htable hlt).of_error hwrite
        exact ⟨hw.1, fun _ => hfresh.bump (hfresh.opened_succ rfl hw.2)⟩
      | reader hwrite hopen =>
        have hw₁ := (htable hlt).of_ok hwrite
        have hw := (keeps_openTable (J := Stopped _) prims _ _ _ hw₁).of_error hopen
        exact ⟨hw.1, fun _ => hfresh.bump (hfresh.opened_succ rfl (.inr hw.2))⟩
    · -- no number is left, so the call panicked before it did anything
      rw [flushOne, reserve_overflow (by omega)] at hrun
      cases hrun
      exact ⟨hnum, fun _ => hfresh⟩

theorem compactAll_number (h : NumberInv e) :
    Ends (compactAll prims) e (fun _ => NumberInv) NumberLeft := by
  obtain ⟨hnum, hfresh⟩ := h
  have htable : ∀ (_ : e.db.ctx.nextFileNumber < u64Size), Ends (writeCompaction prims e.db) e.world
      (fun _ w => Stopped (.openWritable (.sst e.db.ctx.nextFileNumber) :: e.world.log) w.log)
      fun _ w => TableLog e.db.ctx.nextFileNumber e.world.log w.log :=
    fun hlt => compactSstables_log hlt hnum hfresh.opened_lt _
  refine Ends.mono (Ends.and (compactAll_ends prims e) (Ends.self _ _)) ?_ ?_
  · rintro - e' ⟨⟨-, rfl⟩ | ⟨-, reader, w, hlt, hwrite, hdb, hremoved⟩, -⟩
    · exact ⟨hnum, hfresh⟩
    · have hw := (htable (by omega)).of_ok hwrite
      have hinputs : ∀ name ∈ e.db.state.sstables.map fun sst => FileName.sst sst.id,
          number name < e.db.ctx.nextFileNumber := by
        intro name hname
        obtain ⟨sst, hsst, rfl⟩ := List.mem_map.mp hname
        exact hfresh.tables_lt sst hsst
      obtain ⟨hnum', hopened⟩ := replaced_number e.db hfresh hw hremoved hinputs
      refine ⟨hnum', ?_⟩
      rw [hdb]
      refine ⟨hopened, fun x hx => (hfresh.queued_lt x hx).trans (Nat.lt_succ_self _),
        hfresh.open_lt.trans (Nat.lt_succ_self _), ?_⟩
      intro sst hsst
      rcases List.mem_cons.mp hsst with rfl | hsst
      · exact Nat.lt_succ_self _
      · exact (hfresh.tables_lt sst (List.mem_of_mem_filter hsst)).trans (Nat.lt_succ_self _)
  · rintro f e' ⟨hstop, hrun⟩
    by_cases hlt : e.db.ctx.nextFileNumber < u64Size
    · cases hstop with
      | number _ => exact ⟨hnum, fun _ => hfresh⟩
      | table _ hwrite =>
        have hw := (htable hlt).of_error hwrite
        exact ⟨hw.1, fun _ => hfresh.bump (hfresh.opened_succ rfl hw.2)⟩
    · -- no number is left, so the call panicked before it did anything
      have he : e' = e := by
        cases hstop with
        | number _ => rfl
        | table hmany _ =>
          have hover : compactAll prims e = .error (.panicked overflowMsg) e := by
            unfold compactAll
            rw [act_bind, show (get : Act Env Env) e = .ok e e from rfl]
            dsimp only
            rw [if_neg (not_lt.mpr hmany), reserve_overflow (by omega)]
          rw [hover] at hrun
          exact (EStateM.Result.error.inj hrun).2.symm
      rw [he]
      exact ⟨hnum, fun _ => hfresh⟩

theorem call_number (c : Call) (h : NumberInv e) :
    Ends (c.run prims) e (fun _ => NumberInv) NumberLeft := by
  cases c with
  | commit batch =>
    refine Ends.bind (commitHead_number batch h) ?_ (fun _ _ h => h)
    intro full e₁ h₁
    cases full with
    | false => exact Ends.ret h₁
    | true => exact rotate_number h₁
  | flush =>
    refine Ends.mono (flush_ends (I := NumberInv) (Q := NumberLeft) ?_ ?_) (fun _ _ h => h.1)
      (fun _ _ h => h)
    · refine Ends.read_bind ?_
      split
      · exact rotate_number h
      · exact Ends.ret h
    · intro e₁ im h₁ hlast
      exact flushOne_number im h₁ (List.mem_of_getLast? hlast)
  | compactAll => exact compactAll_number h

end Calls

/-! ### Opening -/

theorem le_firstFree_wal {names ssts : List FileName} {n : ℕ} (h : .wal n ∈ names) :
    n < firstFree (walIds names) (ssts.filterMap parseSstName) := by
  have hmem : n ∈ walIds names :=
    (List.mem_insertionSort _).mpr (List.mem_filterMap.mpr ⟨_, h, rfl⟩)
  have hle := List.le_max?_getD_of_mem (k := 0) hmem
  unfold firstFree
  omega

theorem le_firstFree_sst {wals names : List FileName} {n : ℕ} (h : .sst n ∈ names) :
    n < firstFree (walIds wals) (names.filterMap parseSstName) := by
  have hmem : n ∈ names.filterMap parseSstName := List.mem_filterMap.mpr ⟨_, h, rfl⟩
  have hle := List.le_max?_getD_of_mem (k := 0) hmem
  unfold firstFree
  omega

theorem firstFree_fresh {w : World} (h : Numbered w.log) :
    ∀ x ∈ w.log.filterMap opened,
      number x < firstFree (walIds w.list) (w.list.filterMap parseSstName) := by
  intro x hx
  obtain ⟨other, hother, hle⟩ := h.outnumbered hx
  have hlisted : other ∈ w.list := World.mem_list.mpr hother
  refine hle.trans_lt ?_
  cases other with
  | wal n => exact le_firstFree_wal hlisted
  | sst n => exact le_firstFree_sst hlisted

theorem listed_of_served {w : World} (h : ∀ o ∈ w.faults.take 2, o = .done) :
    listed w w.faults.head? = w.list ∧ listed w w.faults.tail.head? = w.list := by
  obtain ⟨log, faults⟩ := w
  cases faults with
  | nil => exact ⟨rfl, rfl⟩
  | cons o faults =>
    rw [h o (by simp)]
    cases faults with
    | nil => exact ⟨rfl, rfl⟩
    | cons o' faults =>
      rw [h o' (by simp)]
      exact ⟨rfl, rfl⟩

theorem open_number {prims : Primitives} {config : DbConfig} {w : World} (h : Numbered w.log)
    (hlists : ∀ o ∈ w.faults.take 2, o = .done) :
    Ends (openWith prims config) w (fun db w' => Numbered w'.log ∧ Fresh db w'.log)
      fun _ w' => Numbered w'.log := by
  obtain ⟨hfirst, hsecond⟩ := listed_of_served hlists
  have hfree := firstFree_fresh h
  refine Ends.mono (openWith_ends prims config w) ?_ ?_
  · intro db w' hopened
    rw [hfirst, hsecond] at hopened
    obtain ⟨hctx, -, hmade⟩ := hopened.ctx _ rfl
    generalize hn : firstFree (walIds w.list) (w.list.filterMap parseSstName) = n at *
    have hcreated : Numbered (.openWritable (.wal n) :: w.log) := h.created hfree
    have hnum : Numbered w'.log := by
      rw [hmade]
      exact hcreated.plain trivial
    refine ⟨hnum, ?_, ?_, ?_, ?_⟩
    · rw [hctx, hmade]
      intro x hx
      rcases List.mem_cons.mp hx with rfl | hx
      · exact Nat.lt_succ_self _
      · exact (hfree x hx).trans (Nat.lt_succ_self _)
    · rw [hopened.queue]
      intro im him
      cases him
    · rw [hctx]
      exact Nat.lt_succ_self _
    · rw [hctx]
      intro sst hsst
      obtain ⟨m, hm, hid, -⟩ := forall₂_exists_left hopened.tables hsst
      obtain ⟨name, hname, hparse⟩ := List.mem_filterMap.mp ((List.mem_insertionSort _).mp hm)
      cases name with
      | wal k => cases hparse
      | sst k =>
        cases hparse
        rw [hid]
        have hlt : m < n := hn ▸ le_firstFree_sst hname
        exact hlt.trans (Nat.lt_succ_self _)
  · rintro f w' ⟨-, q, hleft⟩
    rw [hfirst, hsecond] at hleft
    rcases segmentLeft_cases hleft with heq | ⟨-, hnum⟩
    · rw [heq]
      exact h
    · exact hnum (h.created hfree)

/-! ### Runs -/

/-- The listings of an `open_with` do not fail. -/
def ListsServed (_ : Sys) : Action → Prop
  | .openDb _ faults => ∀ o ∈ faults.take 2, o = .done
  | .crashOpen _ faults _ => ∀ o ∈ faults.take 2, o = .done
  | _ => True

instance (s : Sys) : (a : Action) → Decidable (ListsServed s a)
  | .openDb _ faults => inferInstanceAs (Decidable (∀ o ∈ faults.take 2, o = .done))
  | .crashOpen _ faults _ => inferInstanceAs (Decidable (∀ o ∈ faults.take 2, o = .done))
  | .call _ _ | .drop | .crashCall _ _ _ => instDecidableTrue

theorem numbered_step {prims : Primitives} {s s' : Sys} {a : Action}
    (h : Numbered s.log ∧ ∀ db, s.db = some db → Fresh db s.log) (hok : ListsServed s a)
    (hnext : s.next prims a = some s') :
    Numbered s'.log ∧ ∀ db, s'.db = some db → Fresh db s'.log := by
  cases step_of_next hnext with
  | opened hdb hopen =>
    obtain ⟨hnum, hfresh⟩ := (open_number (w := ⟨s.log, _⟩) h.1 hok).of_ok hopen
    refine ⟨hnum, ?_⟩
    rintro _ ⟨⟩
    exact hfresh
  | notOpened hdb hopen =>
    exact ⟨(open_number (w := ⟨s.log, _⟩) h.1 hok).of_error hopen, fun _ hdb => by cases hdb⟩
  | @returned c faults db u e hdb hrun =>
    obtain ⟨hnum, hfresh⟩ := (call_number (e := ⟨db, ⟨s.log, faults⟩⟩) c ⟨h.1, h.2 db hdb⟩).of_ok hrun
    refine ⟨hnum, ?_⟩
    rintro _ ⟨⟩
    exact hfresh
  | @failed c faults db err e hdb hrun =>
    obtain ⟨hnum, hfresh⟩ :=
      (call_number (e := ⟨db, ⟨s.log, faults⟩⟩) c ⟨h.1, h.2 db hdb⟩).of_error hrun
    refine ⟨hnum, ?_⟩
    rintro _ ⟨⟩
    exact hfresh ⟨err, rfl⟩
  | dropped hdb => exact ⟨h.1, fun _ hdb => by cases hdb⟩
  | @crashedOpen config faults kept hdb =>
    have hend : Numbered (resultState (openWith prims config ⟨s.log, faults⟩)).log :=
      Ends.resultState (I := fun w => Numbered w.log)
      (Ends.mono (open_number (w := ⟨s.log, faults⟩) h.1 hok) (fun _ _ h => h.1) (fun _ _ h => h))
    exact ⟨hend.of_suffix (cutLog_suffix _ _ _), fun _ hdb => by cases hdb⟩
  | @crashedCall c faults db kept hdb =>
    have hend : Numbered (resultState (c.run prims ⟨db, ⟨s.log, faults⟩⟩)).world.log :=
      Ends.resultState (I := fun e => Numbered e.world.log)
      (Ends.mono (call_number (e := ⟨db, ⟨s.log, faults⟩⟩) c ⟨h.1, h.2 db hdb⟩) (fun _ _ h => h.1)
        (fun _ _ h => h.1))
    exact ⟨hend.of_suffix (cutLog_suffix _ _ _), fun _ hdb => by cases hdb⟩

/-- Over any number of sessions no two blocks are sealed under the same table id
and offset. As long as the key derivation tells table ids apart, no key meets a
nonce twice. -/
theorem nonces_unique (prims : Primitives) {s : Sys}
    (h : Reach (Sys.next prims) ListsServed Sys.start s) :
    (s.log.filterMap sealedAt).Nodup ∧
    ∀ master, (∀ i j, i < u64Size → j < u64Size →
        deriveSstableKey prims master i = deriveSstableKey prims master j → i = j) →
      ((s.log.filterMap sealedAt).map fun p =>
        (deriveSstableKey prims master p.1, deriveBlockNonce p.2)).Nodup := by
  have hinv : Numbered s.log ∧ ∀ db, s.db = some db → Fresh db s.log := by
    refine h.invariant (I := fun s => Numbered s.log ∧ ∀ db, s.db = some db → Fresh db s.log) ?_ ?_
    · exact ⟨.nil, fun _ hdb => by cases hdb⟩
    · intro s a s' hs hok hnext
      exact numbered_step hs hok hnext
  refine ⟨hinv.1.nodup_sealed, ?_⟩
  intro master hkey
  refine hinv.1.nodup_sealed.map_on ?_
  intro p hp q hq heq
  obtain ⟨hp₁, hp₂⟩ := hinv.1.sealed_lt p hp
  obtain ⟨hq₁, hq₂⟩ := hinv.1.sealed_lt q hq
  obtain ⟨hk, hn⟩ := Prod.mk.inj heq
  exact Prod.ext (hkey _ _ hp₁ hq₁ hk) (deriveBlockNonce_inj hp₂ hq₂ hn)

def encrypting : DbConfig := ⟨1000, 10, 8, 10, some [7]⟩

/-- Two flushes of a memtable that fail when they write its first block: the second
one seals it for a table of its own. -/
theorem nonces_unique_retry : ∃ s,
    Reach (Sys.next .blank) ListsServed Sys.start s ∧
      s.log.filterMap sealedAt = [(4, 4096), (3, 4096)] ∧ (s.log.filterMap sealedAt).Nodup := by
  obtain ⟨s, hreach, hsealed⟩ := reach_of_runDecided
    (show (runOk (Sys.next .blank) (fun s a => decide (ListsServed s a)) Sys.start
      [.openDb encrypting [], .call (.commit [.put [1] [2]]) [],
        .call .flush [.done, .done, .done, .done, .failed 0],
        .call .flush [.done, .done, .failed 0]]).map
      (fun s => decide (s.log.filterMap sealedAt = [(4, 4096), (3, 4096)])) = some true by
        decide +kernel)
  exact ⟨s, hreach, of_decide_eq_true hsealed, (nonces_unique .blank hreach).1⟩

end PaddockKV.Engine
