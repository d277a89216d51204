import PaddockKV.Engine.Nonces

/-!
# Listings that fail (`engine.rs`)

`open_with` lists the directory twice and takes a failed listing for an empty
directory. What it then misses is what the files it did not see hold, and the
numbers it hands out start above those it saw.
-/

namespace PaddockKV.Engine

open Io Wal Sstable Crypto Transition History

/-- The records a scan of the table comes upon. -/
def TableRec (prims : Primitives) (reader : SstReader) (r : Rec) : Prop :=
  ∃ items, reader.scanStream prims = .ok items ∧ .ok r ∈ items

/-- `r` is a record of the file `name`. -/
def HoldsRec (prims : Primitives) (config : DbConfig) (d : Disk) : FileName → Rec → Prop
  | .wal n, r => ∃ h, SegmentAt d n h ∧ r ∈ records h
  | .sst n, r => ∃ reader, TableOpens prims config d n reader ∧ TableRec prims reader r

/-- `r` is in one of the sources reads go to. -/
def Shows (prims : Primitives) (state : EngineState) (r : Rec) : Prop :=
  r ∈ state.activeMemtable.recs ∨ (∃ im ∈ state.immutableMemtables, r ∈ im.memtable.recs) ∨
    ∃ sst ∈ state.sstables, TableRec prims sst.reader r

/-- The numbers of files the database has created or will create. -/
def HandsOut (db : Db) (n : ℕ) : Prop := n = db.ctx.walSegmentId ∨ db.ctx.nextFileNumber ≤ n

/-- The database shows every record in the directory and reuses no number. -/
structure OpenedFully (prims : Primitives) (config : DbConfig) (d : Disk) (db : Db) : Prop where
  shows : ∀ name r, HoldsRec prims config d name r → Shows prims db.state r
  fresh : ∀ name, (d name).isSome = true → ∀ n, HandsOut db n → n ≠ number name

/-- The listing in which `open_with` looks for the file has it. -/
def Seen (w : World) : FileName → Prop
  | .wal n => .wal n ∈ listed w w.faults.head?
  | .sst n => .sst n ∈ listed w w.faults.tail.head?

/-- Whatever a file that was not seen holds is in a file that was, and a file that
was seen has a number as great. -/
structure Covered (prims : Primitives) (config : DbConfig) (w : World) : Prop where
  recs : ∀ name r, HoldsRec prims config w.disk name r →
    ∃ other, Seen w other ∧ HoldsRec prims config w.disk other r
  numbers : ∀ name, (w.disk name).isSome = true →
    number name = 0 ∨ ∃ other, Seen w other ∧ number name ≤ number other

theorem covered_of_lists (prims : Primitives) (config : DbConfig) {w : World}
    (h : ∀ o ∈ w.faults.take 2, o = .done) : Covered prims config w := by
  obtain ⟨hfirst, hsecond⟩ := listed_of_served h
  have hseen : ∀ name, (w.disk name).isSome = true → Seen w name := by
    intro name hname
    have hlist := World.mem_list.mpr hname
    cases name with
    | wal n =>
      rw [Seen, hfirst]
      exact hlist
    | sst n =>
      rw [Seen, hsecond]
      exact hlist
  refine ⟨?_, fun name hname => .inr ⟨name, hseen name hname, le_refl _⟩⟩
  intro name r hr
  refine ⟨name, hseen name ?_, hr⟩
  cases name with
  | wal n =>
    obtain ⟨h, ⟨file, s, hfile, -⟩, -⟩ := hr
    rw [hfile]
    rfl
  | sst n =>
    obtain ⟨reader, ⟨file, s, hfile, -⟩, -⟩ := hr
    rw [hfile]
    rfl

/-! ### What was seen is shown -/

theorem mem_records_flatten {hists : List History} {r : Rec} :
    r ∈ records hists.flatten ↔ ∃ h ∈ hists, r ∈ records h := by
  simp only [records, List.mem_flatMap, List.mem_flatten]
  constructor
  · rintro ⟨x, ⟨h, hh, hx⟩, hr⟩
    exact ⟨h, hh, x, hx, hr⟩
  · rintro ⟨h, hh, x, hx, hr⟩
    exact ⟨x, ⟨h, hh, hx⟩, hr⟩

section Opened

variable {prims : Primitives} {config : DbConfig} {w w' : World} {db : Db}
  (h : Opened prims config w (listed w w.faults.head?) (listed w w.faults.tail.head?) db w')
include h

theorem shows_iff (r : Rec) :
    Shows prims db.state r ↔ ∃ other, Seen w other ∧ HoldsRec prims config w.disk other r := by
  obtain ⟨hists, hsegments, hrecs, -⟩ := h.segments
  constructor
  · rintro (hr | ⟨im, him, -⟩ | ⟨sst, hsst, hr⟩)
    · rw [hrecs, mem_sortedRecs, mem_records_flatten] at hr
      obtain ⟨hist, hhist, hr⟩ := hr
      obtain ⟨n, hn, hat⟩ := forall₂_exists_left hsegments hhist
      exact ⟨.wal n, mem_walIds.mp hn, hist, hat, hr⟩
    · rw [h.queue] at him
      cases him
    · obtain ⟨n, hn, -, hopens⟩ := forall₂_exists_left h.tables hsst
      exact ⟨.sst n, mem_sstIds.mp hn, sst.reader, hopens, hr⟩
  · rintro ⟨other, hseen, hr⟩
    cases other with
    | wal n =>
      obtain ⟨hist, hat, hr⟩ := hr
      obtain ⟨hist', hmem, hat'⟩ := forall₂_exists_right hsegments (mem_walIds.mpr hseen)
      refine .inl ?_
      rw [hrecs, mem_sortedRecs, mem_records_flatten]
      exact ⟨hist', hmem, segmentAt_unique hat hat' ▸ hr⟩
    | sst n =>
      obtain ⟨reader, ⟨file, s, hfile, hopen⟩, hr⟩ := hr
      obtain ⟨sst, hsst, -, file', s', hfile', hopen'⟩ :=
        forall₂_exists_right h.tables (mem_sstIds.mpr hseen)
      rw [hfile] at hfile'
      cases hfile'
      rw [hopen] at hopen'
      cases hopen'
      exact .inr (.inr ⟨sst, hsst, hr⟩)

theorem walSegmentId_eq : db.ctx.walSegmentId = firstFree (walIds (listed w w.faults.head?))
    ((listed w w.faults.tail.head?).filterMap parseSstName) := by
  obtain ⟨hctx, -, -⟩ := h.ctx _ rfl
  rw [hctx]

theorem handsOut_iff (n : ℕ) : HandsOut db n ↔ db.ctx.walSegmentId ≤ n := by
  obtain ⟨hctx, -, -⟩ := h.ctx _ rfl
  unfold HandsOut
  rw [hctx]
  dsimp only
  omega

end Opened

theorem max?_getD_mem {l : List ℕ} : l.max?.getD 0 = 0 ∨ l.max?.getD 0 ∈ l := by
  cases hmax : l.max? with
  | none => exact .inl rfl
  | some m => exact .inr (List.max?_mem hmax)

theorem lt_firstFree_iff (w : World) (k : ℕ) :
    k < firstFree (walIds (listed w w.faults.head?))
      ((listed w w.faults.tail.head?).filterMap parseSstName) ↔
    k = 0 ∨ ∃ other, Seen w other ∧ k ≤ number other := by
  constructor
  · intro hk
    by_cases hzero : k = 0
    · exact .inl hzero
    · refine .inr ?_
      unfold firstFree at hk
      by_cases hwal : k ≤ (walIds (listed w w.faults.head?)).max?.getD 0
      · rcases max?_getD_mem (l := walIds (listed w w.faults.head?)) with h0 | hmem
        · omega
        · exact ⟨.wal _, mem_walIds.mp hmem, hwal⟩
      · rcases max?_getD_mem
          (l := (listed w w.faults.tail.head?).filterMap parseSstName) with h0 | hmem
        · omega
        · refine ⟨.sst _, mem_sstIds.mp ((List.mem_insertionSort _).mpr hmem), ?_⟩
          simp only [number]
          omega
  · rintro (rfl | ⟨other, hseen, hle⟩)
    · exact Nat.succ_pos _
    · refine hle.trans_lt ?_
      cases other with
      | wal n => exact le_firstFree_wal hseen
      | sst n => exact le_firstFree_sst hseen

/-- A database that opened shows every record of the directory and hands out new
numbers exactly when the files its listings left out are covered by those it saw. -/
theorem opened_fully_iff (prims : Primitives) (config : DbConfig) (w : World) {db : Db} {w' : World}
    (h : openWith prims config w = .ok db w') :
    OpenedFully prims config w.disk db ↔ Covered prims config w := by
  have hopened := (openWith_ends prims config w).of_ok h
  have hnumber : ∀ k, k < db.ctx.walSegmentId ↔
      k = 0 ∨ ∃ other, Seen w other ∧ k ≤ number other := by
    intro k
    rw [walSegmentId_eq hopened]
    exact lt_firstFree_iff w k
  constructor
  · intro hfully
    refine ⟨fun name r hr => (shows_iff hopened r).mp (hfully.shows name r hr), ?_⟩
    intro name hname
    refine (hnumber _).mp (not_le.mp fun hle => ?_)
    exact hfully.fresh name hname _ ((handsOut_iff hopened _).mpr hle) rfl
  · intro hcovered
    refine ⟨fun name r hr => (shows_iff hopened r).mpr (hcovered.recs name r hr), ?_⟩
    rintro name hname _ hout rfl
    have hlt := (hnumber _).mpr (hcovered.numbers name hname)
    exact absurd ((handsOut_iff hopened _).mp hout) (not_le.mpr hlt)

/-- A session that makes one commit. -/
def oneCommit : List Action := [.openDb .default [], .call (.commit [.put [1] [2]]) [], .drop]

/-- Reopened, the database has `recs` in its memtable and no tables, and writes to
the segment `id`. -/
def reopens (faults : List Outcome) (recs : List Rec) (id : ℕ) (s : Sys) : Bool :=
  match openWith .blank .default ⟨s.log, faults⟩ with
  | .ok db _ => decide (db.state.activeMemtable.recs = recs ∧ db.state.sstables.length = 0 ∧
      db.ctx.walSegmentId = id)
  | .error _ _ => false

theorem reopens_eq {faults : List Outcome} {recs : List Rec} {id : ℕ} {s : Sys}
    (h : reopens faults recs id s = true) :
    ∃ db w, openWith .blank .default ⟨s.log, faults⟩ = .ok db w ∧
      db.state.activeMemtable.recs = recs ∧ db.state.sstables = [] ∧ db.ctx.walSegmentId = id := by
  unfold reopens at h
  cases hopen : openWith .blank .default ⟨s.log, faults⟩ with
  | ok db w =>
    rw [hopen] at h
    obtain ⟨hrecs, htables, hid⟩ := of_decide_eq_true h
    exact ⟨db, w, rfl, hrecs, List.length_eq_zero_iff.mp htables, hid⟩
  | error f w =>
    rw [hopen] at h
    cases h

theorem opened_fully_again : ∃ s db w, Reach (Sys.next .blank) always Sys.start s ∧
    openWith .blank .default ⟨s.log, []⟩ = .ok db w ∧
    db.state.activeMemtable.recs = [⟨[1], 1, .put, [2]⟩] ∧
    OpenedFully .blank .default (diskOf s.log) db := by
  obtain ⟨s, hreach, hs⟩ := reach_of_run (show (run (Sys.next .blank) Sys.start oneCommit).map
    (reopens [] [⟨[1], 1, .put, [2]⟩] 2) = some true by decide +kernel)
  obtain ⟨db, w, hopen, hrecs, -, -⟩ := reopens_eq hs
  have hcovered := covered_of_lists .blank .default (w := ⟨s.log, []⟩) (fun _ h => by cases h)
  exact ⟨s, db, w, hreach, hopen, hrecs, (opened_fully_iff .blank .default _ hopen).mpr hcovered⟩

/-- After a commit, a reopening whose first listing fails returns `Ok` without the
commit and writes to the segment that holds it. -/
theorem opened_without_commit : ∃ s db w, Reach (Sys.next .blank) always Sys.start s ∧
    openWith .blank .default ⟨s.log, [.failed 0]⟩ = .ok db w ∧
    (∃ name r, HoldsRec .blank .default (diskOf s.log) name r ∧ ¬ Shows .blank db.state r) ∧
    ∃ name n, (diskOf s.log name).isSome = true ∧ HandsOut db n ∧ n = number name := by
  obtain ⟨s, hreach, hs⟩ := reach_of_run (show (run (Sys.next .blank) Sys.start oneCommit).map
    (fun s => reopens [] [⟨[1], 1, .put, [2]⟩] 2 s && reopens [.failed 0] [] 1 s &&
      (diskOf s.log (.wal 1)).isSome) = some true by decide +kernel)
  simp only [Bool.and_eq_true] at hs
  obtain ⟨⟨hfull, hmissed⟩, hfile⟩ := hs
  obtain ⟨db₀, w₀, hopen₀, hrecs₀, -, -⟩ := reopens_eq hfull
  obtain ⟨db, w, hopen, hrecs, htables, hid⟩ := reopens_eq hmissed
  refine ⟨s, db, w, hreach, hopen, ?_, .wal 1, 1, hfile, .inl hid.symm, rfl⟩
  -- the database opened without faults shows where the record is
  have hshown : Shows .blank db₀.state ⟨[1], 1, .put, [2]⟩ := by
    refine .inl ?_
    rw [hrecs₀]
    exact List.mem_singleton_self _
  obtain ⟨name, -, hholds⟩ := (shows_iff ((openWith_ends _ _ _).of_ok hopen₀) _).mp hshown
  refine ⟨name, _, hholds, ?_⟩
  rintro (hr | ⟨im, him, -⟩ | ⟨sst, hsst, -⟩)
  · rw [hrecs] at hr
    cases hr
  · rw [((openWith_ends _ _ _).of_ok hopen).queue] at him
    cases him
  · rw [htables] at hsst
    cases hsst

end PaddockKV.Engine
