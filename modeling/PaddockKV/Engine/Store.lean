import PaddockKV.History

/-!
# The store

What the engine does to commits, with a history for every source and every file.
Commits pile up in the active memtable and in the open segment; the memtable is
queued when a new segment is opened; the oldest queued memtable becomes a table and
its segment goes; all tables become one; and a session starts from what is in the
directory.
-/

namespace PaddockKV.Engine

open Wal History

/-- The sources of reads, newest first, the segments in the directory in the order
of their ids, and the counters. -/
structure Store where
  active : History
  queue : List (ℕ × History)
  tables : List (ℕ × History)
  wals : List (ℕ × History)
  walId : ℕ
  next : ℕ
  seqno : ℕ
  deriving Repr, DecidableEq

namespace Store

def commit (batch : WriteBatch) (s : Store) : Store :=
  { s with
    active := s.active ++ [(s.seqno + 1, batch)]
    wals := s.wals.map fun x =>
      if x.1 = s.walId then (x.1, x.2 ++ [(s.seqno + 1, batch)]) else x
    seqno := s.seqno + 1 }

def rotate (s : Store) : Store :=
  { s with
    active := []
    queue := (s.walId, s.active) :: s.queue
    wals := s.wals ++ [(s.next, [])]
    walId := s.next
    next := s.next + 1 }

/-- The memtable `x` of the queue becomes a table. -/
def flushOne (x : ℕ × History) (s : Store) : Store :=
  { s with
    queue := s.queue.filter fun y => decide (y.1 ≠ x.1)
    tables := (s.next, x.2) :: s.tables
    wals := if x.1 ≠ 0 then s.wals.filter fun y => decide (y.1 ≠ x.1) else s.wals
    next := s.next + 1 }

/-- The commits of a list of sources that stands newest first. -/
def oldestFirst (sources : List (ℕ × History)) : History := (sources.map Prod.snd).reverse.flatten

def compact (s : Store) : Store :=
  { s with
    tables := [(s.next, oldestFirst s.tables)]
    next := s.next + 1 }

/-- The first number above all those of the directory. -/
def free (s : Store) : ℕ :=
  max ((s.wals.map Prod.fst).max?.getD 0) ((s.tables.map Prod.fst).max?.getD 0) + 1

/-- The highest sequence number of the records in the tables. -/
def tableSeqno (s : Store) : ℕ := ((oldestFirst s.tables).records.map Rec.seqno).foldl max 0

/-- A session starts: the memtable is what the segments hold. -/
def reopen (s : Store) : Store :=
  { s with
    active := (s.wals.map Prod.snd).flatten
    queue := []
    wals := s.wals ++ [(s.free, [])]
    walId := s.free
    next := s.free + 1
    seqno := maxSeqno s.tableSeqno (s.wals.map Prod.snd).flatten }

/-- Before the first session. -/
def empty : Store := ⟨[], [], [], [], 1, 2, 0⟩

/-- All commits in the sources, oldest source first. -/
def history (s : Store) : History := oldestFirst s.tables ++ oldestFirst s.queue ++ s.active

/-- The sources, newest first. -/
def sources (s : Store) : List History :=
  s.active :: (s.queue.map Prod.snd ++ s.tables.map Prod.snd)

theorem history_eq (s : Store) : s.history = s.sources.reverse.flatten := by
  simp [history, sources, oldestFirst]

/-- What the engine does on its own between two commits. The oldest memtable of the
queue is the one that is flushed. -/
inductive Work : Store → Store → Prop where
  | rotate (s : Store) : Work s s.rotate
  | flushOne {s : Store} {front : List (ℕ × History)} {x : ℕ × History}
    (h : s.queue = front ++ [x]) : Work s (s.flushOne x)
  | compact (s : Store) : Work s s.compact

abbrev Works : Store → Store → Prop := Relation.ReflTransGen Work

/-! ### What the operations do to the commits in the sources -/

theorem oldestFirst_cons (x : ℕ × History) (l : List (ℕ × History)) :
    oldestFirst (x :: l) = oldestFirst l ++ x.2 := by
  unfold oldestFirst
  rw [List.map_cons, List.reverse_cons, List.flatten_append, List.flatten_singleton]

theorem oldestFirst_append (l l' : List (ℕ × History)) :
    oldestFirst (l ++ l') = oldestFirst l' ++ oldestFirst l := by
  unfold oldestFirst
  rw [List.map_append, List.reverse_append, List.flatten_append]

theorem history_commit (batch : WriteBatch) (s : Store) :
    (s.commit batch).history = s.history ++ [(s.seqno + 1, batch)] :=
  (List.append_assoc _ _ _).symm

theorem history_rotate (s : Store) : s.rotate.history = s.history := by
  show oldestFirst s.tables ++ oldestFirst ((s.walId, s.active) :: s.queue) ++ [] = _
  rw [oldestFirst_cons, List.append_nil, ← List.append_assoc]
  rfl

theorem history_compact (s : Store) : s.compact.history = s.history := by
  show oldestFirst [(s.next, oldestFirst s.tables)] ++ _ ++ _ = _
  rw [oldestFirst_cons]
  rfl

/-- The ids of the queue tell its memtables apart. -/
def QueueApart (s : Store) : Prop := (s.queue.map Prod.fst).Nodup

theorem queue_flushOne {s : Store} {front : List (ℕ × History)} {x : ℕ × History}
    (h : s.QueueApart) (hq : s.queue = front ++ [x]) : (s.flushOne x).queue = front := by
  have hnodup := h
  rw [QueueApart, hq, List.map_append, List.nodup_append] at hnodup
  show s.queue.filter _ = front
  rw [hq, List.filter_append, List.filter_eq_self.mpr, List.filter_eq_nil_iff.mpr, List.append_nil]
  · intro y hy
    rw [List.mem_singleton.mp hy]
    simp
  · intro y hy
    have hne := hnodup.2.2 y.1 (List.mem_map_of_mem hy) x.1 (by simp)
    simpa using hne

theorem history_flushOne {s : Store} {front : List (ℕ × History)} {x : ℕ × History}
    (h : s.QueueApart) (hq : s.queue = front ++ [x]) : (s.flushOne x).history = s.history := by
  unfold history
  rw [queue_flushOne h hq, hq, oldestFirst_append]
  show oldestFirst ((s.next, x.2) :: s.tables) ++ _ ++ _ = _
  rw [oldestFirst_cons, oldestFirst_cons]
  simp [oldestFirst, flushOne]

/-! ### Which segment feeds which memtable -/

theorem Works.invariant {I : Store → Prop} (hstep : ∀ s s', I s → Work s s' → I s') {s s' : Store}
    (h : Works s s') (hs : I s) : I s' := by
  induction h with
  | refl => exact hs
  | tail _ hwork ih => exact hstep _ _ ih hwork

/-- Ids tell memtables and segments apart, and what a segment holds is in the memtable
it feeds. Segments of earlier sessions feed none. -/
structure WellFed (s : Store) : Prop where
  queue_sorted : (s.queue.map Prod.fst).Pairwise (· > ·)
  queue_lt : ∀ x ∈ s.queue, x.1 < s.walId
  queue_pos : ∀ x ∈ s.queue, 0 < x.1
  walId_pos : 0 < s.walId
  walId_lt : s.walId < s.next
  wals_lt : ∀ x ∈ s.wals, x.1 < s.next
  active : ∀ x ∈ s.wals, x.1 = s.walId → ∀ c ∈ x.2, c ∈ s.active
  queue : ∀ x ∈ s.wals, ∀ y ∈ s.queue, x.1 = y.1 → ∀ c ∈ x.2, c ∈ y.2

theorem WellFed.queueApart {s : Store} (h : s.WellFed) : s.QueueApart :=
  h.queue_sorted.imp fun hgt => ne_of_gt hgt

theorem wellFed_empty : empty.WellFed := by
  constructor
  case queue_sorted => exact .nil
  case walId_pos => exact Nat.one_pos
  case walId_lt => exact Nat.lt_succ_self 1
  all_goals
    intro x hx
    cases hx

theorem WellFed.commit {s : Store} (h : s.WellFed) (batch : WriteBatch) :
    (s.commit batch).WellFed := by
  refine ⟨h.queue_sorted, h.queue_lt, h.queue_pos, h.walId_pos, h.walId_lt, ?_, ?_, ?_⟩
  · intro x hx
    obtain ⟨y, hy, rfl⟩ := List.mem_map.mp hx
    split
    · exact h.wals_lt y hy
    · exact h.wals_lt y hy
  · intro x hx
    obtain ⟨y, hy, rfl⟩ := List.mem_map.mp hx
    split
    · rename_i heq
      intro _ c hc
      rcases List.mem_append.mp hc with hc | hc
      · exact List.mem_append_left _ (h.active y hy heq c hc)
      · exact List.mem_append_right _ hc
    · rename_i hne
      intro heq
      exact absurd heq hne
  · intro x hx z hz
    obtain ⟨y, hy, rfl⟩ := List.mem_map.mp hx
    split
    · rename_i heq
      intro hyz
      have hlt := h.queue_lt z hz
      exact absurd (heq.symm.trans hyz) (by omega)
    · exact h.queue y hy z hz

theorem WellFed.rotate {s : Store} (h : s.WellFed) : s.rotate.WellFed := by
  have hlt := h.walId_lt
  refine ⟨?_, ?_, ?_, by show 0 < s.next; omega, Nat.lt_succ_self _, ?_, ?_, ?_⟩
  · show (((s.walId, s.active) :: s.queue).map Prod.fst).Pairwise _
    rw [List.map_cons, List.pairwise_cons]
    refine ⟨?_, h.queue_sorted⟩
    intro n hn
    obtain ⟨x, hx, rfl⟩ := List.mem_map.mp hn
    exact h.queue_lt x hx
  · intro x hx
    rcases List.mem_cons.mp hx with rfl | hx
    · exact hlt
    · exact (h.queue_lt x hx).trans hlt
  · intro x hx
    rcases List.mem_cons.mp hx with rfl | hx
    · exact h.walId_pos
    · exact h.queue_pos x hx
  · intro x hx
    rcases List.mem_append.mp hx with hx | hx
    · exact (h.wals_lt x hx).trans (Nat.lt_succ_self _)
    · rw [List.mem_singleton.mp hx]
      exact Nat.lt_succ_self _
  · intro x hx heq c hc
    rcases List.mem_append.mp hx with hx | hx
    · exact absurd heq (h.wals_lt x hx).ne
    · rw [List.mem_singleton.mp hx] at hc
      cases hc
  · intro x hx y hy heq c hc
    rcases List.mem_append.mp hx with hx | hx
    · rcases List.mem_cons.mp hy with rfl | hy
      · exact h.active x hx heq c hc
      · exact h.queue x hx y hy heq c hc
    · rw [List.mem_singleton.mp hx] at hc
      cases hc

theorem mem_flushOne_queue {s : Store} {x y : ℕ × History} (hy : y ∈ (s.flushOne x).queue) :
    y ∈ s.queue := List.mem_of_mem_filter hy

theorem WellFed.flushOne {s : Store} (h : s.WellFed) (x : ℕ × History) :
    (s.flushOne x).WellFed := by
  have hwals : ∀ y ∈ (s.flushOne x).wals, y ∈ s.wals := by
    intro y hy
    unfold Store.flushOne at hy
    dsimp only at hy
    split at hy
    · exact List.mem_of_mem_filter hy
    · exact hy
  refine ⟨?_, ?_, ?_, h.walId_pos, h.walId_lt.trans (Nat.lt_succ_self _), ?_, ?_, ?_⟩
  · exact h.queue_sorted.sublist (List.filter_sublist.map _)
  · intro y hy
    exact h.queue_lt y (mem_flushOne_queue hy)
  · intro y hy
    exact h.queue_pos y (mem_flushOne_queue hy)
  · intro y hy
    exact (h.wals_lt y (hwals y hy)).trans (Nat.lt_succ_self _)
  · intro y hy
    exact h.active y (hwals y hy)
  · intro y hy z hz
    exact h.queue y (hwals y hy) z (mem_flushOne_queue hz)

theorem WellFed.compact {s : Store} (h : s.WellFed) : s.compact.WellFed :=
  { h with
    walId_lt := h.walId_lt.trans (Nat.lt_succ_self _)
    wals_lt := fun x hx => (h.wals_lt x hx).trans (Nat.lt_succ_self _) }

theorem WellFed.work {s s' : Store} (h : s.WellFed) (hwork : Work s s') : s'.WellFed := by
  cases hwork with
  | rotate => exact h.rotate
  | flushOne => exact h.flushOne _
  | compact => exact h.compact

theorem free_above (s : Store) : (∀ x ∈ s.wals, x.1 < s.free) ∧ ∀ x ∈ s.tables, x.1 < s.free := by
  constructor
  · intro x hx
    have hle := List.le_max?_getD_of_mem (k := 0) (List.mem_map_of_mem (f := Prod.fst) hx)
    unfold free
    omega
  · intro x hx
    have hle := List.le_max?_getD_of_mem (k := 0) (List.mem_map_of_mem (f := Prod.fst) hx)
    unfold free
    omega

theorem wellFed_reopen (s : Store) : s.reopen.WellFed := by
  refine ⟨.nil, ?_, ?_, Nat.succ_pos _, Nat.lt_succ_self _, ?_, ?_, ?_⟩
  · intro x hx
    cases hx
  · intro x hx
    cases hx
  · intro x hx
    rcases List.mem_append.mp hx with hx | hx
    · exact (s.free_above.1 x hx).trans (Nat.lt_succ_self _)
    · rw [List.mem_singleton.mp hx]
      exact Nat.lt_succ_self _
  · intro x hx heq c hc
    rcases List.mem_append.mp hx with hx | hx
    · exact absurd heq (s.free_above.1 x hx).ne
    · rw [List.mem_singleton.mp hx] at hc
      cases hc
  · intro x hx y hy
    cases hy

end Store

end PaddockKV.Engine
