import PaddockKV.Engine.OldSegments
import PaddockKV.Engine.OneSession

/-!
# Reads before and after a reopen

A reopened database reads from the same tables and from one memtable with all that
the segments hold. That is what the memtables held, and what the segments of earlier
sessions still hold although it was flushed. Such a record comes in front of the
tables, so a key of which no memtable holds a version may change.
-/

namespace PaddockKV.Engine

open Io Wal Memtable Sstable Crypto History Transition

namespace Store

/-- The commits of the second history that have operations are newer. -/
def Older (h h' : History) : Prop := ∀ c ∈ h, ∀ d ∈ h', c.2 ≠ [] → d.2 ≠ [] → c.1 < d.1

/-- The oldest memtable. -/
def oldest (t : Store) : ℕ × History := t.queue.getLast?.getD (t.walId, t.active)

/-- The memtables stand in the order of their commits. What the segments of earlier
sessions hold is in the oldest memtable, or older than all of them. -/
structure Layered (acked : History) (t : Store) : Prop where
  kept : t.Kept acked
  newer : t.memtables.Pairwise fun y z => Older z.2 y.2
  old : (∀ x, t.Old x → ∀ c ∈ x.2, c ∈ t.oldest.2) ∨
    ∀ x, t.Old x → ∀ y ∈ t.memtables, Older x.2 y.2

section

variable {acked : History} {t t' : Store}

theorem oldest_mem (t : Store) : t.oldest ∈ t.memtables := by
  unfold oldest memtables
  cases hlast : t.queue.getLast? with
  | none => exact List.mem_cons_self
  | some y => exact List.mem_cons_of_mem _ (List.mem_of_getLast? hlast)

theorem Kept.memtable_le (h : Kept acked t) {y : ℕ × History} (hy : y ∈ t.memtables)
    {c : ℕ × WriteBatch} (hc : c ∈ y.2) (hne : c.2 ≠ []) : c.1 ≤ t.seqno :=
  h.le_seqno c ((h.same c hne).mp (mem_history.mpr (.inr ⟨y, hy, hc⟩))) hne

theorem layered_empty : Layered [] empty := by
  refine ⟨kept_empty, List.pairwise_singleton _ _, .inl ?_⟩
  rintro x ⟨hx, -⟩
  cases hx

theorem Layered.commit (h : Layered acked t) (batch : WriteBatch)
    (hwal : ∃ x, (t.walId, x) ∈ t.wals) :
    Layered (acked ++ [(t.seqno + 1, batch)]) (t.commit batch) := by
  have hactive : ∀ x : History, Older x t.active → (∀ c ∈ x, c.2 ≠ [] → c.1 ≤ t.seqno) →
      Older x (t.active ++ [(t.seqno + 1, batch)]) := by
    intro x hold hle c hc d hd hcne hdne
    rcases List.mem_append.mp hd with hd | hd
    · exact hold c hc d hd hcne hdne
    · rw [List.mem_singleton.mp hd]
      exact Nat.lt_succ_of_le (hle c hc hcne)
  obtain ⟨hfirst, hqueue⟩ := List.pairwise_cons.mp h.newer
  refine ⟨h.kept.commit batch hwal, List.pairwise_cons.mpr ⟨?_, hqueue⟩, ?_⟩
  · intro z hz
    exact hactive z.2 (hfirst z hz) fun c hc => h.kept.memtable_le (List.mem_cons_of_mem _ hz) hc
  · simp only [old_commit]
    refine h.old.imp ?_ ?_
    · intro hold x hx c hc
      have hmem := hold x hx c hc
      unfold oldest at hmem ⊢
      show c ∈ (t.queue.getLast?.getD (t.walId, t.active ++ [(t.seqno + 1, batch)])).2
      cases hlast : t.queue.getLast? with
      | none =>
        rw [hlast] at hmem
        exact List.mem_append_left _ hmem
      | some y =>
        rw [hlast] at hmem
        exact hmem
    · intro hold x hx
      refine List.forall_mem_cons.mpr ⟨?_, fun y hy => hold x hx y (List.mem_cons_of_mem _ hy)⟩
      refine hactive x.2 (hold x hx (t.walId, t.active) List.mem_cons_self) ?_
      intro c hc hne
      exact h.kept.le_seqno c (h.kept.wals x hx.1 c hc hne) hne

theorem Layered.rotate (h : Layered acked t) : Layered acked t.rotate := by
  have hnil : ∀ x : History, Older x [] := by
    intro x c hc d hd
    cases hd
  refine ⟨h.kept.rotate, List.pairwise_cons.mpr ⟨fun z _ => hnil z.2, h.newer⟩, ?_⟩
  simp only [old_rotate h.kept.fed]
  refine h.old.imp ?_ ?_
  · intro hold x hx c hc
    have hlast : t.rotate.oldest = t.oldest := by
      show ((t.walId, t.active) :: t.queue).getLast?.getD _ = _
      rw [List.getLast?_cons]
      rfl
    rw [hlast]
    exact hold x hx c hc
  · intro hold x hx
    exact List.forall_mem_cons.mpr ⟨hnil x.2, hold x hx⟩

theorem Layered.flushOne (h : Layered acked t) {front : List (ℕ × History)} {y : ℕ × History}
    (hq : t.queue = front ++ [y]) : Layered acked (t.flushOne y) := by
  have hmems : t.memtables = (t.flushOne y).memtables ++ [y] := by
    show (t.walId, t.active) :: t.queue = (t.walId, t.active) :: (t.flushOne y).queue ++ [y]
    rw [queue_flushOne h.kept.fed.queueApart hq, hq]
    rfl
  have hnewer := h.newer
  rw [hmems, List.pairwise_append] at hnewer
  refine ⟨h.kept.flushOne hq, hnewer.1, .inr ?_⟩
  have hy : y ∈ t.queue := by simp [hq]
  simp only [old_flushOne h.kept.fed hy]
  intro x hx z hz
  rcases h.old with hold | hold
  · -- the segments' commits go with the memtable that is flushed
    have hlast : t.oldest = y := by
      unfold oldest
      rw [hq, List.getLast?_concat]
      rfl
    rw [hlast] at hold
    intro c hc
    exact hnewer.2.2 z hz y (List.mem_singleton_self y) c (hold x hx c hc)
  · exact hold x hx z (by rw [hmems]; exact List.mem_append_left _ hz)

theorem Layered.works (h : Layered acked t) (hworks : Works t t') : Layered acked t' := by
  refine Works.invariant (I := Layered acked) ?_ hworks h
  intro s s' hs hwork
  cases hwork with
  | rotate => exact hs.rotate
  | flushOne hq => exact hs.flushOne hq
  | compact => exact ⟨hs.kept.compact, hs.newer, hs.old⟩

theorem Layered.reopen (h : Layered acked t) : Layered acked t.reopen := by
  refine ⟨h.kept.reopen, List.pairwise_singleton _ _, .inl ?_⟩
  intro x hx c hc
  exact mem_flatten_snd.mpr ⟨x, old_reopen.mp hx, hc⟩

/-! ### Reads -/

/-- The hit of a probe of the memtables. -/
def memtableHit (t : Store) (key : Key) (snapshot : ℕ) : Option Rec :=
  (t.active :: t.queue.map Prod.snd).findSome? fun h => lookup (sortedRecs h) key snapshot

/-- The hit of a probe of the tables. -/
def tableHit (t : Store) (key : Key) (snapshot : ℕ) : Option Rec :=
  t.tables.findSome? fun x => tableGet (blocksOf x.2) key snapshot

/-- What the segments of earlier sessions hold. -/
def oldCommits (t : Store) : History :=
  ((t.wals.filter fun x => decide (∀ y ∈ t.memtables, x.1 ≠ y.1)).map Prod.snd).flatten

def oldHit (t : Store) (key : Key) (snapshot : ℕ) : Option Rec :=
  newestRec (records t.oldCommits).reverse key snapshot

theorem mem_oldCommits {c : ℕ × WriteBatch} : c ∈ t.oldCommits ↔ ∃ x, t.Old x ∧ c ∈ x.2 := by
  unfold oldCommits
  rw [mem_flatten_snd]
  simp only [List.mem_filter, decide_eq_true_eq]
  rfl

theorem Layered.memtableHit_eq (h : Layered acked t) (key : Key) (snapshot : ℕ) :
    t.memtableHit key snapshot =
      newestRec (records (oldestFirst t.memtables)).reverse key snapshot := by
  have hmems : t.memtables.map Prod.snd = t.active :: t.queue.map Prod.snd := rfl
  have hlookup : ∀ l ∈ (t.memtables.map Prod.snd).map sortedRecs,
      lookup l key snapshot = newestRec l key snapshot := by
    intro l hl
    obtain ⟨x, -, rfl⟩ := List.mem_map.mp hl
    exact lookup_eq_newestRec (sortedRecs_sorted x) key snapshot
  have hnewer : ((t.memtables.map Prod.snd).map sortedRecs).Pairwise
      fun l l' => ∀ r ∈ l, ∀ r' ∈ l', r'.seqno ≤ r.seqno := by
    rw [List.map_map, List.pairwise_map]
    refine h.newer.imp ?_
    intro y z hyz r hr r' hr'
    obtain ⟨c, hc, op, hop, rfl⟩ := mem_records.mp (mem_sortedRecs.mp hr)
    obtain ⟨d, hd, op', hop', rfl⟩ := mem_records.mp (mem_sortedRecs.mp hr')
    rw [toRec_seqno, toRec_seqno]
    exact (hyz d hd c hc (List.ne_nil_of_mem hop') (List.ne_nil_of_mem hop)).le
  have hfirst : t.memtableHit key snapshot =
      ((t.memtables.map Prod.snd).map sortedRecs).findSome? fun l => lookup l key snapshot := by
    rw [List.findSome?_map, hmems]
    rfl
  rw [hfirst, findSome_congr hlookup, oldestFirst, ← newestRec_sortedRecs]
  refine Newest.findSome_newest (hnewer.imp ?_)
  intro l l' hll a ha x hx _
  exact hll a (Newest.newest_mem ha).1 x hx

theorem Kept.mem_wals (h : Kept acked t) {c : ℕ × WriteBatch} :
    c ∈ (t.wals.map Prod.snd).flatten ↔ c ∈ t.oldCommits ++ oldestFirst t.memtables := by
  rw [mem_flatten_snd, List.mem_append, mem_oldCommits, mem_oldestFirst]
  constructor
  · rintro ⟨x, hx, hc⟩
    by_cases hold : t.Old x
    · exact .inl ⟨x, hold, hc⟩
    · right
      by_cases hid : x.1 = t.walId
      · exact ⟨(t.walId, t.active), List.mem_cons_self, h.fed.active x hx hid c hc⟩
      · have hfeeds : ∃ y ∈ t.queue, x.1 = y.1 := by
          by_contra hno
          exact hold (old_iff.mpr ⟨hx, hid, fun y hy heq => hno ⟨y, hy, heq⟩⟩)
        obtain ⟨y, hy, heq⟩ := hfeeds
        exact ⟨y, List.mem_cons_of_mem _ hy, h.fed.queue x hx y hy heq c hc⟩
  · rintro (⟨x, hold, hc⟩ | ⟨y, hy, hc⟩)
    · exact ⟨x, hold.1, hc⟩
    · obtain ⟨w, hw, hcw, -⟩ := h.logged y hy c hc
      exact ⟨w, hw, hcw⟩

theorem Kept.mem_acked (h : Kept acked t) :
    ∀ c ∈ (t.wals.map Prod.snd).flatten, c.2 ≠ [] → c ∈ acked := by
  intro c hc hne
  obtain ⟨x, hx, hcx⟩ := mem_flatten_snd.mp hc
  exact h.wals x hx c hcx hne

/-- The replayed memtable has the version of the memtables before it, and where they
had none, the one in the segments of earlier sessions. -/
theorem Layered.replayed (h : Layered acked t) (key : Key) (snapshot : ℕ) :
    lookup (sortedRecs t.reopen.active) key snapshot =
      (t.memtableHit key snapshot).or (t.oldHit key snapshot) := by
  have hview : lookup (sortedRecs t.reopen.active) key snapshot =
      newestRec ((records (oldestFirst t.memtables)).reverse ++ (records t.oldCommits).reverse) key
        snapshot := by
    rw [lookup_eq_newestRec (sortedRecs_sorted _), sortedRecs, newestRec_isort,
      ← List.reverse_append, ← records_append]
    refine newestRec_congr (fun c _ => h.kept.mem_wals) ?_ key snapshot
    intro c hc d hd hcne hdne
    exact h.kept.apart c (h.kept.mem_acked c hc hcne) d (h.kept.mem_acked d hd hdne) hcne hdne
  rw [hview]
  cases hhit : t.memtableHit key snapshot with
  | none =>
    rw [h.memtableHit_eq] at hhit
    rw [newestRec_append, hhit, Option.none_or]
    rfl
  | some r =>
    rw [h.memtableHit_eq] at hhit
    rw [Option.some_or]
    refine Newest.newest_append_of_le hhit ?_
    intro x hx hv
    obtain ⟨c, hc, op, hop, rfl⟩ := mem_records.mp (List.mem_reverse.mp hx)
    obtain ⟨w, hw, hcw⟩ := mem_oldCommits.mp hc
    rcases h.old with hold | hold
    · have hmem : c ∈ oldestFirst t.memtables :=
        mem_oldestFirst.mpr ⟨t.oldest, t.oldest_mem, hold w hw c hcw⟩
      exact Newest.le_newest hhit
        (List.mem_reverse.mpr (mem_records.mpr ⟨c, hmem, op, hop, rfl⟩)) hv
    · obtain ⟨d, hd, op', hop', rfl⟩ :=
        mem_records.mp (List.mem_reverse.mp (Newest.newest_mem hhit).1)
      obtain ⟨y, hy, hdy⟩ := mem_oldestFirst.mp hd
      rw [toRec_seqno, toRec_seqno]
      exact (hold w hw y hy c hcw d hdy (List.ne_nil_of_mem hop) (List.ne_nil_of_mem hop')).le

theorem probe_congr {n n' : ℕ} (h : ∀ c ∈ t.history, c.2 ≠ [] → c.1 ≤ n ∧ c.1 ≤ n') (key : Key) :
    t.probe key n = t.probe key n' := by
  have hrecs : ∀ x : History, (∀ c ∈ x, c ∈ t.history) → ∀ r ∈ sortedRecs x,
      r.seqno ≤ n ∧ r.seqno ≤ n' := by
    intro x hx r hr
    obtain ⟨c, hc, op, hop, rfl⟩ := mem_records.mp (mem_sortedRecs.mp hr)
    rw [toRec_seqno]
    exact h c (hx c hc) (List.ne_nil_of_mem hop)
  unfold probe
  congr 1
  · refine findSome_congr ?_
    intro x hx
    refine List.find?_congr ?_
    intro r hr
    obtain ⟨hn, hn'⟩ := hrecs x (fun c hc => mem_history.mpr (.inr (by
      rcases List.mem_cons.mp hx with rfl | hx
      · exact ⟨(t.walId, t.active), List.mem_cons_self, hc⟩
      · obtain ⟨y, hy, rfl⟩ := List.mem_map.mp hx
        exact ⟨y, List.mem_cons_of_mem _ hy, hc⟩))) r hr
    exact decide_eq_decide.mpr (and_congr_right fun _ => iff_of_true hn hn')
  · refine findSome_congr ?_
    intro x hx
    refine tableGet_congr (blocksOf_ne_nil x.2) (blocksOf_sorted x.2) ?_
    intro r hr _
    rw [blocksOf_flatten] at hr
    obtain ⟨hn, hn'⟩ := hrecs x.2 (fun c hc => mem_history.mpr (.inl ⟨x, hx, hc⟩)) r hr
    exact iff_of_true hn hn'

/-- The newest version of the key in the first table that has one. -/
def firstVersion (t : Store) (key : Key) : Option Rec :=
  t.tables.findSome? fun x => (sortedRecs x.2).find? fun r => decide (r.key = key)

/-- A memtable has a version of the key, or the segments of earlier sessions have none,
or the tables give the newest version that these have. -/
def Settled (t : Store) (key : Key) : Prop :=
  (∃ y ∈ t.memtables, ∃ r ∈ sortedRecs y.2, r.key = key) ∨
  (∀ r ∈ records t.oldCommits, r.key ≠ key) ∨
  (∀ x ∈ t.tables, Locates (blocksOf x.2) key) ∧ ∃ r₀, t.firstVersion key = some r₀ ∧
    (∀ r ∈ records t.oldCommits, r.key = key → r.seqno ≤ r₀.seqno) ∧
    ∃ r ∈ records t.oldCommits, r.key = key ∧ r.seqno = r₀.seqno

theorem newestRec_none_iff {l : List Rec} {key : Key} {n : ℕ} (hle : ∀ r ∈ l, r.seqno ≤ n) :
    newestRec l key n = none ↔ ∀ r ∈ l, r.key ≠ key := by
  unfold newestRec
  rw [Newest.newest_eq_none_iff]
  refine forall₂_congr ?_
  intro r hr
  exact not_congr (and_iff_left (hle r hr))

theorem find_key_eq_lookup {l : List Rec} {n : ℕ} (hle : ∀ r ∈ l, r.seqno ≤ n) (key : Key) :
    (l.find? fun r => decide (r.key = key)) = lookup l key n := by
  refine List.find?_congr ?_
  intro r hr
  exact decide_eq_decide.mpr (and_iff_left (hle r hr)).symm

theorem seqno_le_of_commits {x : History} {n : ℕ} (h : ∀ c ∈ x, c.2 ≠ [] → c.1 ≤ n) {r : Rec}
    (hr : r ∈ records x) : r.seqno ≤ n := by
  obtain ⟨c, hc, op, hop, rfl⟩ := mem_records.mp hr
  rw [toRec_seqno]
  exact h c hc (List.ne_nil_of_mem hop)

section

variable {n : ℕ}

theorem Kept.table_acked (h : Kept acked t) {x : ℕ × History} (hx : x ∈ t.tables) :
    ∀ c ∈ x.2, c.2 ≠ [] → c ∈ acked :=
  fun c hc hne => (h.same c hne).mp (mem_history.mpr (.inl ⟨x, hx, hc⟩))

theorem Kept.old_acked (h : Kept acked t) : ∀ c ∈ t.oldCommits, c.2 ≠ [] → c ∈ acked := by
  intro c hc hne
  obtain ⟨x, hx, hcx⟩ := mem_oldCommits.mp hc
  exact h.wals x hx.1 c hcx hne

theorem Kept.memtable_acked (h : Kept acked t) :
    ∀ c ∈ oldestFirst t.memtables, c.2 ≠ [] → c ∈ acked := by
  intro c hc hne
  exact (h.same c hne).mp (mem_history.mpr (.inr (mem_oldestFirst.mp hc)))

theorem Kept.tableHit_eq (h : Kept acked t) (hn : ∀ c ∈ acked, c.2 ≠ [] → c.1 ≤ n) {key : Key}
    (hloc : ∀ x ∈ t.tables, Locates (blocksOf x.2) key) : t.tableHit key n = t.firstVersion key := by
  refine findSome_congr ?_
  intro x hx
  rw [(locates_iff x.2 key).mp (hloc x hx) n, find_key_eq_lookup]
  intro r hr
  exact seqno_le_of_commits (fun c hc hne => hn c (h.table_acked hx c hc hne) hne)
    (mem_sortedRecs.mp hr)

theorem Kept.firstVersion_newest (h : Kept acked t) (hn : ∀ c ∈ acked, c.2 ≠ [] → c.1 ≤ n)
    {key : Key} {r : Rec} (hr : t.firstVersion key = some r) :
    ∃ x ∈ t.tables, newestRec (records x.2).reverse key n = some r := by
  obtain ⟨x, hx, hfind⟩ := List.exists_of_findSome?_eq_some hr
  refine ⟨x, hx, ?_⟩
  rw [find_key_eq_lookup (n := n), lookup_eq_newestRec (sortedRecs_sorted x.2), sortedRecs,
    newestRec_isort] at hfind
  · exact hfind
  · intro r hr
    exact seqno_le_of_commits (fun c hc hne => hn c (h.table_acked hx c hc hne) hne)
      (mem_sortedRecs.mp hr)

theorem Layered.memtableHit_none (h : Layered acked t) (hn : ∀ c ∈ acked, c.2 ≠ [] → c.1 ≤ n)
    (key : Key) :
    t.memtableHit key n = none ↔ ¬ ∃ y ∈ t.memtables, ∃ r ∈ sortedRecs y.2, r.key = key := by
  rw [h.memtableHit_eq, newestRec_none_iff]
  · constructor
    · rintro hno ⟨y, hy, r, hr, hkey⟩
      obtain ⟨c, hc, op, hop, rfl⟩ := mem_records.mp (mem_sortedRecs.mp hr)
      have hmem := mem_oldestFirst.mpr ⟨y, hy, hc⟩
      exact hno _ (List.mem_reverse.mpr (mem_records.mpr ⟨c, hmem, op, hop, rfl⟩)) hkey
    · intro hno r hr hkey
      obtain ⟨c, hc, op, hop, rfl⟩ := mem_records.mp (List.mem_reverse.mp hr)
      obtain ⟨y, hy, hcy⟩ := mem_oldestFirst.mp hc
      exact hno ⟨y, hy, _, mem_sortedRecs.mpr (mem_records.mpr ⟨c, hcy, op, hop, rfl⟩), hkey⟩
  · intro r hr
    exact seqno_le_of_commits (fun c hc hne => hn c (h.kept.memtable_acked c hc hne) hne)
      (List.mem_reverse.mp hr)

theorem Kept.oldHit_none (h : Kept acked t) (hn : ∀ c ∈ acked, c.2 ≠ [] → c.1 ≤ n) (key : Key) :
    t.oldHit key n = none ↔ ∀ r ∈ records t.oldCommits, r.key ≠ key := by
  unfold oldHit
  rw [newestRec_none_iff]
  · simp only [List.mem_reverse]
  · intro r hr
    exact seqno_le_of_commits (fun c hc hne => hn c (h.old_acked c hc hne) hne)
      (List.mem_reverse.mp hr)

/-- The newest version in the segments of earlier sessions is the first version of the
tables if their numbers agree. -/
theorem Kept.oldHit_eq (h : Kept acked t) (hn : ∀ c ∈ acked, c.2 ≠ [] → c.1 ≤ n) {key : Key}
    {r₀ : Rec} (hfirst : t.firstVersion key = some r₀)
    (hle : ∀ r ∈ records t.oldCommits, r.key = key → r.seqno ≤ r₀.seqno)
    (hex : ∃ r ∈ records t.oldCommits, r.key = key ∧ r.seqno = r₀.seqno) :
    t.oldHit key n = some r₀ := by
  obtain ⟨r, hr, hkey, hseq⟩ := hex
  cases hhit : t.oldHit key n with
  | none => exact absurd hkey ((h.oldHit_none hn key).mp hhit r hr)
  | some o =>
    obtain ⟨ho, hvis⟩ := Newest.newest_mem hhit
    have hvr : r.Visible key n :=
      ⟨hkey, seqno_le_of_commits (fun c hc hne => hn c (h.old_acked c hc hne) hne) hr⟩
    have hup : o.seqno ≤ r₀.seqno := hle o (List.mem_reverse.mp ho) hvis.1
    have hdown : r.seqno ≤ o.seqno := Newest.le_newest hhit (List.mem_reverse.mpr hr) hvr
    obtain ⟨x, hx, hnewest⟩ := h.firstVersion_newest hn hfirst
    rw [newestRec_same h.apart h.old_acked (h.table_acked hx) hhit hnewest (by omega)]

theorem Kept.probe_seqno (h : Kept acked t) (hn : ∀ c ∈ acked, c.2 ≠ [] → c.1 ≤ n) (key : Key) :
    t.probe key t.seqno = (t.memtableHit key n).or (t.tableHit key n) := by
  have hle : ∀ c ∈ t.history, c.2 ≠ [] → c.1 ≤ t.seqno ∧ c.1 ≤ n := by
    intro c hc hne
    have hacked := (h.same c hne).mp hc
    exact ⟨h.le_seqno c hacked hne, hn c hacked hne⟩
  rw [probe_congr hle]
  rfl

theorem Layered.reopen_probe (h : Layered acked t) (key : Key) :
    (t.Settled key → t.reopen.probe key t.reopen.seqno = t.probe key t.seqno) ∧
    ((∀ x ∈ t.tables, Locates (blocksOf x.2) key) →
      t.reopen.probe key t.reopen.seqno = t.probe key t.seqno → t.Settled key) := by
  have hn := h.kept.reopen.le_seqno
  have hbefore := h.kept.probe_seqno hn key
  have hafter : t.reopen.probe key t.reopen.seqno =
      ((t.memtableHit key t.reopen.seqno).or (t.oldHit key t.reopen.seqno)).or
        (t.tableHit key t.reopen.seqno) := by
    rw [← h.replayed]
    show ([t.reopen.active].findSome? _).or _ = _
    rw [List.findSome?_singleton]
    rfl
  generalize t.reopen.seqno = n at hn hbefore hafter ⊢
  rw [hbefore, hafter]
  constructor
  · rintro (hmem | hold | ⟨hloc, r₀, hfirst, hle, hex⟩)
    · cases hhit : t.memtableHit key n with
      | none => exact absurd hmem ((h.memtableHit_none hn key).mp hhit)
      | some r => rfl
    · rw [(h.kept.oldHit_none hn key).mpr hold, Option.or_none]
    · rw [h.kept.oldHit_eq hn hfirst hle hex, h.kept.tableHit_eq hn hloc, hfirst]
      cases t.memtableHit key n <;> rfl
  · intro hloc heq
    by_cases hmem : ∃ y ∈ t.memtables, ∃ r ∈ sortedRecs y.2, r.key = key
    · exact .inl hmem
    by_cases hold : ∀ r ∈ records t.oldCommits, r.key ≠ key
    · exact .inr (.inl hold)
    rw [(h.memtableHit_none hn key).mpr hmem, h.kept.tableHit_eq hn hloc] at heq
    cases hhit : t.oldHit key n with
    | none => exact absurd ((h.kept.oldHit_none hn key).mp hhit) hold
    | some o =>
      rw [hhit] at heq
      obtain ⟨ho, hvis⟩ := Newest.newest_mem hhit
      refine .inr (.inr ⟨hloc, o, heq.symm, ?_, o, List.mem_reverse.mp ho, hvis.1, rfl⟩)
      intro r hr hkey
      have hvr : r.Visible key n :=
        ⟨hkey, seqno_le_of_commits (fun c hc hne => hn c (h.kept.old_acked c hc hne) hne) hr⟩
      exact Newest.le_newest hhit (List.mem_reverse.mpr hr) hvr

end

end

end Store

/-! ### The engine -/

/-- A version of the key in a segment of an earlier session. -/
def OldVersion (s : Sys) (db : Db) (key : Key) (r : Rec) : Prop :=
  r.key = key ∧ ∃ n h, OldSegment s db n ∧ SegmentAt (diskOf s.log) n h ∧ r ∈ records h

/-- A memtable has a version of the key, or the segments of earlier sessions have none,
or the lookups in the tables find it and the first table that has the key has for its
newest version one that is in these segments, and no newer one is there. -/
def KeySettled (prims : Primitives) (s : Sys) (db : Db) (key : Key) : Prop :=
  (∃ l ∈ memtableRecs db.state, ∃ r ∈ l, r.key = key) ∨
  (∀ r, ¬ OldVersion s db key r) ∨
  TablesLocate prims db.state key ∧ ∃ tables r₀, TablesHold prims db.state.sstables tables ∧
    (tables.findSome? fun l => l.find? fun r => decide (r.key = key)) = some r₀ ∧
    (∀ r, OldVersion s db key r → r.seqno ≤ r₀.seqno) ∧
    ∃ r, OldVersion s db key r ∧ r.seqno = r₀.seqno

/-- The decoder accepts what the segments of the directory hold. -/
def SegmentsReplay (d : Disk) : Prop :=
  ∀ n, (d (.wal n)).isSome = true → ∃ h, SegmentAt d n h

section

variable {prims : Primitives} {config : DbConfig} {d : Disk} {t : Store} {s : Sys} {db : Db}
  {mkey : Option Bytes} {key : Key}

theorem segmentsReplay_iff (hd : Directory prims config d t) :
    SegmentsReplay d ↔ ∀ x ∈ t.wals, Replayable x.2 := by
  constructor
  · intro hall x hx
    obtain ⟨h, hat⟩ := hall x.1 ((wal_isSome_iff hd x.1).mpr ⟨x, hx, rfl⟩)
    exact ((segmentAt_iff hd hx).mp hat).2
  · intro hall n hsome
    obtain ⟨x, hx, rfl⟩ := (wal_isSome_iff hd n).mp hsome
    exact ⟨x.2, (segmentAt_iff hd hx).mpr ⟨rfl, hall x hx⟩⟩

theorem outOfNumbers_of_reopen (hd : Directory prims config (diskOf s.log) t)
    (hsmall : ∀ x ∈ t.wals, Replayable x.2) (hdb : s.db = some db)
    (hn : run (Sys.next prims) s [.drop, .openDb config []] = none) :
    OutOfNumbers prims config s := by
  have hdrop : s.next prims .drop = some { s with db := none } := by
    rw [Sys.next, hdb]
    rfl
  cases hopen : Sys.next prims { s with db := none } (.openDb config []) with
  | none => exact @outOfNumbers_of_open prims config t { s with db := none } hd hsmall rfl hopen
  | some s₁ => simp [run, hdrop, hopen] at hn

theorem oldVersion_iff (h : Simulates prims ⟨db, ⟨s.log, []⟩⟩ t)
    (hsmall : ∀ x ∈ t.wals, Replayable x.2) {r : Rec} :
    OldVersion s db key r ↔ r ∈ records t.oldCommits ∧ r.key = key := by
  have hdir : Directory prims db.config (diskOf s.log) t := h.dir
  unfold OldVersion
  rw [and_comm]
  refine and_congr_left fun _ => ?_
  simp only [oldSegment_iff h]
  constructor
  · rintro ⟨_, hist, ⟨x, hold, rfl⟩, hat, hr⟩
    rw [((segmentAt_iff hdir hold.1).mp hat).1] at hr
    obtain ⟨c, hc, hop⟩ := mem_records.mp hr
    exact mem_records.mpr ⟨c, Store.mem_oldCommits.mpr ⟨x, hold, hc⟩, hop⟩
  · intro hr
    obtain ⟨c, hc, hop⟩ := mem_records.mp hr
    obtain ⟨x, hold, hcx⟩ := Store.mem_oldCommits.mp hc
    refine ⟨x.1, x.2, ⟨x, hold, rfl⟩, (segmentAt_iff hdir hold.1).mpr ⟨rfl, hsmall x hold.1⟩, ?_⟩
    exact mem_records.mpr ⟨c, hcx, hop⟩

theorem tablesHold_unique {ssts : List LiveSst} {tables tables' : List (List Rec)}
    (h : TablesHold prims ssts tables) (h' : TablesHold prims ssts tables') : tables = tables' := by
  refine List.right_unique_forall₂' ?_ h h'
  intro sst l l' hl hl'
  rw [hl] at hl'
  exact Except.ok.inj hl'

theorem keySettled_iff (h : Simulates prims ⟨db, ⟨s.log, []⟩⟩ t)
    (hsmall : ∀ x ∈ t.wals, Replayable x.2) : KeySettled prims s db key ↔ t.Settled key := by
  have hmems : memtableRecs db.state = t.memtables.map fun y => sortedRecs y.2 := by
    rw [show memtableRecs db.state = _ from memtableRecs_serving h.serving, Store.memtables, List.map_cons,
      List.map_cons, List.map_map]
    rfl
  have htables : TablesHold prims db.state.sstables ((t.tables.map Prod.snd).map sortedRecs) :=
    tablesHold_serving h.serving
  have hfirst : ∀ r₀, (∃ tables, TablesHold prims db.state.sstables tables ∧
      (tables.findSome? fun l => l.find? fun r => decide (r.key = key)) = some r₀) ↔
        t.firstVersion key = some r₀ := by
    intro r₀
    have heq : (((t.tables.map Prod.snd).map sortedRecs).findSome? fun l =>
        l.find? fun r => decide (r.key = key)) = t.firstVersion key := by
      rw [List.findSome?_map, List.findSome?_map]
      rfl
    constructor
    · rintro ⟨tables, hhold, hfind⟩
      rw [← heq, tablesHold_unique htables hhold, hfind]
    · intro hfind
      exact ⟨_, htables, heq.trans hfind⟩
  unfold KeySettled Store.Settled
  rw [hmems, show TablesLocate prims db.state key ↔ _ from tablesLocate_iff h key]
  refine or_congr ?_ (or_congr ?_ (and_congr_right fun _ => ?_))
  · simp only [List.mem_map, exists_exists_and_eq_and]
  · simp only [oldVersion_iff h hsmall, not_and]
  · rw [exists_comm]
    refine exists_congr ?_
    intro r₀
    simp only [oldVersion_iff h hsmall, and_imp, and_assoc]
    constructor
    · rintro ⟨tables, hhold, hfind, hrest⟩
      exact ⟨(hfirst r₀).mp ⟨tables, hhold, hfind⟩, hrest⟩
    · rintro ⟨hversion, hrest⟩
      obtain ⟨tables, hhold, hfind⟩ := (hfirst r₀).mpr hversion
      exact ⟨tables, hhold, hfind, hrest⟩

theorem reach_layered (hseal : SealWorks prims)
    (h : Reach (Sys.next prims) (Quiet mkey) Sys.start s) :
    ∃ t, Models prims mkey s t ∧ t.Layered s.acked := by
  refine reach_models (I := fun acked t => t.Layered acked) hseal (fun _ _ hok => hok) ?_ h
    (models_start prims mkey) Store.layered_empty
  intro _ _ acked t acked' t' _ hlay hmoves
  cases hmoves with
  | opened => exact hlay.reopen
  | notOpened => exact hlay
  | committed hwal hworks => exact (hlay.commit _ hwal).works hworks
  | flushed hworks => exact hlay.works hworks
  | compacted hworks => exact hlay.works hworks
  | dropped => exact hlay

/-- A database that is dropped and opened again, in any run without failures. Unless
it is out of numbers it opens if and only if its segments can be replayed. A `get` of
a settled key is what it was before; where the tables locate the key, as they do when
none of them splits its versions, a `get` of any other key comes upon another record. -/
theorem reopen_get (hseal : SealWorks prims)
    (h : Reach (Sys.next prims) (Quiet mkey) Sys.start s) (hdb : s.db = some db)
    (hkey : config.masterKey = mkey) :
    (SegmentsReplay (diskOf s.log) → run (Sys.next prims) s [.drop, .openDb config []] = none →
      OutOfNumbers prims config s) ∧
    ∀ s', run (Sys.next prims) s [.drop, .openDb config []] = some s' →
      (s'.db.isSome = true ↔ SegmentsReplay (diskOf s.log)) ∧
      ∀ db', s'.db = some db' → ∀ key,
        (TablesWhole prims db.state key → TablesLocate prims db.state key) ∧
        (KeySettled prims s db key → db'.get prims key = db.get prims key) ∧
        (TablesLocate prims db.state key →
          findRec prims db'.state key db'.seqno = findRec prims db.state key db.seqno →
            KeySettled prims s db key) := by
  obtain ⟨t, hmodels, hlay⟩ := reach_layered hseal h
  obtain ⟨hconfig, hsim⟩ := hmodels.opened db hdb
  have hdir : Directory prims config (diskOf s.log) t := hsim.dir.config (hkey.trans hconfig.symm)
  constructor
  · intro hreplay hnone
    exact outOfNumbers_of_reopen hdir ((segmentsReplay_iff hdir).mp hreplay) hdb hnone
  intro s' hn
  obtain ⟨s₁, hdrop, hn⟩ := Option.bind_eq_some_iff.mp hn
  obtain ⟨s₂, hopen, hnil⟩ := Option.bind_eq_some_iff.mp hn
  cases hnil
  cases step_of_next hdrop with
  | dropped =>
    cases step_of_next hopen with
    | @opened _ _ db' w _ hopened =>
      obtain ⟨-, hsim', hsmall⟩ := (openWith_simulates (w := ⟨s.log, []⟩) hdir rfl).of_ok hopened
      refine ⟨iff_of_true rfl ((segmentsReplay_iff hdir).mpr hsmall), ?_⟩
      rintro _ ⟨⟩ key
      have hseq : db.seqno = t.seqno := hsim.seqno
      have hseq' : db'.seqno = t.reopen.seqno := hsim'.seqno
      obtain ⟨hsame, honly⟩ := hlay.reopen_probe key
      rw [keySettled_iff hsim hsmall, Db.get, Db.get, hseq, hseq',
        show getAt prims db.state key _ = _ from getAt_serving hsim.serving key _,
        show getAt prims db'.state key _ = _ from getAt_serving hsim'.serving key _,
        show findRec prims db.state key _ = _ from findRec_serving hsim.serving key _,
        show findRec prims db'.state key _ = _ from findRec_serving hsim'.serving key _]
      refine ⟨tablesLocate_of_whole hsim, fun hset => by rw [hsame hset], ?_⟩
      intro hloc heq
      exact honly ((tablesLocate_iff hsim key).mp hloc) (Except.ok.inj heq)
    | @notOpened _ _ e w _ hfailed =>
      rcases (openWith_simulates (w := ⟨s.log, []⟩) hdir rfl).of_error hfailed with
        ⟨⟨msg, hmsg⟩, -⟩ | ⟨-, x, hx, hlong⟩
      · cases hmsg
      · refine ⟨iff_of_false Bool.false_ne_true ?_, ?_⟩
        · intro hall
          exact hlong ((segmentsReplay_iff hdir).mp hall x hx)
        · rintro db' ⟨⟩

end

section Runs

set_option maxRecDepth 100000

theorem reopen_get_put : ∃ s s' db,
    Reach (Sys.next .blank) (Quiet none) Sys.start s ∧ s.db = some db ∧
      s.acked = [(1, [.put [1] [2]])] ∧
      run (Sys.next .blank) s [.drop, .openDb .default []] = some s' ∧
      (s'.db.isSome = true ↔ SegmentsReplay (diskOf s.log)) ∧
      ∀ db', s'.db = some db' → ∀ key,
        (TablesWhole .blank db.state key → TablesLocate .blank db.state key) ∧
        (KeySettled .blank s db key → db'.get .blank key = db.get .blank key) ∧
        (TablesLocate .blank db.state key →
          findRec .blank db'.state key db'.seqno = findRec .blank db.state key db.seqno →
            KeySettled .blank s db key) := by
  obtain ⟨s, hreach, hs⟩ := reach_of_runDecided
    (show (runOk (Sys.next .blank) (fun s a => decide (Quiet none s a)) Sys.start
      [.openDb .default [], .call (.commit [.put [1] [2]]) []]).map
      (fun s => decide (s.db.isSome = true ∧ s.acked = [(1, [.put [1] [2]])] ∧
        (run (Sys.next .blank) s [.drop, .openDb .default []]).isSome = true)) = some true by
      decide +kernel)
  obtain ⟨hopen, hacked, hagain⟩ := of_decide_eq_true hs
  obtain ⟨db, hdb⟩ := Option.isSome_iff_exists.mp hopen
  obtain ⟨s', hn⟩ := Option.isSome_iff_exists.mp hagain
  exact ⟨s, s', db, hreach, hdb, hacked, hn, (reopen_get sealWorks_blank hreach hdb rfl).2 s' hn⟩

-- the first put is replayed from the segment of its session, in front of the table
-- with the second one
theorem reopen_brings_back : ∃ s s' db db',
    run (Sys.next .blank) Sys.start
      [.openDb .default [], .call (.commit [.put [7] [1]]) [], .drop, .openDb .default [],
        .call (.commit [.put [7] [2]]) [], .call .flush []] = some s ∧
      run (Sys.next .blank) s [.drop, .openDb .default []] = some s' ∧ s.db = some db ∧
      s'.db = some db' ∧ db.get .blank [7] = .ok (some [2]) ∧
      db'.get .blank [7] = .ok (some [1]) := by
  have hrun : (run (Sys.next .blank) Sys.start
      [.openDb .default [], .call (.commit [.put [7] [1]]) [], .drop, .openDb .default [],
        .call (.commit [.put [7] [2]]) [], .call .flush []]).map (fun s =>
          decide ((s.db.map fun db => db.get .blank [7]) = some (.ok (some [2])) ∧
            ((run (Sys.next .blank) s [.drop, .openDb .default []]).map fun s' =>
              s'.db.map fun db' => db'.get .blank [7]) = some (some (.ok (some [1]))))) =
      some true := by
    decide +kernel
  obtain ⟨s, hs, heq⟩ := Option.map_eq_some_iff.mp hrun
  obtain ⟨hbefore, hafter⟩ := of_decide_eq_true heq
  obtain ⟨db, hdb, hget⟩ := Option.map_eq_some_iff.mp hbefore
  obtain ⟨s', hs', hopen⟩ := Option.map_eq_some_iff.mp hafter
  obtain ⟨db', hdb', hget'⟩ := Option.map_eq_some_iff.mp hopen
  exact ⟨s, s', db, db', hs, hs', hdb, hdb', hget, hget'⟩

end Runs

end PaddockKV.Engine
