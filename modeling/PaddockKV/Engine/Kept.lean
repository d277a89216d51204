import PaddockKV.Engine.Store

/-!
# What a store keeps of the commits

Commits without operations leave no record, and their numbers may be used again.
Of the others a store keeps all and adds none, through any number of sessions: a
commit that no table holds yet stands in a segment that outlives the session.
-/

namespace PaddockKV.Engine

open Wal History

namespace Store

/-- The memtables with the segments they feed from, the active one first. -/
def memtables (t : Store) : List (ℕ × History) := (t.walId, t.active) :: t.queue

/-- The segment feeds this memtable, or none of this session. -/
def Feeds (t : Store) (w y : ℕ × History) : Prop := w.1 = y.1 ∨ ∀ z ∈ t.memtables, w.1 ≠ z.1

/-- The store holds the commits `acked`. -/
structure Kept (acked : History) (t : Store) : Prop where
  fed : t.WellFed
  same : ∀ c : ℕ × WriteBatch, c.2 ≠ [] → (c ∈ t.history ↔ c ∈ acked)
  wals : ∀ w ∈ t.wals, ∀ c ∈ w.2, c.2 ≠ [] → c ∈ acked
  logged : ∀ y ∈ t.memtables, ∀ c ∈ y.2, ∃ w ∈ t.wals, c ∈ w.2 ∧ t.Feeds w y
  le_seqno : ∀ c ∈ acked, c.2 ≠ [] → c.1 ≤ t.seqno
  ascending : acked.Pairwise fun c d => c.2 ≠ [] → d.2 ≠ [] → c.1 < d.1

theorem mem_flatten_snd {l : List (ℕ × History)} {c : ℕ × WriteBatch} :
    c ∈ (l.map Prod.snd).flatten ↔ ∃ x ∈ l, c ∈ x.2 := by
  rw [← List.flatMap_def, List.mem_flatMap]

theorem mem_oldestFirst {l : List (ℕ × History)} {c : ℕ × WriteBatch} :
    c ∈ oldestFirst l ↔ ∃ x ∈ l, c ∈ x.2 := by
  rw [← mem_flatten_snd, oldestFirst, List.mem_flatten, List.mem_flatten]
  simp only [List.mem_reverse]

theorem mem_history {t : Store} {c : ℕ × WriteBatch} :
    c ∈ t.history ↔ (∃ x ∈ t.tables, c ∈ x.2) ∨ ∃ y ∈ t.memtables, c ∈ y.2 := by
  unfold history memtables
  rw [List.mem_append, List.mem_append, mem_oldestFirst, mem_oldestFirst, List.exists_mem_cons_iff, or_assoc,
    or_comm (a := ∃ x ∈ t.queue, c ∈ x.2)]

theorem kept_empty : Kept [] empty := by
  constructor
  case fed => exact wellFed_empty
  case same => exact fun c _ => Iff.rfl
  case ascending => exact .nil
  case logged =>
    intro y hy c hc
    rw [List.mem_singleton.mp hy] at hc
    cases hc
  all_goals
    intro x hx
    cases hx

section

variable {acked : History} {t t' : Store}

theorem Kept.commit (h : Kept acked t) (batch : WriteBatch) (hwal : ∃ x, (t.walId, x) ∈ t.wals) :
    Kept (acked ++ [(t.seqno + 1, batch)]) (t.commit batch) := by
  obtain ⟨x, hx⟩ := hwal
  have hmem : ∀ w ∈ t.wals, ∃ w' ∈ (t.commit batch).wals, w'.1 = w.1 ∧ ∀ c ∈ w.2, c ∈ w'.2 := by
    intro w hw
    refine ⟨_, List.mem_map_of_mem hw, ?_⟩
    split
    · exact ⟨rfl, fun c hc => List.mem_append_left _ hc⟩
    · exact ⟨rfl, fun c hc => hc⟩
  have hids : ∀ w : ℕ × History, (∀ z ∈ t.memtables, w.1 ≠ z.1) →
      ∀ z ∈ (t.commit batch).memtables, w.1 ≠ z.1 := by
    intro w hw z hz
    rcases List.mem_cons.mp hz with rfl | hz
    · exact hw (t.walId, t.active) List.mem_cons_self
    · exact hw z (List.mem_cons_of_mem _ hz)
  constructor
  · exact h.fed.commit batch
  · intro c hc
    rw [history_commit, List.mem_append, List.mem_append, h.same c hc]
  · intro w hw c hc hne
    obtain ⟨w', hw', rfl⟩ := List.mem_map.mp hw
    split at hc
    · rcases List.mem_append.mp hc with hc | hc
      · exact List.mem_append_left _ (h.wals w' hw' c hc hne)
      · exact List.mem_append_right _ hc
    · exact List.mem_append_left _ (h.wals w' hw' c hc hne)
  · -- an older commit stays where it is, the new one is in the open segment
    have hold : ∀ y ∈ t.memtables, ∀ c ∈ y.2, ∃ w ∈ (t.commit batch).wals, c ∈ w.2 ∧
        (w.1 = y.1 ∨ ∀ z ∈ (t.commit batch).memtables, w.1 ≠ z.1) := by
      intro y hy c hc
      obtain ⟨w, hw, hcw, hfeeds⟩ := h.logged y hy c hc
      obtain ⟨w', hw', hid, hsub⟩ := hmem w hw
      refine ⟨w', hw', hsub c hcw, ?_⟩
      rcases hfeeds with heq | hne
      · exact .inl (hid.trans heq)
      · exact .inr (hids w' (by rw [hid]; exact hne))
    intro y hy c hc
    rcases List.mem_cons.mp hy with rfl | hy
    · rcases List.mem_append.mp hc with hc | hc
      · exact hold (t.walId, t.active) List.mem_cons_self c hc
      · refine ⟨(t.walId, x ++ [(t.seqno + 1, batch)]), ?_, List.mem_append_right _ hc, .inl rfl⟩
        exact List.mem_map.mpr ⟨(t.walId, x), hx, if_pos rfl⟩
    · exact hold y (List.mem_cons_of_mem _ hy) c hc
  · intro c hc hne
    rcases List.mem_append.mp hc with hc | hc
    · exact (h.le_seqno c hc hne).trans (Nat.le_succ _)
    · rw [List.mem_singleton.mp hc]
      exact le_rfl
  · refine List.pairwise_append.mpr ⟨h.ascending, List.pairwise_singleton _ _, ?_⟩
    intro c hc d hd hne _
    rw [List.mem_singleton.mp hd]
    exact Nat.lt_succ_of_le (h.le_seqno c hc hne)

theorem Kept.rotate (h : Kept acked t) : Kept acked t.rotate := by
  constructor
  · exact h.fed.rotate
  · intro c hc
    rw [history_rotate]
    exact h.same c hc
  · intro w hw c hc hne
    rcases List.mem_append.mp hw with hw | hw
    · exact h.wals w hw c hc hne
    · rw [List.mem_singleton.mp hw] at hc
      cases hc
  · intro y hy c hc
    rcases List.mem_cons.mp hy with rfl | hy
    · cases hc
    · obtain ⟨w, hw, hcw, hfeeds⟩ := h.logged y hy c hc
      refine ⟨w, List.mem_append_left _ hw, hcw, hfeeds.imp_right ?_⟩
      intro hne z hz
      rcases List.mem_cons.mp hz with rfl | hz
      · exact (h.fed.wals_lt w hw).ne
      · exact hne z hz
  · exact h.le_seqno
  · exact h.ascending

theorem Kept.flushOne (h : Kept acked t) {front : List (ℕ × History)} {x : ℕ × History}
    (hq : t.queue = front ++ [x]) : Kept acked (t.flushOne x) := by
  have hx : x ∈ t.queue := by simp [hq]
  have hwals : ∀ w ∈ (t.flushOne x).wals, w ∈ t.wals := by
    intro w hw
    unfold Store.flushOne at hw
    dsimp only at hw
    split at hw
    · exact List.mem_of_mem_filter hw
    · exact hw
  have hmems : ∀ y ∈ (t.flushOne x).memtables, y ∈ t.memtables ∧ y.1 ≠ x.1 := by
    intro y hy
    rcases List.mem_cons.mp hy with rfl | hy
    · exact ⟨List.mem_cons_self, (h.fed.queue_lt x hx).ne'⟩
    · exact ⟨List.mem_cons_of_mem _ (List.mem_of_mem_filter hy), by
        simpa using (List.mem_filter.mp hy).2⟩
  constructor
  · exact h.fed.flushOne x
  · intro c hc
    rw [history_flushOne h.fed.queueApart hq]
    exact h.same c hc
  · intro w hw
    exact h.wals w (hwals w hw)
  · intro y hy c hc
    obtain ⟨hy', hne⟩ := hmems y hy
    obtain ⟨w, hw, hcw, hfeeds⟩ := h.logged y hy' c hc
    have hwx : w.1 ≠ x.1 := by
      rcases hfeeds with heq | hno
      · rw [heq]
        exact hne
      · exact hno x (List.mem_cons_of_mem _ hx)
    refine ⟨w, ?_, hcw, hfeeds.imp_right fun hno z hz => hno z (hmems z hz).1⟩
    unfold Store.flushOne
    dsimp only
    split
    · exact List.mem_filter.mpr ⟨hw, by simpa using hwx⟩
    · exact hw
  · exact h.le_seqno
  · exact h.ascending

theorem Kept.replace_tables (h : Kept acked t) {tables : List (ℕ × History)}
    (hsub : ∀ x ∈ tables, ∀ c ∈ x.2, c ∈ t.history)
    (hall : ∀ x ∈ t.tables, ∀ c ∈ x.2, ∃ y ∈ tables, c ∈ y.2) :
    Kept acked { t with tables := tables } := by
  refine ⟨{ h.fed with }, ?_, h.wals, h.logged, h.le_seqno, h.ascending⟩
  intro c hc
  rw [← h.same c hc]
  constructor
  · intro hmem
    rcases mem_history.mp hmem with ⟨x, hx, hcx⟩ | hmem
    · exact hsub x hx c hcx
    · exact mem_history.mpr (.inr hmem)
  · intro hmem
    rcases mem_history.mp hmem with ⟨x, hx, hcx⟩ | hmem
    · exact mem_history.mpr (.inl (hall x hx c hcx))
    · exact mem_history.mpr (.inr hmem)

theorem Kept.add_table (h : Kept acked t) {x : ℕ × History} (hx : x ∈ t.queue) (n : ℕ) :
    Kept acked { t with tables := (n, x.2) :: t.tables } := by
  refine h.replace_tables ?_ ?_
  · intro y hy c hc
    rcases List.mem_cons.mp hy with rfl | hy
    · exact mem_history.mpr (.inr ⟨x, List.mem_cons_of_mem _ hx, hc⟩)
    · exact mem_history.mpr (.inl ⟨y, hy, hc⟩)
  · intro y hy c hc
    exact ⟨y, List.mem_cons_of_mem _ hy, hc⟩

theorem Kept.compact (h : Kept acked t) : Kept acked t.compact := by
  refine ⟨h.fed.compact, ?_, h.wals, h.logged, h.le_seqno, h.ascending⟩
  intro c hc
  rw [history_compact]
  exact h.same c hc

theorem Kept.works (h : Kept acked t) (hworks : Works t t') : Kept acked t' := by
  refine Works.invariant (I := Kept acked) ?_ hworks h
  intro s s' hs hwork
  cases hwork with
  | rotate => exact hs.rotate
  | flushOne hq => exact hs.flushOne hq
  | compact => exact hs.compact

theorem le_foldl_max {l : List ℕ} {n : ℕ} (h : n ∈ l) : n ≤ l.foldl max 0 := by
  rw [List.foldl_max]
  have := List.le_max?_getD_of_mem (k := 0) h
  omega

theorem le_tableSeqno {x : ℕ × History} (hx : x ∈ t.tables) {c : ℕ × WriteBatch} (hc : c ∈ x.2)
    (hne : c.2 ≠ []) : c.1 ≤ t.tableSeqno := by
  obtain ⟨op, hop⟩ := List.exists_mem_of_ne_nil c.2 hne
  refine le_foldl_max (List.mem_map.mpr ⟨op.toRec c.1, ?_, toRec_seqno c.1 op⟩)
  exact mem_records.mpr ⟨c, mem_oldestFirst.mpr ⟨x, hx, hc⟩, op, hop, rfl⟩

theorem Kept.reopen (h : Kept acked t) : Kept acked t.reopen := by
  have hactive : ∀ c, c ∈ t.reopen.active ↔ ∃ w ∈ t.wals, c ∈ w.2 := fun c => mem_flatten_snd
  have hsame : ∀ c : ℕ × WriteBatch, c.2 ≠ [] → (c ∈ t.reopen.history ↔ c ∈ acked) := by
    intro c hc
    rw [← h.same c hc, mem_history, mem_history]
    constructor
    · rintro (htable | ⟨y, hy, hcy⟩)
      · exact .inl htable
      · rw [List.mem_singleton.mp hy, hactive] at hcy
        obtain ⟨w, hw, hcw⟩ := hcy
        exact mem_history.mp ((h.same c hc).mpr (h.wals w hw c hcw hc))
    · rintro (htable | ⟨y, hy, hcy⟩)
      · exact .inl htable
      · obtain ⟨w, hw, hcw, -⟩ := h.logged y hy c hcy
        exact .inr ⟨(t.free, _), List.mem_cons_self, (hactive c).mpr ⟨w, hw, hcw⟩⟩
  constructor
  · exact wellFed_reopen t
  · exact hsame
  · intro w hw c hc hne
    rcases List.mem_append.mp hw with hw | hw
    · exact h.wals w hw c hc hne
    · rw [List.mem_singleton.mp hw] at hc
      cases hc
  · intro y hy c hc
    rw [List.mem_singleton.mp hy] at hc
    obtain ⟨w, hw, hcw⟩ := (hactive c).mp hc
    refine ⟨w, List.mem_append_left _ hw, hcw, .inr ?_⟩
    intro z hz
    rw [List.mem_singleton.mp hz]
    exact (t.free_above.1 w hw).ne
  · intro c hc hne
    rcases mem_history.mp ((hsame c hne).mpr hc) with ⟨x, hx, hcx⟩ | ⟨y, hy, hcy⟩
    · exact (le_tableSeqno hx hcx hne).trans (start_le_maxSeqno _ _)
    · rw [List.mem_singleton.mp hy] at hcy
      exact le_maxSeqno hcy
  · exact h.ascending

theorem Kept.apart (h : Kept acked t) : ∀ c ∈ acked, ∀ d ∈ acked, c.2 ≠ [] → d.2 ≠ [] →
    c.1 = d.1 → c.2 = d.2 := by
  have hpair : acked.Pairwise fun c d => c.2 ≠ [] → d.2 ≠ [] → c.1 = d.1 → c.2 = d.2 := by
    refine h.ascending.imp ?_
    intro c d hlt hc hd heq
    exact absurd (hlt hc hd) heq.not_lt
  have hsymm : Std.Symm fun c d : ℕ × WriteBatch =>
      c.2 ≠ [] → d.2 ≠ [] → c.1 = d.1 → c.2 = d.2 :=
    ⟨fun c d hcd hd hc heq => (hcd hc hd heq.symm).symm⟩
  intro c hc d hd
  exact hpair.forall_of_forall (fun _ _ _ _ _ => rfl) hc hd

theorem Kept.view (h : Kept acked t) (key : Key) (snapshot : ℕ) :
    newestRec (records t.history).reverse key snapshot = lastOp acked key snapshot := by
  have hfilter : ∀ c : ℕ × WriteBatch, c.2 ≠ [] →
      (c ∈ acked.filter (fun c => c.2 ≠ []) ↔ c ∈ acked) := by
    intro c hc
    rw [List.mem_filter]
    exact and_iff_left (decide_eq_true hc)
  have hasc : Ascending (acked.filter fun c => c.2 ≠ []) := by
    rw [Ascending, List.pairwise_filter]
    refine h.ascending.imp ?_
    intro c d hlt hc hd
    exact (hlt (of_decide_eq_true hc) (of_decide_eq_true hd)).le
  calc newestRec (records t.history).reverse key snapshot
      = newestRec (records (acked.filter fun c => c.2 ≠ [])).reverse key snapshot := by
        refine newestRec_congr ?_ ?_ key snapshot
        · intro c hc
          rw [h.same c hc, hfilter c hc]
        · intro c hc d hd hcne hdne
          exact h.apart c ((h.same c hcne).mp hc) d ((h.same d hdne).mp hd) hcne hdne
    _ = lastOp (acked.filter fun c => c.2 ≠ []) key snapshot := (lastOp_eq hasc key snapshot).symm
    _ = lastOp acked key snapshot := by
        unfold lastOp
        rw [records_upTo, records_upTo, records_filter]

end

end Store

end PaddockKV.Engine
