import PaddockKV.Compaction.Merger

/-!
# Range scans (`engine.rs`, `DbRangeIter`)

A scan merges its sources and keeps, for each key in range, the first record
visible at the snapshot, unless it is a tombstone.
-/

namespace PaddockKV.Engine

open Compaction Newest

/-- `std::ops::Bound`. -/
inductive Bound where
  | included (b : Key)
  | excluded (b : Key)
  | unbounded
  deriving Repr, DecidableEq

namespace Bound

/-- The key lies below this lower bound. -/
def below : Bound → Key → Bool
  | included b, k => k < b
  | excluded b, k => k ≤ b
  | unbounded, _ => false

/-- The key lies above this upper bound. -/
def past : Bound → Key → Bool
  | included b, k => b < k
  | excluded b, k => b ≤ k
  | unbounded, _ => false

theorem below_of_le {b : Bound} {k k' : Key} (h : k ≤ k') (hk : b.below k' = true) :
    b.below k = true := by
  cases b with
  | included b =>
    simp only [below, decide_eq_true_eq] at hk ⊢
    exact h.trans_lt hk
  | excluded b =>
    simp only [below, decide_eq_true_eq] at hk ⊢
    exact h.trans hk
  | unbounded => cases hk

theorem past_of_le {b : Bound} {k k' : Key} (h : k ≤ k') (hk : b.past k = true) :
    b.past k' = true := by
  cases b with
  | included b =>
    simp only [past, decide_eq_true_eq] at hk ⊢
    exact hk.trans_le h
  | excluded b =>
    simp only [past, decide_eq_true_eq] at hk ⊢
    exact hk.trans h
  | unbounded => cases hk

end Bound

structure RangeRecord where
  key : Key
  value : Value
  seqno : ℕ
  deriving Repr, DecidableEq

/-! ### Sources -/

/-- The loop of `memtable_source`. -/
def memtableSource (start stop : Bound) : List Rec → List Rec
  | [] => []
  | r :: rs =>
    if start.below r.key then memtableSource start stop rs
    else if stop.past r.key then []
    else r :: memtableSource start stop rs

def itemBelow (start : Bound) : Res Rec → Bool
  | .ok r => start.below r.key
  | .error _ => false

def itemWithin (stop : Bound) : Res Rec → Bool
  | .ok r => !stop.past r.key
  | .error _ => true

/-- `sstable_source`: errors are passed on. -/
def sstableSource (start stop : Bound) (stream : List (Res Rec)) : List (Res Rec) :=
  (stream.dropWhile (itemBelow start)).takeWhile (itemWithin stop)

def InRange (start stop : Bound) (k : Key) : Prop := start.below k = false ∧ stop.past k = false

instance (start stop : Bound) (k : Key) : Decidable (InRange start stop k) :=
  inferInstanceAs (Decidable (_ ∧ _))

theorem key_le_of_sorted {r x : Rec} {l : List Rec} (h : SortedRecs (r :: l)) (hx : x ∈ l) :
    r.key ≤ x.key := by
  rcases Rec.not_before_iff.mp (List.rel_of_pairwise_cons h hx) with hlt | ⟨heq, -⟩
  · exact hlt.le
  · exact heq.le

theorem memtableSource_eq (start stop : Bound) {l : List Rec} (h : SortedRecs l) :
    memtableSource start stop l = l.filter fun r => decide (InRange start stop r.key) := by
  induction l with
  | nil => rfl
  | cons r l ih =>
    have hl := (List.pairwise_cons.mp h).2
    unfold memtableSource
    split
    · rename_i hb
      rw [ih hl, List.filter_cons_of_neg (by simp [InRange, hb])]
    · rename_i hb
      split
      · -- everything behind is past the end as well
        rename_i hp
        symm
        rw [List.filter_eq_nil_iff]
        intro x hx
        have hle : r.key ≤ x.key := by
          rcases List.mem_cons.mp hx with rfl | hx
          · exact le_rfl
          · exact key_le_of_sorted h hx
        simp [InRange, Bound.past_of_le hle hp]
      · rename_i hp
        rw [ih hl, List.filter_cons_of_pos (by simp [InRange, hb, hp])]

theorem takeWhile_items (start stop : Bound) {l : List Rec}
    (hl : ∀ x ∈ l, start.below x.key = false) :
    (items l).takeWhile (itemWithin stop) = items (memtableSource start stop l) := by
  induction l with
  | nil => rfl
  | cons y l ih =>
    have hy := hl y (by simp)
    have htail := ih fun x hx => hl x (List.mem_cons_of_mem y hx)
    have hcons : items (y :: l) = .ok y :: items l := rfl
    cases hp : stop.past y.key with
    | true => simp [itemWithin, memtableSource, hy, hp, items]
    | false =>
      simp only [hcons, List.takeWhile_cons, itemWithin, hp, Bool.not_false, if_true,
        memtableSource, hy, Bool.false_eq_true, if_false, htail]
      rfl

theorem sstableSource_eq (start stop : Bound) {l : List Rec} (h : SortedRecs l) :
    sstableSource start stop (items l) = items (memtableSource start stop l) := by
  induction l with
  | nil => rfl
  | cons r l ih =>
    have hl := (List.pairwise_cons.mp h).2
    have hcons : items (r :: l) = .ok r :: items l := rfl
    cases hb : start.below r.key with
    | true =>
      have hskip : sstableSource start stop (items (r :: l)) =
          sstableSource start stop (items l) := by
        simp [sstableSource, hcons, itemBelow, hb]
      rw [hskip, ih hl, memtableSource, if_pos hb]
    | false =>
      -- nothing is skipped any more
      have hnone : ∀ x ∈ r :: l, start.below x.key = false := by
        intro x hx
        have hle : r.key ≤ x.key := by
          rcases List.mem_cons.mp hx with rfl | hx
          · exact le_rfl
          · exact key_le_of_sorted h hx
        by_contra hx'
        have := Bound.below_of_le hle (by simpa using hx')
        rw [hb] at this
        cases this
      have hdrop : (items (r :: l)).dropWhile (itemBelow start) = items (r :: l) := by
        simp [hcons, itemBelow, hb]
      rw [sstableSource, hdrop, takeWhile_items start stop hnone]

/-! ### The iterator -/

structure DbRangeIter where
  stop : Bound
  snapshot : ℕ
  merger : KWayMerge
  lastEmittedKey : Option Key

/-- What one round of the loop in `DbRangeIter::next` comes to. -/
inductive Round where
  | finished
  | skipped
  | yielded (r : RangeRecord)

namespace DbRangeIter

def withMerger {α : Type} (x : Act KWayMerge α) : Act DbRangeIter α := fun it =>
  match x it.merger with
  | .ok a m => .ok a { it with merger := m }
  | .error e m => .error e { it with merger := m }

def round : Act DbRangeIter Round := do
  match ← withMerger KWayMerge.nextRecord with
  | none => return .finished
  | some r =>
    let it ← get
    if it.stop.past r.key then return .finished
    else if it.snapshot < r.seqno then return .skipped
    else if it.lastEmittedKey = some r.key then return .skipped
    else
      set { it with lastEmittedKey := some r.key }
      match r.op with
      | .tombstone => return .skipped
      | .put => return .yielded ⟨r.key, r.value, r.seqno⟩

/-- `collect_records`, with a bound on the rounds. -/
def collectRecords : ℕ → Act DbRangeIter (List RangeRecord)
  | 0 => return []
  | fuel + 1 => do
    match ← round with
    | .finished => return []
    | .skipped => collectRecords fuel
    | .yielded r =>
      let rest ← collectRecords fuel
      return r :: rest

end DbRangeIter

/-- What the loop makes of the merged records `l`. -/
def emitted (stop : Bound) (snapshot : ℕ) : Option Key → List Rec → List RangeRecord
  | _, [] => []
  | last, r :: l =>
    if stop.past r.key then []
    else if snapshot < r.seqno then emitted stop snapshot last l
    else if last = some r.key then emitted stop snapshot last l
    else
      match r.op with
      | .tombstone => emitted stop snapshot (some r.key) l
      | .put => ⟨r.key, r.value, r.seqno⟩ :: emitted stop snapshot (some r.key) l

section Round

variable {it : DbRangeIter} {m : KWayMerge} {r : Rec} {f : Fault}

theorem round_error (h : KWayMerge.nextRecord it.merger = .error f m) :
    it.round = .error f { it with merger := m } := by
  simp only [DbRangeIter.round, act_bind, DbRangeIter.withMerger, h]

theorem round_none (h : KWayMerge.nextRecord it.merger = .ok none m) :
    it.round = .ok .finished { it with merger := m } := by
  simp only [DbRangeIter.round, act_bind, DbRangeIter.withMerger, h, act_pure]

theorem round_some (h : KWayMerge.nextRecord it.merger = .ok (some r) m) :
    it.round =
      (if it.stop.past r.key then .ok .finished { it with merger := m }
      else if it.snapshot < r.seqno then .ok .skipped { it with merger := m }
      else if it.lastEmittedKey = some r.key then .ok .skipped { it with merger := m }
      else
        match r.op with
        | .tombstone => .ok .skipped { it with merger := m, lastEmittedKey := some r.key }
        | .put => .ok (.yielded ⟨r.key, r.value, r.seqno⟩)
            { it with merger := m, lastEmittedKey := some r.key }) := by
  simp only [DbRangeIter.round, act_bind, DbRangeIter.withMerger, h, act_get]
  repeat' split
  all_goals simp_all [act_bind]

end Round

theorem collectRecords_eq {it : DbRangeIter} {l : List Rec} (fuel : ℕ)
    (h : Yields it.merger l) (hfuel : l.length < fuel) :
    ∃ it', DbRangeIter.collectRecords fuel it =
      .ok (emitted it.stop it.snapshot it.lastEmittedKey l) it' := by
  induction l generalizing it fuel with
  | nil =>
    obtain ⟨f, rfl⟩ : ∃ f, fuel = f + 1 := ⟨fuel - 1, by omega⟩
    obtain ⟨m', hnext, -⟩ := h.nil
    refine ⟨{ it with merger := m' }, ?_⟩
    simp only [DbRangeIter.collectRecords, act_bind, round_none hnext, act_pure, emitted]
  | cons r l ih =>
    obtain ⟨f, rfl⟩ : ∃ f, fuel = f + 1 := ⟨fuel - 1, by omega⟩
    rw [List.length_cons] at hfuel
    obtain ⟨m', hnext, hm'⟩ := h.cons
    simp only [DbRangeIter.collectRecords, act_bind, round_some hnext, emitted]
    by_cases hpast : it.stop.past r.key = true
    · refine ⟨{ it with merger := m' }, ?_⟩
      simp only [hpast, if_true, act_pure]
    by_cases hsnap : it.snapshot < r.seqno
    · obtain ⟨it', hrest⟩ := @ih { it with merger := m' } f hm' (by omega)
      refine ⟨it', ?_⟩
      simp only [hpast, hsnap, if_true]
      exact hrest
    by_cases hlast : it.lastEmittedKey = some r.key
    · obtain ⟨it', hrest⟩ := @ih { it with merger := m' } f hm' (by omega)
      refine ⟨it', ?_⟩
      simp only [hlast] at hrest
      simp only [hpast, hsnap, hlast, if_true, if_false]
      exact hrest
    obtain ⟨it', hrest⟩ :=
      @ih { it with merger := m', lastEmittedKey := some r.key } f hm' (by omega)
    refine ⟨it', ?_⟩
    simp only [hpast, hsnap, hlast, if_false, Bool.false_eq_true]
    cases r.op with
    | tombstone => exact hrest
    | put =>
      dsimp only
      exact act_bind_ok hrest

/-! ### What a scan returns -/

/-- The scan of `view`: ascending keys in range, each with the value of the
version in view. -/
structure IsScan (view : Key → Option Rec) (start stop : Bound) (out : List RangeRecord) :
    Prop where
  ascending : out.Pairwise fun a b => a.key < b.key
  mem : ∀ x, x ∈ out ↔ InRange start stop x.key ∧
    view x.key = some ⟨x.key, x.seqno, .put, x.value⟩

theorem newestRec_cons_of_not_visible {r : Rec} {l : List Rec} {k : Key} {s : ℕ}
    (h : ¬ r.Visible k s) : newestRec (r :: l) k s = newestRec l k s := by
  simp only [newestRec, newest, if_neg h, newer_none_left]

theorem newestRec_cons_of_visible {r : Rec} {l : List Rec} {s : ℕ} (h : SortedRecs (r :: l))
    (hs : r.seqno ≤ s) : newestRec (r :: l) r.key s = some r := by
  refine newest_cons_self ⟨rfl, hs⟩ ?_
  intro x hx hv
  rcases Rec.not_before_iff.mp (List.rel_of_pairwise_cons h hx) with hlt | ⟨-, hle⟩
  · exact absurd hv.1 hlt.ne'
  · exact hle

theorem mem_of_newestRec {l : List Rec} {k : Key} {s : ℕ} {r : Rec}
    (h : newestRec l k s = some r) : r ∈ l ∧ r.key = k := by
  obtain ⟨hmem, hv⟩ := newest_mem h
  exact ⟨hmem, hv.1⟩

/-- Keys still to come are not below the last key emitted. -/
def AtLeast (last : Option Key) (l : List Rec) : Prop := ∀ k ∈ last, ∀ r ∈ l, k ≤ r.key

theorem mem_emitted {stop : Bound} {snapshot : ℕ} {l : List Rec} {last : Option Key}
    (h : SortedRecs l) (hlast : AtLeast last l) (x : RangeRecord) :
    x ∈ emitted stop snapshot last l ↔ stop.past x.key = false ∧ last ≠ some x.key ∧
      newestRec l x.key snapshot = some ⟨x.key, x.seqno, .put, x.value⟩ := by
  induction l generalizing last with
  | nil => simp [emitted, newestRec]
  | cons r l ih =>
    have hl := (List.pairwise_cons.mp h).2
    have hlast' : AtLeast last l := fun k hk y hy => hlast k hk y (List.mem_cons_of_mem r hy)
    have hle : ∀ y ∈ r :: l, r.key ≤ y.key := by
      intro y hy
      rcases List.mem_cons.mp hy with rfl | hy
      · exact le_rfl
      · exact key_le_of_sorted h hy
    unfold emitted
    split
    · rename_i hpast
      simp only [List.not_mem_nil, false_iff, not_and]
      intro hx _ hnew
      have hkey := mem_of_newestRec hnew
      have := Bound.past_of_le (hkey.2 ▸ hle _ hkey.1) hpast
      rw [hx] at this
      cases this
    · split
      · rename_i hsnap
        have hnv : ¬ r.Visible x.key snapshot := fun hv => absurd hv.2 (by omega)
        rw [ih hl hlast', newestRec_cons_of_not_visible hnv]
      · rename_i hsnap
        split
        · -- an older version of the key just emitted
          rename_i hsame
          rw [ih hl hlast']
          refine and_congr_right fun _ => and_congr_right fun hne => ?_
          have hnv : ¬ r.Visible x.key snapshot := by
            rintro ⟨hk, -⟩
            exact hne (hk ▸ hsame)
          rw [newestRec_cons_of_not_visible hnv]
        · rename_i hnew
          have hnext : AtLeast (some r.key) l := by
            intro k hk y hy
            obtain rfl := Option.some.inj hk
            exact key_le_of_sorted h hy
          have hhead := newestRec_cons_of_visible h (not_lt.mp hsnap)
          have hpast : stop.past r.key = false := by simp_all
          -- the first visible version of a key decides for that key
          by_cases hk : x.key = r.key
          · have htail : x ∉ emitted stop snapshot (some r.key) l := by
              rw [ih hl hnext, hk]
              simp
            rw [hk, hhead]
            cases hop : r.op with
            | tombstone =>
              have hne : r ≠ ⟨r.key, x.seqno, .put, x.value⟩ := by
                intro heq
                rw [heq] at hop
                cases hop
              simp [htail, hne]
            | put =>
              simp only [List.mem_cons, htail, or_false, hpast, Option.some.injEq, true_and]
              constructor
              · rintro rfl
                refine ⟨hnew, ?_⟩
                cases r
                simp_all
              · rintro ⟨-, heq⟩
                have hv : r.value = x.value := congrArg Rec.value heq
                have hsq : r.seqno = x.seqno := congrArg Rec.seqno heq
                rw [hv, hsq, ← hk]
          · have hnv : ¬ r.Visible x.key snapshot := fun hv => hk hv.1.symm
            have hrec : x ∈ emitted stop snapshot (some r.key) l ↔ stop.past x.key = false ∧
                last ≠ some x.key ∧
                newestRec (r :: l) x.key snapshot = some ⟨x.key, x.seqno, .put, x.value⟩ := by
              rw [ih hl hnext, newestRec_cons_of_not_visible hnv]
              refine and_congr_right fun _ => ?_
              constructor
              · rintro ⟨-, hn⟩
                refine ⟨?_, hn⟩
                intro hlast'
                have hmem := mem_of_newestRec hn
                have h₁ := hlast x.key hlast' r (by simp)
                have h₂ := key_le_of_sorted h hmem.1
                rw [hmem.2] at h₂
                exact hk (le_antisymm h₁ h₂)
              · rintro ⟨-, hn⟩
                exact ⟨fun heq => hk (Option.some.inj heq).symm, hn⟩
            cases r.op with
            | tombstone => exact hrec
            | put =>
              rw [List.mem_cons, hrec]
              have hne : x ≠ ⟨r.key, r.value, r.seqno⟩ := fun heq => hk (by rw [heq])
              simp [hne]

theorem emitted_ascending {stop : Bound} {snapshot : ℕ} {l : List Rec} {last : Option Key}
    (h : SortedRecs l) :
    (emitted stop snapshot last l).Pairwise fun a b => a.key < b.key := by
  induction l generalizing last with
  | nil => exact List.Pairwise.nil
  | cons r l ih =>
    have hl := (List.pairwise_cons.mp h).2
    unfold emitted
    split
    · exact List.Pairwise.nil
    · split
      · exact ih hl
      · split
        · exact ih hl
        · cases r.op with
          | tombstone => exact ih hl
          | put =>
            refine List.pairwise_cons.mpr ⟨?_, ih hl⟩
            intro x hx
            have hnext : AtLeast (some r.key) l := by
              intro k hk y hy
              obtain rfl := Option.some.inj hk
              exact key_le_of_sorted h hy
            obtain ⟨-, hne, hnew⟩ := (mem_emitted hl hnext x).mp hx
            have hmem := mem_of_newestRec hnew
            have hle := key_le_of_sorted h hmem.1
            rw [hmem.2] at hle
            exact lt_of_le_of_ne hle fun heq => hne (congrArg some heq)

theorem memtableSource_sorted (start stop : Bound) {l : List Rec} (h : SortedRecs l) :
    SortedRecs (memtableSource start stop l) := by
  rw [memtableSource_eq start stop h]
  exact h.filter _

theorem sources_flatten (start stop : Bound) {ls : List (List Rec)}
    (hs : ∀ l ∈ ls, SortedRecs l) :
    (ls.map (memtableSource start stop)).flatten =
      ls.flatten.filter fun r => decide (InRange start stop r.key) := by
  rw [List.filter_flatten]
  congr 1
  exact List.map_congr_left fun l hl => memtableSource_eq start stop (hs l hl)

theorem newestRec_sources (start stop : Bound) {ls : List (List Rec)}
    (hs : ∀ l ∈ ls, SortedRecs l) (k : Key) (snapshot : ℕ) :
    newestRec (ls.map (memtableSource start stop)).flatten k snapshot =
      if InRange start stop k then newestRec ls.flatten k snapshot else none := by
  rw [sources_flatten start stop hs]
  split
  · rename_i hk
    refine newest_filter ?_
    intro x _ hv
    simpa [hv.1] using hk
  · rename_i hk
    refine newest_eq_none_iff.mpr ?_
    intro x hx hv
    have := (List.mem_filter.mp hx).2
    rw [hv.1] at this
    exact hk (by simpa using this)

theorem length_sources_le (start stop : Bound) {ls : List (List Rec)}
    (hs : ∀ l ∈ ls, SortedRecs l) :
    (ls.map (memtableSource start stop)).flatten.length ≤ ls.flatten.length := by
  rw [sources_flatten start stop hs]
  exact List.length_filter_le _ _

theorem collectRecords_isScan {ls : List (List Rec)} (hs : ∀ l ∈ ls, SortedRecs l)
    (start stop : Bound) (snapshot : ℕ) {fuel : ℕ}
    (hfuel : (ls.map (memtableSource start stop)).flatten.length < fuel) :
    ∃ out it', DbRangeIter.collectRecords fuel
        ⟨stop, snapshot, .new ((ls.map (memtableSource start stop)).map items), none⟩ =
        .ok out it' ∧
      IsScan (fun k => newestRec ls.flatten k snapshot) start stop out := by
  have hs' : ∀ v ∈ ls.map (memtableSource start stop), SortedRecs v := by
    intro v hv
    obtain ⟨l, hl, rfl⟩ := List.mem_map.mp hv
    exact memtableSource_sorted start stop (hs l hl)
  have hlen : (isort (ls.map (memtableSource start stop)).flatten).length < fuel := by
    rw [length_isort]
    exact hfuel
  obtain ⟨it', hcol⟩ := @collectRecords_eq ⟨stop, snapshot, _, none⟩ _ fuel (yields_new hs') hlen
  refine ⟨_, it', hcol, emitted_ascending (sorted_isort _), ?_⟩
  intro x
  rw [mem_emitted (sorted_isort _) (fun k hk => by cases hk), newestRec_isort,
    newestRec_sources start stop hs]
  by_cases hr : InRange start stop x.key
  · simp [hr, hr.2]
  · simp [hr]

end PaddockKV.Engine
