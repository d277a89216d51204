import Mathlib.Algebra.Order.BigOperators.Group.List
import Mathlib.Data.List.TakeWhile
import PaddockKV.Compaction.Order
import PaddockKV.Engine.Db

/-!
# Range scans over tables that cannot be read (`engine.rs`, `DbRangeIter`)

`rounds` is a consumer that keeps calling `next`, also after an error. The keys
it gets ascend and are never past the end, whatever fails. They may be below the
start: `skip_while` stops at the first error, and the records behind it are not
compared with the start any more.
-/

namespace PaddockKV.Engine

open Compaction

/-! ### What a consumer gets -/

/-- What `n` rounds of the loop in `DbRangeIter::next` yield. -/
def DbRangeIter.rounds : ℕ → DbRangeIter → List (Res RangeRecord)
  | 0, _ => []
  | n + 1, it =>
    match it.round with
    | .ok (.yielded r) it' => .ok r :: rounds n it'
    | .ok _ it' => rounds n it'
    | .error f it' => .error f :: rounds n it'

structure InBounds (start stop : Bound) (out : List (Res RangeRecord)) : Prop where
  ascending : (out.filterMap Except.toOption).Pairwise fun a b => a.key < b.key
  inRange : ∀ x, .ok x ∈ out → InRange start stop x.key

/-- The records of the memtables of a state, the active one first. -/
def memtableRecs (state : EngineState) : List (List Rec) :=
  state.activeMemtable.recs :: state.immutableMemtables.map fun im => im.memtable.recs

/-- The sources of a scan over memtables and the streams of tables. -/
def scanSources (start stop : Bound) (mems : List (List Rec)) (tables : List (List (Res Rec))) :
    List (List (Res Rec)) :=
  mems.map (fun l => items (memtableSource start stop l)) ++ tables.map (sstableSource start stop)

def scanIter (start stop : Bound) (snapshot : ℕ) (mems : List (List Rec))
    (tables : List (List (Res Rec))) : DbRangeIter :=
  ⟨stop, snapshot, .new (scanSources start stop mems tables), none⟩

theorem rangeSources_eq (prims : Crypto.Primitives) (state : EngineState) (start stop : Bound) :
    rangeSources prims state start stop =
      (state.sstables.mapM fun sst : LiveSst => sst.reader.scanStream prims).map
        (scanSources start stop (memtableRecs state)) := by
  have htables : ∀ ssts : List LiveSst,
      (ssts.mapM fun sst => do
        let stream ← sst.reader.scanStream prims
        return sstableSource start stop stream : Res (List (List (Res Rec)))) =
      (ssts.mapM fun sst : LiveSst => sst.reader.scanStream prims).map
        (List.map (sstableSource start stop)) := by
    intro ssts
    induction ssts with
    | nil => rfl
    | cons sst ssts ih =>
      rw [List.mapM_cons, List.mapM_cons, ih]
      cases sst.reader.scanStream prims with
      | error f => rfl
      | ok stream =>
        cases ssts.mapM fun sst : LiveSst => sst.reader.scanStream prims <;> rfl
  rw [rangeSources, htables]
  cases state.sstables.mapM fun sst : LiveSst => sst.reader.scanStream prims with
  | error f => rfl
  | ok tables =>
    simp only [Except.map, scanSources, memtableRecs, List.map_cons, List.map_map]
    rfl

/-! ### Order and end -/

section Rounds

variable {start : Bound} {last : Option Rec}

/-- The records that come out ascend above the last key emitted and are not past
the end; `P` carries what is known of all records. -/
theorem rounds_ordered {P : Rec → Prop} (n : ℕ) {it : DbRangeIter}
    (hm : Ordered P last it.merger) (hlast : ∀ k ∈ it.lastEmittedKey, ∃ q ∈ last, k ≤ q.key) :
    ((it.rounds n).filterMap Except.toOption).Pairwise (fun a b => a.key < b.key) ∧
      ∀ x, .ok x ∈ it.rounds n → it.stop.past x.key = false ∧
        (∃ r, P r ∧ r.key = x.key) ∧ ∀ k ∈ it.lastEmittedKey, k < x.key := by
  induction n generalizing it last with
  | zero => exact ⟨List.Pairwise.nil, by simp [DbRangeIter.rounds]⟩
  | succ n ih =>
    have hnext := nextRecord_ordered hm
    cases hrun : KWayMerge.nextRecord it.merger with
    | error f m =>
      have hm' := hnext.of_error hrun
      obtain ⟨hpair, hall⟩ := @ih last { it with merger := m } hm' hlast
      have hrounds : it.rounds (n + 1) = .error f :: DbRangeIter.rounds n { it with merger := m } := by
        simp only [DbRangeIter.rounds, round_error hrun]
      rw [hrounds]
      exact ⟨hpair, fun x hx => hall x (by simpa using hx)⟩
    | ok o m =>
      cases o with
      | none =>
        have hm' : Ordered P last m := hnext.of_ok hrun
        have hrounds : it.rounds (n + 1) = DbRangeIter.rounds n { it with merger := m } := by
          simp only [DbRangeIter.rounds, round_none hrun]
        rw [hrounds]
        exact @ih last { it with merger := m } hm' hlast
      | some r =>
        obtain ⟨hm', hP, hle⟩ := hnext.of_ok hrun
        -- the last key emitted is at most the key of `r`
        have hkey : ∀ k ∈ it.lastEmittedKey, k ≤ r.key := by
          intro k hk
          obtain ⟨q, hq, hkq⟩ := hlast k hk
          rcases Rec.not_before_iff.mp (hle q hq) with hlt | ⟨heq, -⟩
          · exact hkq.trans hlt.le
          · exact hkq.trans heq.le
        have hskip := @ih (some r) { it with merger := m } hm' fun k hk => ⟨r, rfl, hkey k hk⟩
        obtain ⟨hpair, hall⟩ := @ih (some r) { it with merger := m, lastEmittedKey := some r.key }
          hm' (fun k hk => ⟨r, rfl, (Option.some.inj hk).ge⟩)
        have hrest : ∀ x, .ok x ∈ DbRangeIter.rounds n
            { it with merger := m, lastEmittedKey := some r.key } → it.stop.past x.key = false ∧
            (∃ r, P r ∧ r.key = x.key) ∧ ∀ k ∈ it.lastEmittedKey, k < x.key := by
          intro x hx
          obtain ⟨hpast, hPx, hlt⟩ := hall x hx
          exact ⟨hpast, hPx, fun k hk => (hkey k hk).trans_lt (hlt r.key rfl)⟩
        have hround := round_some hrun
        by_cases hpast : it.stop.past r.key = true
        · rw [if_pos hpast] at hround
          simpa only [DbRangeIter.rounds, hround] using hskip
        rw [if_neg hpast] at hround
        by_cases hsnap : it.snapshot < r.seqno
        · rw [if_pos hsnap] at hround
          simpa only [DbRangeIter.rounds, hround] using hskip
        rw [if_neg hsnap] at hround
        by_cases hsame : it.lastEmittedKey = some r.key
        · rw [if_pos hsame] at hround
          simpa only [DbRangeIter.rounds, hround] using hskip
        rw [if_neg hsame] at hround
        cases hop : r.op with
        | tombstone =>
          simp only [hop] at hround
          simp only [DbRangeIter.rounds, hround]
          exact ⟨hpair, hrest⟩
        | put =>
          simp only [hop] at hround
          simp only [DbRangeIter.rounds, hround]
          refine ⟨List.pairwise_cons.mpr ⟨?_, hpair⟩, ?_⟩
          · intro x hx
            obtain ⟨y, hy, hyx⟩ := List.mem_filterMap.mp hx
            cases y with
            | ok y =>
              cases hyx
              exact (hall x hy).2.2 r.key rfl
            | error f => cases hyx
          · intro x hx
            rcases List.mem_cons.mp hx with heq | hx
            · cases heq
              refine ⟨by simpa using hpast, ⟨r, hP, rfl⟩, ?_⟩
              intro k hk
              refine (hkey k hk).lt_of_ne ?_
              rintro rfl
              exact hsame hk
            · exact hrest x hx

end Rounds

/-! ### Start -/

/-- Behind an unreadable block stands a record below the start and not past the
end. -/
def Leaks (start stop : Bound) (s : List (Res Rec)) : Prop :=
  ∃ A f B r, s = A ++ .error f :: B ∧ .ok r ∈ B ∧ start.below r.key = true ∧
    stop.past r.key = false

section Source

variable {start stop : Bound} {s : List (Res Rec)} {r : Rec}

theorem okRecs_sstableSource (start stop : Bound) (s : List (Res Rec)) :
    (okRecs (sstableSource start stop s)).Sublist (okRecs s) :=
  ((List.takeWhile_sublist _).trans (List.dropWhile_sublist _)).filterMap _

theorem not_past_of_mem (h : r ∈ okRecs (sstableSource start stop s)) :
    stop.past r.key = false := by
  have := List.all_eq_true.mp List.all_takeWhile _ (mem_okRecs.mp h)
  simpa [itemWithin] using this

theorem leaks_of_mem (hs : SortedRecs (okRecs s)) (h : r ∈ okRecs (sstableSource start stop s))
    (hb : start.below r.key = true) : Leaks start stop s := by
  have hp := not_past_of_mem h
  have hdrop : .ok r ∈ s.dropWhile (itemBelow start) :=
    (List.takeWhile_sublist _).subset (mem_okRecs.mp h)
  clear h
  induction s with
  | nil => cases hdrop
  | cons x s ih =>
    cases x with
    | error f =>
      rw [List.dropWhile_cons_of_neg (by simp [itemBelow])] at hdrop
      exact ⟨[], f, s, r, rfl, by simpa using hdrop, hb, hp⟩
    | ok y =>
      have hbelow : start.below y.key = true := by
        by_contra hy
        rw [List.dropWhile_cons_of_neg (by simpa [itemBelow] using hy)] at hdrop
        refine hy (Bound.below_of_le ?_ hb)
        rcases List.mem_cons.mp hdrop with heq | hmem
        · cases heq
          exact le_rfl
        · exact key_le_of_sorted hs (mem_okRecs.mpr hmem)
      rw [List.dropWhile_cons_of_pos (by simpa [itemBelow] using hbelow)] at hdrop
      obtain ⟨A, f, B, r', rfl, hr'⟩ := ih (List.pairwise_cons.mp hs).2 hdrop
      exact ⟨.ok y :: A, f, B, r', rfl, hr'⟩

theorem mem_takeWhile_within (hs : SortedRecs (okRecs s)) (h : .ok r ∈ s)
    (hp : stop.past r.key = false) : .ok r ∈ s.takeWhile (itemWithin stop) := by
  induction s with
  | nil => cases h
  | cons x s ih =>
    cases x with
    | error f =>
      rw [List.takeWhile_cons_of_pos rfl]
      have hmem : .ok r ∈ s := by simpa using h
      exact List.mem_cons_of_mem _ (ih hs hmem)
    | ok y =>
      have hle : y.key ≤ r.key := by
        rcases List.mem_cons.mp h with heq | hmem
        · cases heq
          exact le_rfl
        · exact key_le_of_sorted hs (mem_okRecs.mpr hmem)
      have hy : stop.past y.key = false := by
        by_contra hy
        rw [Bound.past_of_le hle (by simpa using hy)] at hp
        cases hp
      rw [List.takeWhile_cons_of_pos (by simp [itemWithin, hy])]
      rcases List.mem_cons.mp h with heq | hmem
      · exact heq ▸ List.mem_cons_self
      · exact List.mem_cons_of_mem _ (ih (List.pairwise_cons.mp hs).2 hmem)

theorem mem_of_leaks {A B : List (Res Rec)} {f : Fault}
    (hs : SortedRecs (okRecs (A ++ .error f :: B))) (hr : .ok r ∈ B)
    (hb : start.below r.key = true) (hp : stop.past r.key = false) :
    r ∈ okRecs (sstableSource start stop (A ++ .error f :: B)) := by
  rw [mem_okRecs]
  induction A with
  | nil =>
    rw [List.nil_append] at hs ⊢
    rw [sstableSource, List.dropWhile_cons_of_neg (by simp [itemBelow])]
    exact mem_takeWhile_within hs (List.mem_cons_of_mem _ hr) hp
  | cons x A ih =>
    have hmem : .ok r ∈ A ++ .error f :: B :=
      List.mem_append_right A (List.mem_cons_of_mem _ hr)
    cases x with
    | error f' =>
      rw [List.cons_append] at hs ⊢
      rw [sstableSource, List.dropWhile_cons_of_neg (by simp [itemBelow])]
      exact mem_takeWhile_within hs (List.mem_cons_of_mem _ hmem) hp
    | ok y =>
      have hbelow := Bound.below_of_le (key_le_of_sorted hs (mem_okRecs.mpr hmem)) hb
      rw [List.cons_append, sstableSource,
        List.dropWhile_cons_of_pos (by simpa [itemBelow] using hbelow)]
      exact ih (List.pairwise_cons.mp hs).2

end Source

/-! ### Relabelled records -/

/-- `g` changes nothing but what a record says of its key. -/
def Relabels (g : Rec → Rec) : Prop := ∀ r, (g r).key = r.key ∧ (g r).seqno = r.seqno

def relabel (g : Rec → Rec) (s : List (Res Rec)) : List (Res Rec) := s.map (Except.map g)

section Relabel

variable {g : Rec → Rec} {start stop : Bound}

theorem okRecs_relabel (g : Rec → Rec) (s : List (Res Rec)) :
    okRecs (relabel g s) = (okRecs s).map g := by
  induction s with
  | nil => rfl
  | cons x s ih =>
    cases x with
    | ok r => exact congrArg (g r :: ·) ih
    | error f => exact ih

theorem Relabels.sorted (hg : Relabels g) {l : List Rec} (h : SortedRecs l) :
    SortedRecs (l.map g) := by
  refine List.pairwise_map.mpr (h.imp ?_)
  intro a b hab
  rw [Rec.not_before_iff] at hab ⊢
  rwa [(hg a).1, (hg b).1, (hg a).2, (hg b).2]

theorem Relabels.leaks (hg : Relabels g) {s : List (Res Rec)}
    (h : Leaks start stop (relabel g s)) : Leaks start stop s := by
  obtain ⟨A, f, B, r, heq, hr, hb, hp⟩ := h
  obtain ⟨A', B', rfl, rfl, hB⟩ := List.map_eq_append_iff.mp heq
  obtain ⟨x, B'', rfl, hx, rfl⟩ := List.map_eq_cons_iff.mp hB
  obtain ⟨y, hy, hyr⟩ := List.mem_map.mp hr
  cases x with
  | ok r' => cases hx
  | error f' =>
    cases y with
    | error f'' => cases hyr
    | ok r' =>
      cases hyr
      rw [(hg r').1] at hb hp
      exact ⟨A', f', B'', r', rfl, hy, hb, hp⟩

theorem Relabels.mems_sorted (hg : Relabels g) {mems : List (List Rec)}
    (hm : ∀ l ∈ mems, SortedRecs l) : ∀ l ∈ mems.map (List.map g), SortedRecs l := by
  intro l hl
  obtain ⟨l', hl', rfl⟩ := List.mem_map.mp hl
  exact hg.sorted (hm l' hl')

theorem Relabels.tables_sorted (hg : Relabels g) {tables : List (List (Res Rec))}
    (ht : ∀ t ∈ tables, SortedRecs (okRecs t)) :
    ∀ t ∈ tables.map (relabel g), SortedRecs (okRecs t) := by
  intro t htt
  obtain ⟨t', ht', rfl⟩ := List.mem_map.mp htt
  rw [okRecs_relabel]
  exact hg.sorted (ht t' ht')

end Relabel

/-! ### Unreadable tables -/

theorem okRecs_errors (fs : List Fault) : okRecs (fs.map .error) = [] := by
  induction fs with
  | nil => rfl
  | cons f fs ih => exact ih

theorem not_leaks_errors (start stop : Bound) (fs : List Fault) :
    ¬ Leaks start stop (fs.map .error) := by
  rintro ⟨A, f, B, r, heq, hr, -⟩
  have hmem : .ok r ∈ fs.map (Except.error : Fault → Res Rec) := by
    rw [heq]
    exact List.mem_append_right A (List.mem_cons_of_mem _ hr)
  obtain ⟨_, -, h⟩ := List.mem_map.mp hmem
  cases h

theorem sstableSource_errors (start stop : Bound) (fs : List Fault) :
    sstableSource start stop (fs.map .error) = fs.map .error := by
  have hdrop : (fs.map (Except.error : Fault → Res Rec)).dropWhile (itemBelow start) =
      fs.map .error := by
    cases fs with
    | nil => rfl
    | cons f fs => rfl
  rw [sstableSource, hdrop, List.takeWhile_eq_self_iff]
  intro x hx
  obtain ⟨f, -, rfl⟩ := List.mem_map.mp hx
  rfl

theorem early_of_unreadable {ss : List (List (Res Rec))} {n : ℕ} {f : Fault}
    (h : ∀ s ∈ ss, s.length ≤ n) : Early (ss ++ [List.replicate n (.error f)]) := by
  induction ss with
  | nil =>
    refine ⟨?_, trivial⟩
    intro A f' B hs
    refine Nat.le_of_eq (List.countP_eq_zero.mpr ?_)
    intro x hx
    have hmem : x ∈ List.replicate n (Except.error f : Res Rec) := hs ▸ List.mem_append_left _ hx
    rw [List.eq_of_mem_replicate hmem]
    simp [isErr]
  | cons s ss ih =>
    refine ⟨?_, ih fun t ht => h t (List.mem_cons_of_mem s ht)⟩
    intro A f' B hs
    have hA : A.length ≤ n := by
      have := h s List.mem_cons_self
      rw [hs, List.length_append] at this
      omega
    have hcount : (List.replicate n (Except.error f : Res Rec)).countP isErr = n := by
      simp [List.countP_replicate, isErr]
    have hle : n ≤ (ss ++ [List.replicate n (Except.error f)]).flatten.countP isErr := by
      rw [List.flatten_append, List.countP_append, List.flatten_singleton, hcount]
      omega
    exact (List.countP_le_length.trans hA).trans hle

/-! ### Scans -/

section Scan

variable {start stop : Bound} {mems : List (List Rec)} {tables : List (List (Res Rec))}

theorem mem_scanSources {s : List (Res Rec)} (h : s ∈ scanSources start stop mems tables) :
    (∃ l ∈ mems, s = items (memtableSource start stop l)) ∨
      ∃ t ∈ tables, s = sstableSource start stop t := by
  rcases List.mem_append.mp h with h | h
  · obtain ⟨l, hl, rfl⟩ := List.mem_map.mp h
    exact .inl ⟨l, hl, rfl⟩
  · obtain ⟨t, ht, rfl⟩ := List.mem_map.mp h
    exact .inr ⟨t, ht, rfl⟩

theorem scanSources_sorted (hm : ∀ l ∈ mems, SortedRecs l)
    (ht : ∀ t ∈ tables, SortedRecs (okRecs t)) :
    ∀ s ∈ scanSources start stop mems tables, SortedRecs (okRecs s) := by
  intro s hs
  rcases mem_scanSources hs with ⟨l, hl, rfl⟩ | ⟨t, htt, rfl⟩
  · rw [okRecs_items, memtableSource_eq start stop (hm l hl)]
    exact (hm l hl).sublist List.filter_sublist
  · exact (ht t htt).sublist (okRecs_sstableSource start stop t)

theorem scan_inBounds (hm : ∀ l ∈ mems, SortedRecs l) (ht : ∀ t ∈ tables, SortedRecs (okRecs t))
    (hleak : ∀ t ∈ tables, ¬ Leaks start stop t) (snapshot n : ℕ) :
    InBounds start stop ((scanIter start stop snapshot mems tables).rounds n) := by
  have hm' : Ordered (fun r => start.below r.key = false) none
      (scanIter start stop snapshot mems tables).merger := by
    refine ordered_new (scanSources_sorted hm ht) ?_
    intro s hs r hr
    rcases mem_scanSources hs with ⟨l, hl, rfl⟩ | ⟨t, htt, rfl⟩
    · rw [okRecs_items, memtableSource_eq start stop (hm l hl)] at hr
      have := List.of_mem_filter hr
      exact (of_decide_eq_true this).1
    · by_contra hb
      exact hleak t htt (leaks_of_mem (ht t htt) hr (by simpa using hb))
  obtain ⟨hpair, hall⟩ := rounds_ordered n hm' (by simp [scanIter])
  refine ⟨hpair, ?_⟩
  intro x hx
  obtain ⟨hpast, ⟨r, hr, hkey⟩, -⟩ := hall x hx
  exact ⟨hkey ▸ hr, hpast⟩

theorem rounds_first {it : DbRangeIter} {fs : List Fault} {r : Rec} {rest : List (Res Rec)}
    {k : ℕ} {m : KWayMerge} (h : drain k it.merger = some (fs.map .error ++ .ok r :: rest, m))
    (hlast : it.lastEmittedKey = none) (hp : it.stop.past r.key = false)
    (hsnap : r.seqno ≤ it.snapshot) (hop : r.op = .put) :
    .ok ⟨r.key, r.value, r.seqno⟩ ∈ it.rounds (fs.length + 1) := by
  induction fs generalizing it k with
  | nil =>
    cases k with
    | zero => cases h
    | succ k =>
      rw [drain] at h
      split at h
      · cases h
      · rename_i r' m₁ hrun
        obtain ⟨p, -, heq⟩ := Option.map_eq_some_iff.mp h
        cases heq
        have hround := round_some hrun
        rw [if_neg (by simp [hp]), if_neg (not_lt.mpr hsnap), if_neg (by simp [hlast])] at hround
        simp only [hop] at hround
        simp only [List.length_nil, DbRangeIter.rounds, hround]
        exact List.mem_cons_self
      · obtain ⟨p, -, heq⟩ := Option.map_eq_some_iff.mp h
        cases heq
  | cons f fs ih =>
    cases k with
    | zero => cases h
    | succ k =>
      rw [drain] at h
      split at h
      · cases h
      · obtain ⟨p, -, heq⟩ := Option.map_eq_some_iff.mp h
        cases heq
      · rename_i f' m₁ hrun
        obtain ⟨⟨out, m'⟩, hdrain, heq⟩ := Option.map_eq_some_iff.mp h
        obtain ⟨hout, rfl⟩ := Prod.mk.inj heq
        obtain ⟨-, rfl⟩ := List.cons.inj hout
        have hmem := @ih { it with merger := m₁ } k hdrain hlast hp hsnap
        rw [List.length_cons]
        simp only [DbRangeIter.rounds, round_error hrun]
        exact List.mem_cons_of_mem _ hmem

theorem exists_first {x : Rec} {out : List (Res Rec)} (h : .ok x ∈ out) :
    ∃ fs r rest, out = List.map Except.error fs ++ .ok r :: rest := by
  induction out with
  | nil => cases h
  | cons y out ih =>
    cases y with
    | ok r => exact ⟨[], r, out, rfl⟩
    | error f =>
      obtain ⟨fs, r, rest, rfl⟩ := ih (by simpa using h)
      exact ⟨f :: fs, r, rest, rfl⟩

/-- The record as a put. -/
def asPut (r : Rec) : Rec := { r with op := .put }

theorem relabels_asPut : Relabels asPut := fun _ => ⟨rfl, rfl⟩

theorem op_of_mem {s : List (Res Rec)} {r : Rec}
    (hs : s ∈ scanSources start stop (mems.map (List.map asPut)) (tables.map (relabel asPut)))
    (hm : ∀ l ∈ mems, SortedRecs l) (hr : r ∈ okRecs s) : r.op = .put := by
  have hput : ∀ l : List Rec, r ∈ l.map asPut → r.op = .put := by
    intro l hl
    obtain ⟨y, -, rfl⟩ := List.mem_map.mp hl
    rfl
  rcases mem_scanSources hs with ⟨l, hl, rfl⟩ | ⟨t, ht, rfl⟩
  · obtain ⟨l', hl', rfl⟩ := List.mem_map.mp hl
    rw [okRecs_items, memtableSource_eq start stop (relabels_asPut.sorted (hm l' hl'))] at hr
    exact hput l' (List.mem_of_mem_filter hr)
  · obtain ⟨t', -, rfl⟩ := List.mem_map.mp ht
    have := (okRecs_sstableSource start stop _).subset hr
    rw [okRecs_relabel] at this
    exact hput _ this

/-- The scan in which a leak shows: every record is a put in view, and the table
behind has so many unreadable blocks that all of the others is read first. -/
theorem not_inBounds_of_leaks (hm : ∀ l ∈ mems, SortedRecs l)
    (ht : ∀ t ∈ tables, SortedRecs (okRecs t)) {t : List (Res Rec)} (htt : t ∈ tables)
    (hleak : Leaks start stop t) : ∃ fs snapshot n, ¬ InBounds start stop
      ((scanIter start stop snapshot (mems.map (List.map asPut))
        (tables.map (relabel asPut) ++ [List.map .error fs])).rounds n) := by
  obtain ⟨A, f, B, x, rfl, hx, hb, hp⟩ := hleak
  let ss := scanSources start stop (mems.map (List.map asPut)) (tables.map (relabel asPut))
  let fs := List.replicate ss.flatten.length f
  let snapshot := ((okRecs ss.flatten).map Rec.seqno).sum
  let all := scanSources start stop (mems.map (List.map asPut))
    (tables.map (relabel asPut) ++ [List.map .error fs])
  have hall : all = ss ++ [List.map .error fs] := by
    show scanSources start stop _ _ = _
    rw [scanSources, List.map_append, List.map_singleton, sstableSource_errors, ← List.append_assoc]
    rfl
  -- everything comes out, the leaked record too
  have hearly : Early all := by
    rw [hall, List.map_replicate]
    exact early_of_unreadable fun s hs => (List.sublist_flatten_of_mem hs).length_le
  obtain ⟨out, m, hdrain, hperm⟩ := drain_early hearly
  have hsorted : ∀ s ∈ ss, SortedRecs (okRecs s) :=
    scanSources_sorted (relabels_asPut.mems_sorted hm) (relabels_asPut.tables_sorted ht)
  have hordered : Ordered (fun r => r.op = .put ∧ r.seqno ≤ snapshot) none (.new all) := by
    rw [hall]
    refine ordered_new ?_ ?_
    · intro s hs
      rcases List.mem_append.mp hs with hs | hs
      · exact hsorted s hs
      · rw [List.mem_singleton.mp hs, okRecs_errors]
        exact List.Pairwise.nil
    · intro s hs r hr
      rcases List.mem_append.mp hs with hs | hs
      · refine ⟨op_of_mem hs hm hr, List.le_sum_of_mem (List.mem_map_of_mem ?_)⟩
        exact mem_okRecs.mpr (List.mem_flatten_of_mem hs (mem_okRecs.mp hr))
      · rw [List.mem_singleton.mp hs, okRecs_errors] at hr
        cases hr
  obtain ⟨houtSorted, houtAll⟩ := drain_ordered hordered hdrain
  have hxout : asPut x ∈ okRecs out := by
    have hsrc : asPut x ∈ okRecs (sstableSource start stop (relabel asPut (A ++ .error f :: B))) := by
      have hrel : relabel asPut (A ++ .error f :: B) =
          relabel asPut A ++ .error f :: relabel asPut B := List.map_append
      have hsort := relabels_asPut.sorted (ht _ htt)
      rw [← okRecs_relabel, hrel] at hsort
      rw [hrel]
      exact mem_of_leaks hsort (List.mem_map_of_mem hx) hb hp
    refine mem_okRecs.mpr (hperm.mem_iff.mpr (List.mem_flatten_of_mem ?_ (mem_okRecs.mp hsrc)))
    rw [hall]
    refine List.mem_append_left _ (List.mem_append_right _ (List.mem_map_of_mem ?_))
    exact List.mem_map_of_mem htt
  -- the first record that comes out is not above it
  obtain ⟨gs, r, rest, rfl⟩ := exists_first (mem_okRecs.mp hxout)
  have hokRecs : okRecs (List.map .error gs ++ .ok r :: rest) = r :: okRecs rest := by
    rw [okRecs, List.filterMap_append]
    exact congrArg (· ++ _) (okRecs_errors gs)
  rw [hokRecs] at houtSorted houtAll hxout
  obtain ⟨⟨hop, hseqno⟩, -⟩ := houtAll r List.mem_cons_self
  have hkey : r.key ≤ (asPut x).key := by
    rcases List.mem_cons.mp hxout with heq | hmem
    · exact (congrArg Rec.key heq).ge
    · exact key_le_of_sorted houtSorted hmem
  have hpast : stop.past r.key = false := by
    by_contra hr
    have hpx : stop.past x.key = true := Bound.past_of_le hkey (by simpa using hr)
    rw [hp] at hpx
    cases hpx
  refine ⟨fs, snapshot, gs.length + 1, ?_⟩
  intro hin
  have hmem := @rounds_first (scanIter start stop snapshot (mems.map (List.map asPut))
    (tables.map (relabel asPut) ++ [List.map .error fs])) gs r rest _ m hdrain rfl hpast hseqno hop
  have hrange := (hin.inRange _ hmem).1
  rw [Bound.below_of_le hkey hb] at hrange
  cases hrange

/-- Whatever operations and values the records carry, whatever the snapshot is
and however many unreadable tables are added, a scan stays in bounds if and only
if no table has an unreadable block in front of a record below the start. -/
theorem scan_inBounds_iff (hm : ∀ l ∈ mems, SortedRecs l)
    (ht : ∀ t ∈ tables, SortedRecs (okRecs t)) :
    (∀ g, Relabels g → ∀ (unreadable : List (List Fault)) (snapshot n : ℕ), InBounds start stop
      ((scanIter start stop snapshot (mems.map (List.map g))
        (tables.map (relabel g) ++ unreadable.map (List.map .error))).rounds n)) ↔
    ∀ t ∈ tables, ¬ Leaks start stop t := by
  constructor
  · intro h t htt hleak
    obtain ⟨fs, snapshot, n, hnot⟩ := not_inBounds_of_leaks hm ht htt hleak
    exact hnot (h asPut relabels_asPut [fs] snapshot n)
  · intro h g hg unreadable snapshot n
    refine scan_inBounds (hg.mems_sorted hm) ?_ ?_ snapshot n
    · intro t htt
      rcases List.mem_append.mp htt with htt | htt
      · exact hg.tables_sorted ht t htt
      · obtain ⟨fs, -, rfl⟩ := List.mem_map.mp htt
        rw [okRecs_errors]
        exact List.Pairwise.nil
    · intro t htt
      rcases List.mem_append.mp htt with htt | htt
      · obtain ⟨t', ht', rfl⟩ := List.mem_map.mp htt
        exact fun hleak => h t' ht' (hg.leaks hleak)
      · obtain ⟨fs, -, rfl⟩ := List.mem_map.mp htt
        exact not_leaks_errors start stop fs

end Scan

/-- A table whose block behind the unreadable one starts in range. -/
def readableBehind : List (Except Fault Rec) :=
  [.ok ⟨[1], 1, .put, [7]⟩, .error (.err (.corruption "sstable data block" "crc")),
    .ok ⟨[2], 1, .put, [8]⟩]

theorem not_leaks_readableBehind : ¬ Leaks (.included [2]) .unbounded readableBehind := by
  rintro ⟨A, f, B, r, heq, hr, hb, -⟩
  unfold readableBehind at heq
  rcases A with _ | ⟨y, _ | ⟨z, A⟩⟩
  · cases heq
  · obtain ⟨-, -, rfl⟩ : _ ∧ _ ∧ [.ok ⟨[2], 1, .put, [8]⟩] = B := by simpa using heq
    obtain rfl : r = ⟨[2], 1, .put, [8]⟩ := by simpa using hr
    cases hb
  · have hlen := congrArg List.length heq
    rcases A with _ | ⟨w, A⟩
    · cases heq
    · simp at hlen

theorem scan_inBounds_iff_readable : ¬ Leaks (.included [2]) .unbounded readableBehind ∧
    InBounds (.included [2]) .unbounded
      ((scanIter (.included [2]) .unbounded 5 ([[⟨[3], 2, .put, [9]⟩]].map (List.map asPut))
        ([readableBehind].map (relabel asPut) ++ [].map (List.map .error))).rounds 4) := by
  refine ⟨not_leaks_readableBehind, ?_⟩
  refine (scan_inBounds_iff (by unfold SortedRecs; decide) (by unfold SortedRecs; decide)).mpr ?_
    asPut relabels_asPut [] 5 4
  intro t ht
  rw [List.mem_singleton.mp ht]
  exact not_leaks_readableBehind

/-- The first block of a table cannot be read; the record of the second is below
the start and is yielded. -/
theorem scan_yields_below_start : ∃ x : RangeRecord, .ok x ∈ (scanIter (.included [2]) .unbounded 1 []
    [[.error (.err (.corruption "sstable data block" "crc")), .ok ⟨[1], 1, .put, [7]⟩]]).rounds 2 ∧
    ¬ InRange (.included [2]) .unbounded x.key :=
  ⟨⟨[1], [7], 1⟩, by decide, by decide⟩

end PaddockKV.Engine
