import PaddockKV.Engine.Kept
import PaddockKV.Engine.Runs
import PaddockKV.Engine.Sources

/-!
# One session

In a session that starts with an empty directory the sources hold every commit
once, and they stand in the order in which `get_at` probes them: all commits of a
source are newer than those of the sources behind it. So the first hit is the last
operation, as long as the lookup in a table does not go past the versions of its key.
-/

namespace PaddockKV.Engine

open Io Wal Memtable Sstable Crypto History Transition

theorem findSome_congr {α β : Type} {f g : α → Option β} {l : List α} (h : ∀ a ∈ l, f a = g a) :
    l.findSome? f = l.findSome? g := by
  induction l with
  | nil => rfl
  | cons a l ih =>
    rw [List.findSome?_cons, List.findSome?_cons, h a List.mem_cons_self,
      ih fun b hb => h b (List.mem_cons_of_mem a hb)]

namespace Store

/-- The sources hold the commits of the session, in order. -/
structure InSession (acked : History) (t : Store) : Prop where
  fed : t.WellFed
  history : t.history = acked
  ascending : acked.Pairwise fun c d => c.1 < d.1
  le_seqno : ∀ c ∈ acked, c.1 ≤ t.seqno

section

variable {acked : History} {t t' : Store}

theorem inSession_start : InSession [] empty.reopen := by
  refine ⟨wellFed_reopen empty, rfl, .nil, ?_⟩
  intro c hc
  cases hc

theorem InSession.commit (h : InSession acked t) (batch : WriteBatch) :
    InSession (acked ++ [(t.seqno + 1, batch)]) (t.commit batch) := by
  refine ⟨h.fed.commit batch, ?_, ?_, ?_⟩
  · rw [history_commit, h.history]
  · refine List.pairwise_append.mpr ⟨h.ascending, List.pairwise_singleton _ _, ?_⟩
    intro c hc d hd
    rw [List.mem_singleton.mp hd]
    exact Nat.lt_succ_of_le (h.le_seqno c hc)
  · intro c hc
    rcases List.mem_append.mp hc with hc | hc
    · exact (h.le_seqno c hc).trans (Nat.le_succ _)
    · rw [List.mem_singleton.mp hc]
      exact le_rfl

theorem InSession.works (h : InSession acked t) (hworks : Works t t') : InSession acked t' := by
  refine Works.invariant (I := InSession acked) ?_ hworks h
  intro s s' hs hwork
  refine ⟨hs.fed.work hwork, ?_, hs.ascending, ?_⟩
  · cases hwork with
    | rotate => exact (history_rotate s).trans hs.history
    | flushOne hq => exact (history_flushOne hs.fed.queueApart hq).trans hs.history
    | compact => exact (history_compact s).trans hs.history
  · cases hwork with
    | rotate => exact hs.le_seqno
    | flushOne hq => exact hs.le_seqno
    | compact => exact hs.le_seqno

theorem InSession.sources (h : InSession acked t) :
    t.sources.Pairwise fun a b => ∀ c ∈ a, ∀ d ∈ b, d.1 < c.1 := by
  have hasc := h.ascending
  rw [← h.history, history_eq, List.pairwise_flatten, List.pairwise_reverse] at hasc
  exact hasc.2.imp fun hab c hc d hd => hab d hd c hc

theorem InSession.recs (h : InSession acked t) :
    (t.sources.map sortedRecs).Pairwise fun l l' => ∀ r ∈ l, ∀ r' ∈ l', r'.seqno < r.seqno := by
  refine List.pairwise_map.mpr (h.sources.imp ?_)
  intro a b hab r hr r' hr'
  obtain ⟨c, hc, op, -, rfl⟩ := mem_records.mp (mem_sortedRecs.mp hr)
  obtain ⟨d, hd, op', -, rfl⟩ := mem_records.mp (mem_sortedRecs.mp hr')
  rw [toRec_seqno, toRec_seqno]
  exact hab c hc d hd

theorem InSession.perm (h : InSession acked t) :
    (t.sources.map sortedRecs).flatten.Perm (records acked) := by
  have hsort : sortedRecs acked = isort (t.sources.map sortedRecs).flatten := by
    rw [isort_sortedRecs, ← history_eq, h.history]
  calc (t.sources.map sortedRecs).flatten
      |>.Perm (isort (t.sources.map sortedRecs).flatten) := (perm_isort _).symm
    _ = isort (records acked).reverse := by rw [← hsort, sortedRecs]
    _ |>.Perm (records acked).reverse := perm_isort _
    _ |>.Perm (records acked) := List.reverse_perm _

theorem InSession.lastOp_eq (h : InSession acked t) (key : Key) (snapshot : ℕ) :
    acked.lastOp key snapshot =
      (t.sources.map sortedRecs).findSome? fun l => lookup l key snapshot := by
  have hasc : Ascending acked := h.ascending.imp fun hlt => hlt.le
  have hlookup : ∀ l ∈ t.sources.map sortedRecs,
      lookup l key snapshot = newestRec l key snapshot := by
    intro l hl
    obtain ⟨x, -, rfl⟩ := List.mem_map.mp hl
    exact lookup_eq_newestRec (sortedRecs_sorted x) key snapshot
  rw [History.lastOp_eq hasc, ← h.history, history_eq, ← newestRec_sortedRecs,
    findSome_congr hlookup]
  refine (Newest.findSome_newest ?_).symm
  refine h.recs.imp ?_
  intro l l' hll a ha x hx _
  exact (hll a (Newest.newest_mem ha).1 x hx).le

/-! ### Probing -/

theorem lookup_some {l : List Rec} {key : Key} {snapshot : ℕ} {r : Rec}
    (h : lookup l key snapshot = some r) : r ∈ l ∧ r.Visible key snapshot := by
  unfold lookup at h
  have hv := List.find?_some h
  exact ⟨List.mem_of_find?_eq_some h, of_decide_eq_true hv⟩

theorem lookup_none {l : List Rec} {key : Key} {snapshot : ℕ}
    (h : ∀ r ∈ l, ¬ r.Visible key snapshot) : lookup l key snapshot = none := by
  rw [lookup, List.find?_eq_none]
  intro r hr hv
  exact h r hr (of_decide_eq_true hv)

theorem tableGet_none {x : History} {key : Key} {snapshot : ℕ}
    (h : ∀ r ∈ sortedRecs x, ¬ r.Visible key snapshot) :
    tableGet (blocksOf x) key snapshot = none := by
  cases hget : tableGet (blocksOf x) key snapshot with
  | none => rfl
  | some r =>
    obtain ⟨hr, hv⟩ := tableGet_some hget
    rw [blocksOf_flatten] at hr
    exact absurd hv (h r hr)

theorem locates_iff (x : History) (key : Key) :
    Locates (blocksOf x) key ↔
      ∀ snapshot, tableGet (blocksOf x) key snapshot = lookup (sortedRecs x) key snapshot := by
  rw [← tableGet_iff (blocksOf_ne_nil x) (blocksOf_sorted x), blocksOf_flatten]

theorem InSession.lastOp_split (h : InSession acked t) (key : Key) (snapshot : ℕ) :
    acked.lastOp key snapshot =
      ((t.active :: t.queue.map Prod.snd).findSome? fun x =>
        lookup (sortedRecs x) key snapshot).or
      (t.tables.findSome? fun x => lookup (sortedRecs x.2) key snapshot) := by
  rw [h.lastOp_eq]
  show ((t.active :: t.queue.map Prod.snd ++ t.tables.map Prod.snd).map sortedRecs).findSome? _ = _
  rw [List.findSome?_map, List.findSome?_append, List.findSome?_map]
  rfl

theorem InSession.around (h : InSession acked t) {A B : List (ℕ × History)} {x : ℕ × History}
    (ht : t.tables = A ++ x :: B) :
    (∀ y ∈ (t.active :: t.queue.map Prod.snd) ++ A.map Prod.snd, ∀ r' ∈ sortedRecs y,
      ∀ r ∈ sortedRecs x.2, r.seqno < r'.seqno) ∧
    ∀ y ∈ B, ∀ r ∈ sortedRecs x.2, ∀ r' ∈ sortedRecs y.2, r'.seqno < r.seqno := by
  have hsplit : t.sources.map sortedRecs =
      ((t.active :: t.queue.map Prod.snd) ++ A.map Prod.snd).map sortedRecs ++
        (sortedRecs x.2 :: (B.map Prod.snd).map sortedRecs) := by
    unfold Store.sources
    rw [ht]
    simp
  have hrecs := h.recs
  rw [hsplit, List.pairwise_append, List.pairwise_cons] at hrecs
  constructor
  · intro y hy
    exact hrecs.2.2 _ (List.mem_map_of_mem hy) _ List.mem_cons_self
  · intro y hy
    exact hrecs.2.1.1 _ (List.mem_map_of_mem (List.mem_map_of_mem hy))

theorem InSession.at_table (h : InSession acked t) (key : Key) {A B : List (ℕ × History)}
    {x : ℕ × History} (ht : t.tables = A ++ x :: B) {r : Rec} (hr : r ∈ sortedRecs x.2)
    {snapshot : ℕ} (hle : snapshot ≤ r.seqno) :
    t.probe key snapshot = (tableGet (blocksOf x.2) key snapshot).or
        (B.findSome? fun y => tableGet (blocksOf y.2) key snapshot) ∧
      acked.lastOp key snapshot = (lookup (sortedRecs x.2) key snapshot).or
        (B.findSome? fun y => lookup (sortedRecs y.2) key snapshot) := by
  -- no version in front of the table is visible
  have hfront : ∀ y ∈ (t.active :: t.queue.map Prod.snd) ++ A.map Prod.snd,
      ∀ r' ∈ sortedRecs y, ¬ r'.Visible key snapshot := by
    intro y hy r' hr' hv
    have hlt := (h.around ht).1 y hy r' hr' r hr
    exact absurd hv.2 (by omega)
  have hmems : ((t.active :: t.queue.map Prod.snd).findSome? fun y =>
      lookup (sortedRecs y) key snapshot) = none := by
    rw [List.findSome?_eq_none_iff]
    intro y hy
    exact lookup_none (hfront y (List.mem_append_left _ hy))
  have hgets : (A.findSome? fun y => tableGet (blocksOf y.2) key snapshot) = none := by
    rw [List.findSome?_eq_none_iff]
    intro y hy
    exact tableGet_none (hfront y.2 (List.mem_append_right _ (List.mem_map_of_mem hy)))
  have hlookups : (A.findSome? fun y => lookup (sortedRecs y.2) key snapshot) = none := by
    rw [List.findSome?_eq_none_iff]
    intro y hy
    exact lookup_none (hfront y.2 (List.mem_append_right _ (List.mem_map_of_mem hy)))
  rw [probe, h.lastOp_split, hmems, ht, List.findSome?_append, List.findSome?_append, hgets,
    hlookups, List.findSome?_cons, List.findSome?_cons]
  constructor
  · cases tableGet (blocksOf x.2) key snapshot <;> rfl
  · cases lookup (sortedRecs x.2) key snapshot <;> rfl

/-- Probing finds the last operation on a key at every snapshot if and only if the
lookup in every table finds the versions of the key. -/
theorem InSession.probe_iff (h : InSession acked t) (key : Key) :
    (∀ snapshot, t.probe key snapshot = acked.lastOp key snapshot) ↔
      ∀ x ∈ t.tables, Locates (blocksOf x.2) key := by
  constructor
  · intro hprobe x hx
    rw [locates_iff]
    intro snapshot
    obtain ⟨A, B, ht⟩ := List.append_of_mem hx
    cases hfirst : (sortedRecs x.2).find? fun r => decide (r.key = key) with
    | none =>
      have hno : ∀ r ∈ sortedRecs x.2, ¬ r.Visible key snapshot := by
        intro r hr hv
        exact List.find?_eq_none.mp hfirst r hr (decide_eq_true hv.1)
      rw [tableGet_none hno, lookup_none hno]
    | some r =>
      -- the newest version in the table stands for all snapshots above it
      have hr := List.mem_of_find?_eq_some hfirst
      have hsorted := sortedRecs_sorted x.2
      have hcut : ∀ y ∈ sortedRecs x.2, y.key = key →
          (y.seqno ≤ snapshot ↔ y.seqno ≤ min snapshot r.seqno) := by
        intro y hy hk
        have := seqno_le_first hsorted hfirst hy hk
        omega
      have hget : tableGet (blocksOf x.2) key snapshot =
          tableGet (blocksOf x.2) key (min snapshot r.seqno) := by
        refine tableGet_congr (blocksOf_ne_nil x.2) (blocksOf_sorted x.2) ?_
        rw [blocksOf_flatten]
        exact hcut
      have hlook : lookup (sortedRecs x.2) key snapshot =
          lookup (sortedRecs x.2) key (min snapshot r.seqno) := by
        refine List.find?_congr ?_
        intro y hy
        exact decide_eq_decide.mpr (and_congr_right fun hk => hcut y hy hk)
      rw [hget, hlook]
      obtain ⟨hp, hl⟩ := h.at_table key ht hr (min_le_right snapshot r.seqno)
      have heq := hprobe (min snapshot r.seqno)
      rw [hp, hl] at heq
      cases hget' : tableGet (blocksOf x.2) key (min snapshot r.seqno) with
      | some a =>
        obtain ⟨ha, hv⟩ := tableGet_some hget'
        rw [blocksOf_flatten] at ha
        cases hlook' : lookup (sortedRecs x.2) key (min snapshot r.seqno) with
        | some b =>
          rw [hget', hlook'] at heq
          exact heq
        | none => exact absurd (decide_eq_true hv) (List.find?_eq_none.mp hlook' a ha)
      | none =>
        cases hlook' : lookup (sortedRecs x.2) key (min snapshot r.seqno) with
        | none => rfl
        | some b =>
          -- a hit in an older table is older than `b`
          rw [hget', hlook', Option.none_or, Option.some_or] at heq
          obtain ⟨y, hy, hyget⟩ := List.exists_of_findSome?_eq_some heq
          obtain ⟨hby, -⟩ := tableGet_some hyget
          rw [blocksOf_flatten] at hby
          have hlt := (h.around ht).2 y hy b (lookup_some hlook').1 b hby
          exact absurd hlt (lt_irrefl _)
  · intro hlocates snapshot
    rw [probe, h.lastOp_split]
    congr 1
    refine findSome_congr ?_
    intro x hx
    exact (locates_iff x.2 key).mp (hlocates x hx) snapshot

end

end Store

/-! ### The engine in a session -/

/-- The lookup in every live table finds the versions of the key. -/
def TablesLocate (prims : Primitives) (state : EngineState) (key : Key) : Prop :=
  ∀ sst ∈ state.sstables, ∀ rs, sst.reader.scan prims = .ok rs →
    Locates (cutBlocks defaultBlockSize [] rs) key

/-- In no live table do the versions of the key lie in two blocks or on both sides of a
restart. -/
def TablesWhole (prims : Primitives) (state : EngineState) (key : Key) : Prop :=
  ∀ sst ∈ state.sstables, ∀ rs, sst.reader.scan prims = .ok rs →
    ¬ Split (cutBlocks defaultBlockSize [] rs) key

section

variable {prims : Primitives} {config : DbConfig} {db₀ db : Db} {w₀ : World} {s : Sys}

theorem inSession_moves {acked acked' : History} {t t' : Store} {a : Action}
    (hok : Calls s a) (h : t.InSession acked) (hmoves : Moves acked t a acked' t') :
    t'.InSession acked' := by
  cases hmoves with
  | committed hwal hworks => exact (h.commit _).works hworks
  | flushed hworks => exact h.works hworks
  | compacted hworks => exact h.works hworks
  | opened => cases hok
  | notOpened => cases hok
  | dropped => cases hok

theorem reach_inSession (hseal : SealWorks prims)
    (hopen : openWith prims config ⟨[], []⟩ = .ok db₀ w₀)
    (h : Reach (Sys.next prims) Calls ⟨w₀.log, some db₀, []⟩ s) (hdb : s.db = some db) :
    ∃ t, Simulates prims ⟨db, ⟨s.log, []⟩⟩ t ∧ t.InSession s.acked := by
  obtain ⟨t, hmodels, ht⟩ := reach_models (I := fun acked t => t.InSession acked) hseal
    (quiet_of_calls config.masterKey)
    (fun _ _ _ _ _ _ hok hI hmoves => inSession_moves hok hI hmoves) h (models_opened hopen rfl)
    Store.inSession_start
  exact ⟨t, (hmodels.opened db hdb).2, ht⟩

/-- In every state of a session that starts with an empty directory the sources,
in the order of the probe, hold strictly decreasing sequence numbers, and together
every operation of every commit once. -/
theorem session_sources_ordered (hseal : SealWorks prims)
    (hopen : openWith prims config ⟨[], []⟩ = .ok db₀ w₀)
    (h : Reach (Sys.next prims) Calls ⟨w₀.log, some db₀, []⟩ s) (hdb : s.db = some db) :
    ∃ tables, TablesHold prims db.state.sstables tables ∧
      (memtableRecs db.state ++ tables).Pairwise
        (fun l l' => ∀ r ∈ l, ∀ r' ∈ l', r'.seqno < r.seqno) ∧
      (memtableRecs db.state ++ tables).flatten.Perm (records s.acked) := by
  obtain ⟨t, hsim, ht⟩ := reach_inSession hseal hopen h hdb
  refine ⟨_, tablesHold_serving hsim.serving, ?_, ?_⟩
  · rw [sources_serving hsim.serving]
    exact ht.recs
  · rw [sources_serving hsim.serving]
    exact ht.perm

theorem tables_forall_iff {e : Env} {t : Store} (h : Simulates prims e t)
    (P : List (List Rec) → Prop) :
    (∀ sst ∈ e.db.state.sstables, ∀ rs, sst.reader.scan prims = .ok rs →
      P (cutBlocks defaultBlockSize [] rs)) ↔ ∀ x ∈ t.tables, P (blocksOf x.2) := by
  have hscan : ∀ (sst : LiveSst) (x : ℕ × History),
      (sst.id = x.1 ∧ Serves prims sst.reader (blocksOf x.2)) →
        sst.reader.scan prims = .ok (sortedRecs x.2) := by
    rintro sst x ⟨-, dataEnd, index, hreader⟩
    rw [scan_eq hreader, blocksOf_flatten]
  constructor
  · intro hloc x hx
    obtain ⟨sst, hsst, hsx⟩ := forall₂_exists_left h.tables hx
    exact hloc sst hsst _ (hscan sst x hsx)
  · intro hloc sst hsst rs hrs
    obtain ⟨x, hx, hsx⟩ := forall₂_exists_right h.tables hsst
    rw [hscan sst x hsx] at hrs
    cases hrs
    exact hloc x hx

theorem tablesLocate_iff {e : Env} {t : Store} (h : Simulates prims e t) (key : Key) :
    TablesLocate prims e.db.state key ↔ ∀ x ∈ t.tables, Locates (blocksOf x.2) key :=
  tables_forall_iff h fun blocks => Locates blocks key

theorem tablesLocate_of_whole {e : Env} {t : Store} (h : Simulates prims e t) {key : Key}
    (hwhole : TablesWhole prims e.db.state key) : TablesLocate prims e.db.state key := by
  rw [tablesLocate_iff h]
  intro x hx
  have hsplit := (tables_forall_iff h fun blocks => ¬ Split blocks key).mp hwhole x hx
  exact locates_of_not_split (blocksOf_ne_nil x.2) (blocksOf_sorted x.2) hsplit

/-- `get_at` in a session that starts with an empty directory: for a key whose
versions no table splits it returns the value of the last operation, at any snapshot;
exactly for the keys whose versions every table lookup finds does it come upon that
operation at all snapshots. -/
theorem getAt_refines_iff (hseal : SealWorks prims)
    (hopen : openWith prims config ⟨[], []⟩ = .ok db₀ w₀)
    (h : Reach (Sys.next prims) Calls ⟨w₀.log, some db₀, []⟩ s) (hdb : s.db = some db)
    (key : Key) :
    (TablesWhole prims db.state key → TablesLocate prims db.state key) ∧
    ((∀ snapshot, findRec prims db.state key snapshot = .ok (s.acked.lastOp key snapshot)) ↔
      TablesLocate prims db.state key) ∧
    (TablesLocate prims db.state key → ∀ snapshot,
      getAt prims db.state key snapshot = .ok (s.acked.valueAt key snapshot)) := by
  obtain ⟨t, hsim, ht⟩ := reach_inSession hseal hopen h hdb
  have hiff : (∀ snapshot, findRec prims db.state key snapshot =
      .ok (s.acked.lastOp key snapshot)) ↔ TablesLocate prims db.state key := by
    rw [show TablesLocate prims db.state key ↔ _ from tablesLocate_iff hsim key,
      ← ht.probe_iff key]
    refine forall_congr' ?_
    intro snapshot
    rw [show findRec prims db.state key snapshot = _ from findRec_serving hsim.serving key snapshot]
    exact ⟨Except.ok.inj, congrArg Except.ok⟩
  refine ⟨tablesLocate_of_whole hsim, hiff, ?_⟩
  intro hloc snapshot
  rw [getAt, hiff.mpr hloc snapshot]
  rfl

end

/-! ### Runs of a session -/

section Session

set_option maxRecDepth 100000

/-- `p` holds of a database opened on an empty directory. -/
def openedEmpty (prims : Primitives) (config : DbConfig) (p : Db → World → Bool) : Bool :=
  match openWith prims config ⟨[], []⟩ with
  | .ok db w => p db w
  | .error _ _ => false

theorem openedEmpty_ok {prims : Primitives} {config : DbConfig} {p : Db → World → Bool}
    (h : openedEmpty prims config p = true) :
    ∃ db w, openWith prims config ⟨[], []⟩ = .ok db w ∧ p db w = true := by
  unfold openedEmpty at h
  cases hopen : openWith prims config ⟨[], []⟩ with
  | ok db w =>
    rw [hopen] at h
    exact ⟨db, w, rfl, h⟩
  | error f w =>
    rw [hopen] at h
    cases h

theorem session_of_run {prims : Primitives} {config : DbConfig} {as : List Action} {p : Sys → Bool}
    (h : openedEmpty prims config (fun db w =>
      (runOk (Sys.next prims) (fun s a => decide (Calls s a)) ⟨w.log, some db, []⟩ as).map p =
        some true) = true) :
    ∃ db₀ w₀ s, openWith prims config ⟨[], []⟩ = .ok db₀ w₀ ∧
      Reach (Sys.next prims) Calls ⟨w₀.log, some db₀, []⟩ s ∧ p s = true := by
  obtain ⟨db₀, w₀, hopen, hrun⟩ := openedEmpty_ok h
  obtain ⟨s, hreach, hs⟩ := reach_of_runDecided (of_decide_eq_true hrun)
  exact ⟨db₀, w₀, s, hopen, hreach, hs⟩

/-- A threshold that every commit with bytes reaches. -/
def smallMemtables : DbConfig := { DbConfig.default with memtableThresholdBytes := 1 }

theorem session_sources_ordered_rotated : ∃ db₀ w₀ s db,
    openWith .blank smallMemtables ⟨[], []⟩ = .ok db₀ w₀ ∧
      Reach (Sys.next .blank) Calls ⟨w₀.log, some db₀, []⟩ s ∧ s.db = some db ∧
      s.acked = [(1, [.put [1] [2]]), (2, [.delete [1], .put [1] [3]])] ∧
      ∃ tables, TablesHold .blank db.state.sstables tables ∧
        (memtableRecs db.state ++ tables).Pairwise
          (fun l l' => ∀ r ∈ l, ∀ r' ∈ l', r'.seqno < r.seqno) ∧
        (memtableRecs db.state ++ tables).flatten.Perm (records s.acked) := by
  obtain ⟨db₀, w₀, s, hopen, hreach, hs⟩ := @session_of_run .blank smallMemtables
    [.call (.commit [.put [1] [2]]) [], .call (.commit [.delete [1], .put [1] [3]]) []]
    (fun s => decide (s.db.isSome = true ∧
      s.acked = [(1, [.put [1] [2]]), (2, [.delete [1], .put [1] [3]])])) (by decide +kernel)
  obtain ⟨hsome, hacked⟩ := of_decide_eq_true hs
  obtain ⟨db, hdb⟩ := Option.isSome_iff_exists.mp hsome
  exact ⟨db₀, w₀, s, db, hopen, hreach, hdb, hacked,
    session_sources_ordered sealWorks_blank hopen hreach hdb⟩

theorem getAt_refines_iff_flushed : ∃ db₀ w₀ s db,
    openWith .blank .default ⟨[], []⟩ = .ok db₀ w₀ ∧
      Reach (Sys.next .blank) Calls ⟨w₀.log, some db₀, []⟩ s ∧ s.db = some db ∧
      db.state.sstables.length = 1 ∧
      (TablesWhole .blank db.state [1] → TablesLocate .blank db.state [1]) ∧
      ((∀ snapshot, findRec .blank db.state [1] snapshot = .ok (s.acked.lastOp [1] snapshot)) ↔
        TablesLocate .blank db.state [1]) ∧
      (TablesLocate .blank db.state [1] → ∀ snapshot,
        getAt .blank db.state [1] snapshot = .ok (s.acked.valueAt [1] snapshot)) := by
  obtain ⟨db₀, w₀, s, hopen, hreach, hs⟩ := @session_of_run .blank .default
    [.call (.commit [.put [1] [2]]) [], .call .flush [], .call (.commit [.delete [1]]) []]
    (fun s => decide ((s.db.map fun db => db.state.sstables.length) = some 1)) (by decide +kernel)
  obtain ⟨db, hdb, hone⟩ := Option.map_eq_some_iff.mp (of_decide_eq_true hs)
  exact ⟨db₀, w₀, s, db, hopen, hreach, hdb, hone,
    getAt_refines_iff sealWorks_blank hopen hreach hdb [1]⟩

/-- Seventeen operations on one key: the last of them opens the second restart. -/
def seventeenPuts : WriteBatch := (List.range 17).map fun i => .put [1] [Fin.ofNat 256 i]

-- the seek stops at the second restart, which is the oldest of the seventeen versions
theorem get_finds_oldest : ∃ s db,
    run (Sys.next .blank) Sys.start
      [.openDb .default [], .call (.commit seventeenPuts) [], .call .flush []] = some s ∧
      s.db = some db ∧ s.acked = [(1, seventeenPuts)] ∧
      getAt .blank db.state [1] 1 = .ok (some [0]) ∧ s.acked.valueAt [1] 1 = some [16] := by
  have hrun : (run (Sys.next .blank) Sys.start
      [.openDb .default [], .call (.commit seventeenPuts) [], .call .flush []]).map (fun s =>
        decide (s.acked = [(1, seventeenPuts)] ∧
          (s.db.map fun db => getAt .blank db.state [1] 1) = some (.ok (some [0])))) =
      some true := by
    decide +kernel
  obtain ⟨s, hs, heq⟩ := Option.map_eq_some_iff.mp hrun
  obtain ⟨hacked, hget⟩ := of_decide_eq_true heq
  obtain ⟨db, hdb, hget⟩ := Option.map_eq_some_iff.mp hget
  refine ⟨s, db, hs, hdb, hacked, hget, ?_⟩
  rw [hacked]
  decide

end Session

end PaddockKV.Engine
