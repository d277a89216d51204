import PaddockKV.Engine.FailedWrites

/-!
# What a `get` can be relied on for

A `get` probes source after source and may come upon an older version of its key. It
comes upon some version whenever there is one: the index of a table names a block with
the key, though perhaps not the first.
-/

namespace PaddockKV

open Wal Compaction

namespace Sstable

theorem namedBlock_hasKey {blocks : List (List Rec)} (hne : ∀ b ∈ blocks, b ≠ [])
    (hs : SortedRecs blocks.flatten) {r : Rec} (hr : r ∈ blocks.flatten) :
    ∃ x ∈ namedBlock blocks r.key, x.key = r.key := by
  have hks := lastKeys_sorted hne hs
  unfold namedBlock landing
  by_cases hstop : (blocks.map (lastKeyOf [])).findIdx (fun k => decide (r.key ≤ k)) <
      restartInterval * stopRestart (blocks.map (lastKeyOf [])) r.key
  · -- the search stopped at a block that ends with the key
    have hat := key_at_stop hks hstop
    rw [max_eq_left hstop.le]
    obtain ⟨b, hb, hbk⟩ := Option.map_eq_some_iff.mp (List.getElem?_map ▸ hat)
    rw [List.getD_eq_getElem?_getD, hb, Option.getD_some]
    obtain ⟨x, hx, hxk⟩ := lastKeyOf_mem (hne b (List.mem_of_getElem? hb))
    exact ⟨x, hx, hxk.trans hbk⟩
  · rw [max_eq_right (not_lt.mp hstop)]
    obtain ⟨b, hb, hrb⟩ := List.mem_flatten.mp hr
    obtain ⟨j, hj, rfl⟩ := List.getElem_of_mem hb
    obtain ⟨hsorted, hcross⟩ := List.pairwise_flatten.mp hs
    have hjlen : j < (blocks.map (lastKeyOf [])).length := by simpa using hj
    have hle := (findIdx_le_iff hks (le_of_le_key r.key) hjlen).mpr (by
      rw [List.getElem_map]
      exact decide_eq_true (key_le_lastKeyOf (hsorted _ hb) hrb))
    generalize hfirst : (blocks.map (lastKeyOf [])).findIdx (fun k => decide (r.key ≤ k)) = i at *
    have hi : i < blocks.length := hle.trans_lt hj
    have hilen : i < (blocks.map (lastKeyOf [])).length := by simpa using hi
    have hge := (findIdx_le_iff hks (le_of_le_key r.key) hilen).mp hfirst.le
    rw [List.getElem_map, decide_eq_true_eq] at hge
    rw [List.getD_eq_getElem?_getD, List.getElem?_eq_getElem hi, Option.getD_some]
    rcases hle.eq_or_lt with rfl | hlt
    · exact ⟨r, hrb, rfl⟩
    · -- an earlier block that ends at or above the key ends with it
      obtain ⟨x, hx, hxk⟩ := lastKeyOf_mem (hne _ (List.getElem_mem hi))
      have hrel := List.pairwise_iff_getElem.mp hcross i j hi hj hlt x hx r hrb
      refine ⟨x, hx, le_antisymm ?_ (hxk ▸ hge)⟩
      rcases Rec.not_before_iff.mp hrel with hlt | ⟨heq, -⟩
      · exact hlt.le
      · exact heq.le

end Sstable

namespace Engine

open Sstable Crypto History Transition

section

variable {prims : Primitives} {t : Store} {acked : History} {snapshot : ℕ}

theorem Store.probe_visible {key : Key} {r : Rec} (h : t.probe key snapshot = some r) :
    r.Visible key snapshot := by
  rcases Option.or_eq_some_iff.mp h with hmem | ⟨-, htable⟩
  · obtain ⟨hist, -, hr⟩ := List.exists_of_findSome?_eq_some hmem
    unfold lookup at hr
    have hv := List.find?_some hr
    exact of_decide_eq_true hv
  · obtain ⟨x, -, hr⟩ := List.exists_of_findSome?_eq_some htable
    exact (tableGet_some hr).2

theorem Store.probe_isSome (hle : ∀ r ∈ records t.history, r.seqno ≤ snapshot) {r : Rec}
    (hr : r ∈ records t.history) : t.probe r.key snapshot ≠ none := by
  intro hnone
  obtain ⟨hmems, htables⟩ := Option.or_eq_none_iff.mp hnone
  rw [List.findSome?_eq_none_iff] at hmems htables
  obtain ⟨c, hc, op, hop, heq⟩ := mem_records.mp hr
  rcases Store.mem_history.mp hc with ⟨x, hx, hcx⟩ | ⟨y, hy, hcy⟩
  · have hmem : r ∈ (blocksOf x.2).flatten := by
      rw [blocksOf_flatten]
      exact mem_sortedRecs.mpr (mem_records.mpr ⟨c, hcx, op, hop, heq⟩)
    obtain ⟨y, hy, hyk⟩ := namedBlock_hasKey (blocksOf_ne_nil x.2) (blocksOf_sorted x.2) hmem
    have hsub := namedBlock_sublist (blocksOf x.2) r.key
    have hyle : y.seqno ≤ snapshot := by
      have hy' := hsub.subset hy
      rw [blocksOf_flatten] at hy'
      obtain ⟨d, hd, op', hop', rfl⟩ := mem_records.mp (mem_sortedRecs.mp hy')
      exact hle _ (mem_records.mpr ⟨d, Store.mem_history.mpr (.inl ⟨x, hx, hd⟩), op', hop', rfl⟩)
    obtain ⟨z, hz⟩ := blockGet_isSome ((blocksOf_sorted x.2).sublist hsub) hy ⟨hyk, hyle⟩
    rw [← tableGet_eq_named (blocksOf_ne_nil x.2) (blocksOf_sorted x.2)] at hz
    rw [htables x hx] at hz
    cases hz
  · have hsource : y.2 ∈ t.active :: t.queue.map Prod.snd := by
      rcases List.mem_cons.mp hy with rfl | hy
      · exact List.mem_cons_self
      · exact List.mem_cons_of_mem _ (List.mem_map_of_mem hy)
    have hno := List.find?_eq_none.mp (hmems y.2 hsource) r
      (mem_sortedRecs.mpr (mem_records.mpr ⟨c, hcy, op, hop, heq⟩))
    exact hno (decide_eq_true ⟨rfl, hle r hr⟩)

/-- The value is one that was put under the key, and there is none only if the key was
deleted at some time or never put. -/
structure Plausible (acked : History) (key : Key) (hit : Option Value) : Prop where
  found : ∀ v, hit = some v → ∃ c ∈ acked, Op.put key v ∈ c.2
  missed : hit = none → (∃ c ∈ acked, Op.delete key ∈ c.2) ∨ ∀ c ∈ acked, ∀ v, Op.put key v ∉ c.2

theorem plausible_hit {key : Key} {r : Rec} (hr : r ∈ records acked) (hk : r.key = key) :
    Plausible acked key (hitValue r) := by
  obtain ⟨c, hc, op, hop, rfl⟩ := mem_records.mp hr
  cases op with
  | put k v =>
    cases (show k = key from hk)
    constructor
    · intro v' hv
      cases hv
      exact ⟨c, hc, hop⟩
    · intro hnone
      cases hnone
  | delete k =>
    cases (show k = key from hk)
    constructor
    · intro v' hv
      cases hv
    · intro _
      exact .inl ⟨c, hc, hop⟩

theorem get_plausible {db : Db} (hserving : Serving prims db.state t) (hkept : t.Kept acked)
    (hseqno : db.seqno = t.seqno) (key : Key) :
    ∃ hit, db.get prims key = .ok hit ∧ Plausible acked key hit := by
  rw [Db.get, getAt, findRec_serving hserving, res_ok_bind]
  refine ⟨_, rfl, ?_⟩
  have hle : ∀ r ∈ records t.history, r.seqno ≤ db.seqno := by
    intro r hr
    obtain ⟨c, hc, op, hop, rfl⟩ := mem_records.mp (hkept.records_history hr)
    rw [toRec_seqno, hseqno]
    exact hkept.le_seqno c hc (List.ne_nil_of_mem hop)
  cases hprobe : t.probe key db.seqno with
  | some r =>
    exact plausible_hit (hkept.records_history (Store.probe_mem hprobe))
      (Store.probe_visible hprobe).1
  | none =>
    constructor
    · intro v hv
      cases hv
    · intro _
      right
      intro c hc v hput
      have hmem : (Op.put key v).toRec c.1 ∈ records t.history :=
        mem_records.mpr ⟨c, (hkept.same c (List.ne_nil_of_mem hput)).mpr hc, _, hput, rfl⟩
      exact Store.probe_isSome hle hmem hprobe

end

section

variable {prims : Primitives} {mkey : Option Bytes} {s : Sys} {db : Db}

/-- In runs without failing file operations a `get` returns, in every session and after
any flushes and compactions: a value that some commit put under this very key, or nothing
if no commit ever put the key or one deleted it. -/
theorem get_written (hseal : SealWorks prims)
    (h : Reach (Sys.next prims) (Quiet mkey) Sys.start s) (hdb : s.db = some db) (key : Key) :
    ∃ hit, db.get prims key = .ok hit ∧ Plausible s.acked key hit := by
  obtain ⟨t, hmodels, hkept⟩ := reach_kept hseal h
  have hsim := (hmodels.opened db hdb).2
  exact get_plausible hsim.serving hkept hsim.seqno key

end

theorem get_written_reopened : ∃ s db,
    Reach (Sys.next .blank) (Quiet none) Sys.start s ∧ s.db = some db ∧
      s.acked = [(1, [.put [1] [2]]), (2, [.put [1] [5], .delete [3]])] ∧
      ∀ key, ∃ hit, db.get .blank key = .ok hit ∧ Plausible s.acked key hit := by
  obtain ⟨s, hreach, hs⟩ := reach_of_runDecided
    (show (runOk (Sys.next .blank) (fun s a => decide (Quiet none s a)) Sys.start
      [.openDb .default [], .call (.commit [.put [1] [2]]) [], .drop, .openDb .default [],
        .call (.commit [.put [1] [5], .delete [3]]) []]).map
      (fun s => decide (s.db.isSome = true ∧
        s.acked = [(1, [.put [1] [2]]), (2, [.put [1] [5], .delete [3]])])) = some true by
      decide +kernel)
  obtain ⟨hopen, hacked⟩ := of_decide_eq_true hs
  obtain ⟨db, hdb⟩ := Option.isSome_iff_exists.mp hopen
  exact ⟨s, db, hreach, hdb, hacked, get_written sealWorks_blank hreach hdb⟩

end Engine

end PaddockKV
