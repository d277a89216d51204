import PaddockKV.Engine.Refinement

/-!
# Repeatable scans

A scan at a snapshot is decided by the commits up to it. Later commits have higher
numbers, and flushes, compactions and reopening only move records, so a scan that is
made again returns the same records, however much has happened in between.
-/

namespace PaddockKV

open Wal Newest

namespace History

theorem lastOp_append {h more : History} {n : ℕ} (hmore : ∀ c ∈ more, c.2 ≠ [] → n < c.1)
    (key : Key) : lastOp (h ++ more) key n = lastOp h key n := by
  have hnone : records (upTo more n) = [] := by
    rw [records_upTo, List.filter_eq_nil_iff]
    intro r hr
    obtain ⟨c, hc, op, hop, rfl⟩ := mem_records.mp hr
    have hlt := hmore c hc (List.ne_nil_of_mem hop)
    rw [toRec_seqno]
    simpa using hlt
  have hsplit : upTo (h ++ more) n = upTo h n ++ upTo more n := List.filter_append ..
  rw [lastOp, hsplit, records_append, hnone, List.append_nil]
  rfl

end History

namespace Engine

open Io Crypto History Transition

theorem IsScan.unique {view : Key → Option Rec} {start stop : Bound} {out out' : List RangeRecord}
    (h : IsScan view start stop out) (h' : IsScan view start stop out') : out = out' := by
  have hanti : ∀ a b : RangeRecord, a.key < b.key → ¬ b.key < a.key := fun a b hab => hab.not_gt
  refine List.Perm.eq_of_pairwise (fun a b _ _ hab hba => absurd hba (hanti a b hab))
    h.ascending h'.ascending ?_
  have hnodup : ∀ l : List RangeRecord, (l.Pairwise fun a b => a.key < b.key) → l.Nodup := by
    intro l hl
    refine hl.imp ?_
    intro a b hab heq
    rw [heq] at hab
    exact absurd hab (lt_irrefl _)
  rw [List.perm_ext_iff_of_nodup (hnodup out h.ascending) (hnodup out' h'.ascending)]
  intro x
  rw [h.mem, h'.mem]

section

variable {prims : Primitives} {key : Option Bytes} {s s' : Sys}

theorem acked_prefix {ok : Sys → Action → Prop} (h : Reach (Sys.next prims) ok s s') :
    s.acked <+: s'.acked := by
  refine h.invariant (I := fun x => s.acked <+: x.acked) (List.prefix_refl _) ?_
  intro x a x' hx _ hn
  rcases acked_next hn with hacked | ⟨batch, faults, q, -, hacked⟩
  · rw [hacked]
    exact hx
  · rw [hacked]
    exact hx.trans (List.prefix_append _ _)

theorem acked_above {t : Store} {more : History} {c d : ℕ × WriteBatch}
    (hkept : t.Kept (s.acked ++ more)) (hc : c ∈ s.acked) (hne : c.2 ≠ []) (hd : d ∈ more)
    (hne' : d.2 ≠ []) : c.1 < d.1 :=
  (List.pairwise_append.mp hkept.ascending).2.2 c hc d hd hne hne'

/-- Scans are repeatable: a scan at a snapshot that some acknowledged commit with
operations has reached returns the same records in every later session, after any
further commits, flushes, compactions and reopenings; and as long as nothing more is
committed this holds of every snapshot. -/
theorem scans_repeat (hseal : SealWorks prims)
    (h : Reach (Sys.next prims) (Quiet key) Sys.start s)
    (h' : Reach (Sys.next prims) (Quiet key) s s') {db db' : Db} (hdb : s.db = some db)
    (hdb' : s'.db = some db') {n : ℕ}
    (hn : (∃ c ∈ s.acked, c.2 ≠ [] ∧ n ≤ c.1) ∨ s'.acked = s.acked) (start stop : Bound) :
    ∃ out, rangeBounds prims db.state start stop n = .ok out ∧
      rangeBounds prims db'.state start stop n = .ok out := by
  obtain ⟨t, hmodels, hkept⟩ := reach_kept hseal h
  obtain ⟨t', hmodels', hkept'⟩ := reach_kept hseal (h.trans h')
  obtain ⟨out, hout, hscan⟩ :=
    showsExactly_of_kept (hmodels.opened db hdb).2.serving hkept start stop n
  obtain ⟨out', hout', hscan'⟩ :=
    showsExactly_of_kept (hmodels'.opened db' hdb').2.serving hkept' start stop n
  obtain ⟨more, hmore⟩ := acked_prefix h'
  rw [← hmore] at hkept'
  have habove : ∀ d ∈ more, d.2 ≠ [] → n < d.1 := by
    intro d hd hne'
    rcases hn with ⟨c, hc, hne, hle⟩ | hsame
    · exact lt_of_le_of_lt hle (acked_above hkept' hc hne hd hne')
    · rw [← hmore, List.append_right_eq_self] at hsame
      rw [hsame] at hd
      cases hd
  -- both scans are scans of one view
  have hview : (fun k => s'.acked.lastOp k n) = fun k => s.acked.lastOp k n := by
    rw [← hmore]
    exact funext (lastOp_append habove)
  rw [hview] at hscan'
  rw [hscan'.unique hscan] at hout'
  exact ⟨out, hout, hout'⟩

end

/-- A scan before and after an overwrite and a restart. -/
theorem scans_repeat_reopened : ∃ s s' db db',
    Reach (Sys.next .blank) (Quiet none) Sys.start s ∧
    Reach (Sys.next .blank) (Quiet none) s s' ∧ s.db = some db ∧ s'.db = some db' ∧
    s.acked = [(1, [.put [1] [2]])] ∧
    s'.acked = [(1, [.put [1] [2]]), (2, [.put [1] [5], .put [3] [4]])] ∧
    ∃ out, rangeBounds .blank db.state .unbounded .unbounded 1 = .ok out ∧
      rangeBounds .blank db'.state .unbounded .unbounded 1 = .ok out := by
  obtain ⟨s, hreach, hs⟩ := reach_of_runDecided
    (show (runOk (Sys.next .blank) (fun s a => decide (Quiet none s a)) Sys.start
      [.openDb .default [], .call (.commit [.put [1] [2]]) []]).map
      (fun s => decide (s.db.isSome = true ∧ s.acked = [(1, [.put [1] [2]])] ∧
        (runOk (Sys.next .blank) (fun s a => decide (Quiet none s a)) s
          [.call (.commit [.put [1] [5], .put [3] [4]]) [], .drop,
            .openDb .default []]).map
          (fun s' => decide (s'.db.isSome = true ∧
            s'.acked = [(1, [.put [1] [2]]), (2, [.put [1] [5], .put [3] [4]])])) = some true)) =
      some true by decide +kernel)
  obtain ⟨hopen, hacked, hmore⟩ := of_decide_eq_true hs
  obtain ⟨s', hreach', hs'⟩ := reach_of_runDecided hmore
  obtain ⟨hopen', hacked'⟩ := of_decide_eq_true hs'
  obtain ⟨db, hdb⟩ := Option.isSome_iff_exists.mp hopen
  obtain ⟨db', hdb'⟩ := Option.isSome_iff_exists.mp hopen'
  have hn : ∃ c ∈ s.acked, c.2 ≠ [] ∧ 1 ≤ c.1 := by
    rw [hacked]
    exact ⟨_, List.mem_cons_self, by decide, le_rfl⟩
  exact ⟨s, s', db, db', hreach, hreach', hdb, hdb', hacked, hacked',
    scans_repeat sealWorks_blank hreach hreach' hdb hdb' (.inl hn) _ _⟩

end Engine

end PaddockKV
