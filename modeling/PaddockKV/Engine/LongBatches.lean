import PaddockKV.Engine.Reopened
import PaddockKV.Wal.Wire

/-!
# Batches that are logged and not replayed

`commit_batch` logs any batch whose counts and lengths fit in 32 bits; the decoder
accepts at most `MAX_OPS_PER_BATCH` operations. One longer batch in the log and the
database does not open again. A batch within the limit is there after a reopen.
-/

namespace PaddockKV.Engine

open Io Wal Memtable Crypto History Transition

section

variable {prims : Primitives} {config : DbConfig} {s s₁ : Sys} {db : Db} {t t' : Store}
  {mkey : Option Bytes} {batch : WriteBatch} {acked : History}

/-! ### The commit in the log -/

theorem Store.wals_commit (hwal : ∃ h, (t.walId, h) ∈ t.wals)
    (ht' : t' = t.commit batch ∨ t' = (t.commit batch).rotate) :
    ((∀ x ∈ t'.wals, Replayable x.2) ↔
      (∀ x ∈ t.wals, Replayable x.2) ∧ batch.length ≤ maxOpsPerBatch) ∧
    ∃ x ∈ t'.wals, (t.seqno + 1, batch) ∈ x.2 := by
  obtain ⟨h, hmem⟩ := hwal
  have hwals : ∀ P : ℕ × History → Prop, P (t.next, []) →
      ((∀ x ∈ t'.wals, P x) ↔ ∀ x ∈ (t.commit batch).wals, P x) := by
    intro P hP
    rcases ht' with rfl | rfl
    · exact Iff.rfl
    · show (∀ x ∈ (t.commit batch).wals ++ [(t.next, [])], P x) ↔ _
      simp only [List.forall_mem_append, List.forall_mem_singleton, hP, and_true]
  have hin : (t.walId, h ++ [(t.seqno + 1, batch)]) ∈ (t.commit batch).wals :=
    mem_update_self (· ++ [(t.seqno + 1, batch)]) hmem
  constructor
  · rw [hwals (fun x => Replayable x.2) (by intro c hc; cases hc)]
    constructor
    · intro hall
      constructor
      · intro x hx c hc
        refine hall _ (List.mem_map_of_mem hx) c ?_
        split
        · exact List.mem_append_left _ hc
        · exact hc
      · exact hall _ hin (t.seqno + 1, batch) (by simp)
    · rintro ⟨hall, hsmall⟩ x hx c hc
      obtain ⟨y, hy, rfl⟩ := List.mem_map.mp hx
      split at hc
      · rcases List.mem_append.mp hc with hc | hc
        · exact hall y hy c hc
        · rw [List.mem_singleton.mp hc]
          exact hsmall
      · exact hall y hy c hc
  · refine ⟨(t.walId, h ++ [(t.seqno + 1, batch)]), ?_, List.mem_append_right h (by simp)⟩
    rcases ht' with rfl | rfl
    · exact hin
    · exact List.mem_append_left _ hin

theorem Store.Layered.committed (h : t.Layered acked) (hwal : ∃ h, (t.walId, h) ∈ t.wals)
    (ht' : t' = t.commit batch ∨ t' = (t.commit batch).rotate) :
    t'.Layered (acked ++ [(t.seqno + 1, batch)]) ∧ t'.seqno = t.seqno + 1 := by
  rcases ht' with rfl | rfl
  · exact ⟨h.commit batch hwal, rfl⟩
  · exact ⟨(h.commit batch hwal).rotate, rfl⟩

theorem lastOp_singleton {q n : ℕ} (hq : q ≤ n) (key : Key) :
    lastOp [(q, batch)] key n = newestRec (records [(q, batch)]).reverse key n ∧
      lastOp [(q, batch)] key n = lastOp [(q, batch)] key q := by
  refine ⟨lastOp_eq (List.pairwise_singleton _ _) key n, ?_⟩
  have hup : ∀ m, q ≤ m → upTo [(q, batch)] m = [(q, batch)] := by
    intro m hm
    exact List.filter_eq_self.mpr fun x hx => by
      rw [List.mem_singleton.mp hx]
      exact decide_eq_true hm
  unfold lastOp
  rw [hup n hq, hup q le_rfl]

theorem Store.Kept.newest_replayed (h : t.Kept acked) {x : ℕ × History} (hx : x ∈ t.wals)
    (hmem : (t.seqno, batch) ∈ x.2) {op : Op} (hop : op ∈ batch) :
    t.reopen.probe op.key t.reopen.seqno = lastOp [(t.seqno, batch)] op.key t.seqno := by
  have hne : batch ≠ [] := List.ne_nil_of_mem hop
  have hacked : (t.seqno, batch) ∈ acked := h.wals x hx _ hmem hne
  have hq : t.seqno ≤ t.reopen.seqno := h.reopen.le_seqno _ hacked hne
  obtain ⟨hnewest, hlast⟩ := @lastOp_singleton batch _ _ hq op.key
  have hlog : (t.seqno, batch) ∈ t.reopen.active := Store.mem_flatten_snd.mpr ⟨x, hx, hmem⟩
  have hkey : (op.toRec t.seqno).key = op.key := by cases op <;> rfl
  have hvis : (op.toRec t.seqno).Visible op.key t.reopen.seqno :=
    ⟨hkey, by rw [toRec_seqno]; exact hq⟩
  -- both views find a record of the newest commit
  have hsome : ∀ l : List Rec, op.toRec t.seqno ∈ l →
      ∃ r, newestRec l op.key t.reopen.seqno = some r := by
    intro l hl
    cases hr : newestRec l op.key t.reopen.seqno with
    | none => exact absurd hvis (Newest.newest_eq_none_iff.mp hr _ hl)
    | some r => exact ⟨r, rfl⟩
  have hrec : op.toRec t.seqno ∈ (records [(t.seqno, batch)]).reverse :=
    List.mem_reverse.mpr (mem_records.mpr ⟨_, List.mem_singleton_self _, op, hop, rfl⟩)
  have hrec' : op.toRec t.seqno ∈ (records t.reopen.active).reverse :=
    List.mem_reverse.mpr (mem_records.mpr ⟨_, hlog, op, hop, rfl⟩)
  obtain ⟨r, hr⟩ := hsome _ hrec
  obtain ⟨r', hr'⟩ := hsome _ hrec'
  have hseq : r.seqno = t.seqno := by
    obtain ⟨c, hc, op', -, hrc⟩ := mem_records.mp (List.mem_reverse.mp (Newest.newest_mem hr).1)
    rw [hrc, toRec_seqno, List.mem_singleton.mp hc]
  have hseq' : r'.seqno = t.seqno := by
    have hle := Newest.le_newest hr' hrec' hvis
    rw [toRec_seqno] at hle
    obtain ⟨c, hc, op', hop', hrc⟩ := mem_records.mp (List.mem_reverse.mp (Newest.newest_mem hr').1)
    have hcne := List.ne_nil_of_mem hop'
    have hup := h.le_seqno c (h.mem_acked c hc hcne) hcne
    rw [hrc, toRec_seqno] at hle ⊢
    omega
  have hsub : ∀ c ∈ [(t.seqno, batch)], c.2 ≠ [] → c ∈ acked := by
    intro c hc _
    rw [List.mem_singleton.mp hc]
    exact hacked
  have heq : r' = r :=
    newestRec_same h.apart h.mem_acked hsub hr' hr (hseq'.trans hseq.symm)
  rw [← hlast, hnewest, hr]
  show ([t.reopen.active].findSome? _).or _ = _
  rw [List.findSome?_singleton, lookup_eq_newestRec (sortedRecs_sorted _), sortedRecs,
    newestRec_isort, hr', heq]
  rfl

/-- A commit that returned, in any run without failures, and then a reopen. The
database opens if and only if it would have before and the batch is within the
decoder's limit, unless it is out of numbers. Then the memtable has all operations of
the batch, and a read of one of its keys comes upon the last of them on that key. -/
theorem commit_replayed_iff (hseal : SealWorks prims)
    (h : Reach (Sys.next prims) (Quiet mkey) Sys.start s) (hdb : s.db = some db)
    (hkey : config.masterKey = mkey) (hcommit : s.next prims (.call (.commit batch) []) = some s₁) :
    (SegmentsReplay (diskOf s.log) → batch.length ≤ maxOpsPerBatch →
      run (Sys.next prims) s₁ [.drop, .openDb config []] = none → OutOfNumbers prims config s₁) ∧
    ∀ s', run (Sys.next prims) s₁ [.drop, .openDb config []] = some s' →
      (s'.db.isSome = true ↔ SegmentsReplay (diskOf s.log) ∧ batch.length ≤ maxOpsPerBatch) ∧
      ∀ db', s'.db = some db' → ∀ op ∈ batch,
        op.toRec (db.seqno + 1) ∈ db'.state.activeMemtable.recs ∧
          findRec prims db'.state op.key db'.seqno =
            .ok (lastOp [(db.seqno + 1, batch)] op.key (db.seqno + 1)) := by
  obtain ⟨t, hmodels, hlay⟩ := reach_layered hseal h
  obtain ⟨hconfig, hsim⟩ := hmodels.opened db hdb
  have hdir : Directory prims db.config (diskOf s.log) t := hsim.dir
  have hwal : ∃ h, (t.walId, h) ∈ t.wals := by
    obtain ⟨-, -, hist, -, hmem, -⟩ := hsim.writer
    exact ⟨hist, hmem⟩
  have hseq : db.seqno = t.seqno := hsim.seqno
  cases step_of_next hcommit with
  | @failed _ _ db₁ err e hdb₁ hrun =>
    cases hdb.symm.trans hdb₁
    obtain ⟨msg, hmsg⟩ := (commitBatch_rotates batch hsim).of_error hrun
    cases hmsg
  | @returned _ _ db₁ u e hdb₁ hrun =>
    cases hdb.symm.trans hdb₁
    obtain ⟨t', hsim', ht'⟩ := (commitBatch_rotates batch hsim).of_ok hrun
    have hconfig' : e.db.config = db.config := (keepsConfig_commitBatch batch _ rfl).of_ok hrun
    obtain ⟨hlay', hseq'⟩ := hlay.committed hwal ht'
    obtain ⟨hreplay, x, hx, hmem⟩ := Store.wals_commit hwal ht'
    rw [← hseq'] at hmem
    have hdir' : Directory prims config (diskOf e.world.log) t' :=
      hsim'.dir.config (hkey.trans (by rw [hconfig', hconfig]))
    rw [segmentsReplay_iff hdir, ← hreplay, ← and_imp, ← hreplay]
    refine ⟨fun hsmall hnone => outOfNumbers_of_reopen hdir' hsmall rfl hnone, ?_⟩
    intro s' hn
    obtain ⟨s₂, hdrop, hn⟩ := Option.bind_eq_some_iff.mp hn
    obtain ⟨s₃, hopen, hnil⟩ := Option.bind_eq_some_iff.mp hn
    cases hnil
    cases step_of_next hdrop with
    | dropped =>
      cases step_of_next hopen with
      | @opened _ _ db' w _ hopened =>
        obtain ⟨-, hsim₂, hsmall⟩ :=
          (openWith_simulates (w := ⟨e.world.log, []⟩) hdir' rfl).of_ok hopened
        refine ⟨iff_of_true rfl hsmall, ?_⟩
        rintro _ ⟨⟩ op hop
        rw [hseq, ← hseq']
        constructor
        · rw [show db'.state.activeMemtable.recs = _ from hsim₂.active, mem_sortedRecs]
          exact mem_records.mpr ⟨_, Store.mem_flatten_snd.mpr ⟨x, hx, hmem⟩, op, hop, rfl⟩
        · rw [show db'.seqno = _ from hsim₂.seqno,
            show findRec prims db'.state op.key _ = _ from findRec_serving hsim₂.serving op.key _,
            hlay'.kept.newest_replayed hx hmem hop]
      | @notOpened _ _ err w _ hfailed =>
        rcases (openWith_simulates (w := ⟨e.world.log, []⟩) hdir' rfl).of_error hfailed with
          ⟨⟨msg, hmsg⟩, -⟩ | ⟨-, y, hy, hlong⟩
        · cases hmsg
        · refine ⟨iff_of_false Bool.false_ne_true fun hall => hlong (hall y hy), ?_⟩
          rintro db' ⟨⟩

end

theorem commit_replayed_iff_first : ∃ s s₁ s' db,
    Reach (Sys.next .blank) (Quiet none) Sys.start s ∧ s.db = some db ∧
      s.next .blank (.call (.commit [.put [1] [2], .delete [3]]) []) = some s₁ ∧
      run (Sys.next .blank) s₁ [.drop, .openDb .default []] = some s' ∧
      (s'.db.isSome = true ↔ SegmentsReplay (diskOf s.log) ∧
        [Op.put [1] [2], .delete [3]].length ≤ maxOpsPerBatch) ∧
      ∀ db', s'.db = some db' → ∀ op ∈ [Op.put [1] [2], .delete [3]],
        op.toRec (db.seqno + 1) ∈ db'.state.activeMemtable.recs ∧
          findRec .blank db'.state op.key db'.seqno =
            .ok (lastOp [(db.seqno + 1, [Op.put [1] [2], .delete [3]])] op.key (db.seqno + 1)) := by
  obtain ⟨s, hreach, hs⟩ := reach_of_runDecided
    (show (runOk (Sys.next .blank) (fun s a => decide (Quiet none s a)) Sys.start
      [.openDb .default []]).map (fun s => decide (s.db.isSome = true ∧
        (run (Sys.next .blank) s [.call (.commit [.put [1] [2], .delete [3]]) [], .drop,
          .openDb .default []]).isSome = true)) = some true by
      decide +kernel)
  obtain ⟨hopen, hagain⟩ := of_decide_eq_true hs
  obtain ⟨db, hdb⟩ := Option.isSome_iff_exists.mp hopen
  obtain ⟨s', hrun⟩ := Option.isSome_iff_exists.mp hagain
  obtain ⟨s₁, hcommit, hn⟩ := Option.bind_eq_some_iff.mp hrun
  exact ⟨s, s₁, s', db, hreach, hdb, hcommit, hn,
    (commit_replayed_iff sealWorks_blank hreach hdb rfl hcommit).2 s' hn⟩

/-! ### A long batch -/

theorem commitHead_total {batch : WriteBatch} {e : Env} {encoded : Bytes} {header : SegmentHeader}
    {views : List RecordView} (hf : e.world.faults = []) (hseq : e.db.seqno + 1 < u64Size)
    (hencode : encode batch = .ok encoded) (hholds : Holds (walEnv e) header views)
    (hlog : (layout 0 (views ++ [⟨e.db.seqno + 1, encoded⟩])).length < u64Size)
    (hbytes : e.db.ctx.activeMemtableBytes + encoded.length < u64Size) :
    Ends (commitHead batch) e
      (fun full _ => full = decide (e.db.config.memtableThresholdBytes ≤
        e.db.ctx.activeMemtableBytes + encoded.length)) fun _ _ => False := by
  unfold commitHead
  refine Ends.read_bind (Ends.addU64_bind (fun _ => ?_) fun hover => absurd hover (by omega))
  refine Ends.update_bind (Ends.lift_bind ?_ ?_)
  · intro encoded' hencode'
    cases hencode.symm.trans hencode'
    have happend : Ends (SegmentWriter.appendRecord (e.db.seqno + 1) encoded) (walEnv e)
        (fun _ t => t.world.faults = []) fun _ _ => False :=
      Ends.mono (SegmentWriter.appendRecord_holds _ _ hholds hf) (fun _ _ h => h.2.2)
        fun _ _ hover => absurd hover (by omega)
    refine Ends.bind (Ends.zoom happend) ?_ (fun f _ ⟨_, _, hfalse⟩ => hfalse)
    rintro start _ ⟨t, rfl, hft⟩
    have hsync : Ends SegmentWriter.sync t (fun _ _ => True) fun _ _ => False := by
      unfold Ends
      rw [walSync_nil hft]
      trivial
    refine Ends.bind (Ends.zoom hsync) ?_ (fun f _ ⟨_, _, hfalse⟩ => hfalse)
    rintro _ _ ⟨t', rfl, -⟩
    refine Ends.read_bind (Ends.lift_bind ?_ ?_)
    · intro m _
      refine Ends.update_bind (Ends.addU64_bind (fun _ => ?_) fun hover => ?_)
      · exact Ends.update_bind (Ends.ret rfl)
      · exact absurd hover (not_le.mpr hbytes)
    · intro f hfail
      obtain ⟨m, hm⟩ := applyBatch_returns (encode_fits hencode) e.db.state.activeMemtable
        (e.db.seqno + 1)
      exact absurd (hm.symm.trans hfail) (by simp)
  · intro f hfail
    exact absurd (hencode.symm.trans hfail) (by simp)

section

variable {prims : Primitives} {s : Sys} {faults : List Outcome} {db : Db}

theorem next_opened {config : DbConfig} {w : World} (hdb : s.db = none)
    (h : openWith prims config ⟨s.log, faults⟩ = .ok db w) :
    s.next prims (.openDb config faults) = some ⟨w.log, some db, s.acked⟩ := by
  simp only [Sys.next, hdb, h]

theorem next_returned {c : Call} {u : Unit} {e : Env} (hdb : s.db = some db)
    (h : c.run prims ⟨db, ⟨s.log, faults⟩⟩ = .ok u e) :
    s.next prims (.call c faults) = some ⟨e.world.log, some e.db, s.acked ++ c.commits db⟩ := by
  simp only [Sys.next, hdb, h]

end

/-- As many deletes of the empty key. -/
def deletes (n : ℕ) : WriteBatch := List.replicate n (.delete [])

theorem encodeOps_deletes (n : ℕ) :
    ∃ bs, encodeOps (deletes n) = .ok bs ∧ bs.length = 2 * n := by
  induction n with
  | zero => exact ⟨[], rfl, rfl⟩
  | succ n ih =>
    obtain ⟨bs, hbs, hlen⟩ := ih
    refine ⟨[1, 0] ++ bs, ?_, ?_⟩
    · rw [deletes, List.replicate_succ, encodeOps, show encodeOp (.delete []) = .ok [1, 0] from rfl,
        show encodeOps (List.replicate n (.delete [])) = _ from hbs]
      rfl
    · rw [List.length_append, hlen, List.length_cons, List.length_cons, List.length_nil]
      omega

theorem encode_deletes {n : ℕ} (hn : n < u32Size) :
    ∃ encoded, encode (deletes n) = .ok encoded ∧ encoded.length ≤ 2 * n + 5 := by
  have hlen : (deletes n).length = n := List.length_replicate
  have hfits : ∀ op ∈ deletes n, op.Fits := by
    intro op hop
    rw [(List.mem_replicate.mp hop).2]
    exact Nat.two_pow_pos 32
  obtain ⟨encoded, hencoded⟩ := encode_total (hlen.trans_lt hn) hfits
  obtain ⟨-, ops, hops, rfl⟩ := encode_ok hencoded
  obtain ⟨bs, hbs, hbslen⟩ := encodeOps_deletes n
  cases hops.symm.trans hbs
  refine ⟨_, hencoded, ?_⟩
  have hvarint := Varint.varint_length_le (hlen.trans_lt hn)
  rw [List.length_append, hbslen]
  have hmax : Varint.maxU32Bytes = 5 := rfl
  omega

/-- The first commit of a database returns, whatever batch it is given, as long as
the memtable does not come to be full. -/
theorem first_commit_returns {prims : Primitives} {db : Db} {w : World} {batch : WriteBatch}
    {encoded : Bytes} (hopen : openWith prims .default ⟨[], []⟩ = .ok db w)
    (hbytes : db.ctx.activeMemtableBytes = 0) (hencode : encode batch = .ok encoded)
    (hlen : encoded.length < 4194304) :
    ∃ e, commitBatch batch ⟨db, ⟨w.log, []⟩⟩ = .ok () e := by
  have hmodels : Models prims none ⟨w.log, some db, []⟩ Store.empty.reopen :=
    models_opened hopen rfl
  obtain ⟨-, hsim⟩ := hmodels.opened db rfl
  have hconfig : db.config = .default := by
    have hdir := (models_start prims none).closed rfl .default rfl
    exact ((openWith_simulates (w := ⟨[], []⟩) hdir rfl).of_ok hopen).1
  have hseq : db.seqno = 0 := hsim.seqno
  obtain ⟨firstSeqno, views, hist, -, hmem, henc, -, hholds⟩ := hsim.writer
  have hnil : hist = [] := congrArg Prod.snd (List.mem_singleton.mp hmem)
  subst hnil
  cases henc
  have hrecord := recordBytes_length_le 0 (db.seqno + 1) encoded
  have hheader : recordHeaderSize = 16 := rfl
  have hu64 : u64Size = 18446744073709551616 := rfl
  obtain ⟨full, e, hrun, hfull⟩ := (commitHead_total (e := ⟨db, ⟨w.log, []⟩⟩) rfl
    (by rw [hseq]; decide) hencode hholds
    (by
      rw [List.nil_append, layout, layout, List.append_nil]
      exact hrecord.trans_lt (by omega))
    (by
      show db.ctx.activeMemtableBytes + encoded.length < u64Size
      omega)).returns
  have hnot : full = false := by
    rw [hfull]
    refine decide_eq_false ?_
    show ¬ db.config.memtableThresholdBytes ≤ db.ctx.activeMemtableBytes + encoded.length
    rw [hconfig, hbytes, show DbConfig.default.memtableThresholdBytes = 4194304 from rfl]
    omega
  refine ⟨e, ?_⟩
  unfold commitBatch
  rw [act_bind_ok hrun, hnot]
  rfl

-- one operation more than the decoder takes
theorem long_batch_blocks_open : ∃ s db,
    run (Sys.next .blank) Sys.start
      [.openDb .default [], .call (.commit (deletes (maxOpsPerBatch + 1))) []] = some s ∧
      s.db = some db ∧ s.acked = [(1, deletes (maxOpsPerBatch + 1))] ∧
      ∀ db' w, openWith .blank .default ⟨s.log, []⟩ ≠ .ok db' w := by
  have hrun₀ : openedEmpty .blank .default
      (fun db _ => decide (db.ctx.activeMemtableBytes = 0)) = true := by decide +kernel
  obtain ⟨db, w, hopen, hbytes⟩ := openedEmpty_ok hrun₀
  have hmax : maxOpsPerBatch = 1048576 := rfl
  have hu32 : u32Size = 4294967296 := rfl
  obtain ⟨encoded, hencode, hlen⟩ := @encode_deletes (maxOpsPerBatch + 1) (by omega)
  have hlong : ¬ (deletes (maxOpsPerBatch + 1)).length ≤ maxOpsPerBatch := by
    rw [deletes, List.length_replicate]
    omega
  generalize deletes (maxOpsPerBatch + 1) = batch at hencode hlong ⊢
  obtain ⟨e, hcommit⟩ :=
    first_commit_returns hopen (of_decide_eq_true hbytes) hencode (by omega)
  have hmodels : Models .blank none ⟨w.log, some db, []⟩ Store.empty.reopen :=
    models_opened hopen rfl
  obtain ⟨hkey, hsim⟩ := hmodels.opened db rfl
  have hseq : db.seqno = 0 := hsim.seqno
  refine ⟨⟨e.world.log, some e.db, [(1, batch)]⟩, e.db, ?_, rfl, rfl, ?_⟩
  · show (Sys.start.next .blank (.openDb .default [])).bind _ = _
    rw [next_opened (s := Sys.start) rfl hopen, Option.bind_some]
    have hnext : Sys.next .blank ⟨w.log, some db, []⟩ (.call (.commit batch) []) =
        some ⟨e.world.log, some e.db, [(db.seqno + 1, batch)]⟩ :=
      next_returned (c := .commit batch) (u := ()) rfl hcommit
    show (Sys.next .blank ⟨w.log, some db, []⟩ (.call (.commit batch) [])).bind _ = _
    rw [hnext, hseq]
    rfl
  · intro db' w' hagain
    obtain ⟨t', hsim', ht'⟩ := (commitBatch_rotates batch hsim).of_ok hcommit
    have hwal : ∃ h, (Store.empty.reopen.walId, h) ∈ Store.empty.reopen.wals :=
      ⟨[], List.mem_singleton_self _⟩
    have hconfig : e.db.config = db.config := (keepsConfig_commitBatch batch _ rfl).of_ok hcommit
    have hdir : Directory .blank .default (diskOf e.world.log) t' :=
      hsim'.dir.config (by
        rw [hconfig]
        exact hkey.symm)
    obtain ⟨-, -, hsmall⟩ := (openWith_simulates (w := ⟨e.world.log, []⟩) hdir rfl).of_ok hagain
    exact hlong ((Store.wals_commit hwal ht').1.mp hsmall).2

end PaddockKV.Engine
