import PaddockKV.Engine.Sessions

/-!
# Reopening a directory of the store

The segments and tables that the calls of earlier sessions left are replayed and
opened as they were written, so a session starts with `Store.reopen`. A batch of
more operations than the decoder accepts is the one thing that is written and not
read back.
-/

namespace PaddockKV.Engine

open Io Wal Memtable Sstable Crypto History

/-- The decoder accepts the batches of these commits. -/
def Replayable (h : History) : Prop := ∀ c ∈ h, c.2.length ≤ maxOpsPerBatch

/-! ### Segments -/

theorem segmentFile_reads {id : ℕ} {h : History} {file : Bytes} (hfile : SegmentFile id h file)
    (hid : id < u64Size) :
    SegmentReader.openFile file = .ok ⟨file, 0⟩ ∧
      ∃ views out, List.Forall₂ Encodes views h ∧ SegmentReader.Reads file 0 views out := by
  obtain ⟨firstSeqno, views, area, out, hfs, henc, rfl, hreads⟩ := hfile
  exact ⟨SegmentReader.openFile_header hid hfs _, views, out, henc, hreads⟩

theorem decodes_of_encodes {views : List RecordView} {h : History}
    (henc : List.Forall₂ Encodes views h) (hsmall : Replayable h) :
    List.Forall₂ Decodes views h := by
  induction henc with
  | nil => exact .nil
  | cons hv _ ih =>
    refine .cons ⟨hv.1, decode_encode hv.2 (hsmall _ List.mem_cons_self)⟩ (ih ?_)
    intro c hc
    exact hsmall c (List.mem_cons_of_mem _ hc)

theorem replayable_of_decodes {views : List RecordView} {h h' : History}
    (henc : List.Forall₂ Encodes views h) (hdec : List.Forall₂ Decodes views h') :
    Replayable h := by
  induction henc generalizing h' with
  | nil =>
    intro c hc
    cases hc
  | cons hv _ ih =>
    cases hdec with
    | cons hd hdec =>
      intro c hc
      rcases List.mem_cons.mp hc with rfl | hc
      · by_contra hlong
        obtain ⟨err, herr⟩ := decode_encode_long hv.2 (not_le.mp hlong)
        rw [hd.2] at herr
        cases herr
      · exact ih hdec c hc

section Segments

variable {prims : Primitives} {config : DbConfig} {d : Disk} {s : Store}

theorem segmentAt_iff (hd : Directory prims config d s) {x : ℕ × History} (hx : x ∈ s.wals)
    {h : History} : SegmentAt d x.1 h ↔ h = x.2 ∧ Replayable x.2 := by
  obtain ⟨file, sync, hdisk, hfile⟩ := hd.wals x hx
  obtain ⟨hopen, views, out, henc, hreads⟩ := segmentFile_reads hfile (hd.ids x hx)
  have hholds : Replayable x.2 → SegmentAt d x.1 x.2 := fun hsmall =>
    ⟨file, sync, hdisk, hopen, views, out, hreads, decodes_of_encodes henc hsmall⟩
  constructor
  · intro hat
    have hsmall : Replayable x.2 := by
      obtain ⟨file', sync', hdisk', -, views', out', hreads', hdec⟩ := hat
      rw [hdisk] at hdisk'
      cases hdisk'
      rw [← reads_unique hreads hreads'] at hdec
      exact replayable_of_decodes henc hdec
    exact ⟨segmentAt_unique hat (hholds hsmall), hsmall⟩
  · rintro ⟨rfl, hsmall⟩
    exact hholds hsmall

end Segments

/-! ### The listings -/

section Listings

variable {prims : Primitives} {config : DbConfig} {w : World} {s : Store}

theorem nodup_filterMap_parse {names : List FileName} {parse : FileName → Option ℕ}
    (hparse : ∀ a b n, parse a = some n → parse b = some n → a = b) (h : names.Nodup) :
    (names.filterMap parse).Nodup :=
  h.filterMap fun a b n ha hb => hparse a b n ha hb

theorem parseWal_inj (a b : FileName) (n : ℕ) (ha : parseWalSegmentName a = some n)
    (hb : parseWalSegmentName b = some n) : a = b := by
  cases a <;> cases ha
  cases b <;> cases hb
  rfl

theorem parseSst_inj (a b : FileName) (n : ℕ) (ha : parseSstName a = some n)
    (hb : parseSstName b = some n) : a = b := by
  cases a <;> cases ha
  cases b <;> cases hb
  rfl

theorem pairwise_lt_of_sorted {r lt : ℕ → ℕ → Prop} {l : List ℕ} (hr : l.Pairwise r)
    (hnodup : l.Nodup) (hlt : ∀ a b, r a b → a ≠ b → lt a b) : l.Pairwise lt :=
  (hr.and hnodup).imp fun hab => hlt _ _ hab.1 hab.2

theorem walIds_eq (hd : Directory prims config w.disk s) : walIds w.list = s.wals.map Prod.fst := by
  have hnodup : (walIds w.list).Nodup :=
    (List.perm_insertionSort _ _).nodup_iff.mpr (nodup_filterMap_parse parseWal_inj w.nodup_list)
  have hsorted : (walIds w.list).Pairwise (· < ·) :=
    pairwise_lt_of_sorted (List.pairwise_insertionSort _ _) hnodup fun a b => lt_of_le_of_ne
  refine List.Pairwise.eq_of_mem_iff hsorted hd.wals_sorted ?_
  intro n
  rw [mem_walIds, World.mem_list]
  refine ⟨hd.wal_mem n, ?_⟩
  intro hn
  obtain ⟨x, hx, rfl⟩ := List.mem_map.mp hn
  obtain ⟨file, sync, hdisk, -⟩ := hd.wals x hx
  rw [hdisk]
  rfl

theorem sstIds_eq (hd : Directory prims config w.disk s) :
    sstIds w.list = s.tables.map Prod.fst := by
  have hnodup : (sstIds w.list).Nodup :=
    (List.perm_insertionSort _ _).nodup_iff.mpr (nodup_filterMap_parse parseSst_inj w.nodup_list)
  have hsorted : (sstIds w.list).Pairwise (· > ·) :=
    pairwise_lt_of_sorted (List.pairwise_insertionSort _ _) hnodup fun a b hge hne =>
      lt_of_le_of_ne hge hne.symm
  refine List.Pairwise.eq_of_mem_iff hsorted hd.tables_sorted ?_
  intro n
  rw [mem_sstIds, World.mem_list]
  refine ⟨hd.sst_mem n, ?_⟩
  intro hn
  obtain ⟨x, hx, rfl⟩ := List.mem_map.mp hn
  obtain ⟨file, sync, hdisk, -⟩ := hd.tables x hx
  rw [hdisk]
  rfl

theorem max?_perm {l l' : List ℕ} (h : l.Perm l') : l.max?.getD 0 = l'.max?.getD 0 := by
  have hfold := h.foldl_eq (f := max) 0
  rw [List.foldl_max, List.foldl_max] at hfold
  omega

theorem firstFree_eq (hd : Directory prims config w.disk s) :
    firstFree (walIds w.list) (w.list.filterMap parseSstName) = s.free := by
  have hperm : (w.list.filterMap parseSstName).Perm (s.tables.map Prod.fst) := by
    rw [← sstIds_eq hd]
    exact (List.perm_insertionSort _ _).symm
  unfold firstFree Store.free
  rw [walIds_eq hd, max?_perm hperm]

end Listings

/-! ### Tables -/

theorem foldl_max_append (l l' : List ℕ) :
    (l ++ l').foldl max 0 = max (l'.foldl max 0) (l.foldl max 0) := by
  rw [List.foldl_append]
  generalize l.foldl max 0 = m
  rw [List.foldl_max, List.foldl_max]
  cases l'.max? <;> simp [Nat.max_comm]

theorem maxSeqnoOf_sortedRecs (h : History) :
    maxSeqnoOf (sortedRecs h) = ((records h).map Rec.seqno).foldl max 0 := by
  unfold maxSeqnoOf sortedRecs
  exact (((perm_isort _).trans (List.reverse_perm _)).map Rec.seqno).foldl_eq 0

theorem tableSeqno_cons (x : ℕ × History) (tables : List (ℕ × History)) :
    ((Store.oldestFirst (x :: tables)).records.map Rec.seqno).foldl max 0 =
      max (maxSeqnoOf (sortedRecs x.2))
        (((Store.oldestFirst tables).records.map Rec.seqno).foldl max 0) := by
  rw [Store.oldestFirst_cons, records_append, List.map_append, foldl_max_append,
    maxSeqnoOf_sortedRecs]

section Tables

variable {prims : Primitives} {config : DbConfig} {d : Disk} {s : Store}

theorem tableOpens_exists (hd : Directory prims config d s) {x : ℕ × History} (hx : x ∈ s.tables) :
    ∃ reader, TableOpens prims config d x.1 reader := by
  obtain ⟨file, sync, hdisk, dataEnd, header, hbody, hheader, hat⟩ := hd.tables x hx
  obtain ⟨r, hopen, -⟩ := openInner_table hbody hheader hat
  exact ⟨r, file, sync, hdisk, hopen⟩

theorem tableOpens_serves (hd : Directory prims config d s) {x : ℕ × History} (hx : x ∈ s.tables)
    {reader : SstReader} (h : TableOpens prims config d x.1 reader) :
    Serves prims reader (blocksOf x.2) ∧
      reader.header.maxSeqno = maxSeqnoOf (sortedRecs x.2) := by
  obtain ⟨file, sync, hdisk, dataEnd, header, hbody, hheader, hat⟩ := hd.tables x hx
  obtain ⟨r, hopen, hrh⟩ := openInner_table hbody hheader hat
  obtain ⟨file', sync', hdisk', hopen'⟩ := h
  rw [hdisk] at hdisk'
  cases hdisk'
  rw [hopen] at hopen'
  cases hopen'
  obtain ⟨index, hreader⟩ := readerOf_openInner hbody hopen
  refine ⟨⟨dataEnd, index, hreader⟩, ?_⟩
  rw [hrh, hheader.maxSeqno, blocksOf_flatten]

theorem openedTables_simulate {tables : List (ℕ × History)} {ssts : List LiveSst}
    (hmem : ∀ x ∈ tables, ∀ reader, TableOpens prims config d x.1 reader →
      Serves prims reader (blocksOf x.2) ∧
        reader.header.maxSeqno = maxSeqnoOf (sortedRecs x.2))
    (h : List.Forall₂ (fun n sst => sst.id = n ∧ TableOpens prims config d n sst.reader)
      (tables.map Prod.fst) ssts) :
    List.Forall₂ (fun sst x => sst.id = x.1 ∧ Serves prims sst.reader (blocksOf x.2)) ssts tables ∧
      maxHeaderSeqno ssts =
        ((Store.oldestFirst tables).records.map Rec.seqno).foldl max 0 := by
  induction tables generalizing ssts with
  | nil =>
    cases h
    exact ⟨.nil, rfl⟩
  | cons x tables ih =>
    cases h with
    | cons hx h =>
      obtain ⟨hserves, hmax⟩ := hmem x List.mem_cons_self _ hx.2
      obtain ⟨hall, hrest⟩ := ih (fun y hy => hmem y (List.mem_cons_of_mem x hy)) h
      refine ⟨.cons ⟨hx.1, hserves⟩ hall, ?_⟩
      rw [tableSeqno_cons, maxHeaderSeqno, hmax, hrest]

theorem replayedSegments_eq (hd : Directory prims config d s) {wals : List (ℕ × History)}
    (hsub : ∀ x ∈ wals, x ∈ s.wals) {hists : List History}
    (h : List.Forall₂ (SegmentAt d) (wals.map Prod.fst) hists) : hists = wals.map Prod.snd := by
  induction wals generalizing hists with
  | nil =>
    cases h
    rfl
  | cons x wals ih =>
    cases h with
    | cons hx h =>
      rw [((segmentAt_iff hd (hsub x List.mem_cons_self)).mp hx).1,
        ih (fun y hy => hsub y (List.mem_cons_of_mem x hy)) h, List.map_cons]

end Tables

/-! ### Opening -/

section Open

variable {prims : Primitives} {config : DbConfig} {w : World} {s : Store}

/-- A database that was opened on the directory of a store. -/
theorem Opened.simulates {db : Db} {w' : World} (hd : Directory prims config w.disk s)
    (hf : w.faults = []) (hopened : Opened prims config w w.list w.list db w') :
    db.config = config ∧ Simulates prims ⟨db, w'⟩ s.reopen ∧ ∀ x ∈ s.wals, Replayable x.2 := by
  obtain ⟨hconfig, hopens, ⟨hists, hsegs, hrecs, hseqno⟩, hqueue, hctx, hseq, hfaultless⟩ := hopened
  rw [sstIds_eq hd] at hopens
  rw [walIds_eq hd] at hsegs
  obtain ⟨hsst, hmax⟩ := openedTables_simulate (fun x hx reader => tableOpens_serves hd hx) hopens
  have hsmall : ∀ x ∈ s.wals, Replayable x.2 := by
    intro x hx
    obtain ⟨h, -, hat⟩ := forall₂_exists_right hsegs (List.mem_map_of_mem hx)
    exact ((segmentAt_iff hd hx).mp hat).2
  obtain rfl := replayedSegments_eq hd (fun _ hx => hx) hsegs
  obtain ⟨hc, hnum, hmade⟩ := hctx s.free (firstFree_eq hd).symm
  have hseqno' : db.seqno = s.reopen.seqno := by
    rw [hseqno, hmax]
    rfl
  obtain ⟨hholds, hdisk⟩ := segmentMade_holds hd.free_none hmade
  have hdir := hd.open_wal false s.free_above.1 (by omega : s.free < u64Size) hseq
  rw [← hdisk] at hdir
  refine ⟨hconfig, ?_, hsmall⟩
  constructor
  · show Directory prims db.config w'.disk s.reopen
    rw [hconfig]
    exact { hdir with }
  · exact hrecs
  · show List.Forall₂ _ db.state.immutableMemtables []
    rw [hqueue]
    exact .nil
  · exact hsst
  · show db.ctx.walSegmentId = s.free
    rw [hc]
  · show db.ctx.nextFileNumber = s.free + 1
    rw [hc]
  · exact hseqno'
  · refine ⟨db.seqno + 1, [], [], hseq, List.mem_append_right _ (List.mem_singleton_self _), .nil,
      ?_, ?_⟩
    · show db.ctx.wal.file = _
      rw [hc]
      rfl
    · have hwal : walEnv ⟨db, w'⟩ = ⟨⟨.wal s.free, 0, 0⟩, w'⟩ := by
        show WalEnv.mk db.ctx.wal w' = _
        rw [hc]
      rw [hwal]
      exact hholds
  · intro x hx
    exact (s.free_above.2 x hx).trans (Nat.lt_succ_self _)
  · intro x hx
    rcases List.mem_append.mp hx with hx | hx
    · exact (s.free_above.1 x hx).trans (Nat.lt_succ_self _)
    · rw [List.mem_singleton.mp hx]
      exact Nat.lt_succ_self _
  · intro x hx
    cases hx
  · exact .nil
  · exact Nat.lt_succ_self _
  · intro c hc
    obtain ⟨h, hh, hc⟩ := List.mem_flatten.mp hc
    obtain ⟨x, hx, rfl⟩ := List.mem_map.mp hh
    exact hd.wal_seqnos x hx c hc
  · intro x hx
    cases hx
  · exact hfaultless hf

/-- A session starts from the store that the directory stands for, where the decoder
accepts all that was logged. -/
theorem openWith_simulates (hd : Directory prims config w.disk s) (hf : w.faults = []) :
    Ends (openWith prims config) w
      (fun db w' => db.config = config ∧ Simulates prims ⟨db, w'⟩ s.reopen ∧
        ∀ x ∈ s.wals, Replayable x.2)
      fun f w' => Panicked f ∧ NumbersOut prims config w.disk w.list w.list ∨
        w'.log = w.log ∧ ∃ x ∈ s.wals, ¬ Replayable x.2 := by
  have hends := openWith_ends prims config w
  have hlisted : listed w w.faults.head? = w.list ∧ listed w w.faults.tail.head? = w.list := by
    rw [hf]
    exact ⟨rfl, rfl⟩
  rw [hlisted.1, hlisted.2] at hends
  refine Ends.mono hends (fun db w' hopened => hopened.simulates hd hf) ?_
  rintro f w' ⟨hfaulty | ⟨hlog, n, hn, hno⟩ | ⟨n, hn, hno⟩ | hout, -⟩
  · exact absurd hf hfaulty
  · rw [walIds_eq hd] at hn
    obtain ⟨x, hx, rfl⟩ := List.mem_map.mp hn
    exact .inr ⟨hlog, x, hx, fun hsmall => hno _ ((segmentAt_iff hd hx).mpr ⟨rfl, hsmall⟩)⟩
  · rw [sstIds_eq hd] at hn
    obtain ⟨x, hx, rfl⟩ := List.mem_map.mp hn
    obtain ⟨reader, hopen⟩ := tableOpens_exists hd hx
    exact absurd hopen (hno reader)
  · exact .inl hout

/-- Where the decoder accepts all that was logged, only a counter can stop an opening. -/
theorem outOfNumbers_of_open {y : Sys} (hd : Directory prims config (diskOf y.log) s)
    (hsmall : ∀ x ∈ s.wals, Replayable x.2) (hdb : y.db = none)
    (hn : y.next prims (.openDb config []) = none) : OutOfNumbers prims config y := by
  cases hopen : openWith prims config ⟨y.log, []⟩ with
  | ok db w => simp [Sys.next, hdb, hopen] at hn
  | error f w =>
    rcases (openWith_simulates (w := ⟨y.log, []⟩) hd rfl).of_error hopen with
      ⟨-, hout⟩ | ⟨-, x, hx, hlong⟩
    · exact hout
    · exact absurd (hsmall x hx) hlong

end Open

end PaddockKV.Engine
