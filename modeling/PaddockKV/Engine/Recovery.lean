import PaddockKV.Engine.System

/-!
# Opening a database (`Db::open_with`)

What `open_with` makes of a directory, whatever the files hold and whichever of
its calls fail. The database it returns shows the tables and segments of the two
listings; a listing that failed is taken for an empty one.
-/

namespace PaddockKV.Engine

open Io Wal Memtable Sstable Crypto History

/-! ### Replaying a segment -/

def Decodes (view : RecordView) (x : ℕ × WriteBatch) : Prop :=
  view.seqno = x.1 ∧ decode view.payload = .ok x.2

/-- The file is a segment whose records are these commits. -/
def SegmentHolds (file : Bytes) (h : History) : Prop :=
  SegmentReader.openFile file = .ok ⟨file, 0⟩ ∧
    ∃ vs out, SegmentReader.Reads file 0 vs out ∧ List.Forall₂ Decodes vs h

theorem applyBatch_recs {m m' : SkipList} {q : ℕ} {batch : WriteBatch}
    (h : applyBatchToMemtable m q batch = .ok m') :
    m'.recs = (batch.map (Op.toRec q)).foldl (fun l r => insertRec r l) m.recs := by
  induction batch generalizing m with
  | nil =>
    cases h
    rfl
  | cons op batch ih =>
    unfold applyBatchToMemtable at h
    rw [List.foldlM_cons] at h
    cases op with
    | put key value =>
      cases hins : m.insert key value q .put with
      | none =>
        simp only [hins] at h
        cases h
      | some m₁ =>
        simp only [hins, res_ok_bind] at h
        have hrecs := SkipList.recs_insert hins
        rw [ih h, hrecs]
        rfl
    | delete key =>
      cases hins : m.insert key [] q .tombstone with
      | none =>
        simp only [hins] at h
        cases h
      | some m₁ =>
        simp only [hins, res_ok_bind] at h
        have hrecs := SkipList.recs_insert hins
        rw [ih h, hrecs]
        rfl

theorem applyBatch_returns {batch : WriteBatch} (h : ∀ op ∈ batch, op.Fits) (m : SkipList) (q : ℕ) :
    ∃ m', applyBatchToMemtable m q batch = .ok m' := by
  induction batch generalizing m with
  | nil => exact ⟨m, rfl⟩
  | cons op batch ih =>
    have hop := h op List.mem_cons_self
    have hrest := ih fun x hx => h x (List.mem_cons_of_mem op hx)
    unfold applyBatchToMemtable
    rw [List.foldlM_cons]
    cases op with
    | put key value =>
      obtain ⟨m₁, hins⟩ : ∃ m₁, m.insert key value q .put = some m₁ :=
        m.insert_isSome q hop.1 fun _ => hop.2
      simp only [hins, res_ok_bind]
      exact hrest m₁
    | delete key =>
      obtain ⟨m₁, hins⟩ : ∃ m₁, m.insert key [] q .tombstone = some m₁ :=
        m.insert_isSome q hop fun h => by cases h
      simp only [hins, res_ok_bind]
      exact hrest m₁

theorem recs_apply {m m' : SkipList} {h₀ : History} {q : ℕ} {batch : WriteBatch}
    (hm : m.recs = sortedRecs h₀) (h : applyBatchToMemtable m q batch = .ok m') :
    m'.recs = sortedRecs (h₀ ++ [(q, batch)]) := by
  rw [applyBatch_recs h, hm, sortedRecs_append, records_singleton]

theorem replayRecord_ok {v : RecordView} {s s' : Recovered} {u : Unit}
    (h : replayRecord v s = .ok u s') :
    ∃ batch, decode v.payload = .ok batch ∧ s'.maxSeenSeqno = max s.maxSeenSeqno v.seqno ∧
      applyBatchToMemtable s.memtable v.seqno batch = .ok s'.memtable := by
  unfold replayRecord at h
  obtain ⟨_, _, hmod, h⟩ := act_bind_eq_ok.mp h
  cases hmod
  obtain ⟨batch, _, hlift, h⟩ := act_bind_eq_ok.mp h
  obtain ⟨hdec, rfl⟩ := act_lift_eq_ok.mp hlift
  obtain ⟨_, _, hget, h⟩ := act_bind_eq_ok.mp h
  cases hget
  obtain ⟨m, _, hlift', h⟩ := act_bind_eq_ok.mp h
  obtain ⟨happ, rfl⟩ := act_lift_eq_ok.mp hlift'
  cases h
  exact ⟨batch, hdec, rfl, happ⟩

theorem replayViews_ok {vs : List RecordView} {s s' : Recovered} {u : PUnit} {h₀ : History}
    (hs : s.memtable.recs = sortedRecs h₀) (h : vs.forM replayRecord s = .ok u s') :
    ∃ h, List.Forall₂ Decodes vs h ∧ s'.memtable.recs = sortedRecs (h₀ ++ h) ∧
      s'.maxSeenSeqno = maxSeqno s.maxSeenSeqno h := by
  induction vs generalizing s h₀ with
  | nil =>
    cases h
    exact ⟨[], .nil, by rw [List.append_nil]; exact hs, rfl⟩
  | cons v vs ih =>
    obtain ⟨_, s₁, hrec, hrest⟩ := act_bind_eq_ok.mp
      (show (replayRecord v >>= fun _ => vs.forM replayRecord) s = .ok u s' from h)
    obtain ⟨batch, hdec, hmax, happ⟩ := replayRecord_ok hrec
    obtain ⟨h, hdecs, hrecs, hmax'⟩ := ih (recs_apply hs happ) hrest
    refine ⟨(v.seqno, batch) :: h, .cons ⟨rfl, hdec⟩ hdecs, ?_, ?_⟩
    · rw [hrecs, List.append_assoc, List.singleton_append]
    · rw [hmax', hmax]
      rfl

theorem replayViews_returns {vs : List RecordView} {h : History} (hdec : List.Forall₂ Decodes vs h)
    (s : Recovered) : ∃ s', vs.forM replayRecord s = .ok ⟨⟩ s' := by
  induction hdec generalizing s with
  | nil => exact ⟨s, rfl⟩
  | @cons v x vs h hv _ ih =>
    obtain ⟨m, hm⟩ := applyBatch_returns (decode_fits hv.2) s.memtable v.seqno
    obtain ⟨s', hs'⟩ := ih ⟨m, max s.maxSeenSeqno v.seqno⟩
    have hrec : replayRecord v s = .ok () ⟨m, max s.maxSeenSeqno v.seqno⟩ := by
      unfold replayRecord
      rw [hv.2]
      show (Act.lift (applyBatchToMemtable s.memtable v.seqno x.2) >>= fun _ => _ : Act Recovered Unit) _ = _
      rw [hm]
      rfl
    refine ⟨s', ?_⟩
    show (replayRecord v >>= fun _ => vs.forM replayRecord) s = _
    rw [act_bind_ok hrec]
    exact hs'

theorem openFile_ok {file : Bytes} {r : SegmentReader} (h : SegmentReader.openFile file = .ok r) :
    r = ⟨file, 0⟩ := by
  unfold SegmentReader.openFile at h
  split at h
  · cases h
  · obtain ⟨_, -, h⟩ := res_bind_eq_ok.mp h
    dsimp only at h
    split at h
    · cases h
    · split at h
      · cases h
      · split at h
        · cases h
        · cases h
          rfl

theorem replaySegment_ok {file : Bytes} {s s' : Recovered} {out : ReplayOutcome} {h₀ : History}
    (hs : s.memtable.recs = sortedRecs h₀) (h : replayFile file replayRecord s = .ok out s') :
    ∃ h, SegmentHolds file h ∧ s'.memtable.recs = sortedRecs (h₀ ++ h) ∧
      s'.maxSeenSeqno = maxSeqno s.maxSeenSeqno h := by
  unfold replayFile at h
  obtain ⟨r, _, hlift, h⟩ := act_bind_eq_ok.mp h
  obtain ⟨hopen, rfl⟩ := act_lift_eq_ok.mp hlift
  obtain rfl := openFile_ok hopen
  obtain ⟨vs, hreads, hvs⟩ := SegmentReader.replayLoop_ok h
  obtain ⟨h, hdec, hrecs, hmax⟩ := replayViews_ok hs hvs
  exact ⟨h, ⟨hopen, vs, out, hreads, hdec⟩, hrecs, hmax⟩

theorem replaySegment_returns {file : Bytes} {h : History} (hh : SegmentHolds file h)
    (s : Recovered) : ∃ out s', replayFile file replayRecord s = .ok out s' := by
  obtain ⟨hopen, vs, out, hreads, hdec⟩ := hh
  obtain ⟨s', hs'⟩ := replayViews_returns hdec s
  refine ⟨out, s', ?_⟩
  unfold replayFile
  rw [hopen, act_lift_ok_bind, hreads.replay, act_bind_ok hs']
  rfl

/-! ### The two loops -/

/-- The table `id` of the directory opens as `reader`. -/
def TableOpens (prims : Primitives) (config : DbConfig) (d : Disk) (id : ℕ) (reader : SstReader) :
    Prop :=
  ∃ file s, d (.sst id) = some ⟨file, s⟩ ∧
    SstReader.openInner file (config.cryptoFor prims id) = .ok reader

/-- The segment `id` of the directory holds the commits `h`. -/
def SegmentAt (d : Disk) (id : ℕ) (h : History) : Prop :=
  ∃ file s, d (.wal id) = some ⟨file, s⟩ ∧ SegmentHolds file h

theorem reads_unique {file : Bytes} {c : ℕ} {vs vs' : List RecordView} {out out' : ReplayOutcome}
    (h : SegmentReader.Reads file c vs out) (h' : SegmentReader.Reads file c vs' out') :
    vs = vs' := by
  induction h generalizing vs' with
  | stop hn hs =>
    cases h' with
    | stop _ _ => rfl
    | more hn' _ _ _ =>
      rw [hn] at hn'
      cases hn'
      exact hs.elim
  | more hn _ _ _ ih =>
    cases h' with
    | stop hn' hs' =>
      rw [hn] at hn'
      cases hn'
      exact hs'.elim
    | more hn' _ _ rest' =>
      rw [hn] at hn'
      cases hn'
      rw [ih rest']

theorem segmentAt_unique {d : Disk} {n : ℕ} {h h' : History} (hs : SegmentAt d n h)
    (hs' : SegmentAt d n h') : h = h' := by
  obtain ⟨file, s, hfile, -, vs, out, hreads, hdec⟩ := hs
  obtain ⟨file', s', hfile', -, vs', out', hreads', hdec'⟩ := hs'
  rw [hfile] at hfile'
  cases hfile'
  rw [reads_unique hreads hreads'] at hdec
  refine List.right_unique_forall₂' ?_ hdec hdec'
  intro v x y hx hy
  exact Prod.ext (hx.1.symm.trans hy.1) (Except.ok.inj (hx.2.symm.trans hy.2))

theorem forall₂_exists_left {α β : Type} {R : α → β → Prop} {as : List α} {bs : List β}
    (h : List.Forall₂ R as bs) {b : β} (hb : b ∈ bs) : ∃ a ∈ as, R a b := by
  induction h with
  | nil => cases hb
  | cons hr _ ih =>
    rcases List.mem_cons.mp hb with rfl | hb
    · exact ⟨_, List.mem_cons_self, hr⟩
    · obtain ⟨a, ha, hr⟩ := ih hb
      exact ⟨a, List.mem_cons_of_mem _ ha, hr⟩

theorem forall₂_exists_right {α β : Type} {R : α → β → Prop} {as : List α} {bs : List β}
    (h : List.Forall₂ R as bs) {a : α} (ha : a ∈ as) : ∃ b ∈ bs, R a b := by
  obtain ⟨b, hb, hr⟩ := forall₂_exists_left (List.Forall₂.flip h) ha
  exact ⟨b, hb, hr⟩

def maxHeaderSeqno : List LiveSst → ℕ
  | [] => 0
  | sst :: ssts => max sst.reader.header.maxSeqno (maxHeaderSeqno ssts)

theorem openTables_ends (prims : Primitives) (config : DbConfig) (ns : List ℕ) (w : World) :
    Ends (openTables prims config ns) w
      (fun out w' => w'.log = w.log ∧ (w.faults = [] → w'.faults = []) ∧
        List.Forall₂ (fun n sst => sst.id = n ∧ TableOpens prims config w.disk n sst.reader) ns
          out.1 ∧ out.2 = maxHeaderSeqno out.1)
      fun _ w' => w'.log = w.log ∧
        (w.faults ≠ [] ∨ ∃ n ∈ ns, ∀ reader, ¬ TableOpens prims config w.disk n reader) := by
  induction ns generalizing w with
  | nil => exact Ends.ret ⟨rfl, id, .nil, rfl⟩
  | cons n ns ih =>
    unfold openTables
    refine Ends.bind (openTable_ends prims config n w) ?_ ?_
    · rintro reader w₁ ⟨hlog₁, hf₁, hopen⟩
      have hdisk : w₁.disk = w.disk := congrArg diskOf hlog₁
      refine Ends.bind (ih w₁) ?_ ?_
      · rintro ⟨rest, m⟩ w₂ ⟨hlog₂, hf₂, hrest, hm⟩
        rw [hdisk] at hrest
        exact Ends.ret ⟨hlog₂.trans hlog₁, fun h => hf₂ (hf₁ h), .cons ⟨rfl, hopen⟩ hrest,
          congrArg (max _) hm⟩
      · rintro f w₂ ⟨hlog₂, hcause⟩
        rw [hdisk] at hcause
        refine ⟨hlog₂.trans hlog₁, ?_⟩
        rcases hcause with hne | ⟨x, hx, hno⟩
        · exact .inl fun h => hne (hf₁ h)
        · exact .inr ⟨x, List.mem_cons_of_mem n hx, hno⟩
    · rintro f w₁ ⟨hlog₁, hcause⟩
      refine ⟨hlog₁, ?_⟩
      rcases hcause with hne | hnone | ⟨file, s, hfile, herr⟩
      · exact .inl hne
      · refine .inr ⟨n, List.mem_cons_self, ?_⟩
        rintro reader ⟨file, s, hfile, -⟩
        rw [hnone] at hfile
        cases hfile
      · refine .inr ⟨n, List.mem_cons_self, ?_⟩
        rintro reader ⟨file', s', hfile', hok⟩
        rw [hfile] at hfile'
        cases hfile'
        rw [herr] at hok
        cases hok

theorem replaySegments_ends (segs : List ℕ) {s : Recovered} {h₀ : History}
    (hs : s.memtable.recs = sortedRecs h₀) (w : World) :
    Ends (replaySegments segs s) w
      (fun s' w' => w'.log = w.log ∧ (w.faults = [] → w'.faults = []) ∧
        ∃ hists, List.Forall₂ (SegmentAt w.disk) segs hists ∧
          s'.memtable.recs = sortedRecs (h₀ ++ hists.flatten) ∧
          s'.maxSeenSeqno = maxSeqno s.maxSeenSeqno hists.flatten)
      fun _ w' => w'.log = w.log ∧
        (w.faults ≠ [] ∨ ∃ n ∈ segs, ∀ h, ¬ SegmentAt w.disk n h) := by
  induction segs generalizing s h₀ w with
  | nil =>
    refine Ends.ret ⟨rfl, id, [], .nil, ?_, rfl⟩
    rw [List.flatten_nil, List.append_nil]
    exact hs
  | cons seg segs ih =>
    unfold replaySegments
    refine Ends.bind (openReadonly_ends _ w) ?_ ?_
    · rintro file w₁ ⟨hlog₁, ⟨sy, hfile⟩, hf₁⟩
      refine Ends.bind (tryReads_ends w₁) ?_ ?_
      · rintro - w₂ ⟨hlog₂, hf₂⟩
        have hlog := hlog₂.trans hlog₁
        have hdisk : w₂.disk = w.disk := congrArg diskOf hlog
        cases hrun : replayFile file replayRecord s with
        | ok out s₁ =>
          obtain ⟨h, hholds, hrecs, hmax⟩ := replaySegment_ok hs hrun
          refine Ends.mono (ih hrecs w₂) ?_ ?_
          · rintro s' w' ⟨hlog', hf', hists, hall, hrecs', hmax'⟩
            rw [hdisk] at hall
            refine ⟨hlog'.trans hlog, fun hn => hf' (hf₂ (hf₁ hn)), h :: hists,
              .cons ⟨file, sy, hfile, hholds⟩ hall, ?_, ?_⟩
            · rw [hrecs', List.flatten_cons, List.append_assoc]
            · rw [hmax', hmax, List.flatten_cons, maxSeqno_append]
          · rintro f w' ⟨hlog', hcause⟩
            rw [hdisk] at hcause
            refine ⟨hlog'.trans hlog, ?_⟩
            rcases hcause with hne | ⟨x, hx, hno⟩
            · exact .inl fun h => hne (hf₂ (hf₁ h))
            · exact .inr ⟨x, List.mem_cons_of_mem seg hx, hno⟩
        | error f s₁ =>
          refine Ends.fail ⟨hlog, .inr ⟨seg, List.mem_cons_self, ?_⟩⟩
          rintro h ⟨file', sy', hfile', hholds⟩
          rw [hfile] at hfile'
          cases hfile'
          obtain ⟨out, s', hok⟩ := replaySegment_returns hholds s
          rw [hrun] at hok
          cases hok
      · rintro f w₂ ⟨hlog₂, -, hne⟩
        exact ⟨hlog₂.trans hlog₁, .inl fun h => hne (hf₁ h)⟩
    · rintro f w₁ ⟨hlog₁, -, hcause⟩
      refine ⟨hlog₁, hcause.imp_right fun hnone => ⟨seg, List.mem_cons_self, ?_⟩⟩
      rintro h ⟨file, sy, hfile, -⟩
      rw [hnone] at hfile
      cases hfile

/-! ### The whole call -/

/-- What `list(..).unwrap_or_default()` returns when `o` is the outcome of the
call. -/
def listed (w : World) : Option Outcome → List FileName
  | some (.failed _) => []
  | _ => w.list

theorem list_ends (w : World) {Q : Fault → World → Prop} :
    Ends (Act.orDefault Io.list []) w
      (fun names w' => names = listed w w.faults.head? ∧ w'.log = w.log ∧
        w'.faults = w.faults.tail) Q := by
  obtain ⟨log, faults⟩ := w
  unfold Ends
  cases faults with
  | nil => exact ⟨rfl, rfl, rfl⟩
  | cons o faults =>
    cases o with
    | done => exact ⟨rfl, rfl, rfl⟩
    | failed n => exact ⟨rfl, rfl, rfl⟩

/-- The segments `open_with` replays, in order. -/
def walIds (names : List FileName) : List ℕ :=
  (names.filterMap parseWalSegmentName).insertionSort (· ≤ ·)

/-- The tables it opens, newest first. -/
def sstIds (names : List FileName) : List ℕ :=
  (names.filterMap parseSstName).insertionSort (· ≥ ·)

theorem mem_walIds {names : List FileName} {n : ℕ} : n ∈ walIds names ↔ .wal n ∈ names := by
  unfold walIds
  rw [List.mem_insertionSort, List.mem_filterMap]
  constructor
  · rintro ⟨name, hname, hparse⟩
    cases name with
    | wal k =>
      cases hparse
      exact hname
    | sst k => cases hparse
  · intro h
    exact ⟨_, h, rfl⟩

theorem mem_sstIds {names : List FileName} {n : ℕ} : n ∈ sstIds names ↔ .sst n ∈ names := by
  unfold sstIds
  rw [List.mem_insertionSort, List.mem_filterMap]
  constructor
  · rintro ⟨name, hname, hparse⟩
    cases name with
    | wal k => cases hparse
    | sst k =>
      cases hparse
      exact hname
  · intro h
    exact ⟨_, h, rfl⟩

/-- The first number above those listed. -/
def firstFree (wals ssts : List ℕ) : ℕ := max (wals.max?.getD 0) (ssts.max?.getD 0) + 1

theorem raiseAbove_ends (n : ℕ) (m : Option ℕ) (w : World) :
    Ends (raiseAbove (n + 1) m) w (fun k w' => k = max n (m.getD 0) + 1 ∧ w' = w)
      fun f w' => w' = w ∧ (∃ msg, f = .panicked msg) ∧ u64Size ≤ max n (m.getD 0) + 1 := by
  cases m with
  | none =>
    refine Ends.ret ⟨?_, rfl⟩
    rw [Option.getD_none, Nat.max_zero]
  | some m =>
    refine Ends.addU64_bind ?_ ?_
    · intro _
      refine Ends.ret ⟨?_, rfl⟩
      rw [Option.getD_some]
      omega
    · intro h
      refine ⟨rfl, ⟨_, rfl⟩, ?_⟩
      rw [Option.getD_some]
      omega

/-- The database returned by `open_with` over the listings `wals` and `ssts`. -/
structure Opened (prims : Primitives) (config : DbConfig) (w : World) (wals ssts : List FileName)
    (db : Db) (w' : World) : Prop where
  sameConfig : db.config = config
  tables : List.Forall₂ (fun n sst => sst.id = n ∧ TableOpens prims config w.disk n sst.reader)
    (sstIds ssts) db.state.sstables
  segments : ∃ hists, List.Forall₂ (SegmentAt w.disk) (walIds wals) hists ∧
    db.state.activeMemtable.recs = sortedRecs hists.flatten ∧
    db.seqno = maxSeqno (maxHeaderSeqno db.state.sstables) hists.flatten
  queue : db.state.immutableMemtables = []
  ctx : ∀ n, n = firstFree (walIds wals) (ssts.filterMap parseSstName) →
    db.ctx = ⟨⟨.wal n, 0, 0⟩, n, 0, n + 1⟩ ∧ n + 1 < u64Size ∧
      SegmentMade n (db.seqno + 1) w.log w'.log
  seqno_lt : db.seqno + 1 < u64Size
  faultless : w.faults = [] → w'.faults = []

/-- No number is left for a file, or for the next commit. -/
def NumbersOut (prims : Primitives) (config : DbConfig) (d : Disk) (wals ssts : List FileName) :
    Prop :=
  u64Size ≤ firstFree (walIds wals) (ssts.filterMap parseSstName) + 1 ∨
  ∃ hists readers, List.Forall₂ (SegmentAt d) (walIds wals) hists ∧
    List.Forall₂ (fun n sst => sst.id = n ∧ TableOpens prims config d n sst.reader)
      (sstIds ssts) readers ∧
    u64Size ≤ maxSeqno (maxHeaderSeqno readers) hists.flatten + 1

def OutOfNumbers (prims : Primitives) (config : DbConfig) (s : Sys) : Prop :=
  NumbersOut prims config (diskOf s.log) (World.list ⟨s.log, []⟩) (World.list ⟨s.log, []⟩)

/-- Why `open_with` does not return `Ok`. -/
def OpenTrouble (prims : Primitives) (config : DbConfig) (w : World) (wals ssts : List FileName)
    (f : Fault) (w' : World) : Prop :=
  w.faults ≠ [] ∨ (w'.log = w.log ∧ ∃ n ∈ walIds wals, ∀ h, ¬ SegmentAt w.disk n h) ∨
  (∃ n ∈ sstIds ssts, ∀ reader, ¬ TableOpens prims config w.disk n reader) ∨
  Panicked f ∧ NumbersOut prims config w.disk wals ssts

theorem openWith_ends (prims : Primitives) (config : DbConfig) (w : World) :
    Ends (openWith prims config) w
      (Opened prims config w (listed w w.faults.head?) (listed w w.faults.tail.head?))
      fun f w' => OpenTrouble prims config w (listed w w.faults.head?)
          (listed w w.faults.tail.head?) f w' ∧
        ∃ q, SegmentLeft w.faults (firstFree (walIds (listed w w.faults.head?))
          ((listed w w.faults.tail.head?).filterMap parseSstName)) q w.log w'.log := by
  unfold openWith
  refine Ends.bind (list_ends w (Q := fun _ _ => False)) ?_ (fun _ _ h => h.elim)
  rintro wals w₁ ⟨hwals, hlog₁, hf₁⟩
  rw [← hwals]
  dsimp only
  have hfree : ∀ ssts : List FileName, ((wals.filterMap parseWalSegmentName).insertionSort
      (· ≤ ·)).max?.getD 0 + 1 ≤ firstFree (walIds wals) (ssts.filterMap parseSstName) :=
    fun ssts => Nat.add_le_add_right (le_max_left _ _) 1
  refine Ends.addU64_bind ?_ ?_
  swap
  · intro hover
    have hle := hfree (listed w w.faults.tail.head?)
    exact ⟨.inr (.inr (.inr ⟨⟨_, rfl⟩, .inl (by omega)⟩)), 0, .inl hlog₁⟩
  intro _
  refine Ends.bind (list_ends w₁ (Q := fun _ _ => False)) ?_ (fun _ _ h => h.elim)
  rintro ssts w₂ ⟨hssts, hlog₂, hf₂⟩
  have hsame : listed w₁ = listed w := by
    funext o
    unfold listed World.list World.disk
    rw [hlog₁]
  rw [hf₁, hsame] at hssts
  rw [← hssts]
  have hlog₂ := hlog₂.trans hlog₁
  have hnil₂ : w.faults = [] → w₂.faults = [] := by
    intro h
    rw [hf₂, hf₁, h]
    rfl
  refine Ends.bind (raiseAbove_ends _ _ w₂) ?_ ?_
  · rintro n w₂' ⟨rfl, hw⟩
    rw [hw]
    have hdisk : w₂.disk = w.disk := congrArg diskOf hlog₂
    refine Ends.bind (openTables_ends prims config (sstIds ssts) w₂) ?_ ?_
    · rintro ⟨tables, m⟩ w₃ ⟨hlog₃, hf₃, htables, hm⟩
      have hlog₃ := hlog₃.trans hlog₂
      have hdisk₃ : w₃.disk = w.disk := congrArg diskOf hlog₃
      rw [hdisk] at htables
      dsimp only at htables hm ⊢
      have hempty : SkipList.new.recs = sortedRecs [] := rfl
      refine Ends.bind (replaySegments_ends (walIds wals) (s := ⟨.new, m⟩) hempty w₃) ?_ ?_
      · rintro s w₄ ⟨hlog₄, hf₄, hists, hall, hrecs, hmax⟩
        have hlog₄ := hlog₄.trans hlog₃
        rw [hdisk₃] at hall
        rw [List.nil_append] at hrecs
        rw [hm] at hmax
        refine Ends.addU64_bind ?_ ?_
        · intro hnum
          refine Ends.bind (openWritable_ends _ w₄) ?_ ?_
          · rintro - w₅ ⟨hlog₅, hf₅, -⟩
            refine Ends.addU64_bind ?_ ?_
            · intro hseq
              refine Ends.bind (create_ends _ _ w₅) ?_ ?_
              · rintro wal w₆ ⟨rfl, hlog₆, hf₆⟩
                refine Ends.ret ⟨rfl, htables, ⟨hists, hall, hrecs, hmax⟩, rfl, ?_, hseq,
                  fun h => hf₆ (hf₅ (hf₄ (hf₃ (hnil₂ h))))⟩
                rintro n rfl
                refine ⟨rfl, hnum, ?_⟩
                rw [SegmentMade, hlog₆, hlog₅, hlog₄]
                rfl
              · rintro f w₆ ⟨hne, -, k, hlog₆⟩
                have hfaulty : w.faults ≠ [] := fun h => hne (hf₅ (hf₄ (hf₃ (hnil₂ h))))
                refine ⟨.inl hfaulty, s.maxSeenSeqno + 1, .inr (.inr ⟨hfaulty, k, ?_⟩)⟩
                rw [hlog₆, hlog₅, hlog₄]
                rfl
            · intro hover
              refine ⟨.inr (.inr (.inr ⟨⟨_, rfl⟩, .inr ⟨hists, tables, hall, htables, ?_⟩⟩)), 0,
                .inr (.inl ?_)⟩
              · rw [← hmax]
                exact hover
              · rw [hlog₅, hlog₄]
                rfl
          · rintro f w₅ ⟨hlog₅, hne, -⟩
            exact ⟨.inl fun h => hne (hf₄ (hf₃ (hnil₂ h))), 0, .inl (hlog₅.trans hlog₄)⟩
        · intro hover
          exact ⟨.inr (.inr (.inr ⟨⟨_, rfl⟩, .inl hover⟩)), 0, .inl hlog₄⟩
      · rintro f w₄ ⟨hlog₄, hcause⟩
        rw [hdisk₃] at hcause
        refine ⟨?_, 0, .inl (hlog₄.trans hlog₃)⟩
        rcases hcause with hne | hno
        · exact .inl fun h => hne (hf₃ (hnil₂ h))
        · exact .inr (.inl ⟨hlog₄.trans hlog₃, hno⟩)
    · rintro f w₃ ⟨hlog₃, hcause⟩
      rw [hdisk] at hcause
      refine ⟨?_, 0, .inl (hlog₃.trans hlog₂)⟩
      rcases hcause with hne | hno
      · exact .inl fun h => hne (hnil₂ h)
      · exact .inr (.inr (.inl hno))
  · rintro f _ ⟨rfl, hpanic, hover⟩
    exact ⟨.inr (.inr (.inr ⟨hpanic, .inl (hover.trans (Nat.le_succ _))⟩)), 0, .inl hlog₂⟩

end PaddockKV.Engine
