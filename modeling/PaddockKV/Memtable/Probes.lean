import PaddockKV.Probe
import PaddockKV.Memtable.Atomic

/-!
# `get` as two atomic steps (`SkipList::get` in `memtable/skiplist.rs`)

A call of `get` makes one load for each link it follows, on all levels, while inserts
go on. What it finds depends on two moments only: the last comparison of its walk on
the bottom level, which gives its position, and the load of its candidate. So calls
and results are those of a memtable with atomic inserts on which `get` is these two
steps (`gets_refine`), which is how the threads of the engine take it.
-/

namespace PaddockKV.Memtable

open Transition

variable {m m' : SkipMem} {L L' : ℕ → List ℕ} {l : List ℕ} {x : Reader} {cur : ℕ}

/-! ### Positions -/

/-- The record at a position; the head has none. -/
def SkipMem.recAt (m : SkipMem) (p : ℕ) : Option Rec :=
  if p = 0 then none else some (m.node p).toRec

/-- `cur` ends a first part of `l` whose records are all before the others. -/
def Cuts (m : SkipMem) (l : List ℕ) (cur : ℕ) : Prop :=
  ∃ A B, l = A ++ B ∧ A.getLastD 0 = cur ∧
    ∀ a ∈ A, ∀ b ∈ B, (m.node a).toRec.Before (m.node b).toRec

theorem Levels.recAt_eq {A B : List ℕ} (h : Levels m L) (hAB : L 0 = A ++ B) :
    m.recAt (A.getLastD 0) = (m.recsOf A).getLast? := by
  rcases List.eq_nil_or_concat A with rfl | ⟨A', p, rfl⟩
  · rfl
  · have hp : p ≠ 0 := (h.alloc p (by simp [hAB])).1.ne'
    simp [SkipMem.recAt, SkipMem.recsOf, hp]

/-- The bottom link of a position leads to the record that follows it. -/
theorem Cuts.loads (hc : Cuts m (L 0) cur) (h : Levels m L) :
    following m.contents (m.recAt cur) = (m.fwd cur 0).map fun q => (m.node q).toRec := by
  obtain ⟨A, B, hAB, rfl, hlt⟩ := hc
  have hpath := h.path 0
  have hsorted := h.sorted_contents
  rw [hAB] at hpath
  rw [h.contents_eq, hAB, recsOf_append] at hsorted
  rw [hpath.next_getLastD, h.recAt_eq hAB, h.contents_eq, hAB, recsOf_append,
    following_append hsorted]
  · exact List.head?_map
  · simpa [SkipMem.recsOf] using hlt

theorem Cuts.congr (hc : Cuts m l cur) (hnode : ∀ p ∈ l, m'.node p = m.node p) :
    Cuts m' l cur := by
  obtain ⟨A, B, rfl, hcur, hlt⟩ := hc
  refine ⟨A, B, rfl, hcur, ?_⟩
  intro a ha b hb
  rw [hnode a (List.mem_append_left B ha), hnode b (List.mem_append_right A hb)]
  exact hlt a ha b hb

theorem Cuts.recAt_congr (hc : Cuts m l cur) (hnode : ∀ p ∈ l, m'.node p = m.node p) :
    m'.recAt cur = m.recAt cur := by
  obtain ⟨A, B, rfl, rfl, -⟩ := hc
  rcases List.eq_nil_or_concat A with rfl | ⟨A', p, rfl⟩
  · rfl
  · simp [SkipMem.recAt, hnode p (by simp)]

/-- A node that comes in stays on one side of the cut: behind it when all records in
front are smaller, else in front of a record that is. -/
theorem Cuts.insert {A B : List ℕ} {n : ℕ} (hc : Cuts m (A ++ B) cur)
    (hA : ∀ a ∈ A, (m.node a).toRec.Before (m.node n).toRec)
    (hB : ∀ b ∈ B, ¬ (m.node b).toRec.Before (m.node n).toRec) : Cuts m (A ++ n :: B) cur := by
  obtain ⟨C, D, hCD, hcur, hlt⟩ := hc
  rcases List.append_eq_append_iff.mp hCD with ⟨E, rfl, rfl⟩ | ⟨E, rfl, rfl⟩
  · cases E with
    | nil =>
      refine ⟨A, n :: D, by simp, by simpa using hcur, ?_⟩
      intro a ha d hd
      rcases List.mem_cons.mp hd with rfl | hd
      · exact hA a ha
      · exact hlt a (by simpa using ha) d hd
    | cons e E =>
      refine ⟨A ++ n :: e :: E, D, by simp, by simpa using hcur, ?_⟩
      intro c hc d hd
      by_cases hcn : c = n
      · subst hcn
        by_contra hnd
        exact Rec.not_before_trans hnd (hB e (by simp)) (hlt e (by simp) d hd)
      · have hc' : c ∈ A ++ e :: E := by simpa [hcn] using hc
        exact hlt c hc' d hd
  · refine ⟨C, E ++ n :: B, by simp, hcur, ?_⟩
    intro c hc d hd
    by_cases hdn : d = n
    · subst hdn
      exact hA c (List.mem_append_left E hc)
    · have hd' : d ∈ E ++ B := by simpa [hdn] using hd
      exact hlt c hc d hd'

/-- Where the walk ends on the bottom level. -/
theorem cuts_of_stop (h : Levels m L) (hs : Standing m L x 0 cur)
    (hstop : ∀ q, m.fwd cur 0 = some q → ¬ m.Less q x.key x.snapshot) :
    Cuts m (L 0) cur ∧ m.recAt cur = walkEnd m.contents x.key x.snapshot := by
  obtain ⟨A, B, hAB, hcur, hB, hA, hBs⟩ := h.cut hs.1
  have hbefore : ∀ a ∈ A, KeyBefore (m.node a).key (m.node a).seqno x.key x.snapshot := by
    intro a ha
    exact (less_iff ..).mp (hs.less hA a ha)
  have hnot : ∀ b ∈ B, ¬ KeyBefore (m.node b).key (m.node b).seqno x.key x.snapshot := by
    intro b hb hlt
    obtain ⟨q, hq⟩ : ∃ q, B.head? = some q := by
      cases B with
      | nil => cases hb
      | cons q B => exact ⟨q, rfl⟩
    have hqn := hstop q (hB ▸ hq)
    rcases hBs q hq b hb with rfl | hqb
    · exact hqn ((less_iff ..).mpr hlt)
    · exact hqn (hqb.less ((less_iff ..).mpr hlt))
  refine ⟨⟨A, B, hAB, hcur, ?_⟩, ?_⟩
  · intro a ha b hb
    exact before_of_keyBefore (hbefore a ha) (hnot b hb)
  · rw [← hcur, h.recAt_eq hAB, h.contents_eq, hAB, recsOf_append, walkEnd_append]
    · exact List.forall_mem_map.mpr hbefore
    · exact List.forall_mem_map.mpr hnot

/-! ### `get` beside atomic inserts -/

/-- A call of `get`: under way, or at its position. -/
inductive Probe where
  | idle
  | walking (key : Key) (snapshot : ℕ)
  | standing (key : Key) (snapshot : ℕ) (cur : Option Rec)

inductive GetEvent (ι : Type) where
  | get (i : ι) (key : Key) (snapshot : ℕ)
  | found (i : ι) (hit : Option Rec)
  deriving DecidableEq

variable {ι : Type} [DecidableEq ι] {s s' : Machine ι}

inductive ProbeStep (recs : List Rec) (c : ι → Probe) :
    Option (GetEvent ι) → (ι → Probe) → Prop where
  | get (i : ι) (key : Key) (snapshot : ℕ) : c i = .idle →
      ProbeStep recs c (some (.get i key snapshot)) (Function.update c i (.walking key snapshot))
  | walked (i : ι) (key : Key) (snapshot : ℕ) : c i = .walking key snapshot →
      ProbeStep recs c none
        (Function.update c i (.standing key snapshot (walkEnd recs key snapshot)))
  | found (i : ι) (key : Key) (snapshot : ℕ) (cur : Option Rec) : c i = .standing key snapshot cur →
      ProbeStep recs c (some (.found i ((following recs cur).filter fun r => r.Visible key snapshot)))
        (Function.update c i .idle)

def Reader.probe (m : SkipMem) (x : Reader) : Probe :=
  match x.pc with
  | .idle | .done _ => .idle
  | .loadMax | .walk _ _ => .walking x.key x.snapshot
  | .candidate cur => .standing x.key x.snapshot (m.recAt cur)

def Reader.shown (m : SkipMem) (i : ι) (x : Reader) : List (MemEvent (GetEvent ι)) :=
  match x.pc with
  | .done result => [.read (.found i (result.map fun q => (m.node q).toRec))]
  | _ => []

/-- The events of a step into `s`. -/
def Machine.shown : Action ι → Machine ι → List (MemEvent (GetEvent ι))
  | .insert key value seqno op, _ => [.insert (storedRec key value seqno op)]
  | .write, s => s.writer.shown
  | .get r key snapshot, _ => [.read (.get r key snapshot)]
  | .read r, s => (s.readers r).shown s.mem r

def Machine.spec {ι : Type} (s : Machine ι) : MemSpec (ι → Probe) :=
  s.mem.spec s.writer fun r => (s.readers r).probe s.mem

/-! ### The readers' positions -/

def Reader.Placed (m : SkipMem) (L : ℕ → List ℕ) (x : Reader) : Prop :=
  match x.pc with
  | .idle | .loadMax | .done _ => True
  | .walk level cur => Standing m L x level cur
  | .candidate cur => Cuts m (L 0) cur

def Machine.Placed {ι : Type} (s : Machine ι) : Prop :=
  ∃ L, Levels s.mem L ∧ WriterInv s.mem L s.writer ∧ ∀ r, (s.readers r).Placed s.mem L

theorem Reader.Placed.grows (hx : x.Placed m L) (h : Levels m L) (hg : Grows m L m' L')
    (hcut : ∀ cur, Cuts m (L 0) cur → Cuts m' (L' 0) cur) : x.Placed m' L' := by
  unfold Reader.Placed at hx ⊢
  cases hpc : x.pc with
  | walk level cur =>
    rw [hpc] at hx
    exact Standing.grows hx h hg
  | candidate cur =>
    rw [hpc] at hx
    exact hcut cur hx
  | _ => trivial

theorem Reader.Placed.probe_congr (hx : x.Placed m L) (hnode : ∀ p ∈ L 0, m'.node p = m.node p) :
    x.probe m' = x.probe m := by
  unfold Reader.Placed at hx
  unfold Reader.probe
  cases hpc : x.pc with
  | candidate cur =>
    rw [hpc] at hx
    simp only [hx.recAt_congr hnode]
  | _ => rfl

/-- A load of `get` goes on with the walk, ends it, or finds the candidate. -/
inductive Loads (m : SkipMem) (L : ℕ → List ℕ) (x x' : Reader) : Prop where
  | on : x'.probe m = x.probe m → (∀ r, x'.pc ≠ .done r) → Loads m L x x'
  | ends : x.probe m = .walking x.key x.snapshot → (∀ r, x'.pc ≠ .done r) →
      x'.probe m = .standing x.key x.snapshot (walkEnd m.contents x.key x.snapshot) →
      Loads m L x x'
  | finds (cur : ℕ) : x.probe m = .standing x.key x.snapshot (m.recAt cur) → Cuts m (L 0) cur →
      x'.pc = .done ((m.fwd cur 0).filter fun q => decide (m.Visible x.key x.snapshot q)) →
      Loads m L x x'

theorem enterLevel_loads {level f : ℕ} (h : Levels m L) (hs : Standing m L x level cur)
    (hstop : ∀ q, m.fwd cur level = some q → ¬ m.Less q x.key x.snapshot)
    (hwalking : x.probe m = .walking x.key x.snapshot) :
    Reader.Placed m L { x with pc := enterLevel level cur, finish := f } ∧
      Loads m L x { x with pc := enterLevel level cur, finish := f } := by
  cases level with
  | zero =>
    obtain ⟨hcut, hrec⟩ := cuts_of_stop h hs hstop
    refine ⟨hcut, .ends hwalking (fun r => ReaderPc.noConfusion) ?_⟩
    rw [← hrec]
    rfl
  | succ level => exact ⟨⟨h.down hs.1, hs.2⟩, .on hwalking.symm fun r => ReaderPc.noConfusion⟩

theorem readerStep_loads {f : ℕ} (h : Levels m L) (hx : x.Placed m L)
    (hpc : x.pc ≠ .idle ∧ ∀ r, x.pc ≠ .done r) :
    Reader.Placed m L { x with pc := readerStep m x.key x.snapshot x.pc, finish := f } ∧
      Loads m L x { x with pc := readerStep m x.key x.snapshot x.pc, finish := f } := by
  unfold Reader.Placed at hx
  cases hxp : x.pc with
  | idle => exact absurd hxp hpc.1
  | done result => exact absurd hxp (hpc.2 result)
  | loadMax =>
    have h0 : Standing m L x m.maxHeight 0 := ⟨by simp, .inl rfl⟩
    refine enterLevel_loads h h0 ?_ (by simp [Reader.probe, hxp])
    intro q hq
    have hmem := h.next_mem h0.1 hq
    rw [h.above m.maxHeight le_rfl] at hmem
    cases hmem
  | walk level cur =>
    rw [hxp] at hx
    have hwalking : x.probe m = .walking x.key x.snapshot := by simp [Reader.probe, hxp]
    simp only [readerStep]
    cases hq : m.fwd cur level with
    | none => exact enterLevel_loads h hx (by simp [hq]) hwalking
    | some q =>
      dsimp only
      split
      · rename_i hlt
        refine ⟨⟨List.mem_cons_of_mem 0 (h.next_mem hx.1 hq), .inr hlt⟩, .on ?_ ?_⟩
        · exact hwalking.symm
        · exact fun r => ReaderPc.noConfusion
      · rename_i hlt
        refine enterLevel_loads h hx ?_ hwalking
        intro q' hq'
        obtain rfl : q = q' := by simpa [hq] using hq'
        exact hlt
  | candidate cur =>
    rw [hxp] at hx
    rw [readerStep_candidate]
    exact ⟨trivial, .finds cur (by simp [Reader.probe, hxp]) hx rfl⟩

/-! ### All interleavings -/

theorem setReader_spec (s : Machine ι) (r : ι) (x : Reader) : (s.setReader r x).spec =
    s.mem.spec s.writer (Function.update s.spec.readers r (x.probe s.mem)) := by
  refine MemSpec.ext rfl rfl ?_
  funext q
  by_cases hq : q = r <;> simp [Machine.spec, Machine.setReader, SkipMem.spec, hq]

theorem setReader_placed {r : ι} (hi : ∀ q, (s.readers q).Placed s.mem L)
    (hx : x.Placed s.mem L) (q : ι) : ((s.setReader r x).readers q).Placed s.mem L := by
  by_cases hq : q = r
  · subst hq
    simpa [Machine.setReader] using hx
  · simpa [Machine.setReader, hq] using hi q

omit [DecidableEq ι] in
theorem writer_probes {pc : WriterPc}
    (hreaders : ∀ r, (s.readers r).probe m = (s.readers r).probe s.mem) :
    Machine.spec { s with mem := m, writer := pc } = m.spec pc fun r => (s.readers r).probe s.mem :=
  MemSpec.ext rfl rfl (funext hreaders)

omit [DecidableEq ι] in
theorem shown_of_not_done {i : ι} (h : ∀ r, x.pc ≠ .done r) : x.shown m i = [] := by
  unfold Reader.shown
  cases hpc : x.pc with
  | done result => exact absurd hpc (h result)
  | _ => rfl

/-- What the abstract `get` finds is the record of the node that the load finds. -/
theorem Cuts.found (hc : Cuts m (L 0) cur) (h : Levels m L) (key : Key) (snapshot : ℕ) :
    (following m.contents (m.recAt cur)).filter (fun r => r.Visible key snapshot) =
      ((m.fwd cur 0).filter fun q => decide (m.Visible key snapshot q)).map
        fun q => (m.node q).toRec := by
  rw [hc.loads h, Option.filter_map]
  rfl

theorem read_traces {r : ι} {x' : Reader} (h : Levels s.mem L)
    (hload : Loads s.mem L (s.readers r) x') :
    Traces (MemStep ProbeStep) s.spec (x'.shown s.mem r) (s.setReader r x').spec := by
  rw [setReader_spec]
  cases hload with
  | on hprobe hrun =>
    have hsame : Function.update s.spec.readers r (x'.probe s.mem) = s.spec.readers := by
      rw [hprobe]
      exact Function.update_eq_self r _
    rw [shown_of_not_done hrun, hsame]
    exact .refl _
  | ends hwalking hrun hstanding =>
    rw [shown_of_not_done hrun, hstanding]
    exact .silent (.silent (.walked r _ _ hwalking)) (.refl _)
  | finds cur hstanding hcut hdone =>
    have hshown : x'.shown s.mem r = [.read (.found r ((following s.mem.contents
        (s.mem.recAt cur)).filter fun q => q.Visible (s.readers r).key (s.readers r).snapshot))] := by
      rw [hcut.found h]
      simp [Reader.shown, hdone]
    have hidle : x'.probe s.mem = .idle := by simp [Reader.probe, hdone]
    rw [hshown, hidle]
    exact .single (.read (.found r _ _ _ hstanding))

/-- One access is matched by steps of the memtable that show the same. -/
theorem next_matched {a : Action ι} (hi : s.Placed) (h : s.next a = some s') :
    s'.Placed ∧ Traces (MemStep ProbeStep) s.spec (Machine.shown a s') s'.spec := by
  obtain ⟨L, hL, hw, hr⟩ := hi
  cases a with
  | insert key value seqno op =>
    simp only [Machine.next] at h
    split at h
    · rename_i hidle
      rw [hidle] at hw
      obtain ⟨⟨m', pc'⟩, hstart, rfl⟩ := Option.map_eq_some_iff.mp h
      have hnode := node_startInsert hL hstart
      constructor
      · obtain ⟨rfl, rfl⟩ := startInsert_eq hstart
        obtain ⟨hL', hw'⟩ := allocateAt_inv _ _ key value seqno op hL hw (randomHeight_bounds _).1
        exact ⟨L, hL', hw', fun r => (hr r).grows hL (allocateAt_grows ..) fun cur hc => hc.congr hnode⟩
      · rw [writer_probes fun r => (hr r).probe_congr hnode, Machine.spec, hidle]
        exact insert_traces hL hw hstart _
    · cases h
  | write =>
    simp only [Machine.next] at h
    split at h
    · cases h
    · rename_i hbusy
      obtain rfl := Option.some.inj h
      have hnode : ∀ p ∈ L 0, (writerStep s.mem s.writer).1.node p = s.mem.node p :=
        fun p _ => node_writerStep s.mem s.writer p
      constructor
      · obtain ⟨L', hL', hw', hg, hcases⟩ := bottom_writerStep hL hw
        refine ⟨L', hL', hw', fun r => (hr r).grows hL hg ?_⟩
        intro cur hc
        have hc' : Cuts s.mem (L' 0) cur := by
          rcases hcases with ⟨hsame, -⟩ | ⟨n, A, B, hAB, hbottom, hA, hB, -⟩
          · rw [hsame]
            exact hc
          · rw [hAB] at hc
            rw [hbottom]
            exact hc.insert hA hB
        exact hc'.congr fun p _ => node_writerStep s.mem s.writer p
      · rw [writer_probes fun r => (hr r).probe_congr hnode]
        exact write_traces hL hw hbusy _
  | get r key snapshot =>
    have hs' : (s.readers r).probe s.mem = .idle ∧
        s' = s.setReader r ⟨key, snapshot, s.mem.len, 0, .loadMax⟩ := by
      simp only [Machine.next] at h
      split at h <;> simp_all [Reader.probe]
    obtain ⟨hidle, rfl⟩ := hs'
    refine ⟨⟨L, hL, hw, setReader_placed hr trivial⟩, ?_⟩
    rw [setReader_spec]
    exact .single (.read (.get r key snapshot hidle))
  | read r =>
    have hs' : ((s.readers r).pc ≠ .idle ∧ ∀ res, (s.readers r).pc ≠ .done res) ∧
        s' = s.setReader r { s.readers r with
          pc := readerStep s.mem (s.readers r).key (s.readers r).snapshot (s.readers r).pc,
          finish := s.mem.nodes.length - 1 } := by
      simp only [Machine.next] at h
      split at h <;> simp_all
    obtain ⟨hpc, rfl⟩ := hs'
    obtain ⟨hplaced, hload⟩ := readerStep_loads hL (hr r) hpc
    refine ⟨⟨L, hL, hw, setReader_placed hr hplaced⟩, ?_⟩
    simpa [Machine.shown, Machine.setReader] using read_traces hL hload

omit [DecidableEq ι] in
theorem init_placed : (Machine.init : Machine ι).Placed := by
  obtain ⟨L, hL, hw, -⟩ := @init_inv ι
  exact ⟨L, hL, hw, fun _ => trivial⟩

/-- What callers see of any run of the writer and of any number of calls of `get` they
can see of the memtable with atomic inserts, where a `get` takes its position in one
step and finds what follows it in another. -/
theorem gets_refine {actions : List (Action ι)} {events : List (MemEvent (GetEvent ι))}
    (h : runEvents Machine.next Machine.shown .init actions = some (s, events)) :
    Traces (MemStep ProbeStep) (.init fun _ => .idle) events s.spec := by
  refine @traces_of_run _ _ _ _ _ _ _ Machine.Placed Machine.spec ?_ _ _ _ _ init_placed h
  intro s a s' hi hn
  exact next_matched hi hn

-- an insert that lands between the two steps is what the second one finds
theorem gets_refine_interleaved : ∃ (s : Machine Unit) (events : List (MemEvent (GetEvent Unit))),
    runEvents Machine.next Machine.shown .init (interleaved 2 1) = some (s, events) ∧
    events = [.insert ⟨[1], 5, .put, [7]⟩, .inserted, .read (.get () [1] 10),
      .insert ⟨[1], 20, .put, [8]⟩, .inserted, .read (.found () none)] ∧
    Traces (MemStep ProbeStep) (.init fun _ => .idle) events s.spec := by
  have hrun : (runEvents Machine.next Machine.shown .init (interleaved 2 1)).map Prod.snd =
      some [.insert ⟨[1], 5, .put, [7]⟩, .inserted, .read (.get () [1] 10),
        .insert ⟨[1], 20, .put, [8]⟩, .inserted, .read (.found () none)] := by
    decide +kernel
  obtain ⟨⟨s, events⟩, hs, hevents⟩ := Option.map_eq_some_iff.mp hrun
  exact ⟨s, events, hs, hevents, gets_refine hs⟩

end PaddockKV.Memtable
