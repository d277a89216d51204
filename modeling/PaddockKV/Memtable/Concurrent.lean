import PaddockKV.Lib.Transition
import PaddockKV.Memtable.Steps

/-!
# Lock-free reads during inserts

One writer and any number of readers share a skip list; every step is one
atomic access. `get` ends its walk with a load that shows no smaller record
behind its position, and then loads the same link once more to pick its
candidate. An insert that publishes a smaller record at that position in
between makes `get` look at the wrong node: `get_misses_present_entry`. Without
such a race `get` returns the newest visible entry: `get_newest_of_unraced`.
-/

namespace PaddockKV.Memtable

open Transition

/-- A thread that calls `get`. `start` and `finish` are bookkeeping: how many
inserts were complete when the call began, and how many had begun at its last
access. -/
structure Reader where
  key : Key
  snapshot : ℕ
  start : ℕ
  finish : ℕ
  pc : ReaderPc

structure Machine (ι : Type) where
  mem : SkipMem
  writer : WriterPc
  readers : ι → Reader

inductive Action (ι : Type) where
  | insert (key : Key) (value : Value) (seqno : ℕ) (op : OpType)
  | write
  | get (r : ι) (key : Key) (snapshot : ℕ)
  | read (r : ι)

variable {ι : Type}

namespace Machine

def init : Machine ι := ⟨.new, .idle, fun _ => ⟨[], 0, 0, 0, .idle⟩⟩

def setReader [DecidableEq ι] (s : Machine ι) (r : ι) (x : Reader) : Machine ι :=
  { s with readers := Function.update s.readers r x }

/-- The moves of the writer (`insert`, `write`) and of the readers (`get`, `read`). -/
def next [DecidableEq ι] (s : Machine ι) : Action ι → Option (Machine ι)
  | .insert key value seqno op =>
    match s.writer with
    | .idle =>
      (startInsert s.mem key value seqno op).map fun x => { s with mem := x.1, writer := x.2 }
    | _ => none
  | .write =>
    match s.writer with
    | .idle => none
    | pc => some { s with mem := (writerStep s.mem pc).1, writer := (writerStep s.mem pc).2 }
  | .get r key snapshot =>
    match (s.readers r).pc with
    | .idle | .done _ => some (s.setReader r ⟨key, snapshot, s.mem.len, 0, .loadMax⟩)
    | _ => none
  | .read r =>
    let x := s.readers r
    match x.pc with
    | .idle | .done _ => none
    | pc => some (s.setReader r { x with
        pc := readerStep s.mem x.key x.snapshot pc, finish := s.mem.nodes.length - 1 })

end Machine

/-! ### What `get` should return -/

/-- Node `p` is a version of `key` visible at `snapshot`. -/
def SkipMem.Visible (m : SkipMem) (key : Key) (snapshot p : ℕ) : Prop :=
  (m.node p).key = key ∧ (m.node p).seqno ≤ snapshot

instance (m : SkipMem) (key : Key) (snapshot p : ℕ) : Decidable (m.Visible key snapshot p) :=
  inferInstanceAs (Decidable (_ ∧ _))

/-- `result` is the newest visible entry among the nodes of `E`; of two entries
with the same sequence number the one inserted later is newer. -/
def NewestIn (m : SkipMem) (E : Set ℕ) (key : Key) (snapshot : ℕ) : Option ℕ → Prop
  | none => ∀ p ∈ E, ¬ m.Visible key snapshot p
  | some p => p ∈ E ∧ m.Visible key snapshot p ∧ ∀ q ∈ E, m.Visible key snapshot q →
      (m.node q).seqno < (m.node p).seqno ∨ ((m.node q).seqno = (m.node p).seqno ∧ q ≤ p)

/-- The result is newest among the entries complete before the call and some
of those inserted during it. -/
def Correct (m : SkipMem) (x : Reader) (result : Option ℕ) : Prop :=
  ∃ E : Set ℕ, (∀ p, 0 < p → p ≤ x.start → p ∈ E) ∧ (∀ p ∈ E, 0 < p ∧ p ≤ x.finish) ∧
    NewestIn m E x.key x.snapshot result

/-- A visible entry was complete before the call. -/
def Present (m : SkipMem) (x : Reader) : Prop :=
  ∃ p, p < x.start + 1 ∧ 0 < p ∧ m.Visible x.key x.snapshot p

instance (m : SkipMem) (x : Reader) : Decidable (Present m x) :=
  inferInstanceAs (Decidable (∃ p, p < x.start + 1 ∧ _))

/-- Reader `r` is about to load its candidate at the very link through which
the writer is about to publish a record that sorts before what `r` looks for,
and `r` has something to find. -/
def Machine.races (s : Machine ι) (r : ι) : Bool :=
  match s.writer, (s.readers r).pc with
  | .linkPrev n 0 links, .candidate cur =>
    decide (cur = links.prev 0 ∧ s.mem.Less n (s.readers r).key (s.readers r).snapshot ∧
      Present s.mem (s.readers r))
  | _, _ => false

/-- The writer publishes nothing into the gap between a reader's last
comparison and its candidate load. -/
def Unraced (s : Machine ι) : Action ι → Prop
  | .write => ∀ r, s.races r = false
  | _ => True

instance [Fintype ι] (s : Machine ι) : (a : Action ι) → Decidable (Unraced s a)
  | .write => inferInstanceAs (Decidable (∀ r, s.races r = false))
  | .insert _ _ _ _ | .get _ _ _ | .read _ => instDecidableTrue

/-! ### The readers' invariant -/

variable {m m' : SkipMem} {L L' : ℕ → List ℕ} {x : Reader}

/-- The position `cur` of a walk for `x`: on the level's chain and before the target. -/
def Standing (m : SkipMem) (L : ℕ → List ℕ) (x : Reader) (level cur : ℕ) : Prop :=
  cur ∈ 0 :: L level ∧ (cur = 0 ∨ m.Less cur x.key x.snapshot)

def ReaderInv (m : SkipMem) (L : ℕ → List ℕ) (x : Reader) : Prop :=
  x.start ≤ m.len ∧
    match x.pc with
    | .idle | .loadMax => True
    | .walk level cur => Standing m L x level cur
    | .candidate cur => Standing m L x 0 cur ∧
        (Present m x → ∀ q, m.fwd cur 0 = some q → ¬ m.Less q x.key x.snapshot)
    | .done result => x.finish < m.nodes.length ∧ Correct m x result

theorem WriterInv.complete {pc : WriterPc} (hw : WriterInv m L pc) :
    m.len < m.nodes.length ∧ ∀ p, 0 < p → p ≤ m.len → p ∈ L 0 := by
  have fresh : ∀ {n}, Fresh m L n → m.len < m.nodes.length ∧ ∀ p, 0 < p → p ≤ m.len → p ∈ L 0 := by
    intro n hf
    exact ⟨by have := hf.nodes; omega, fun p h0 hp => (hf.mem p).mpr ⟨h0, hp⟩⟩
  have linking : ∀ {n level links}, Linking m L n level links →
      m.len < m.nodes.length ∧ ∀ p, 0 < p → p ≤ m.len → p ∈ L 0 := by
    intro n level links hk
    exact ⟨by have := hk.nodes; omega, fun p h0 hp => (hk.mem p).mpr (.inl ⟨h0, hp⟩)⟩
  cases pc with
  | idle => exact ⟨by have := hw.1; omega, fun p h0 hp => (hw.2 p).mpr ⟨h0, hp⟩⟩
  | findActive n => exact fresh hw
  | find n level cur links => exact fresh hw.1
  | loadMax n links => exact fresh hw.1
  | storeMax n links => exact fresh hw.1
  | linkNode n level links => exact linking hw
  | linkPrev n level links => exact linking hw.1

/-! ### Readers while the writer moves -/

theorem visible_congr {p : ℕ} (hp : m'.node p = m.node p) (key : Key) (snapshot : ℕ) :
    m'.Visible key snapshot p ↔ m.Visible key snapshot p := by
  simp [SkipMem.Visible, hp]

theorem Standing.grows {level cur : ℕ} (hs : Standing m L x level cur) (h : Levels m L)
    (hg : Grows m L m' L') : Standing m' L' x level cur := by
  refine ⟨hg.mem_cons hs.1, ?_⟩
  rcases List.mem_cons.mp hs.1 with rfl | hmem
  · exact .inl rfl
  · have hnode := hg.node cur (h.alloc cur (h.subset_zero level hmem)).2
    exact hs.2.imp_right (less_congr hnode _ _).mpr

theorem present_of_grows (hg : Grows m L m' L') (hlt : x.start < m.nodes.length)
    (hp : Present m' x) : Present m x := by
  obtain ⟨p, hps, h0, hv⟩ := hp
  exact ⟨p, hps, h0, (visible_congr (hg.node p (by omega)) _ _).mp hv⟩

theorem Correct.grows {result : Option ℕ} (hc : Correct m x result) (hg : Grows m L m' L')
    (hlt : x.finish < m.nodes.length) : Correct m' x result := by
  obtain ⟨E, hstart, hfin, hnew⟩ := hc
  have hnode : ∀ p ∈ E, m'.node p = m.node p := by
    intro p hp
    exact hg.node p ((hfin p hp).2.trans_lt hlt)
  refine ⟨E, hstart, hfin, ?_⟩
  cases result with
  | none =>
    intro p hp hv
    exact hnew p hp ((visible_congr (hnode p hp) _ _).mp hv)
  | some p =>
    obtain ⟨hpE, hv, hmax⟩ := hnew
    refine ⟨hpE, (visible_congr (hnode p hpE) _ _).mpr hv, ?_⟩
    intro q hq hvq
    rw [hnode q hq, hnode p hpE]
    exact hmax q hq ((visible_congr (hnode q hq) _ _).mp hvq)

/-- A change of the shared list keeps a reader's invariant when it leaves the
reader's bottom link alone, or puts a record there that is not smaller. -/
theorem ReaderInv.grows (hr : ReaderInv m L x) (h : Levels m L) (hlen : m.len < m.nodes.length)
    (hg : Grows m L m' L')
    (hcand : ∀ cur, x.pc = .candidate cur → Present m x → ∀ q, m'.fwd cur 0 = some q →
      m.fwd cur 0 = some q ∨ ¬ m'.Less q x.key x.snapshot) : ReaderInv m' L' x := by
  obtain ⟨hstart, hpc⟩ := hr
  refine ⟨hstart.trans hg.len_le, ?_⟩
  cases hx : x.pc with
  | idle => trivial
  | loadMax => trivial
  | walk level cur =>
    rw [hx] at hpc
    exact Standing.grows hpc h hg
  | candidate cur =>
    rw [hx] at hpc
    refine ⟨hpc.1.grows h hg, ?_⟩
    intro hp q hq
    have hp' := present_of_grows hg (by omega) hp
    rcases hcand cur hx hp' q hq with hold | hnew
    · have hqL := h.next_mem hpc.1.1 hold
      rw [less_congr (hg.node q (h.alloc q hqL).2)]
      exact hpc.2 hp' q hold
    · exact hnew
  | done result =>
    rw [hx] at hpc
    exact ⟨hpc.1.trans_le hg.nodes_le, hpc.2.grows hg hpc.1⟩

/-! ### A reader's own loads -/

theorem enterLevel_inv {level cur : ℕ} (h : Levels m L) (hstart : x.start ≤ m.len)
    (hs : Standing m L x level cur)
    (hstop : ∀ q, m.fwd cur level = some q → ¬ m.Less q x.key x.snapshot) (f : ℕ) :
    ReaderInv m L { x with pc := enterLevel level cur, finish := f } := by
  refine ⟨hstart, ?_⟩
  cases level with
  | zero => exact ⟨hs, fun _ => hstop⟩
  | succ level => exact ⟨h.down hs.1, hs.2⟩

theorem Standing.less {cur : ℕ} {A : List ℕ} (hs : Standing m L x 0 cur)
    (hA : ∀ a ∈ A, cur ≠ 0 ∧ (a = cur ∨ m.Before a cur)) : ∀ a ∈ A, m.Less a x.key x.snapshot := by
  intro a ha
  obtain ⟨hcur0, hac⟩ := hA a ha
  have hcur := hs.2.resolve_left hcur0
  rcases hac with rfl | hac
  · exact hcur
  · exact hac.less hcur

theorem newest_of_stop {cur : ℕ} (h : Levels m L) (hs : Standing m L x 0 cur)
    (hstop : ∀ q, m.fwd cur 0 = some q → ¬ m.Less q x.key x.snapshot) :
    NewestIn m {p | p ∈ L 0} x.key x.snapshot
      ((m.fwd cur 0).filter fun q => decide (m.Visible x.key x.snapshot q)) := by
  obtain ⟨A, B, hL, -, hB, hA, hBs⟩ := h.cut hs.1
  have hless := hs.less hA
  -- visible nodes are not before the target, hence behind `cur`
  have hbehind : ∀ q ∈ L 0, m.Visible x.key x.snapshot q → q ∈ B := by
    intro q hq hv
    rw [hL] at hq
    refine (List.mem_append.mp hq).resolve_left ?_
    intro hqA
    exact ((less_iff ..).mp (hless q hqA)).not_match hv
  cases hq : m.fwd cur 0 with
  | none =>
    have hBnil : B = [] := by
      rw [hq] at hB
      exact List.head?_eq_none_iff.mp hB
    intro p hp hv
    have := hbehind p hp hv
    simp [hBnil] at this
  | some q =>
    rw [hq] at hB
    have hqL : q ∈ L 0 := h.next_mem hs.1 hq
    have hrest := hBs q hB
    by_cases hv : m.Visible x.key x.snapshot q
    · rw [Option.filter_some_pos (by simpa using hv)]
      refine ⟨hqL, hv, ?_⟩
      intro p hp hvp
      rcases hrest p (hbehind p hp hvp) with rfl | hqp
      · exact .inr ⟨rfl, le_rfl⟩
      · rcases hqp with (hk | ⟨-, hlt⟩) | ⟨-, heq, hlt⟩
        · exact absurd (hv.1.trans hvp.1.symm) hk.ne
        · exact .inl hlt
        · exact .inr ⟨heq.symm, hlt.le⟩
    · rw [Option.filter_some_neg (by simpa using hv)]
      -- the candidate is past the last version of the key
      have hkey : x.key < (m.node q).key := by
        have := hstop q hq
        rw [less_iff] at this
        exact (visible_or_lt_of_not_before this).resolve_left hv
      intro p hp hvp
      rcases hrest p (hbehind p hp hvp) with rfl | hqp
      · exact hv hvp
      · have hle : (m.node q).key ≤ (m.node p).key := by
          rcases hqp with (hk | ⟨hk, -⟩) | ⟨hk, -, -⟩
          · exact hk.le
          · exact hk.le
          · exact hk.le
        rw [hvp.1] at hle
        exact absurd hkey hle.not_gt

theorem candidate_correct {cur : ℕ} (h : Levels m L) (hlen : m.len < m.nodes.length)
    (hcomp : ∀ p, 0 < p → p ≤ m.len → p ∈ L 0) (hstart : x.start ≤ m.len)
    (hs : Standing m L x 0 cur)
    (hstop : Present m x → ∀ q, m.fwd cur 0 = some q → ¬ m.Less q x.key x.snapshot)
    (hfin : x.finish = m.nodes.length - 1) :
    Correct m x ((m.fwd cur 0).filter fun q => decide (m.Visible x.key x.snapshot q)) := by
  by_cases hp : Present m x
  · refine ⟨{p | p ∈ L 0}, ?_, ?_, newest_of_stop h hs (hstop hp)⟩
    · intro p h0 hp
      exact hcomp p h0 (hp.trans hstart)
    · intro p hp
      have := h.alloc p hp
      omega
  · -- nothing to find: whatever the load shows was inserted during the call
    have hnone : ∀ p, 0 < p → p ≤ x.start → ¬ m.Visible x.key x.snapshot p := by
      intro p h0 hps hv
      exact hp ⟨p, Nat.lt_succ_of_le hps, h0, hv⟩
    have hold : ∀ p, 0 < p ∧ p ≤ x.start → 0 < p ∧ p ≤ x.finish := by
      intro p hp
      omega
    by_cases hq : ∃ q, m.fwd cur 0 = some q ∧ m.Visible x.key x.snapshot q
    · obtain ⟨q, hq, hv⟩ := hq
      have hqalloc := h.alloc q (h.next_mem hs.1 hq)
      rw [hq, Option.filter_some_pos (by simpa using hv)]
      refine ⟨{p | (0 < p ∧ p ≤ x.start) ∨ p = q}, fun p h0 hps => .inl ⟨h0, hps⟩, ?_, .inr rfl,
        hv, ?_⟩
      · rintro p (hp | rfl)
        · exact hold p hp
        · omega
      · rintro p (hp | rfl) hvp
        · exact absurd hvp (hnone p hp.1 hp.2)
        · exact .inr ⟨rfl, le_rfl⟩
    · have hfilter : ((m.fwd cur 0).filter fun q => decide (m.Visible x.key x.snapshot q)) =
          none := by
        rw [Option.filter_eq_none_iff]
        intro q hq' hv
        exact hq ⟨q, hq', by simpa using hv⟩
      rw [hfilter]
      exact ⟨{p | 0 < p ∧ p ≤ x.start}, fun p h0 hps => ⟨h0, hps⟩, hold,
        fun p hp => hnone p hp.1 hp.2⟩

theorem readerStep_candidate (m : SkipMem) (key : Key) (snapshot cur : ℕ) :
    readerStep m key snapshot (.candidate cur) =
      .done ((m.fwd cur 0).filter fun q => decide (m.Visible key snapshot q)) := by
  simp only [readerStep]
  cases m.fwd cur 0 with
  | none => rfl
  | some q =>
    by_cases hv : m.Visible key snapshot q
    · rw [Option.filter_some_pos (by simpa using hv)]
      exact if_pos hv
    · rw [Option.filter_some_neg (by simpa using hv)]
      exact if_neg hv

theorem readerStep_inv {pc : WriterPc} (h : Levels m L) (hw : WriterInv m L pc)
    (hr : ReaderInv m L x) (hpc : x.pc ≠ .idle ∧ ∀ r, x.pc ≠ .done r) :
    ReaderInv m L { x with
      pc := readerStep m x.key x.snapshot x.pc, finish := m.nodes.length - 1 } := by
  obtain ⟨hlen, hcomp⟩ := hw.complete
  obtain ⟨hstart, hx⟩ := hr
  cases hxp : x.pc with
  | idle => exact absurd hxp hpc.1
  | done result => exact absurd hxp (hpc.2 result)
  | loadMax =>
    -- the walk starts at the head of the highest level in use
    have h0 : Standing m L x m.maxHeight 0 := ⟨by simp, .inl rfl⟩
    refine enterLevel_inv h hstart h0 ?_ _
    intro q hq
    have := h.next_mem h0.1 hq
    simp [h.above m.maxHeight le_rfl] at this
  | walk level cur =>
    rw [hxp] at hx
    simp only [readerStep]
    cases hq : m.fwd cur level with
    | none => exact enterLevel_inv h hstart hx (by simp [hq]) _
    | some q =>
      dsimp only
      split
      · rename_i hlt
        exact ⟨hstart, List.mem_cons_of_mem 0 (h.next_mem hx.1 hq), .inr hlt⟩
      · rename_i hlt
        refine enterLevel_inv h hstart hx ?_ _
        intro q' hq'
        obtain rfl : q = q' := by simpa [hq] using hq'
        exact hlt
  | candidate cur =>
    rw [hxp] at hx
    rw [readerStep_candidate]
    refine ⟨hstart, ?_, ?_⟩
    · dsimp only
      omega
    · exact candidate_correct (x := { x with finish := m.nodes.length - 1 }) h hlen hcomp hstart
        hx.1 hx.2 rfl

/-! ### The machine's invariant -/

def Machine.Inv (s : Machine ι) : Prop :=
  ∃ L, Levels s.mem L ∧ WriterInv s.mem L s.writer ∧ ∀ r, ReaderInv s.mem L (s.readers r)

theorem levels_new : Levels .new (fun _ => []) where
  path _ := rfl
  sorted _ := List.Pairwise.nil
  nested _ := List.Subset.refl _
  alloc p hp := by cases hp
  above _ _ := rfl
  height_pos := by decide

theorem init_inv : (Machine.init : Machine ι).Inv := by
  refine ⟨fun _ => [], levels_new, ⟨rfl, fun p => ?_⟩, fun _ => ⟨Nat.zero_le _, trivial⟩⟩
  have hlen : (Machine.init : Machine ι).mem.len = 0 := rfl
  rw [hlen]
  simp only [List.not_mem_nil, false_iff]
  omega

theorem not_less_of_unraced {s : Machine ι} {r : ι} {n cur : ℕ} {links : Links}
    (hun : s.races r = false) (hw : s.writer = .linkPrev n 0 links)
    (hpc : (s.readers r).pc = .candidate cur) (hcur : cur = links.prev 0)
    (hp : Present s.mem (s.readers r)) :
    ¬ s.mem.Less n (s.readers r).key (s.readers r).snapshot := by
  intro hless
  have : s.races r = true := by
    simp only [Machine.races, hw, hpc]
    exact decide_eq_true ⟨hcur, hless, hp⟩
  simp [this] at hun

theorem write_inv {s : Machine ι} (hi : s.Inv) (hun : ∀ r, s.races r = false) :
    Machine.Inv { s with
      mem := (writerStep s.mem s.writer).1, writer := (writerStep s.mem s.writer).2 } := by
  obtain ⟨L, h, hw, hr⟩ := hi
  obtain ⟨L', h', hw', hg, hfwd⟩ := writerStep_inv h hw
  refine ⟨L', h', hw', ?_⟩
  intro r
  refine (hr r).grows h hw.complete.1 hg ?_
  intro cur hpc hp q hq
  have hcur : cur ∈ 0 :: L 0 := by
    have := (hr r).2
    rw [hpc] at this
    exact this.1.1
  rcases hfwd cur hcur with hsame | ⟨n, links, hwpc, hprev, hnew⟩
  · exact .inl (hsame ▸ hq)
  · right
    obtain rfl : n = q := Option.some.inj (hnew.symm.trans hq)
    have hn : n < s.mem.nodes.length := by
      rw [hwpc] at hw
      have := hw.1.eq_len
      have := hw.1.nodes
      omega
    rw [less_congr (hg.node n hn)]
    exact not_less_of_unraced (hun r) hwpc hpc hprev hp

theorem next_inv [DecidableEq ι] (s : Machine ι) (a : Action ι) (s' : Machine ι) (hi : s.Inv)
    (hun : Unraced s a) (hn : s.next a = some s') : s'.Inv := by
  cases a with
  | insert key value seqno op =>
    obtain ⟨L, h, hw, hr⟩ := hi
    simp only [Machine.next] at hn
    split at hn
    · rename_i hidle
      rw [hidle] at hw
      obtain ⟨⟨m', pc'⟩, hstart, rfl⟩ := Option.map_eq_some_iff.mp hn
      obtain ⟨rfl, rfl⟩ := startInsert_eq hstart
      obtain ⟨h', hw'⟩ := allocateAt_inv _ _ key value seqno op h hw (randomHeight_bounds _).1
      refine ⟨L, h', hw', fun r => ?_⟩
      refine (hr r).grows h hw.complete.1 (allocateAt_grows ..) ?_
      intro cur hpc _ q hq
      have hcur : cur ∈ 0 :: L 0 := by
        have := (hr r).2
        rw [hpc] at this
        exact this.1.1
      have hpos : 0 < s.mem.nodes.length := by have := hw.complete.1; omega
      rw [fwd_allocateAt _ _ _ _ _ _ h hpos hcur] at hq
      exact .inl hq
    · cases hn
  | write =>
    simp only [Machine.next] at hn
    split at hn
    · cases hn
    · cases hn
      exact write_inv hi hun
  | get r key snapshot =>
    obtain ⟨L, h, hw, hr⟩ := hi
    have hs' : s' = s.setReader r ⟨key, snapshot, s.mem.len, 0, .loadMax⟩ := by
      simp only [Machine.next] at hn
      split at hn <;> simp_all
    subst hs'
    refine ⟨L, h, hw, fun r' => ?_⟩
    by_cases hrr : r' = r
    · subst hrr
      simp only [Machine.setReader, Function.update_self]
      exact ⟨le_rfl, trivial⟩
    · simp only [Machine.setReader, Function.update_of_ne hrr]
      exact hr r'
  | read r =>
    obtain ⟨L, h, hw, hr⟩ := hi
    have hs' : ((s.readers r).pc ≠ .idle ∧ ∀ res, (s.readers r).pc ≠ .done res) ∧
        s' = s.setReader r { s.readers r with
          pc := readerStep s.mem (s.readers r).key (s.readers r).snapshot (s.readers r).pc,
          finish := s.mem.nodes.length - 1 } := by
      simp only [Machine.next] at hn
      split at hn <;> simp_all
    obtain ⟨hpc, rfl⟩ := hs'
    refine ⟨L, h, hw, fun r' => ?_⟩
    by_cases hrr : r' = r
    · subst hrr
      simp only [Machine.setReader, Function.update_self]
      exact readerStep_inv h hw (hr r') hpc
    · simp only [Machine.setReader, Function.update_of_ne hrr]
      exact hr r'

theorem reach_inv [DecidableEq ι] {s : Machine ι} (h : Reach Machine.next Unraced .init s) :
    s.Inv :=
  h.invariant init_inv next_inv

/-! ### Results -/

theorem Correct.not_present (hc : Correct m x none) : ¬ Present m x := by
  obtain ⟨E, hstart, -, hnone⟩ := hc
  rintro ⟨p, hp, h0, hv⟩
  exact hnone p (hstart p h0 (Nat.le_of_lt_succ hp)) hv

theorem Correct.of_quiet {result : Option ℕ} (hc : Correct m x result)
    (hquiet : ∀ p, x.start < p → p ≤ x.finish → ¬ m.Visible x.key x.snapshot p) :
    NewestIn m {p | 0 < p ∧ p ≤ x.start} x.key x.snapshot result := by
  obtain ⟨E, hstart, hfin, hnew⟩ := hc
  have hsub : ∀ p, 0 < p ∧ p ≤ x.start → p ∈ E := fun p hp => hstart p hp.1 hp.2
  cases result with
  | none => exact fun p hp => hnew p (hsub p hp)
  | some p =>
    obtain ⟨hpE, hv, hmax⟩ := hnew
    have hps : 0 < p ∧ p ≤ x.start := by
      refine ⟨(hfin p hpE).1, ?_⟩
      by_contra hlt
      exact hquiet p (not_le.mp hlt) (hfin p hpE).2 hv
    exact ⟨hps, hv, fun q hq => hmax q (hsub q hq)⟩

/-- In every unraced run each `get` returns the newest visible entry among
those complete before it began and some of those inserted meanwhile. It finds
an entry if one was complete, and inserts that are not visible to it change
nothing. -/
theorem get_newest_of_unraced [DecidableEq ι] {s : Machine ι}
    (h : Reach Machine.next Unraced .init s) {r : ι} {result : Option ℕ}
    (hdone : (s.readers r).pc = .done result) :
    let x := s.readers r
    Correct s.mem x result ∧ (Present s.mem x → result ≠ none) ∧
      ((∀ p, x.start < p → p ≤ x.finish → ¬ s.mem.Visible x.key x.snapshot p) →
        NewestIn s.mem {p | 0 < p ∧ p ≤ x.start} x.key x.snapshot result) := by
  obtain ⟨L, -, -, hr⟩ := reach_inv h
  have hc : Correct s.mem (s.readers r) result := by
    have := (hr r).2
    rw [hdone] at this
    exact this.2
  refine ⟨hc, ?_, hc.of_quiet⟩
  rintro hp rfl
  exact hc.not_present hp

/-- The version `(k, 5)` is complete; then `get(k, 10)` runs interleaved with the
insert of `(k, 20)`: `before` accesses of the reader come first, then the whole
insert, then `after` accesses of the reader. -/
def interleaved (before after : ℕ) : List (Action Unit) :=
  [.insert [1] [7] 5 .put, .write, .write, .write, .write, .write, .get () [1] 10] ++
    List.replicate before (.read ()) ++
    [.insert [1] [8] 20 .put, .write, .write, .write, .write, .write] ++
    List.replicate after (.read ())

theorem get_newest_of_unraced_interleaved :
    ∃ s, Reach Machine.next Unraced (Machine.init : Machine Unit) s ∧
      (s.readers ()).pc = .done (some 1) ∧ Correct s.mem (s.readers ()) (some 1) := by
  have hrun : (runOk Machine.next (fun s a => decide (Unraced s a)) Machine.init
      (interleaved 1 3)).map (fun s => decide ((s.readers ()).pc = .done (some 1))) = some true := by
    decide
  obtain ⟨s, hreach, hp⟩ := reach_of_runDecided hrun
  have hpc : (s.readers ()).pc = .done (some 1) := by simpa using hp
  exact ⟨s, hreach, hpc, (get_newest_of_unraced hreach hpc).1⟩

/-- The insert of `(k, 20)` publishes between the last comparison and the
candidate load of `get(k, 10)`: the present entry `(k, 5)` is missed. -/
theorem get_misses_present_entry :
    ∃ s, Reach Machine.next always (Machine.init : Machine Unit) s ∧
      (s.readers ()).pc = .done none ∧ Present s.mem (s.readers ()) ∧
      ¬ Correct s.mem (s.readers ()) none := by
  have hrun : (run Machine.next Machine.init (interleaved 2 1)).map
      (fun s => decide ((s.readers ()).pc = .done none ∧ Present s.mem (s.readers ()))) =
        some true := by
    decide
  obtain ⟨s, hreach, hp⟩ := reach_of_run hrun
  obtain ⟨hpc, hpres⟩ : (s.readers ()).pc = .done none ∧ Present s.mem (s.readers ()) := by
    simpa using hp
  exact ⟨s, hreach, hpc, hpres, fun hc => hc.not_present hpres⟩

end PaddockKV.Memtable
