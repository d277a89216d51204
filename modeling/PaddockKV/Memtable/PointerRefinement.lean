import PaddockKV.Lib.Traces
import PaddockKV.Memtable.Representation
import PaddockKV.Memtable.Sequential

/-!
# The list of bytes refines the list of nodes

Every access of `insert` and `get` keeps `Rep`, whatever the order of the
accesses, so each step of the byte-level machine is a step of the node-level
machine. No step of it is ever stuck on an access.
-/

namespace PaddockKV.Memtable

open Memory Transition

variable {alloc : GlobalAlloc} {addr : ℕ → ℕ} {r : RawList} {m m' : SkipMem} {i p : ℕ}

/-! ### The writer -/

def Links.map (f : ℕ → ℕ) (l : Links) : Links :=
  ⟨fun i => f (l.prev i), fun i => (l.following i).map f⟩

def WriterPc.map (f : ℕ → ℕ) : WriterPc → WriterPc
  | .idle => .idle
  | .findActive n => .findActive (f n)
  | .find n level cur links => .find (f n) level (f cur) (links.map f)
  | .loadMax n links => .loadMax (f n) (links.map f)
  | .storeMax n links => .storeMax (f n) (links.map f)
  | .linkNode n level links => .linkNode (f n) level (links.map f)
  | .linkPrev n level links => .linkPrev (f n) level (links.map f)

/-- The node of the insert in progress. -/
def WriterPc.node? : WriterPc → Option ℕ
  | .idle => none
  | .findActive n | .find n _ _ _ | .loadMax n _ | .storeMax n _ | .linkNode n _ _
  | .linkPrev n _ _ => some n

structure LinksOk (m : SkipMem) (l : Links) : Prop where
  prev : ∀ i, l.prev i < m.nodes.length
  tall : ∀ i < maxLevels, i < (m.node (l.prev i)).height
  following : ∀ i q, l.following i = some q → PtrOk m i q

/-- The pointers the writer holds are good for the accesses it has left. -/
def WriterOk (m : SkipMem) : WriterPc → Prop
  | .idle => True
  | .findActive n => n < m.nodes.length
  | .find n level cur links => n < m.nodes.length ∧ PtrOk m level cur ∧ LinksOk m links
  | .loadMax n links | .storeMax n links => n < m.nodes.length ∧ LinksOk m links
  | .linkNode n level links | .linkPrev n level links => PtrOk m level n ∧ LinksOk m links

structure WriterRel (addr : ℕ → ℕ) (m : SkipMem) (w : RawWriter) (pc : WriterPc) : Prop where
  place : w.pc = pc.map addr
  node : ∀ n, pc.node? = some n → w.key = (m.node n).key ∧ w.seqno = (m.node n).seqno ∧
    w.height = (m.node n).height

variable {links : Links} {level cur n : ℕ}

theorem LinksOk.set (h : LinksOk m links) (hcur : PtrOk m level cur) {link : Option ℕ}
    (hlink : ∀ q, link = some q → PtrOk m level q) : LinksOk m (links.set level cur link) := by
  refine ⟨fun i => ?_, fun i hi => ?_, fun i q hq => ?_⟩
  · by_cases hi : i = level
    · simpa [Links.set, hi] using hcur.1
    · simpa [Links.set, hi] using h.prev i
  · by_cases hi' : i = level
    · simpa [Links.set, hi'] using hcur.2
    · simpa [Links.set, hi'] using h.tall i hi
  · by_cases hi : i = level
    · subst hi
      simp only [Links.set, if_true] at hq
      exact hlink q hq
    · simp only [Links.set, if_neg hi] at hq
      exact h.following i q hq

theorem Rep.fillHead (hr : Rep addr r m) (h : LinksOk m links) (lo hi : ℕ) :
    LinksOk m (links.fillHead lo hi) := by
  refine ⟨fun i => ?_, fun i hi' => ?_, h.following⟩
  · simp only [Links.fillHead]
    split
    · exact hr.head_ok.1
    · exact h.prev i
  · simp only [Links.fillHead]
    split
    · exact (hr.ptrOk_head hi').2
    · exact h.tall i hi'

theorem Rep.links_init (hr : Rep addr r m) : LinksOk m Links.init := by
  refine ⟨fun i => hr.head_ok.1, fun i hi => (hr.ptrOk_head hi).2, fun i q hq => ?_⟩
  cases hq

theorem map_fillHead (f : ℕ → ℕ) (l : Links) (lo hi : ℕ) :
    (l.fillHead lo hi).map f = (l.map f).fillWith (f 0) lo hi := by
  simp only [Links.map, Links.fillHead, Links.fillWith, Links.mk.injEq, and_true]
  funext i
  split <;> rfl

theorem map_set (f : ℕ → ℕ) (l : Links) (level cur : ℕ) (link : Option ℕ) :
    (l.set level cur link).map f = (l.map f).set level (f cur) (link.map f) := by
  simp only [Links.map, Links.set, Links.mk.injEq]
  constructor
  · funext i
    split <;> rfl
  · funext i
    split <;> rfl

theorem map_settle (f : ℕ → ℕ) (n level cur : ℕ) (link : Option ℕ) (l : Links) :
    (settle n level cur link l).map f = settle (f n) level (f cur) (link.map f) (l.map f) := by
  simp only [settle]
  split <;> simp [WriterPc.map, map_set]

theorem settle_ok (hn : n < m.nodes.length) (hcur : PtrOk m level cur) (h : LinksOk m links)
    (link : Option ℕ) (hlink : ∀ q, link = some q → PtrOk m level q) :
    WriterOk m (settle n level cur link links) := by
  have hset := h.set hcur hlink
  unfold settle
  split
  · exact ⟨hn, hset⟩
  · exact ⟨hn, ⟨hcur.1, lt_of_le_of_lt (Nat.sub_le _ _) hcur.2⟩, hset⟩

theorem settle_node (n level cur : ℕ) (link : Option ℕ) (l : Links) :
    (settle n level cur link l).node? = some n := by
  unfold settle
  split <;> rfl

/-- What an access of the writer does to list and writer, in both models. -/
structure WriterSim (addr : ℕ → ℕ) (r : RawList) (w : RawWriter) (m : SkipMem) (pc : WriterPc) :
    Prop where
  rep : Rep addr r m
  ok : WriterOk m pc
  rel : WriterRel addr m w pc

/-- The next access of the writer is the same in both models. -/
def AccessSim (addr : ℕ → ℕ) (r : RawList) (w : RawWriter) (m : SkipMem) (pc : WriterPc) : Prop :=
  ∃ r' w', r.writerStep w = some (r', w') ∧ r'.arena = r.arena ∧
    WriterSim addr r' w' (writerStep m pc).1 (writerStep m pc).2

section WriterSteps

variable {a : Arena} {w : RawWriter}

theorem WriterSim.moved {pc x : WriterPc} (h : WriterSim addr r w m pc) (pc' : WriterPc)
    (hok : WriterOk m pc') (hnode : pc'.node? = pc.node?) (hx : x = pc'.map addr) :
    WriterSim addr r { w with pc := x } m pc' :=
  ⟨h.rep, hok, hx, fun n hn => h.rel.node n (hnode ▸ hn)⟩

theorem findActive_sim (h : WriterSim addr r w m (.findActive n)) :
    AccessSim addr r w m (.findActive n) := by
  have hr := h.rep
  have hlinks := hr.fillHead hr.links_init m.maxHeight maxLevels
  have hstart : (Links.start r.head).fillWith r.head m.maxHeight maxLevels =
      (Links.init.fillHead m.maxHeight maxLevels).map addr := by
    rw [map_fillHead, ← hr.head]
    simp [Links.start, Links.init, Links.map, ← hr.head]
  simp only [AccessSim, RawList.writerStep, h.rel.place, WriterPc.map, writerStep, hr.maxHeight]
  split
  · exact ⟨_, _, rfl, rfl, h.moved (.loadMax n _) ⟨h.ok, hlinks⟩ rfl
      (congrArg (WriterPc.loadMax (addr n)) hstart)⟩
  · have hlevel : m.maxHeight - 1 < maxLevels := by
      have := hr.top
      have : 0 < maxLevels := by decide
      omega
    refine ⟨_, _, rfl, rfl, h.moved (.find n (m.maxHeight - 1) 0 _)
      ⟨h.ok, hr.ptrOk_head hlevel, hlinks⟩ rfl ?_⟩
    rw [hstart, hr.head]
    rfl

theorem find_sim (hp : Placed alloc addr a m) (h : WriterSim addr r w m (.find n level cur links)) :
    AccessSim addr r w m (.find n level cur links) := by
  have hr := h.rep
  obtain ⟨hn, hcur, hlinks⟩ := h.ok
  obtain ⟨hkey, hseqno, -⟩ := h.rel.node n rfl
  simp only [AccessSim, RawList.writerStep, h.rel.place, WriterPc.map, writerStep,
    hr.loadForward hp hcur]
  cases hq : m.fwd cur level with
  | none =>
    have hstop := settle_ok hn hcur hlinks none (by simp)
    exact ⟨_, _, rfl, rfl, h.moved _ hstop (settle_node n level cur none links)
      (map_settle addr n level cur none links).symm⟩
  | some q =>
    have hqok := hr.tall cur level q hq
    simp only [Option.map_some, Option.bind_some, hr.rawLess hqok.1, ← hkey, ← hseqno]
    by_cases hless : m.Less q w.key w.seqno
    · rw [if_pos hless, if_pos (decide_eq_true hless)]
      exact ⟨_, _, rfl, rfl, h.moved (.find n level q links) ⟨hn, hqok, hlinks⟩ rfl rfl⟩
    · rw [if_neg hless, if_neg (by simpa using hless)]
      have hstop := settle_ok hn hcur hlinks (some q) (by simpa using hqok)
      exact ⟨_, _, rfl, rfl, h.moved _ hstop (settle_node n level cur (some q) links)
        (map_settle addr n level cur (some q) links).symm⟩

theorem loadMax_sim (h : WriterSim addr r w m (.loadMax n links)) :
    AccessSim addr r w m (.loadMax n links) := by
  have hr := h.rep
  obtain ⟨hn, hlinks⟩ := h.ok
  obtain ⟨-, -, hheight⟩ := h.rel.node n rfl
  simp only [AccessSim, RawList.writerStep, h.rel.place, WriterPc.map, writerStep, hr.maxHeight,
    ← hheight]
  split
  · refine ⟨_, _, rfl, rfl, h.moved (.storeMax n _) ⟨hn, hr.fillHead hlinks _ _⟩ rfl ?_⟩
    simp only [WriterPc.map, map_fillHead, hr.head]
  · exact ⟨_, _, rfl, rfl, h.moved (.linkNode n 0 links)
      ⟨⟨hn, (hr.fits n hn).pos⟩, hlinks⟩ rfl rfl⟩

theorem storeMax_sim (h : WriterSim addr r w m (.storeMax n links)) :
    AccessSim addr r w m (.storeMax n links) := by
  have hr := h.rep
  obtain ⟨hn, hlinks⟩ := h.ok
  have hheight := (h.rel.node n rfl).2.2
  simp only [AccessSim, RawList.writerStep, h.rel.place, WriterPc.map, writerStep]
  refine ⟨_, _, rfl, rfl, ⟨hr.head, hr.head_ok, hr.fits, hr.nodes, hr.fwd, hr.tall, hheight,
    (hr.fits n hn).height, hr.rngState, hr.len⟩, ⟨⟨hn, (hr.fits n hn).pos⟩, ?_⟩, rfl, ?_⟩
  · exact ⟨hlinks.prev, hlinks.tall, hlinks.following⟩
  · intro n' hn'
    exact h.rel.node n' hn'

theorem linkNode_sim (hp : Placed alloc addr a m)
    (h : WriterSim addr r w m (.linkNode n level links)) :
    AccessSim addr r w m (.linkNode n level links) := by
  have hr := h.rep
  obtain ⟨hn, hlinks⟩ := h.ok
  obtain ⟨mem, hstore, hrep⟩ := hr.storeForward hp hn _ (hlinks.following level)
  have hstore' : storeForward r.mem (addr n) level ((links.map addr).following level) = some mem :=
    hstore
  simp only [AccessSim, RawList.writerStep, h.rel.place, WriterPc.map, writerStep, hstore']
  exact ⟨_, _, rfl, rfl, hrep, ⟨hn, hlinks.prev, hlinks.tall, hlinks.following⟩, rfl,
    fun n' hn' => h.rel.node n' hn'⟩

theorem linkPrev_sim (hp : Placed alloc addr a m)
    (h : WriterSim addr r w m (.linkPrev n level links)) :
    AccessSim addr r w m (.linkPrev n level links) := by
  have hr := h.rep
  obtain ⟨hn, hlinks⟩ := h.ok
  have hheight := (h.rel.node n rfl).2.2
  have hlevel : level < maxLevels := hn.2.trans_le (hr.fits n hn.1).height
  obtain ⟨mem, hstore, hrep⟩ := hr.storeForward hp (p := links.prev level)
    ⟨hlinks.prev level, hlinks.tall level hlevel⟩ (some n) (by simpa using hn)
  have hstore' : storeForward r.mem ((links.map addr).prev level) level (some (addr n)) =
      some mem := hstore
  simp only [AccessSim, RawList.writerStep, h.rel.place, WriterPc.map, writerStep, hstore',
    ← hheight]
  by_cases hmore : level + 1 < w.height
  · simp only [Option.map_some, if_pos hmore]
    exact ⟨_, _, rfl, rfl, hrep, ⟨⟨hn.1, hheight ▸ hmore⟩, hlinks.prev, hlinks.tall, hlinks.following⟩, rfl,
      fun n' hn' => h.rel.node n' hn'⟩
  · simp only [Option.map_some, if_neg hmore]
    refine ⟨_, _, rfl, rfl, ⟨hrep.head, hrep.head_ok, hrep.fits, hrep.nodes, hrep.fwd, hrep.tall,
      hrep.maxHeight, hrep.top, hrep.rngState, ?_⟩, trivial, rfl, by simp [WriterPc.node?]⟩
    exact congrArg (· + 1) hr.len

theorem writerStep_sim {pc : WriterPc} (hp : Placed alloc addr a m)
    (h : WriterSim addr r w m pc) : AccessSim addr r w m pc := by
  cases pc with
  | idle =>
    refine ⟨r, w, ?_, rfl, h⟩
    simp only [RawList.writerStep, h.rel.place, WriterPc.map]
  | findActive n => exact findActive_sim h
  | find n level cur links => exact find_sim hp h
  | loadMax n links => exact loadMax_sim h
  | storeMax n links => exact storeMax_sim h
  | linkNode n level links => exact linkNode_sim hp h
  | linkPrev n level links => exact linkPrev_sim hp h

end WriterSteps

/-! ### The start of an insert -/

/-- The node of an insert. -/
def insertNode (m : SkipMem) (key : Key) (value : Value) (seqno : ℕ) (op : OpType) : Node :=
  ⟨key, if op = .put then value else [], seqno, op, randomHeight (xorshift m.rngState)⟩

theorem startInsert_sim {fuel : ℕ} {key : Key} {value : Value} {seqno : ℕ} {op : OpType}
    {r' : RawList} {w' : RawWriter} (hb : Blocks alloc) (hr : Rep addr r m)
    (hp : Placed alloc addr r.arena m) (hseqno : seqno < u64Size)
    (h : RawList.startInsert alloc (fuel + 2) r key value seqno op = some (r', w')) :
    ∃ m' pc' q, startInsert m key value seqno op = some (m', pc') ∧
      m'.nodes = m.nodes ++ [insertNode m key value seqno op] ∧
      Placed alloc (Function.update addr m.nodes.length q) r'.arena m' ∧
      WriterSim (Function.update addr m.nodes.length q) r' w' m' pc' := by
  obtain ⟨⟨r₁, q⟩, halloc, hx⟩ := Option.map_eq_some_iff.mp h
  obtain ⟨rfl, rfl⟩ := Prod.mk.inj hx
  simp only [RawList.allocateNode, hr.rngState] at halloc
  split at halloc
  · rename_i p arena hserve
    obtain ⟨hlens, hsome⟩ := Option.ite_none_right_eq_some.mp halloc
    obtain ⟨rfl, rfl⟩ := Prod.mk.inj (Option.some.inj hsome)
    have hval : (if op = .put then value else ([] : Value)).length =
        if op = .put then value.length else 0 := by
      split <;> rfl
    have hm' : startInsert m key value seqno op =
        some (allocateNode m key value seqno op, .findActive m.nodes.length) := by
      rw [hval] at hlens
      exact if_pos hlens
    have hnodes : (allocateNode m key value seqno op).nodes =
        m.nodes ++ [insertNode m key value seqno op] := rfl
    obtain ⟨hplaced, halign⟩ := hp.allocate hb hnodes hserve
    have hbounds := randomHeight_bounds (xorshift m.rngState)
    have hfits : (insertNode m key value seqno op).Fits :=
      ⟨hbounds.1, hbounds.2, hlens.1, hlens.2, hseqno⟩
    have hrep := hr.allocate hplaced halign hfits rfl
    have hnew : (allocateNode m key value seqno op).node m.nodes.length =
        insertNode m key value seqno op := by
      simp [SkipMem.node, hnodes, List.getD_eq_getElem?_getD]
    refine ⟨_, _, p.address, hm', hnodes, hplaced, hrep, ?_, ?_, ?_⟩
    · simp [WriterOk, hnodes]
    · simp [WriterPc.map]
    · intro n hn
      obtain rfl : m.nodes.length = n := by simpa [WriterPc.node?] using hn
      rw [hnew]
      exact ⟨rfl, rfl, congrArg (fun g => randomHeight (xorshift g)) hr.rngState⟩
  · cases halloc

/-- The arena serves the node of the insert. -/
def Serves (alloc : GlobalAlloc) (fuel : ℕ) (r : RawList) (key : Key) (value : Value)
    (op : OpType) : Prop :=
  ∃ p a, Arena.allocate alloc fuel
    (headerSize + randomHeight (xorshift r.rngState) * pointerSize + key.length +
      (if op = .put then value else []).length) 8 r.arena = .ok p a

theorem startInsert_isSome {fuel : ℕ} {key : Key} {value : Value} {seqno : ℕ} {op : OpType}
    {x : SkipMem × WriterPc} (hx : startInsert m key value seqno op = some x)
    (hs : Serves alloc fuel r key value op) :
    ∃ y, RawList.startInsert alloc fuel r key value seqno op = some y := by
  obtain ⟨p, a, hserve⟩ := hs
  have hlens := (Option.ite_none_right_eq_some.mp hx).1
  have hval : (if op = .put then value else ([] : Value)).length =
      if op = .put then value.length else 0 := by
    split <;> rfl
  rw [← hval] at hlens
  simp [RawList.startInsert, RawList.allocateNode, hserve, hlens]

/-! ### The readers -/

def ReaderPc.map (f : ℕ → ℕ) : ReaderPc → ReaderPc
  | .idle => .idle
  | .loadMax => .loadMax
  | .walk level cur => .walk level (f cur)
  | .candidate cur => .candidate (f cur)
  | .done q => .done (q.map f)

def ReaderOk (m : SkipMem) : ReaderPc → Prop
  | .idle | .loadMax => True
  | .walk level cur => PtrOk m level cur
  | .candidate cur => PtrOk m 0 cur
  | .done q => ∀ p, q = some p → p < m.nodes.length

theorem ReaderOk.mono {pc : ReaderPc} (h : ReaderOk m pc)
    (hle : m.nodes.length ≤ m'.nodes.length)
    (hnode : ∀ p < m.nodes.length, m'.node p = m.node p) : ReaderOk m' pc := by
  cases pc with
  | idle => trivial
  | loadMax => trivial
  | walk level cur => exact PtrOk.mono h hle hnode
  | candidate cur => exact PtrOk.mono h hle hnode
  | done q => exact fun p hq => (h p hq).trans_le hle

theorem ReaderOk.map_update {pc : ReaderPc} (h : ReaderOk m pc) (q : ℕ) :
    pc.map (Function.update addr m.nodes.length q) = pc.map addr := by
  have haddr : ∀ p < m.nodes.length, Function.update addr m.nodes.length q p = addr p := by
    intro p hp
    exact Function.update_of_ne hp.ne _ _
  cases pc with
  | idle => rfl
  | loadMax => rfl
  | walk level cur => simp [ReaderPc.map, haddr cur h.1]
  | candidate cur => simp [ReaderPc.map, haddr cur h.1]
  | done result =>
    cases result with
    | none => rfl
    | some p => simp [ReaderPc.map, haddr p (h p rfl)]

theorem map_enterLevel (f : ℕ → ℕ) (level cur : ℕ) :
    (enterLevel level cur).map f = enterLevel level (f cur) := by
  cases level <;> rfl

theorem enterLevel_ok (h : p < m.nodes.length) (hlevel : level ≤ (m.node p).height)
    (hpos : 0 < (m.node p).height) : ReaderOk m (enterLevel level p) := by
  cases level with
  | zero => exact ⟨h, hpos⟩
  | succ level => exact ⟨h, hlevel⟩

theorem readerStep_sim {a : Arena} {pc : ReaderPc} (hr : Rep addr r m)
    (hp : Placed alloc addr a m) (key : Key) (snapshot : ℕ) (hok : ReaderOk m pc) :
    r.readerStep key snapshot (pc.map addr) = some ((readerStep m key snapshot pc).map addr) ∧
      ReaderOk m (readerStep m key snapshot pc) := by
  cases pc with
  | idle => exact ⟨rfl, trivial⟩
  | loadMax =>
    have hpos : 0 < (m.node 0).height := by
      rw [hr.head_ok.2]
      decide
    refine ⟨?_, enterLevel_ok hr.head_ok.1 (hr.head_ok.2 ▸ hr.top) hpos⟩
    change some (enterLevel r.maxHeight r.head) = some ((enterLevel m.maxHeight 0).map addr)
    rw [map_enterLevel, hr.maxHeight, hr.head]
  | walk level cur =>
    have hstop : ReaderOk m (enterLevel level cur) :=
      enterLevel_ok hok.1 (Nat.le_of_lt hok.2) (Nat.zero_lt_of_lt hok.2)
    change r.readerStep key snapshot (.walk level (addr cur)) = _ ∧ _
    simp only [RawList.readerStep, readerStep, hr.loadForward hp hok]
    cases hq : m.fwd cur level with
    | none => exact ⟨congrArg some (map_enterLevel addr level cur).symm, hstop⟩
    | some q =>
      have hqok := hr.tall cur level q hq
      simp only [Option.map_some, Option.bind_some, hr.rawLess hqok.1]
      by_cases hless : m.Less q key snapshot
      · rw [if_pos hless, if_pos (decide_eq_true hless)]
        exact ⟨rfl, hqok⟩
      · rw [if_neg hless, if_neg (by simpa using hless), map_enterLevel]
        exact ⟨rfl, hstop⟩
  | candidate cur =>
    change r.readerStep key snapshot (.candidate (addr cur)) = _ ∧ _
    simp only [RawList.readerStep, readerStep, hr.loadForward hp hok]
    cases hq : m.fwd cur 0 with
    | none => exact ⟨rfl, by simp [ReaderOk]⟩
    | some q =>
      have hqok := hr.tall cur 0 q hq
      have hn := hr.nodes q hqok.1
      have hf := hr.fits q hqok.1
      simp only [Option.map_some, Option.bind_some, hn.key hf, hn.seqno hf]
      split
      · exact ⟨rfl, by simpa [ReaderOk] using hqok.1⟩
      · exact ⟨rfl, by simp [ReaderOk]⟩
  | done q => exact ⟨rfl, hok⟩

/-! ### All interleavings -/

/-- The entry a finished `get` found, read through `NodeRef`. -/
def RawMachine.result {ι : Type} (raw : RawMachine ι) (i : ι) : Option (Option Rec) :=
  match (raw.readers i).pc with
  | .done none => some none
  | .done (some p) => (nodeRec raw.list.mem p).map some
  | _ => none

def Machine.result {ι : Type} (s : Machine ι) (i : ι) : Option (Option Rec) :=
  match (s.readers i).pc with
  | .done q => some (q.map fun p => (s.mem.node p).toRec)
  | _ => none

def RawAction.abs {ι : Type} : RawAction ι → Action ι
  | .insert key value seqno op => .insert key value seqno.toNat op
  | .write => .write
  | .get i key snapshot => .get i key snapshot
  | .read i => .read i

structure ReaderRel (addr : ℕ → ℕ) (m : SkipMem) (x : RawReader) (y : Reader) : Prop where
  key : x.key = y.key
  snapshot : x.snapshot = y.snapshot
  place : x.pc = y.pc.map addr
  ok : ReaderOk m y.pc

/-- The two machines are in the same state. -/
def Sim {ι : Type} (alloc : GlobalAlloc) (raw : RawMachine ι) (s : Machine ι) : Prop :=
  ∃ addr, Placed alloc addr raw.list.arena s.mem ∧
    WriterSim addr raw.list raw.writer s.mem s.writer ∧
    ∀ i, ReaderRel addr s.mem (raw.readers i) (s.readers i)

/-- Memory may run out; nothing else stops an insert that the list accepts. -/
def RawMachine.CanServe {ι : Type} (alloc : GlobalAlloc) (fuel : ℕ) (raw : RawMachine ι) :
    RawAction ι → Prop
  | .insert key value _ op => Serves alloc fuel raw.list key value op
  | _ => True

variable {ι : Type} {raw raw' : RawMachine ι} {s s' : Machine ι} {fuel : ℕ}

theorem Sim.result (h : Sim alloc raw s) (i : ι) : raw.result i = s.result i := by
  obtain ⟨addr, -, ⟨hr, -, -⟩, hreaders⟩ := h
  have hi := hreaders i
  have hplace := hi.place
  have hok := hi.ok
  unfold RawMachine.result Machine.result
  rw [hplace]
  cases hpc : (s.readers i).pc with
  | idle => rfl
  | loadMax => rfl
  | walk level cur => rfl
  | candidate cur => rfl
  | done q =>
    rw [hpc] at hok
    cases q with
    | none => rfl
    | some p =>
      simp only [ReaderPc.map, Option.map_some, hr.nodeRec (hok p rfl)]

theorem map_eq_idle {pc : WriterPc} : pc.map addr = .idle ↔ pc = .idle := by
  cases pc <;> simp [WriterPc.map]

/-- `SkipList::new`: the head is the first node of the arena. -/
theorem new_sim (hb : Blocks alloc) (h : RawList.new alloc (fuel + 2) = some r) :
    ∃ addr, Placed alloc addr r.arena .new ∧ Rep addr r .new := by
  simp only [RawList.new] at h
  split at h
  · rename_i p arena hserve
    obtain rfl := Option.some.inj h
    have hempty : Placed alloc (fun _ => 0) Arena.new ⟨[], fun _ _ => none, 1, 0x9E3779B9, 0⟩ :=
      ⟨⟨0, by constructor <;> decide⟩, ⟨[], Arena.holding_new alloc, by simp⟩, by simp, by simp⟩
    have hnodes : (SkipMem.new).nodes = [] ++ [buildHead] := rfl
    obtain ⟨hplaced, halign⟩ := hempty.allocate (n := buildHead) hb hnodes hserve
    obtain ⟨hheader, hzero, -⟩ := writeHeader_spec (fun _ => none) p.address
      ⟨maxLevels, RecordOp.put.toByte, 0, 0, 0⟩
    have hone : ∀ q < (SkipMem.new).nodes.length, q = 0 := by
      intro q hq
      simpa [SkipMem.new] using hq
    refine ⟨_, hplaced, rfl, ⟨by decide, rfl⟩, ?_, ?_, ?_, ?_, rfl, by decide, rfl, rfl⟩
    · intro q hq
      obtain rfl := hone q hq
      exact ⟨by decide, le_rfl, by decide, by decide, by decide⟩
    · intro q hq
      obtain rfl := hone q hq
      exact ⟨halign, hheader, trivial⟩
    · intro j q hq
      obtain rfl := hone q hq.1
      exact hzero j hq.2
    · intro q j t ht
      cases ht
  · cases h

theorem init_sim (hb : Blocks alloc) (h : RawMachine.init alloc (fuel + 2) = some raw) :
    Sim alloc raw (.init : Machine ι) := by
  obtain ⟨r, hnew, rfl⟩ := Option.map_eq_some_iff.mp h
  obtain ⟨addr, hplaced, hrep⟩ := new_sim hb hnew
  refine ⟨addr, hplaced, ⟨hrep, trivial, rfl, ?_⟩, fun i => ⟨rfl, rfl, rfl, trivial⟩⟩
  intro n hn
  cases hn

variable [DecidableEq ι]

theorem update_readers {m : SkipMem} {i : ι} {x : RawReader} {y : Reader}
    (h : ∀ j, ReaderRel addr m (raw.readers j) (s.readers j)) (hi : ReaderRel addr m x y) (j : ι) :
    ReaderRel addr m ((raw.setReader i x).readers j) ((s.setReader i y).readers j) := by
  simp only [RawMachine.setReader, Machine.setReader]
  by_cases hj : j = i
  · subst hj
    rw [Function.update_self, Function.update_self]
    exact hi
  · rw [Function.update_of_ne hj, Function.update_of_ne hj]
    exact h j

/-- A call of `get` is in progress. -/
def ReaderPc.Active : ReaderPc → Prop
  | .idle | .done _ => False
  | _ => True

omit [DecidableEq ι] in
theorem active_map (addr : ℕ → ℕ) {pc : ReaderPc} : (pc.map addr).Active ↔ pc.Active := by
  cases pc <;> rfl

theorem RawMachine.next_read (raw : RawMachine ι) {i : ι} (alloc : GlobalAlloc) (fuel : ℕ)
    (h : (raw.readers i).pc.Active) : raw.next alloc fuel (.read i) =
      (raw.list.readerStep (raw.readers i).key (raw.readers i).snapshot (raw.readers i).pc).map
        fun pc => raw.setReader i { raw.readers i with pc := pc } := by
  simp only [RawMachine.next]
  cases hpc : (raw.readers i).pc <;> simp_all [ReaderPc.Active]

theorem RawMachine.next_read_eq_none (raw : RawMachine ι) {i : ι} (alloc : GlobalAlloc) (fuel : ℕ)
    (h : ¬ (raw.readers i).pc.Active) : raw.next alloc fuel (.read i) = none := by
  simp only [RawMachine.next]
  cases hpc : (raw.readers i).pc <;> simp_all [ReaderPc.Active]

theorem Machine.next_read (s : Machine ι) {i : ι} (h : (s.readers i).pc.Active) :
    s.next (.read i) = some (s.setReader i { s.readers i with
      pc := readerStep s.mem (s.readers i).key (s.readers i).snapshot (s.readers i).pc
      finish := s.mem.nodes.length - 1 }) := by
  simp only [Machine.next]
  cases hpc : (s.readers i).pc <;> simp_all [ReaderPc.Active]

theorem next_sim (hb : Blocks alloc) (h : Sim alloc raw s) {a : RawAction ι}
    (hn : raw.next alloc (fuel + 2) a = some raw') :
    ∃ s', s.next a.abs = some s' ∧ Sim alloc raw' s' := by
  obtain ⟨addr, hp, hw, hreaders⟩ := h
  have hidle : raw.writer.pc = .idle ↔ s.writer = .idle := by
    rw [hw.rel.place]
    exact map_eq_idle
  cases a with
  | insert key value seqno op =>
    simp only [RawMachine.next] at hn
    split at hn
    · rename_i hpc
      obtain ⟨⟨r', w'⟩, hstart, rfl⟩ := Option.map_eq_some_iff.mp hn
      obtain ⟨m', pc', q, hins, hnodes, hplaced, hsim⟩ :=
        startInsert_sim hb hw.rep hp (UInt64.toNat_lt seqno) hstart
      have hnode : ∀ p < s.mem.nodes.length, m'.node p = s.mem.node p := by
        intro p hlt
        simp [SkipMem.node, hnodes, List.getElem?_append_left hlt]
      refine ⟨{ s with mem := m', writer := pc' }, ?_, _, hplaced, hsim, fun i => ?_⟩
      · simp only [RawAction.abs, Machine.next, hidle.mp hpc, hins, Option.map_some]
      · obtain ⟨hkey, hsnap, hplace, hok⟩ := hreaders i
        refine ⟨hkey, hsnap, ?_, hok.mono (by simp [hnodes]) hnode⟩
        rw [hok.map_update q]
        exact hplace
    · cases hn
  | write =>
    have hne : s.writer ≠ .idle := by
      intro hs
      simp [RawMachine.next, hidle.mpr hs] at hn
    obtain ⟨r', w', hstep, harena, hsim⟩ := writerStep_sim hp hw
    have hraw : raw' = { raw with list := r', writer := w' } := by
      simp only [RawMachine.next, hstep, Option.map_some] at hn
      split at hn
      · cases hn
      · exact (Option.some.inj hn).symm
    have hnodes := writerStep_nodes s.mem s.writer
    have hnode : ∀ p, (writerStep s.mem s.writer).1.node p = s.mem.node p := by
      intro p
      rw [SkipMem.node, hnodes, SkipMem.node]
    have hplaced : Placed alloc addr r'.arena (writerStep s.mem s.writer).1 := by
      rw [harena]
      refine ⟨hp.within, ?_, ?_, ?_⟩
      · simpa only [hnodes, hnode] using hp.served
      · simpa only [hnodes, hnode] using hp.place
      · simpa only [hnodes, hnode] using hp.apart
    subst hraw
    refine ⟨{ s with
      mem := (writerStep s.mem s.writer).1
      writer := (writerStep s.mem s.writer).2 }, ?_, addr, hplaced, hsim, fun i => ?_⟩
    · simp only [RawAction.abs, Machine.next]
    · obtain ⟨hkey, hsnap, hplace, hok⟩ := hreaders i
      exact ⟨hkey, hsnap, hplace, hok.mono (by rw [hnodes]) fun p _ => hnode p⟩
  | get i key snapshot =>
    have hrel := hreaders i
    have hstart : s.next (.get i key snapshot) =
        some (s.setReader i ⟨key, snapshot, s.mem.len, 0, .loadMax⟩) ∧
        raw' = raw.setReader i ⟨key, snapshot, .loadMax⟩ := by
      simp only [RawMachine.next, hrel.place] at hn
      simp only [Machine.next]
      cases hpc : (s.readers i).pc <;> rw [hpc] at hn <;> simp [ReaderPc.map] at hn ⊢
      · exact hn.symm
      · exact hn.symm
    refine ⟨_, hstart.1, addr, ?_, ?_, fun j => ?_⟩
    · rw [hstart.2]
      exact hp
    · rw [hstart.2]
      exact hw
    · rw [hstart.2]
      exact update_readers (y := ⟨key, snapshot, s.mem.len, 0, .loadMax⟩) hreaders
        ⟨rfl, rfl, rfl, trivial⟩ j
  | read i =>
    have hrel := hreaders i
    have hact : (raw.readers i).pc.Active := by
      by_contra hno
      rw [raw.next_read_eq_none alloc (fuel + 2) hno] at hn
      cases hn
    obtain ⟨hstep, hok⟩ := readerStep_sim hw.rep hp (raw.readers i).key (raw.readers i).snapshot
      hrel.ok
    rw [← hrel.place] at hstep
    rw [raw.next_read alloc (fuel + 2) hact, hstep, Option.map_some] at hn
    obtain rfl := Option.some.inj hn
    rw [hrel.place, active_map] at hact
    have hrel' : ReaderRel addr s.mem
        { raw.readers i with
          pc := (readerStep s.mem (raw.readers i).key (raw.readers i).snapshot
            (s.readers i).pc).map addr }
        { s.readers i with
          pc := readerStep s.mem (s.readers i).key (s.readers i).snapshot (s.readers i).pc
          finish := s.mem.nodes.length - 1 } := by
      rw [hrel.key, hrel.snapshot] at hok
      refine ⟨hrel.key, hrel.snapshot, ?_, hok⟩
      rw [hrel.key, hrel.snapshot]
    exact ⟨_, s.next_read hact, addr, hp, hw, update_readers hreaders hrel'⟩

theorem next_isSome (h : Sim alloc raw s) {a : RawAction ι} (hs : s.next a.abs = some s')
    (hserve : raw.CanServe alloc fuel a) : (raw.next alloc fuel a).isSome := by
  obtain ⟨addr, hp, hw, hreaders⟩ := h
  have hidle : raw.writer.pc = .idle ↔ s.writer = .idle := by
    rw [hw.rel.place]
    exact map_eq_idle
  cases a with
  | insert key value seqno op =>
    simp only [RawAction.abs, Machine.next] at hs
    split at hs
    · rename_i hpc
      obtain ⟨x, hx, -⟩ := Option.map_eq_some_iff.mp hs
      obtain ⟨y, hy⟩ := startInsert_isSome hx hserve
      simp [RawMachine.next, hidle.mpr hpc, hy]
    · cases hs
  | write =>
    obtain ⟨r', w', hstep, -⟩ := writerStep_sim hp hw
    have hne : s.writer ≠ .idle := by
      intro hpc
      simp [RawAction.abs, Machine.next, hpc] at hs
    simp only [RawMachine.next]
    split
    · exact absurd (hidle.mp ‹_›) hne
    · simp [hstep]
  | get i key snapshot =>
    have hrel := hreaders i
    simp only [RawAction.abs, Machine.next] at hs
    simp only [RawMachine.next, hrel.place]
    cases hpc : (s.readers i).pc <;> rw [hpc] at hs <;> simp [ReaderPc.map] at hs ⊢
  | read i =>
    have hrel := hreaders i
    have hact : (s.readers i).pc.Active := by
      simp only [RawAction.abs, Machine.next] at hs
      cases hpc : (s.readers i).pc <;> simp_all [ReaderPc.Active]
    obtain ⟨hstep, -⟩ := readerStep_sim hw.rep hp (raw.readers i).key (raw.readers i).snapshot
      hrel.ok
    rw [← hrel.place] at hstep
    rw [← active_map addr, ← hrel.place] at hact
    rw [raw.next_read alloc fuel hact, hstep]
    rfl

/-- Every run of the list over the bytes of its arena is the run of the same actions
on the list of nodes, with the same results, and its next access is never to memory
that is not the list's own: it can go on wherever the list of nodes can. -/
theorem pointers_refine {raw₀ : RawMachine ι} {actions : List (RawAction ι)} (hb : Blocks alloc)
    (h₀ : RawMachine.init alloc (fuel + 2) = some raw₀)
    (h : run (RawMachine.next alloc (fuel + 2)) raw₀ actions = some raw) :
    ∃ s, run Machine.next (.init : Machine ι) (actions.map RawAction.abs) = some s ∧
      raw.list.len = s.mem.len ∧ (∀ i, raw.result i = s.result i) ∧
      ∀ a s', s.next (RawAction.abs a) = some s' → raw.CanServe alloc (fuel + 2) a →
        (raw.next alloc (fuel + 2) a).isSome := by
  obtain ⟨s, hrun, hs⟩ := run_simulated (R := Sim alloc)
    (fun _ _ _ _ hsim hn => next_sim hb hsim hn) (init_sim hb h₀) h
  obtain ⟨addr, -, hw, -⟩ := id hs
  exact ⟨s, hrun, hw.rep.len, hs.result, fun a s' hs' hserve => next_isSome hs hs' hserve⟩

/-- A global allocator with one block of 16 MiB for each of its first calls. -/
def pagedAlloc : GlobalAlloc := fun n size =>
  if n < 1024 ∧ size ≤ 2 ^ 24 then some ((n + 1) * 2 ^ 24) else none

theorem blocks_paged : Blocks pagedAlloc := by
  have hbase : ∀ n size base, pagedAlloc n size = some base →
      n < 1024 ∧ size ≤ 2 ^ 24 ∧ base = (n + 1) * 2 ^ 24 := by
    intro n size base h
    obtain ⟨hc, hb⟩ := Option.ite_none_right_eq_some.mp h
    exact ⟨hc.1, hc.2, (Option.some.inj hb).symm⟩
  refine ⟨fun n size base h => ?_, fun n size base h => ?_, fun n size base h => ?_, ?_⟩
  · obtain ⟨-, -, rfl⟩ := hbase n size base h
    exact Dvd.dvd.mul_left (by decide) _
  · obtain ⟨-, -, rfl⟩ := hbase n size base h
    omega
  · obtain ⟨hn, hsize, rfl⟩ := hbase n size base h
    unfold u64Size
    omega
  · intro n n' size size' base base' hne h h'
    obtain ⟨-, hsize, rfl⟩ := hbase n size base h
    obtain ⟨-, hsize', rfl⟩ := hbase n' size' base' h'
    omega

/-- An insert and a lookup that begins before the node is linked. -/
def insertThenGet : List (RawAction Unit) :=
  [[.insert [1] [7, 8] 5 .put], List.replicate 4 .write, [.get () [1] 9, .read (), .write],
    List.replicate 2 (.read ())].flatten

theorem pointers_refine_insert : ∃ raw₀ raw s, RawMachine.init pagedAlloc 2 = some raw₀ ∧
    run (RawMachine.next pagedAlloc 2) raw₀ insertThenGet = some raw ∧
    run Machine.next (.init : Machine Unit) (insertThenGet.map RawAction.abs) = some s ∧
    raw.result () = some (some ⟨[1], 5, .put, [7, 8]⟩) ∧ raw.result () = s.result () := by
  have hrun : ((RawMachine.init pagedAlloc 2).bind fun raw₀ =>
      (run (RawMachine.next pagedAlloc 2) raw₀ insertThenGet).map fun raw =>
        decide (raw.result () = some (some ⟨[1], 5, .put, [7, 8]⟩))) = some true := by
    decide +kernel
  obtain ⟨raw₀, h₀, hrun⟩ := Option.bind_eq_some_iff.mp hrun
  obtain ⟨raw, hraw, hres⟩ := Option.map_eq_some_iff.mp hrun
  obtain ⟨s, hs, -, hsame, -⟩ := pointers_refine blocks_paged h₀ hraw
  exact ⟨raw₀, raw, s, h₀, hraw, hs, of_decide_eq_true hres, hsame ()⟩

end PaddockKV.Memtable
