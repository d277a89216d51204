import PaddockKV.Lib.Traces
import PaddockKV.Memtable.Sequential

/-!
# Inserts as atomic steps

What the skip list is for: a memtable whose inserts take effect at one moment
between their call and their return, with readers beside them. The readers are left
open here. Of all accesses of an insert only the store that links its node at the
bottom level changes what a reader can find (`bottom_writerStep`), so a run of the
writer shows the calls and returns of the atomic inserts (`write_traces`).
-/

namespace PaddockKV.Memtable

open Transition

variable {m m' : SkipMem} {L L' : ℕ → List ℕ}

/-! ### The records of the list -/

theorem Levels.iter_eq (h : Levels m L) : m.iter = L 0 := by
  have hnd : (L 0).Nodup := (List.nodup_cons.mp (h.nodup 0)).2
  have hsub : L 0 ⊆ List.range m.nodes.length := by
    intro p hp
    exact List.mem_range.mpr (h.alloc p hp).2
  have hlen := (hnd.subperm hsub).length_le
  rw [List.length_range] at hlen
  exact SkipList.iterFrom_eq (h.path 0) _ hlen

def SkipMem.recsOf (m : SkipMem) (ps : List ℕ) : List Rec := ps.map fun p => (m.node p).toRec

/-- The records linked at the bottom level. -/
def SkipMem.contents (m : SkipMem) : List Rec := m.recsOf m.iter

theorem recsOf_congr {ps : List ℕ} (h : ∀ p ∈ ps, m'.node p = m.node p) :
    m'.recsOf ps = m.recsOf ps :=
  List.map_congr_left fun p hp => by rw [h p hp]

theorem recsOf_append (m : SkipMem) (ps qs : List ℕ) : m.recsOf (ps ++ qs) = m.recsOf ps ++ m.recsOf qs :=
  List.map_append ..

theorem recsOf_sublist {ps qs : List ℕ} (h : ps.Sublist qs) :
    (m.recsOf ps).Sublist (m.recsOf qs) := h.map _

theorem Levels.contents_eq (h : Levels m L) : m.contents = m.recsOf (L 0) := by
  rw [SkipMem.contents, h.iter_eq]

theorem SkipMem.Before.not_before {p q : ℕ} (h : m.Before p q) :
    ¬ (m.node q).toRec.Before (m.node p).toRec := by
  intro hqp
  rcases h with hlt | ⟨hk, hs, -⟩
  · exact KeyBefore.irrefl _ _ (hlt.trans hqp)
  · have hqp' : KeyBefore (m.node q).key (m.node q).seqno (m.node p).key (m.node p).seqno := hqp
    rw [hk, hs] at hqp'
    exact KeyBefore.irrefl _ _ hqp'

theorem Levels.sorted_contents (h : Levels m L) : SortedRecs m.contents := by
  rw [h.contents_eq]
  exact List.pairwise_map.mpr ((h.sorted 0).imp SkipMem.Before.not_before)

theorem node_startInsert {key : Key} {value : Value} {seqno : ℕ} {op : OpType} {pc : WriterPc}
    (h : Levels m L) (hstart : startInsert m key value seqno op = some (m', pc)) :
    ∀ p ∈ L 0, m'.node p = m.node p := by
  intro p hp
  rw [(startInsert_eq hstart).1]
  exact node_allocateAt m _ _ key value seqno op (h.alloc p hp).2

theorem contents_allocateAt {height : ℕ} {rng : UInt32} {k : Key} {v : Value} {q : ℕ} {op : OpType}
    (h : Levels m L) (hw : WriterInv m L .idle) (hpos : 0 < height) :
    (allocateAt m height rng k v q op).contents = m.contents := by
  obtain ⟨h', -⟩ := allocateAt_inv height rng k v q op h hw hpos
  rw [h.contents_eq, h'.contents_eq]
  exact recsOf_congr fun p hp => node_allocateAt m height rng k v q op (h.alloc p hp).2

/-! ### The writer's accesses -/

/-- The insert under way: its record, and whether it is linked at the bottom. -/
def WriterPc.call (m : SkipMem) : WriterPc → Option (Rec × Bool)
  | .idle => none
  | .findActive n | .find n _ _ _ | .loadMax n _ | .storeMax n _ => some ((m.node n).toRec, false)
  | .linkNode n level _ | .linkPrev n level _ => some ((m.node n).toRec, decide (level ≠ 0))

theorem node_writerStep (m : SkipMem) (pc : WriterPc) (p : ℕ) :
    (writerStep m pc).1.node p = m.node p := by
  rw [SkipMem.node, writerStep_nodes, SkipMem.node]

theorem call_writerStep {pc : WriterPc} (hpc : ¬ ∃ n links, pc = .linkPrev n 0 links) :
    (writerStep m pc).2.call (writerStep m pc).1 = pc.call m ∨
      ∃ r, pc.call m = some (r, true) ∧ (writerStep m pc).2 = .idle := by
  cases pc with
  | idle => exact .inl rfl
  | findActive n =>
    simp only [writerStep]
    split <;> exact .inl rfl
  | find n level cur links =>
    have hsettle : ∀ link,
        (settle n level cur link links).call m = some ((m.node n).toRec, false) := by
      intro link
      simp only [settle]
      split <;> rfl
    simp only [writerStep]
    split
    · exact .inl (hsettle none)
    · split
      · exact .inl rfl
      · exact .inl (hsettle _)
  | loadMax n links =>
    simp only [writerStep]
    split <;> exact .inl rfl
  | storeMax n links => exact .inl rfl
  | linkNode n level links => exact .inl rfl
  | linkPrev n level links =>
    have hlevel : level ≠ 0 := by
      rintro rfl
      exact hpc ⟨n, links, rfl⟩
    have hcall : (WriterPc.linkPrev n level links).call m = some ((m.node n).toRec, true) := by
      simp [WriterPc.call, hlevel]
    rw [hcall]
    simp only [writerStep]
    split
    · exact .inl rfl
    · exact .inr ⟨_, rfl, rfl⟩

/-- An access of the writer leaves the bottom list alone, but for the store that
links a node there: it goes in front of the first record that is not smaller. -/
theorem bottom_writerStep {pc : WriterPc} (h : Levels m L) (hw : WriterInv m L pc) :
    ∃ L', Levels (writerStep m pc).1 L' ∧ WriterInv (writerStep m pc).1 L' (writerStep m pc).2 ∧
      Grows m L (writerStep m pc).1 L' ∧
      ((L' 0 = L 0 ∧ ((writerStep m pc).2.call (writerStep m pc).1 = pc.call m ∨
        ∃ r, pc.call m = some (r, true) ∧ (writerStep m pc).2 = .idle)) ∨
      ∃ n A B, L 0 = A ++ B ∧ L' 0 = A ++ n :: B ∧
        (∀ a ∈ A, (m.node a).toRec.Before (m.node n).toRec) ∧
        (∀ b ∈ B, ¬ (m.node b).toRec.Before (m.node n).toRec) ∧
        pc.call m = some ((m.node n).toRec, false) ∧
        ((writerStep m pc).2.call (writerStep m pc).1 = some ((m.node n).toRec, true) ∨
          (writerStep m pc).2 = .idle)) := by
  obtain ⟨L', h', hw', hg, hfwd⟩ := writerStep_inv h hw
  refine ⟨L', h', hw', hg, ?_⟩
  by_cases hpc : ∃ n links, pc = .linkPrev n 0 links
  · obtain ⟨n, links, rfl⟩ := hpc
    obtain ⟨hk, hn⟩ := hw
    obtain ⟨A, B, hAB, hA, hB, hAn, hBn⟩ := hk.split 0 le_rfl
    have hpub := publish_levels h hk hn hAB hA hB hAn hBn
    have hsame : (writerStep m (.linkPrev n 0 links)).1.fwd =
        (m.setFwd (links.prev 0) 0 (some n)).fwd := by
      simp only [writerStep]
      split <;> rfl
    have hbottom : L' 0 = A ++ n :: B := by
      have hpath := hpub.path 0
      rw [← hsame, Function.update_self] at hpath
      exact (h'.path 0).unique hpath
    refine .inr ⟨n, A, B, hAB, hbottom, ?_, fun b hb => (hBn b hb).not_before, rfl, ?_⟩
    · intro a ha
      -- the new node is the latest one
      have hmem := (hk.mem a).mp (hAB ▸ List.mem_append_left B ha)
      have hlen := hk.eq_len
      rcases hAn a ha with hlt | ⟨-, -, hlt⟩
      · exact hlt
      · omega
    · simp only [writerStep]
      split
      · exact .inl rfl
      · exact .inr rfl
  · have hkeep : ∀ p ∈ 0 :: L 0, (writerStep m pc).1.fwd p 0 = m.fwd p 0 := by
      intro p hp
      rcases hfwd p hp with hsame | ⟨n, links, hlink, -⟩
      · exact hsame
      · exact absurd ⟨n, links, hlink⟩ hpc
    exact .inl ⟨(h'.path 0).unique ((h.path 0).congr hkeep), call_writerStep hpc⟩

theorem recsOf_writerStep (m : SkipMem) (pc : WriterPc) (ps : List ℕ) :
    (writerStep m pc).1.recsOf ps = m.recsOf ps :=
  recsOf_congr fun p _ => node_writerStep m pc p

/-! ### The memtable with atomic inserts -/

/-- The records, the insert under way with whether it took effect, and the readers. -/
@[ext]
structure MemSpec (C : Type) where
  recs : List Rec
  call : Option (Rec × Bool)
  readers : C

def MemSpec.init {C : Type} (readers : C) : MemSpec C := ⟨[], none, readers⟩

/-- What callers see: inserts are called and return, and what readers show. -/
inductive MemEvent (E : Type) where
  | insert (r : Rec)
  | inserted
  | read (e : E)
  deriving DecidableEq

/-- The steps of inserts and of readers that `read` describes: what they do with the
records of the moment. -/
inductive MemStep {C E : Type} (read : List Rec → C → Option E → C → Prop) :
    MemSpec C → Option (MemEvent E) → MemSpec C → Prop where
  | insert {a : MemSpec C} (r : Rec) : a.call = none →
      MemStep read a (some (.insert r)) { a with call := some (r, false) }
  | link {a : MemSpec C} {r : Rec} : a.call = some (r, false) →
      MemStep read a none { a with recs := insertRec r a.recs, call := some (r, true) }
  | inserted {a : MemSpec C} {r : Rec} : a.call = some (r, true) →
      MemStep read a (some .inserted) { a with call := none }
  | read {a : MemSpec C} {e : E} {c : C} : read a.recs a.readers (some e) c →
      MemStep read a (some (.read e)) { a with readers := c }
  | silent {a : MemSpec C} {c : C} : read a.recs a.readers none c →
      MemStep read a none { a with readers := c }

/-- What `insert` stores: a tombstone has no value. -/
def storedRec (key : Key) (value : Value) (seqno : ℕ) (op : OpType) : Rec :=
  ⟨key, seqno, op, if op = .put then value else []⟩

section Traces

variable {C E : Type} {read : List Rec → C → Option E → C → Prop}

/-- The memtable that the list is, with readers `c`. -/
def SkipMem.spec (m : SkipMem) (pc : WriterPc) (c : C) : MemSpec C := ⟨m.contents, pc.call m, c⟩

/-- What the writer shows when it comes to `pc`. -/
def WriterPc.shown : WriterPc → List (MemEvent E)
  | .idle => [.inserted]
  | _ => []

theorem shown_of_call {pc : WriterPc} {x : Rec × Bool} (h : pc.call m = some x) :
    (pc.shown : List (MemEvent E)) = [] := by
  cases pc with
  | idle => cases h
  | _ => rfl

theorem insert_traces {key : Key} {value : Value} {seqno : ℕ} {op : OpType} {pc : WriterPc}
    (h : Levels m L) (hw : WriterInv m L .idle)
    (hstart : startInsert m key value seqno op = some (m', pc)) (c : C) :
    Traces (MemStep read) (m.spec .idle c) [.insert (storedRec key value seqno op)]
      (m'.spec pc c) := by
  obtain ⟨hm, hpc⟩ := startInsert_eq hstart
  have hrecs : m'.contents = m.contents := by
    rw [hm]
    exact contents_allocateAt h hw (randomHeight_bounds _).1
  have hcall : pc.call m' = some (storedRec key value seqno op, false) := by
    rw [hpc, WriterPc.call, hm, node_allocateAt_new]
    rfl
  have hspec : m'.spec pc c =
      { m.spec .idle c with call := some (storedRec key value seqno op, false) } :=
    MemSpec.ext hrecs hcall rfl
  rw [hspec]
  exact .single (.insert _ rfl)

theorem write_traces {pc : WriterPc} (h : Levels m L) (hw : WriterInv m L pc) (hbusy : pc ≠ .idle)
    (c : C) :
    Traces (MemStep read) (m.spec pc c) (writerStep m pc).2.shown
      ((writerStep m pc).1.spec (writerStep m pc).2 c) := by
  obtain ⟨L', h', -, -, hcases⟩ := bottom_writerStep h hw
  have hnow : (writerStep m pc).1.contents = m.recsOf (L' 0) := by
    rw [h'.contents_eq, recsOf_writerStep]
  rcases hcases with ⟨hbottom, hcall⟩ | ⟨n, A, B, hAB, hbottom, hA, hB, hr, hcall⟩
  · have hrecs : (writerStep m pc).1.contents = m.contents := by
      rw [hnow, hbottom, h.contents_eq]
    rcases hcall with hcall | ⟨r, hr, hidle⟩
    · obtain ⟨x, hx⟩ : ∃ x, pc.call m = some x := by
        cases pc with
        | idle => exact absurd rfl hbusy
        | _ => exact ⟨_, rfl⟩
      rw [show (writerStep m pc).1.spec (writerStep m pc).2 c = m.spec pc c from
        MemSpec.ext hrecs hcall rfl, shown_of_call (hcall.trans hx)]
      exact .refl _
    · have hspec : (writerStep m pc).1.spec (writerStep m pc).2 c =
          { m.spec pc c with call := none } := by
        refine MemSpec.ext hrecs ?_ rfl
        rw [hidle]
        rfl
      rw [hspec, hidle]
      exact .single (.inserted hr)
  · -- the store at the bottom level
    have hrecs : (writerStep m pc).1.contents = insertRec (m.node n).toRec m.contents := by
      rw [hnow, hbottom, h.contents_eq, hAB]
      simp only [SkipMem.recsOf, List.map_append, List.map_cons]
      refine (insertRec_append ?_ ?_).symm
      · simpa using hA
      · simpa using hB
    have hlink : MemStep read (m.spec pc c) none _ := .link hr
    rcases hcall with hcall | hidle
    · have hspec : (writerStep m pc).1.spec (writerStep m pc).2 c = { m.spec pc c with
          recs := insertRec (m.node n).toRec m.contents
          call := some ((m.node n).toRec, true) } := MemSpec.ext hrecs hcall rfl
      rw [hspec, shown_of_call hcall]
      exact .silent hlink (.refl _)
    · have hspec : (writerStep m pc).1.spec (writerStep m pc).2 c = { m.spec pc c with
          recs := insertRec (m.node n).toRec m.contents, call := none } := by
        refine MemSpec.ext hrecs ?_ rfl
        rw [hidle]
        rfl
      rw [hspec, hidle]
      exact .silent hlink (.single (.inserted rfl))

end Traces

end PaddockKV.Memtable
