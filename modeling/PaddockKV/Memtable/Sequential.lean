import PaddockKV.Records
import PaddockKV.Memtable.Concurrent

/-!
# The skip list without interference

`insert` and `get` run to their ends. Both terminate: `find_predecessors` and
the walk of `get` move to a later node or to a lower level at every load. The
list then behaves as a sorted list of records (`recs_insert`, `get_eq`).
-/

namespace PaddockKV.Memtable

variable {m : SkipMem} {L : ℕ → List ℕ}

/-! ### Termination measures -/

/-- A bound on the nodes a walk can still meet behind `cur`. -/
def remaining (m : SkipMem) (cur : ℕ) : ℕ :=
  if cur = 0 then m.nodes.length
  else ((Finset.range m.nodes.length).filter fun p => m.Before cur p).card

theorem remaining_le (m : SkipMem) (cur : ℕ) : remaining m cur ≤ m.nodes.length := by
  unfold remaining
  split
  · exact le_rfl
  · exact (Finset.card_filter_le _ _).trans (Finset.card_range _).le

theorem remaining_lt (h : Levels m L) {i cur q : ℕ} (hcur : cur ∈ 0 :: L i)
    (hq : m.fwd cur i = some q) : remaining m q < remaining m cur := by
  have hqL := h.next_mem hcur hq
  obtain ⟨hq0, hqlen⟩ := h.alloc q (h.subset_zero i hqL)
  have hqself : q ∉ (Finset.range m.nodes.length).filter fun p => m.Before q p := by
    simp [SkipMem.Before.irrefl]
  unfold remaining
  rw [if_neg hq0.ne']
  split
  · calc _ < (Finset.range m.nodes.length).card := by
          refine Finset.card_lt_card ⟨Finset.filter_subset _ _, ?_⟩
          intro hsub
          exact hqself (hsub (Finset.mem_range.mpr hqlen))
      _ = m.nodes.length := Finset.card_range _
  · rename_i hcur0
    have hcq : m.Before cur q := by
      obtain ⟨A, B, hL, hA, hB, -, -⟩ := h.cut hcur
      have hs := h.sorted i
      rw [hL, List.pairwise_append] at hs
      refine hs.2.2 cur ?_ q ?_
      · rcases List.eq_nil_or_concat A with rfl | ⟨A', z, rfl⟩
        · exact absurd hA.symm hcur0
        · have : z = cur := by simpa using hA
          simp [this]
      · rw [hq] at hB
        exact List.mem_of_mem_head? hB
    refine Finset.card_lt_card ⟨?_, ?_⟩
    · intro p hp
      simp only [Finset.mem_filter] at hp ⊢
      exact ⟨hp.1, hcq.trans hp.2⟩
    · intro hsub
      refine hqself (hsub ?_)
      simp [hqlen, hcq]

/-- Accesses left to an insert. -/
def writerMeasure (m : SkipMem) : WriterPc → ℕ
  | .idle => 0
  | .findActive n => m.maxHeight * (m.nodes.length + 1) + 2 * (m.node n).height + 3
  | .find n level cur _ =>
    level * (m.nodes.length + 1) + remaining m cur + 2 * (m.node n).height + 3
  | .loadMax n _ => 2 * (m.node n).height + 2
  | .storeMax n _ => 2 * (m.node n).height + 1
  | .linkNode n level _ => 2 * ((m.node n).height - level)
  | .linkPrev n level _ => 2 * ((m.node n).height - level) - 1

theorem writerMeasure_settle_lt {n level cur : ℕ} {link : Option ℕ} {links : Links} :
    writerMeasure m (settle n level cur link links) <
      writerMeasure m (.find n level cur links) := by
  unfold settle
  split
  · simp only [writerMeasure]
    omega
  · obtain ⟨l, rfl⟩ : ∃ l, level = l + 1 := ⟨level - 1, by omega⟩
    simp only [writerMeasure, Nat.add_sub_cancel, Nat.add_one_mul]
    omega

theorem writerStep_decreases {pc : WriterPc} (h : Levels m L) (hw : WriterInv m L pc)
    (hpc : pc ≠ .idle) :
    writerMeasure (writerStep m pc).1 (writerStep m pc).2 < writerMeasure m pc := by
  cases pc with
  | idle => exact absurd rfl hpc
  | findActive n =>
    have hpos := h.height_pos
    obtain ⟨k, hk⟩ : ∃ k, m.maxHeight = k + 1 := ⟨m.maxHeight - 1, by omega⟩
    have := remaining_le m 0
    simp only [writerStep, if_neg hpos.ne', writerMeasure]
    have hmul := Nat.add_one_mul k (m.nodes.length + 1)
    rw [hk, Nat.add_sub_cancel]
    omega
  | find n level cur links =>
    simp only [writerStep]
    cases hq : m.fwd cur level with
    | none => exact writerMeasure_settle_lt
    | some q =>
      dsimp only
      split
      · have := remaining_lt h hw.2.1 hq
        simp only [writerMeasure]
        omega
      · exact writerMeasure_settle_lt
  | loadMax n links =>
    simp only [writerStep]
    split <;> simp only [writerMeasure] <;> omega
  | storeMax n links =>
    simp only [writerStep, writerMeasure, SkipMem.node]
    omega
  | linkNode n level links =>
    have hlt : level < (m.node n).height := Linking.level_lt hw
    have hnode : (m.setFwd n level (links.following level)).node n = m.node n := rfl
    simp only [writerStep, writerMeasure, hnode]
    omega
  | linkPrev n level links =>
    have hlt : level < (m.node n).height := hw.1.level_lt
    have hnode : (m.setFwd (links.prev level) level (some n)).node n = m.node n := rfl
    simp only [writerStep]
    split
    · simp only [writerMeasure, hnode]
      omega
    · simp only [writerMeasure]
      omega

/-- Loads left to a `get`. -/
def readerMeasure (m : SkipMem) : ReaderPc → ℕ
  | .idle | .done _ => 0
  | .loadMax => m.maxHeight * (m.nodes.length + 1) + 2
  | .walk level cur => level * (m.nodes.length + 1) + remaining m cur + 2
  | .candidate _ => 1

theorem readerMeasure_enterLevel_lt {level cur b : ℕ}
    (hb : level * (m.nodes.length + 1) + 1 < b) : readerMeasure m (enterLevel level cur) < b := by
  cases level with
  | zero =>
    simp only [enterLevel, readerMeasure]
    omega
  | succ level =>
    have := remaining_le m cur
    rw [Nat.add_one_mul] at hb
    simp only [enterLevel, readerMeasure]
    omega

theorem readerStep_decreases {x : Reader} (h : Levels m L) (hr : ReaderInv m L x)
    (hpc : x.pc ≠ .idle ∧ ∀ r, x.pc ≠ .done r) :
    readerMeasure m (readerStep m x.key x.snapshot x.pc) < readerMeasure m x.pc := by
  obtain ⟨-, hx⟩ := hr
  cases hxp : x.pc with
  | idle => exact absurd hxp hpc.1
  | done r => exact absurd hxp (hpc.2 r)
  | loadMax =>
    refine readerMeasure_enterLevel_lt ?_
    simp only [readerMeasure]
    omega
  | walk level cur =>
    rw [hxp] at hx
    simp only [readerStep]
    have hdown : readerMeasure m (enterLevel level cur) < readerMeasure m (.walk level cur) := by
      refine readerMeasure_enterLevel_lt ?_
      simp only [readerMeasure]
      omega
    cases hq : m.fwd cur level with
    | none => exact hdown
    | some q =>
      dsimp only
      split
      · have := remaining_lt h hx.1 hq
        simp only [readerMeasure]
        omega
      · exact hdown
  | candidate cur =>
    rw [readerStep_candidate]
    simp [readerMeasure]

/-! ### Running to the end -/

theorem Grows.trans {m₁ m₂ m₃ : SkipMem} {L₁ L₂ L₃ : ℕ → List ℕ} (h : Grows m₁ L₁ m₂ L₂)
    (h' : Grows m₂ L₂ m₃ L₃) : Grows m₁ L₁ m₃ L₃ where
  node p hp := (h'.node p (hp.trans_le h.nodes_le)).trans (h.node p hp)
  nodes_le := h.nodes_le.trans h'.nodes_le
  subset i := List.Subset.trans (h.subset i) (h'.subset i)
  len_le := h.len_le.trans h'.len_le

theorem writerStep_nodes (m : SkipMem) (pc : WriterPc) : (writerStep m pc).1.nodes = m.nodes := by
  cases pc with
  | find n level cur links =>
    simp only [writerStep]
    cases m.fwd cur level with
    | none => rfl
    | some q =>
      dsimp only
      split <;> rfl
  | findActive n => simp only [writerStep]; split <;> rfl
  | loadMax n links => simp only [writerStep]; split <;> rfl
  | linkPrev n level links => simp only [writerStep]; split <;> rfl
  | _ => rfl

def runWriter : ℕ → SkipMem → WriterPc → SkipMem × WriterPc
  | 0, m, pc => (m, pc)
  | _ + 1, m, .idle => (m, .idle)
  | fuel + 1, m, pc => runWriter fuel (writerStep m pc).1 (writerStep m pc).2

theorem runWriter_spec (fuel : ℕ) {pc : WriterPc} (h : Levels m L) (hw : WriterInv m L pc)
    (hfuel : writerMeasure m pc ≤ fuel) :
    ∃ L', let m' := (runWriter fuel m pc).1
      Levels m' L' ∧ WriterInv m' L' .idle ∧ Grows m L m' L' ∧ m'.nodes = m.nodes := by
  induction fuel generalizing m L pc with
  | zero =>
    have hidle : pc = .idle := by
      by_contra hne
      have := writerStep_decreases h hw hne
      omega
    subst hidle
    exact ⟨L, h, hw, Grows.refl m L, rfl⟩
  | succ fuel ih =>
    by_cases hidle : pc = .idle
    · subst hidle
      exact ⟨L, h, hw, Grows.refl m L, rfl⟩
    · have hrun : runWriter (fuel + 1) m pc =
          runWriter fuel (writerStep m pc).1 (writerStep m pc).2 := by
        cases pc <;> first | rfl | exact absurd rfl hidle
      obtain ⟨L₁, h₁, hw₁, hg₁, -⟩ := writerStep_inv h hw
      have hdec := writerStep_decreases h hw hidle
      obtain ⟨L', h', hw', hg', hnodes⟩ := ih h₁ hw₁ (by omega)
      rw [hrun]
      exact ⟨L', h', hw', hg₁.trans hg', hnodes.trans (writerStep_nodes m pc)⟩

def runReader (m : SkipMem) (key : Key) (snapshot : ℕ) : ℕ → ReaderPc → ReaderPc
  | 0, pc => pc
  | fuel + 1, pc => runReader m key snapshot fuel (readerStep m key snapshot pc)

theorem runReader_done (m : SkipMem) (key : Key) (snapshot fuel : ℕ) (r : Option ℕ) :
    runReader m key snapshot fuel (.done r) = .done r := by
  induction fuel with
  | zero => rfl
  | succ fuel ih => exact ih

theorem readerStep_ne_idle {pc : ReaderPc} (key : Key) (snapshot : ℕ) (hpc : pc ≠ .idle) :
    readerStep m key snapshot pc ≠ .idle := by
  have henter : ∀ level cur, enterLevel level cur ≠ .idle := by
    intro level cur
    cases level <;> simp [enterLevel]
  cases pc with
  | idle => exact absurd rfl hpc
  | loadMax => exact henter _ _
  | walk level cur =>
    simp only [readerStep]
    cases m.fwd cur level with
    | none => exact henter _ _
    | some q =>
      dsimp only
      split
      · simp
      · exact henter _ _
  | candidate cur => simp [readerStep_candidate]
  | done r => simp [readerStep]

theorem runReader_spec (fuel : ℕ) {x : Reader} {wpc : WriterPc} (h : Levels m L)
    (hw : WriterInv m L wpc) (hr : ReaderInv m L x) (hidle : x.pc ≠ .idle)
    (hfuel : readerMeasure m x.pc ≤ fuel)
    (hfin : ∀ r, x.pc = .done r → x.finish = m.nodes.length - 1) :
    ∃ r, runReader m x.key x.snapshot fuel x.pc = .done r ∧
      Correct m { x with finish := m.nodes.length - 1 } r := by
  have finished : ∀ r, x.pc = .done r → Correct m { x with finish := m.nodes.length - 1 } r := by
    intro r hx
    have hc := hr.2
    rw [hx] at hc
    rw [← hfin r hx]
    exact hc.2
  induction fuel generalizing x with
  | zero =>
    cases hx : x.pc with
    | done r => exact ⟨r, rfl, finished r hx⟩
    | idle => exact absurd hx hidle
    | _ => simp [hx, readerMeasure] at hfuel
  | succ fuel ih =>
    by_cases hdone : ∃ r, x.pc = .done r
    · obtain ⟨r, hx⟩ := hdone
      exact ⟨r, by rw [hx]; exact runReader_done .., finished r hx⟩
    · have hpc : x.pc ≠ .idle ∧ ∀ r, x.pc ≠ .done r := ⟨hidle, fun r hx => hdone ⟨r, hx⟩⟩
      have hdec := readerStep_decreases h hr hpc
      have hr' := readerStep_inv h hw hr hpc
      refine ih hr' (readerStep_ne_idle _ _ hidle) (by dsimp only; omega) (fun _ _ => rfl) ?_
      intro r hx
      have hc := hr'.2
      rw [hx] at hc
      exact hc.2

/-! ### The skip list as a data type -/

/-- `SkipList` between two inserts. -/
structure SkipList where
  mem : SkipMem
  inv : ∃ L, Levels mem L ∧ WriterInv mem L .idle

namespace SkipList

def new : SkipList where
  mem := .new
  inv := by
    refine ⟨fun _ => [], levels_new, rfl, fun p => ?_⟩
    simp only [SkipMem.new, List.not_mem_nil, false_iff]
    omega

/-- `SkipList::insert`; `none` when `allocate_node` panics. -/
def insert (s : SkipList) (key : Key) (value : Value) (seqno : ℕ) (op : OpType) :
    Option SkipList :=
  match h : startInsert s.mem key value seqno op with
  | none => none
  | some (m, pc) => some {
      mem := (runWriter (writerMeasure m pc) m pc).1
      inv := by
        obtain ⟨L, hL, hw⟩ := s.inv
        obtain ⟨rfl, rfl⟩ := startInsert_eq h
        obtain ⟨hL', hw'⟩ := allocateAt_inv _ _ key value seqno op hL hw (randomHeight_bounds _).1
        obtain ⟨L', h₁, h₂, -⟩ := runWriter_spec _ hL' hw' le_rfl
        exact ⟨L', h₁, h₂⟩ }

/-- The heights `random_height` can return. -/
abbrev Height := { h : ℕ // 1 ≤ h ∧ h ≤ maxLevels }

/-- `insert` with a node of height `height`, which leaves `rng` in `rng_state`. -/
def insertAt (s : SkipList) (height : Height) (rng : UInt32) (key : Key) (value : Value)
    (seqno : ℕ) (op : OpType) : Option SkipList :=
  let m := allocateAt s.mem height rng key value seqno op
  if key.length < u32Size ∧ (if op = .put then value.length else 0) < u32Size then some {
      mem := (runWriter (writerMeasure m (.findActive s.mem.nodes.length)) m
        (.findActive s.mem.nodes.length)).1
      inv := by
        obtain ⟨L, hL, hw⟩ := s.inv
        obtain ⟨hL', hw'⟩ := allocateAt_inv _ rng key value seqno op hL hw height.2.1
        obtain ⟨L', h₁, h₂, -⟩ := runWriter_spec _ hL' hw' le_rfl
        exact ⟨L', h₁, h₂⟩ }
  else none

theorem insert_eq (s : SkipList) (key : Key) (value : Value) (seqno : ℕ) (op : OpType) :
    s.insert key value seqno op = s.insertAt ⟨_, randomHeight_bounds (xorshift s.mem.rngState)⟩
      (xorshift s.mem.rngState) key value seqno op := by
  unfold insert insertAt
  split
  · rename_i hnone
    simp only [startInsert, ite_eq_right_iff, reduceCtorEq, imp_false] at hnone
    exact (if_neg hnone).symm
  · rename_i m pc hsome
    simp only [startInsert, Option.ite_none_right_eq_some, Option.some.injEq, Prod.mk.injEq] at hsome
    obtain ⟨hfit, rfl, rfl⟩ := hsome
    exact (if_pos hfit).symm

/-- `SkipList::get`, as the record of the node it returns. -/
def get (s : SkipList) (key : Key) (snapshot : ℕ) : Option Rec :=
  match runReader s.mem key snapshot (readerMeasure s.mem .loadMax) .loadMax with
  | .done r => r.map fun p => (s.mem.node p).toRec
  | _ => none

def len (s : SkipList) : ℕ := s.mem.len

/-- `SkipList::iter`, as records. -/
def recs (s : SkipList) : List Rec := s.mem.iter.map fun p => (s.mem.node p).toRec

/-! ### It is a sorted list of records -/

variable {s : SkipList}

@[simp] theorem visible_toRec (m : SkipMem) (key : Key) (snapshot p : ℕ) :
    (m.node p).toRec.Visible key snapshot ↔ m.Visible key snapshot p := Iff.rfl

theorem length_bottom (h : Levels m L) (hw : WriterInv m L .idle) : (L 0).length = m.len := by
  have hnd : (L 0).Nodup := (List.nodup_cons.mp (h.nodup 0)).2
  have hset : (L 0).toFinset = Finset.Icc 1 m.len := by
    ext p
    rw [List.mem_toFinset, hw.2 p, Finset.mem_Icc, Nat.succ_le_iff]
  rw [← List.toFinset_card_of_nodup hnd, hset, Nat.card_Icc]
  omega

theorem iterFrom_eq {p : ℕ} {l : List ℕ} (hp : Chain.Path (fun p => m.fwd p 0) p l) (fuel : ℕ)
    (hfuel : l.length ≤ fuel) : iterFrom m fuel (m.fwd p 0) = l := by
  induction l generalizing p fuel with
  | nil =>
    have hnone : m.fwd p 0 = none := hp
    cases fuel <;> simp [iterFrom, hnone]
  | cons q l ih =>
    obtain ⟨hq, hrest⟩ := hp
    obtain ⟨f, rfl⟩ : ∃ f, fuel = f + 1 := by
      rw [List.length_cons] at hfuel
      exact ⟨fuel - 1, by omega⟩
    have hq' : m.fwd p 0 = some q := hq
    rw [hq']
    simp only [iterFrom]
    rw [ih hrest f (by simpa using hfuel)]

theorem iter_eq (h : Levels m L) (hw : WriterInv m L .idle) : m.iter = L 0 := by
  refine iterFrom_eq (h.path 0) _ ?_
  rw [length_bottom h hw, hw.1]
  exact Nat.le_succ _

theorem recs_eq (h : Levels s.mem L) (hw : WriterInv s.mem L .idle) :
    s.recs = (L 0).map fun p => (s.mem.node p).toRec := by
  rw [recs, iter_eq h hw]

theorem len_eq (s : SkipList) : s.len = s.recs.length := by
  obtain ⟨L, h, hw⟩ := s.inv
  rw [recs_eq h hw, List.length_map, length_bottom h hw, len]

theorem get_eq (s : SkipList) (key : Key) (snapshot : ℕ) :
    s.get key snapshot = lookup s.recs key snapshot := by
  obtain ⟨L, h, hw⟩ := s.inv
  have hr : ReaderInv s.mem L ⟨key, snapshot, s.mem.len, 0, .loadMax⟩ := ⟨le_rfl, trivial⟩
  obtain ⟨r, hrun, hc⟩ := runReader_spec (readerMeasure s.mem .loadMax) h hw hr (by simp) le_rfl
    (by simp)
  have hnew := hc.of_quiet (by
    intro p hlt hle
    have := hw.1
    dsimp only at hlt hle
    omega)
  have hbottom : {p | 0 < p ∧ p ≤ s.mem.len} = {p | p ∈ L 0} := by
    ext p
    exact (hw.2 p).symm
  dsimp only at hnew
  rw [hbottom] at hnew
  have hget : s.get key snapshot = r.map fun p => (s.mem.node p).toRec := by
    simp only [get]
    dsimp only at hrun
    rw [hrun]
  rw [hget, recs_eq h hw, lookup, List.find?_map]
  congr 1
  cases r with
  | none =>
    symm
    rw [List.find?_eq_none]
    intro p hp
    simpa using hnew p hp
  | some p =>
    obtain ⟨hp, hv, hmax⟩ := hnew
    obtain ⟨A, B, hAB⟩ := List.append_of_mem hp
    symm
    rw [List.find?_eq_some_iff_append]
    refine ⟨by simpa using hv, A, B, hAB, ?_⟩
    intro a ha
    have haL : a ∈ L 0 := by rw [hAB]; exact List.mem_append_left _ ha
    have hap : s.mem.Before a p := by
      have hs := h.sorted 0
      rw [hAB, List.pairwise_append] at hs
      exact hs.2.2 a ha p (by simp)
    -- a visible node in front of `p` would be newer than `p`
    have hnot : ¬ s.mem.Visible key snapshot a := by
      intro hva
      have hle := hmax a haL hva
      rcases hap with (hk | ⟨-, hlt⟩) | ⟨-, heq, hlt⟩
      · exact hk.ne (hva.1.trans hv.1.symm)
      · omega
      · omega
    simpa using hnot

theorem bottom_insert {m' : SkipMem} {L' : ℕ → List ℕ} (h : Levels m L) (h' : Levels m' L')
    (hw : WriterInv m L .idle) (hw' : WriterInv m' L' .idle) (hg : Grows m L m' L')
    (hlen : m'.len = m.len + 1) :
    ∃ A B, L 0 = A ++ B ∧ L' 0 = A ++ (m.len + 1) :: B ∧
      (∀ a ∈ A, m'.Before a (m.len + 1)) ∧ ∀ b ∈ B, m'.Before (m.len + 1) b := by
  have hn : m.len + 1 ∈ L' 0 := (hw'.2 _).mpr ⟨by omega, by omega⟩
  obtain ⟨A, B, hAB⟩ := List.append_of_mem hn
  have hs' := h'.sorted 0
  have hnd := (List.nodup_cons.mp (h'.nodup 0)).2
  rw [hAB] at hs' hnd
  have hs'' := List.pairwise_append.mp hs'
  have hcons := List.pairwise_cons.mp hs''.2.1
  refine ⟨A, B, ?_, hAB, fun a ha => hs''.2.2 a ha _ (by simp), hcons.1⟩
  -- both lists are sorted by the new order and have the same nodes
  have hsL : (L 0).Pairwise m'.Before := by
    refine (h.sorted 0).imp_of_mem ?_
    intro a b ha hb hab
    exact (before_congr (hg.node a (h.alloc a ha).2) (hg.node b (h.alloc b hb).2)).mpr hab
  have hsAB : (A ++ B).Pairwise m'.Before :=
    List.pairwise_append.mpr ⟨hs''.1, hcons.2,
      fun a ha b hb => hs''.2.2 a ha b (List.mem_cons_of_mem _ hb)⟩
  have : Std.Irrefl m'.Before := ⟨SkipMem.Before.irrefl m'⟩
  have : Std.Antisymm m'.Before := ⟨fun a b hab hba => absurd (hab.trans hba) (SkipMem.Before.irrefl m' a)⟩
  refine hsL.eq_of_mem_iff hsAB fun p => ?_
  have hmem : p ∈ A ++ (m.len + 1) :: B ↔ 0 < p ∧ p ≤ m.len + 1 := by
    rw [← hAB, hw'.2 p, hlen]
  have hnot : p ∈ A ++ B → p ≠ m.len + 1 := by
    rintro hp rfl
    have hmid := List.nodup_middle.mp hnd
    exact (List.nodup_cons.mp hmid).1 hp
  rw [hw.2 p]
  simp only [List.mem_append, List.mem_cons] at hmem hnot ⊢
  constructor
  · intro hp
    have := hmem.mpr (by omega)
    have hne : p ≠ m.len + 1 := by omega
    tauto
  · intro hp
    have := hmem.mp (by tauto)
    have := hnot hp
    omega

/-- The record an insert adds: a tombstone keeps no value. -/
def newRec (key : Key) (value : Value) (seqno : ℕ) (op : OpType) : Rec :=
  ⟨key, seqno, op, if op = .put then value else []⟩

theorem insertAt_mem {s s' : SkipList} {height : Height} {rng : UInt32} {key : Key} {value : Value}
    {seqno : ℕ} {op : OpType} (hins : s.insertAt height rng key value seqno op = some s') :
    ∃ L L', Levels s.mem L ∧ WriterInv s.mem L .idle ∧ Levels s'.mem L' ∧
      WriterInv s'.mem L' .idle ∧ Grows s.mem L s'.mem L' ∧
      s'.mem.nodes = (allocateAt s.mem height rng key value seqno op).nodes := by
  obtain ⟨-, hsome⟩ := Option.ite_none_right_eq_some.mp hins
  obtain rfl := Option.some.inj hsome
  obtain ⟨L, hL, hw⟩ := s.inv
  obtain ⟨hL₁, hw₁⟩ := allocateAt_inv _ rng key value seqno op hL hw height.2.1
  obtain ⟨L', h', hw', hg', hnodes⟩ := runWriter_spec _ hL₁ hw₁ le_rfl
  exact ⟨L, L', hL, hw, h', hw', (allocateAt_grows s.mem _ rng key value seqno op L).trans hg',
    hnodes⟩

theorem recs_insertAt {s s' : SkipList} {height : Height} {rng : UInt32} {key : Key} {value : Value}
    {seqno : ℕ} {op : OpType} (hins : s.insertAt height rng key value seqno op = some s') :
    s'.recs = insertRec (newRec key value seqno op) s.recs := by
  obtain ⟨L, L', hL, hw, h', hw', hg, hnodes⟩ := insertAt_mem hins
  rw [recs_eq hL hw, recs_eq h' hw']
  have hlen : s'.mem.len = s.mem.len + 1 := by
    have h₁ := hw'.1
    have h₂ := hw.1
    rw [hnodes] at h₁
    simp only [allocateAt, List.length_append, List.length_singleton] at h₁
    omega
  obtain ⟨A, B, hAB, hAB', hA, hB⟩ := bottom_insert hL h' hw hw' hg hlen
  have hnew : (s'.mem.node (s.mem.len + 1)).toRec = newRec key value seqno op := by
    have hn := node_allocateAt_new s.mem height rng key value seqno op
    rw [hw.1] at hn
    rw [SkipMem.node, hnodes, ← SkipMem.node, hn]
    rfl
  have hold : ∀ p ∈ A ++ B, (s'.mem.node p).toRec = (s.mem.node p).toRec := by
    intro p hp
    rw [hg.node p (hL.alloc p (hAB ▸ hp)).2]
  have hrecs : (A ++ B).map (fun p => (s.mem.node p).toRec) =
      A.map (fun p => (s'.mem.node p).toRec) ++ B.map (fun p => (s'.mem.node p).toRec) := by
    rw [← List.map_append]
    exact List.map_congr_left fun p hp => (hold p hp).symm
  rw [hAB', hAB, hrecs, List.map_append, List.map_cons, hnew]
  refine (insertRec_append ?_ ?_).symm
  · intro r hr
    obtain ⟨a, ha, rfl⟩ := List.mem_map.mp hr
    rw [← hnew]
    rcases hA a ha with hlt | ⟨-, -, hlt⟩
    · exact hlt
    · -- the new node is the latest, so no older one wins a tie
      have := ((hw.2 a).mp (by rw [hAB]; exact List.mem_append_left B ha)).2
      omega
  · intro r hr hbefore
    obtain ⟨b, hb, rfl⟩ := List.mem_map.mp hr
    rw [← hnew] at hbefore
    rcases hB b hb with hlt | ⟨hk, hs, -⟩
    · exact KeyBefore.irrefl _ _ (hlt.trans hbefore)
    · have hbefore' : KeyBefore (s'.mem.node b).key (s'.mem.node b).seqno
          (s'.mem.node (s.mem.len + 1)).key (s'.mem.node (s.mem.len + 1)).seqno := hbefore
      rw [hk, hs] at hbefore'
      exact KeyBefore.irrefl _ _ hbefore'

theorem recs_insert {s s' : SkipList} {key : Key} {value : Value} {seqno : ℕ} {op : OpType}
    (hins : s.insert key value seqno op = some s') :
    s'.recs = insertRec (newRec key value seqno op) s.recs :=
  recs_insertAt ((insert_eq ..).symm.trans hins)

theorem insertAt_isSome (s : SkipList) (height : Height) (rng : UInt32) {key : Key} {value : Value}
    (seqno : ℕ) {op : OpType} (hk : key.length < u32Size)
    (hv : op = .put → value.length < u32Size) :
    ∃ s', s.insertAt height rng key value seqno op = some s' := by
  refine ⟨_, if_pos ⟨hk, ?_⟩⟩
  split
  · exact hv ‹_›
  · decide

theorem insert_isSome (s : SkipList) {key : Key} {value : Value} (seqno : ℕ) {op : OpType}
    (hk : key.length < u32Size) (hv : op = .put → value.length < u32Size) :
    ∃ s', s.insert key value seqno op = some s' := by
  rw [insert_eq]
  exact insertAt_isSome s _ _ seqno hk hv

end SkipList

end PaddockKV.Memtable
