import PaddockKV.Memtable.Atomic

/-!
# Iterators during inserts (`Iter` in `memtable/skiplist.rs`)

`into_iter` loads the bottom link of the head and each `next` loads one more
bottom link, so a walk over the list is not atomic. Inserts go on meanwhile. A
walk meets the nodes in list order; it meets every node that was linked at the
bottom when it began, and of the nodes linked later those that come in ahead of
its position. So calls, returns and what the iterators yield are those of a memtable
with atomic inserts (`walkers_refine`).
-/

namespace PaddockKV.Memtable

open Transition

/-- `Iter`. `yielded` are the nodes that `next` returned so far; `seen` is what
a walk without interruption would have met when the iterator was made. -/
structure Walk where
  cur : Option ℕ
  yielded : List ℕ
  seen : List ℕ

/-- `into_iter`. -/
def SkipMem.intoIter (m : SkipMem) : Walk := ⟨m.fwd 0 0, [], m.iter⟩

/-- `Iter::next` with `cur` not null. -/
def Walk.advance (m : SkipMem) (w : Walk) (p : ℕ) : Walk :=
  { w with cur := m.fwd p 0, yielded := w.yielded ++ [p] }

/-- One writer and any number of iterators on a list. -/
structure Walkers (ι : Type) where
  mem : SkipMem
  writer : WriterPc
  walks : ι → Walk

inductive WalkAction (ι : Type) where
  | insert (key : Key) (value : Value) (seqno : ℕ) (op : OpType)
  | write
  | iter (r : ι)
  | next (r : ι)

namespace Walkers

variable {ι : Type} [DecidableEq ι]

def init : Walkers ι := ⟨.new, .idle, fun _ => ⟨none, [], []⟩⟩

def setWalk (s : Walkers ι) (r : ι) (w : Walk) : Walkers ι :=
  { s with walks := Function.update s.walks r w }

/-- The moves of the writer (`insert`, `write`) and of the iterators. -/
def next (s : Walkers ι) : WalkAction ι → Option (Walkers ι)
  | .insert key value seqno op =>
    match s.writer with
    | .idle =>
      (startInsert s.mem key value seqno op).map fun x => { s with mem := x.1, writer := x.2 }
    | _ => none
  | .write =>
    match s.writer with
    | .idle => none
    | pc => some { s with mem := (writerStep s.mem pc).1, writer := (writerStep s.mem pc).2 }
  | .iter r => some (s.setWalk r s.mem.intoIter)
  | .next r =>
    match (s.walks r).cur with
    | none => none
    | some p => some (s.setWalk r ((s.walks r).advance s.mem p))

end Walkers

variable {m m' : SkipMem} {L L' : ℕ → List ℕ}

/-! ### Walks -/

/-- The bottom list `l` is cut at the position of the walk: what it returned
stands in front of the cut, and what it had to meet is returned or ahead. -/
def WalkInv (l : List ℕ) (w : Walk) : Prop :=
  ∃ A B, l = A ++ B ∧ B.head? = w.cur ∧ w.yielded.Sublist A ∧ w.seen.Sublist (w.yielded ++ B)

variable {l l' : List ℕ} {w : Walk}

theorem WalkInv.mono (hw : WalkInv l w) (hl : l.Sublist l') : WalkInv l' w := by
  obtain ⟨A, B, rfl, hcur, hy, hs⟩ := hw
  obtain ⟨A', B', hl', hA, hB, hhead⟩ := Chain.sublist_cut hl
  refine ⟨A', B', hl', hhead.trans hcur, hy.trans hA, ?_⟩
  exact hs.trans ((List.Sublist.refl _).append hB)

theorem Levels.walk_intoIter (h : Levels m L) : WalkInv (L 0) m.intoIter := by
  refine ⟨[], L 0, rfl, ?_, List.Sublist.refl _, ?_⟩
  · exact (@Chain.Path.next_getLastD _ _ _ [] _ (h.path 0)).symm
  · simp [SkipMem.intoIter, h.iter_eq]

theorem Levels.walk_advance (h : Levels m L) (hw : WalkInv (L 0) w) {p : ℕ}
    (hp : w.cur = some p) : WalkInv (L 0) (w.advance m p) := by
  obtain ⟨A, B, hAB, hcur, hy, hs⟩ := hw
  rw [hp] at hcur
  obtain ⟨B', rfl⟩ : ∃ B', B = p :: B' := by
    cases B with
    | nil => cases hcur
    | cons b B' =>
      obtain rfl : b = p := by simpa using hcur
      exact ⟨B', rfl⟩
  have hpath := h.path 0
  rw [hAB] at hpath
  refine ⟨A ++ [p], B', by simp [hAB], hpath.next_eq.symm, ?_, ?_⟩
  · exact hy.append (List.Sublist.refl _)
  · simpa [Walk.advance] using hs

theorem WalkInv.sublist (hw : WalkInv l w) : w.yielded.Sublist l := by
  obtain ⟨A, B, rfl, -, hy, -⟩ := hw
  exact hy.trans (List.sublist_append_left A B)

theorem WalkInv.seen_sublist (hw : WalkInv l w) : w.seen.Sublist l := by
  obtain ⟨A, B, rfl, -, hy, hs⟩ := hw
  exact hs.trans (hy.append (List.Sublist.refl _))

theorem WalkInv.finished (hw : WalkInv l w) (hcur : w.cur = none) :
    w.seen.Sublist w.yielded := by
  obtain ⟨A, B, -, hB, -, hs⟩ := hw
  rw [hcur] at hB
  obtain rfl := List.head?_eq_none_iff.mp hB
  simpa using hs

/-! ### All interleavings -/

def Walkers.Inv {ι : Type} (s : Walkers ι) : Prop :=
  ∃ L, Levels s.mem L ∧ WriterInv s.mem L s.writer ∧ ∀ r, WalkInv (L 0) (s.walks r)

theorem Walkers.init_inv {ι : Type} : (Walkers.init : Walkers ι).Inv := by
  obtain ⟨L, hL, hw, -⟩ := @Memtable.init_inv ι
  refine ⟨L, hL, hw, fun r => ⟨L 0, [], by simp, rfl, ?_, ?_⟩⟩
  · exact List.nil_sublist _
  · exact List.nil_sublist _

variable {ι : Type} [DecidableEq ι] {s s' : Walkers ι}

/-! ### Walks beside atomic inserts

A walk is not atomic: when it comes to its end it has yielded all records present
at its start, in order, and otherwise only records present at its end. -/

/-- Iterators are made and come to their end, with all they yielded. -/
inductive IterEvent (ι : Type) where
  | iter (i : ι)
  | yielded (i : ι) (l : List Rec)
  deriving DecidableEq

/-- A walk under way keeps the records present at its start. -/
inductive IterStep (recs : List Rec) (c : ι → Option (List Rec)) :
    Option (IterEvent ι) → (ι → Option (List Rec)) → Prop where
  | iter (i : ι) : IterStep recs c (some (.iter i)) (Function.update c i (some recs))
  | yielded (i : ι) (seen l : List Rec) : c i = some seen → seen.Sublist l → l.Sublist recs →
      IterStep recs c (some (.yielded i l)) (Function.update c i none)

def Walk.reading (m : SkipMem) (w : Walk) : Option (List Rec) := w.cur.map fun _ => m.recsOf w.seen

def Walk.shown (m : SkipMem) (i : ι) (w : Walk) : List (MemEvent (IterEvent ι)) :=
  match w.cur with
  | none => [.read (.yielded i (m.recsOf w.yielded))]
  | some _ => []

/-- The events of a step into `s`. -/
def Walkers.shown : WalkAction ι → Walkers ι → List (MemEvent (IterEvent ι))
  | .insert key value seqno op, _ => [.insert (storedRec key value seqno op)]
  | .write, s => s.writer.shown
  | .iter r, s => .read (.iter r) :: (s.walks r).shown s.mem r
  | .next r, s => (s.walks r).shown s.mem r

def Walkers.spec {ι : Type} (s : Walkers ι) : MemSpec (ι → Option (List Rec)) :=
  s.mem.spec s.writer fun r => (s.walks r).reading s.mem

theorem reading_congr (hw : WalkInv l w) (hnode : ∀ p ∈ l, m'.node p = m.node p) :
    w.reading m' = w.reading m := by
  unfold Walk.reading
  rw [recsOf_congr fun p hp => hnode p (hw.seen_sublist.subset hp)]

/-- Where a walk is at its end, it shows what it yielded. -/
theorem ended_traces {a : MemSpec (ι → Option (List Rec))} {i : ι} (hL : Levels m L)
    (hw : WalkInv (L 0) w) (hreading : a.readers i = some (m.recsOf w.seen))
    (hrecs : a.recs = m.contents) :
    Traces (MemStep IterStep) a (w.shown m i)
      { a with readers := Function.update a.readers i (w.reading m) } := by
  cases hcur : w.cur with
  | some p =>
    have hnone : w.shown m i = [] := by simp [Walk.shown, hcur]
    have hsame : w.reading m = a.readers i := by simp [Walk.reading, hcur, hreading]
    rw [hnone, hsame, Function.update_eq_self]
    exact .refl a
  | none =>
    have hsome : w.shown m i = [.read (.yielded i (m.recsOf w.yielded))] := by
      simp [Walk.shown, hcur]
    have hdone : w.reading m = none := by simp [Walk.reading, hcur]
    rw [hsome, hdone]
    refine .single (.read (.yielded i _ _ hreading ?_ ?_))
    · exact recsOf_sublist (hw.finished hcur)
    · rw [hrecs, hL.contents_eq]
      exact recsOf_sublist hw.sublist

theorem setWalk_spec (s : Walkers ι) (r : ι) (w : Walk) : (s.setWalk r w).spec =
    s.mem.spec s.writer (Function.update s.spec.readers r (w.reading s.mem)) := by
  refine MemSpec.ext rfl rfl ?_
  funext q
  by_cases hq : q = r <;> simp [Walkers.spec, Walkers.setWalk, SkipMem.spec, hq]

theorem setWalk_inv {r : ι} (hwalks : ∀ q, WalkInv l (s.walks q)) (hw : WalkInv l w) (q : ι) :
    WalkInv l ((s.setWalk r w).walks q) := by
  by_cases hq : q = r
  · subst hq
    simpa [Walkers.setWalk] using hw
  · simpa [Walkers.setWalk, hq] using hwalks q

omit [DecidableEq ι] in
theorem writer_spec {pc : WriterPc}
    (hreaders : ∀ r, (s.walks r).reading m = (s.walks r).reading s.mem) :
    Walkers.spec { s with mem := m, writer := pc } = m.spec pc fun r => (s.walks r).reading s.mem :=
  MemSpec.ext rfl rfl (funext hreaders)

theorem iter_traces {r : ι} (hL : Levels s.mem L) :
    Traces (MemStep IterStep) s.spec (.read (.iter r) :: s.mem.intoIter.shown s.mem r)
      (s.setWalk r s.mem.intoIter).spec := by
  have hend := ended_traces (i := r)
    (a := { s.spec with readers := Function.update s.spec.readers r (some s.mem.contents) })
    hL hL.walk_intoIter (Function.update_self ..) rfl
  rw [Function.update_idem] at hend
  rw [setWalk_spec]
  exact .event (.read (.iter r)) hend

theorem next_traces {r : ι} {p : ℕ} (hL : Levels s.mem L)
    (hwalks : ∀ r, WalkInv (L 0) (s.walks r)) (hp : (s.walks r).cur = some p) :
    Traces (MemStep IterStep) s.spec (((s.walks r).advance s.mem p).shown s.mem r)
      (s.setWalk r ((s.walks r).advance s.mem p)).spec := by
  have hreading : s.spec.readers r = some (s.mem.recsOf (s.walks r).seen) := by
    simp [Walkers.spec, SkipMem.spec, Walk.reading, hp]
  rw [setWalk_spec]
  exact ended_traces hL (hL.walk_advance (hwalks r) hp) hreading rfl

/-- One access is matched by steps of the memtable that show the same. -/
theorem next_simulated {a : WalkAction ι} (hi : s.Inv) (h : s.next a = some s') :
    s'.Inv ∧ Traces (MemStep IterStep) s.spec (Walkers.shown a s') s'.spec := by
  obtain ⟨L, hL, hw, hwalks⟩ := hi
  cases a with
  | insert key value seqno op =>
    simp only [Walkers.next] at h
    split at h
    · rename_i hidle
      rw [hidle] at hw
      obtain ⟨⟨m', pc'⟩, hstart, rfl⟩ := Option.map_eq_some_iff.mp h
      constructor
      · obtain ⟨rfl, rfl⟩ := startInsert_eq hstart
        obtain ⟨hL', hw'⟩ := allocateAt_inv _ _ key value seqno op hL hw (randomHeight_bounds _).1
        exact ⟨L, hL', hw', hwalks⟩
      · rw [writer_spec fun r => reading_congr (hwalks r) (node_startInsert hL hstart),
          Walkers.spec, hidle]
        exact insert_traces hL hw hstart _
    · cases h
  | write =>
    simp only [Walkers.next] at h
    split at h
    · cases h
    · rename_i hbusy
      obtain rfl := Option.some.inj h
      constructor
      · obtain ⟨L', hL', hw', -, hcases⟩ := bottom_writerStep hL hw
        have hsub : (L 0).Sublist (L' 0) := by
          rcases hcases with ⟨hsame, -⟩ | ⟨n, A, B, hAB, hbottom, -⟩
          · rw [hsame]
          · rw [hAB, hbottom]
            exact (List.Sublist.refl A).append (List.sublist_cons_self n B)
        exact ⟨L', hL', hw', fun r => (hwalks r).mono hsub⟩
      · have hnode : ∀ p ∈ L 0, (writerStep s.mem s.writer).1.node p = s.mem.node p :=
          fun p _ => node_writerStep s.mem s.writer p
        rw [writer_spec fun r => reading_congr (hwalks r) hnode]
        exact write_traces hL hw hbusy _
  | iter r =>
    obtain rfl := Option.some.inj h
    refine ⟨⟨L, hL, hw, setWalk_inv hwalks hL.walk_intoIter⟩, ?_⟩
    simpa [Walkers.shown, Walkers.setWalk] using @iter_traces _ _ _ s r hL
  | next r =>
    simp only [Walkers.next] at h
    split at h
    · cases h
    · rename_i p hp
      obtain rfl := Option.some.inj h
      refine ⟨⟨L, hL, hw, setWalk_inv hwalks (hL.walk_advance (hwalks r) hp)⟩, ?_⟩
      simpa [Walkers.shown, Walkers.setWalk] using next_traces hL hwalks hp

/-- What callers see of any run of the writer and the iterators over the shared list
they can see of the memtable with atomic inserts. -/
theorem walkers_refine {actions : List (WalkAction ι)} {events : List (MemEvent (IterEvent ι))}
    (h : runEvents Walkers.next Walkers.shown .init actions = some (s, events)) :
    Traces (MemStep IterStep) (.init fun _ => none) events s.spec := by
  refine @traces_of_run _ _ _ _ _ _ _ Walkers.Inv Walkers.spec ?_ _ _ _ _ Walkers.init_inv h
  intro s a s' hi hn
  exact next_simulated hi hn

/-- A walk begins on a list of one key. Before its next load one key is inserted
behind it and one ahead of it. -/
def walkPastInserts : List (WalkAction Unit) :=
  [[.insert [2] [7] 1 .put], List.replicate 5 .write,
    [.iter (), .insert [1] [7] 2 .put], List.replicate 5 .write,
    [.insert [4] [7] 3 .put], List.replicate 7 .write, [.next (), .next ()]].flatten

theorem walkers_refine_inserts : ∃ (s : Walkers Unit) (events : List (MemEvent (IterEvent Unit))),
    runEvents Walkers.next Walkers.shown .init walkPastInserts = some (s, events) ∧
    events = [.insert ⟨[2], 1, .put, [7]⟩, .inserted, .read (.iter ()),
      .insert ⟨[1], 2, .put, [7]⟩, .inserted, .insert ⟨[4], 3, .put, [7]⟩, .inserted,
      .read (.yielded () [⟨[2], 1, .put, [7]⟩, ⟨[4], 3, .put, [7]⟩])] ∧
    Traces (MemStep IterStep) (.init fun _ => none) events s.spec := by
  have hrun : (runEvents Walkers.next Walkers.shown .init walkPastInserts).map Prod.snd =
      some [.insert ⟨[2], 1, .put, [7]⟩, .inserted, .read (.iter ()),
        .insert ⟨[1], 2, .put, [7]⟩, .inserted, .insert ⟨[4], 3, .put, [7]⟩, .inserted,
        .read (.yielded () [⟨[2], 1, .put, [7]⟩, ⟨[4], 3, .put, [7]⟩])] := by
    decide +kernel
  obtain ⟨⟨s, events⟩, hs, hevents⟩ := Option.map_eq_some_iff.mp hrun
  exact ⟨s, events, hs, hevents, walkers_refine hs⟩

end PaddockKV.Memtable
