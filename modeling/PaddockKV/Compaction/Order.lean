import PaddockKV.Compaction.Drain

/-!
# The order of a merge with errors

Whatever fails, the records that come out do not decrease, as long as the
readable records of every stream are sorted: an entry of the heap is never
above what its stream still has, also when priming was tried several times and
left several entries of one stream.
-/

namespace PaddockKV.Compaction

open KWayMerge

variable {m : KWayMerge} {i : ℕ} {s : List (Res Rec)}

/-- The records of a stream, without its errors. -/
def okRecs (s : List (Res Rec)) : List Rec := s.filterMap Except.toOption

@[simp]
theorem okRecs_nil : okRecs [] = [] := rfl

@[simp]
theorem okRecs_ok (r : Rec) (s : List (Res Rec)) : okRecs (.ok r :: s) = r :: okRecs s := rfl

@[simp]
theorem okRecs_error (f : Fault) (s : List (Res Rec)) : okRecs (.error f :: s) = okRecs s := rfl

theorem mem_okRecs {r : Rec} {s : List (Res Rec)} : r ∈ okRecs s ↔ .ok r ∈ s := by
  induction s with
  | nil => simp
  | cons x s ih =>
    cases x with
    | ok r' => simp [ih]
    | error f => simp [ih]

theorem okRecs_items (l : List Rec) : okRecs (items l) = l := by
  induction l with
  | nil => rfl
  | cons r l ih => exact congrArg (r :: ·) ih

/-- The records in the heap and in the streams satisfy `P`, no entry is above
what its stream still has, and no entry is below the last record popped. -/
structure Ordered (P : Rec → Prop) (last : Option Rec) (m : KWayMerge) : Prop where
  sorted : ∀ i, SortedRecs (okRecs (m.streams.getD i []))
  ahead : ∀ e ∈ m.heap, ∀ r ∈ okRecs (m.streams.getD e.source []), ¬ r.Before e.record
  last_le : ∀ q ∈ last, m.primed = true ∧ ∀ e ∈ m.heap, ¬ e.record.Before q
  heap : ∀ e ∈ m.heap, P e.record
  streams : ∀ i, ∀ r ∈ okRecs (m.streams.getD i []), P r

theorem getD_set (ss : List (List (Res Rec))) {x : Res Rec} (h : ss.getD i [] = x :: s) (j : ℕ) :
    (ss.set i s).getD j [] = if j = i then s else ss.getD j [] := by
  split
  · rename_i hj
    obtain ⟨A, B, -, hA, hset⟩ := getD_split h
    rw [hset, hj, ← hA]
    simp
  · rename_i hj
    simp [List.getD, List.getElem?_set_ne (Ne.symm hj)]

namespace Ordered

variable {P : Rec → Prop} {last : Option Rec}

theorem okRecs_pull {x : Res Rec} (h : m.streams.getD i [] = x :: s) (j : ℕ) :
    (okRecs ((m.streams.set i s).getD j [])).Sublist (okRecs (m.streams.getD j [])) := by
  rw [getD_set m.streams h]
  split
  · rename_i hj
    rw [hj, h]
    exact (List.sublist_cons_self x s).filterMap _
  · exact List.Sublist.refl _

theorem pull (hm : Ordered P last m) {x : Res Rec} (h : m.streams.getD i [] = x :: s) :
    Ordered P last { m with streams := m.streams.set i s } where
  sorted j := (hm.sorted j).sublist (okRecs_pull h j)
  ahead e he r hr := hm.ahead e he r ((okRecs_pull h e.source).subset hr)
  last_le := hm.last_le
  heap := hm.heap
  streams j r hr := hm.streams j r ((okRecs_pull h j).subset hr)

theorem push (hm : Ordered P last m) {r : Rec} (h : m.streams.getD i [] = .ok r :: s)
    (hlast : ∀ q ∈ last, ¬ r.Before q) :
    Ordered P last { m with streams := m.streams.set i s, heap := ⟨r, i⟩ :: m.heap } := by
  have hpull := hm.pull h
  have hsorted : SortedRecs (r :: okRecs s) := by
    have := hm.sorted i
    rwa [h, okRecs_ok] at this
  have hmem : r ∈ okRecs (m.streams.getD i []) := by
    rw [h, okRecs_ok]
    exact List.mem_cons_self
  refine ⟨hpull.sorted, ?_, ?_, ?_, hpull.streams⟩
  · intro e he x hx
    rcases List.mem_cons.mp he with rfl | he
    · have hx' : x ∈ okRecs s := by
        have := getD_set m.streams h i
        rw [if_pos rfl] at this
        dsimp only at hx
        rwa [this] at hx
      exact List.rel_of_pairwise_cons hsorted hx'
    · exact hpull.ahead e he x hx
  · intro q hq
    refine ⟨(hm.last_le q hq).1, ?_⟩
    intro e he
    rcases List.mem_cons.mp he with rfl | he
    · exact hlast q hq
    · exact (hm.last_le q hq).2 e he
  · intro e he
    rcases List.mem_cons.mp he with rfl | he
    · exact hm.streams i r hmem
    · exact hm.heap e he

theorem pop (hm : Ordered P last m) {top : HeapEntry} {rest : List HeapEntry}
    (hpop : popMin m.heap = some (top, rest)) (hp : m.primed = true) :
    Ordered P (some top.record) { m with heap := rest } ∧ P top.record ∧
      ∀ q ∈ last, ¬ top.record.Before q := by
  obtain ⟨hperm, hmin⟩ := popMin_spec hpop
  have hsub : ∀ e ∈ rest, e ∈ m.heap := fun e he =>
    hperm.mem_iff.mpr (List.mem_cons_of_mem top he)
  have htop : top ∈ m.heap := hperm.mem_iff.mpr List.mem_cons_self
  refine ⟨⟨hm.sorted, fun e he => hm.ahead e (hsub e he), ?_, fun e he => hm.heap e (hsub e he),
    hm.streams⟩, hm.heap top htop, fun q hq => (hm.last_le q hq).2 top htop⟩
  rintro q ⟨⟩
  refine ⟨hp, ?_⟩
  intro e he hbefore
  exact hmin e he ((cmp_eq_gt_iff top e).mpr (.inl hbefore))

end Ordered

/-! ### Calls -/

variable {P : Rec → Prop} {last : Option Rec}

theorem advance_ordered (i : ℕ) :
    Keeps (Ordered P none) (fun _ => Ordered P none) (advance i) := by
  intro m hm
  unfold Ends
  cases hget : m.streams.getD i [] with
  | nil =>
    rw [advance_empty hget]
    exact hm
  | cons x s =>
    cases x with
    | ok r =>
      rw [advance_ok hget]
      exact hm.push hget (fun q hq => by cases hq)
    | error f =>
      rw [advance_error hget]
      exact hm.pull hget

theorem primeFrom_ordered (i n : ℕ) :
    Keeps (Ordered P none) (fun _ => Ordered P none) (primeFrom i n) := by
  induction n generalizing i with
  | zero => exact Keeps.ret _
  | succ n ih => exact (advance_ordered i).bind fun _ => ih (i + 1)

theorem prime_ordered (hm : Ordered P last m) :
    Ends prime m (fun _ m' => Ordered P last m' ∧ m'.primed = true) fun _ => Ordered P last := by
  refine Ends.read_bind ?_
  split
  · rename_i hp
    exact Ends.ret ⟨hm, hp⟩
  · rename_i hp
    -- nothing has been popped from a merger that is not primed
    have hnone : last = none := by
      cases last with
      | none => rfl
      | some q => exact absurd (hm.last_le q rfl).1 hp
    subst hnone
    refine (primeFrom_ordered 0 m.streams.length m hm).bind ?_ (fun _ _ h => h)
    intro _ m' hm'
    exact Ends.update ⟨⟨hm'.sorted, hm'.ahead, by simp, hm'.heap, hm'.streams⟩, rfl⟩

/-- What a call leaves, and that the record it returns is not below `last`. -/
def Delivers (P : Rec → Prop) (last : Option Rec) (m' : KWayMerge) : Option Rec → Prop
  | none => Ordered P last m'
  | some r => Ordered P (some r) m' ∧ P r ∧ ∀ q ∈ last, ¬ r.Before q

theorem nextRecord_primed (hm : Ordered P last m) (hp : m.primed = true) :
    Ends nextRecord m (fun o m' => Delivers P last m' o) fun _ => Ordered P last := by
  unfold Ends
  cases hpop : popMin m.heap with
  | none =>
    rw [nextRecord_none hp (popMin_eq_none.mp hpop)]
    exact hm
  | some p =>
    obtain ⟨top, rest⟩ := p
    obtain ⟨hrest, hP, hle⟩ := hm.pop hpop hp
    rcases nextRecord_pop hp hpop with ⟨-, hnext⟩ | ⟨r, s, hget, hnext⟩ | ⟨f, s, hget, hnext⟩
    · rw [hnext]
      exact ⟨hrest, hP, hle⟩
    · rw [hnext]
      refine ⟨hrest.push hget ?_, hP, hle⟩
      rintro q ⟨⟩
      refine hm.ahead top ((popMin_spec hpop).1.mem_iff.mpr List.mem_cons_self) r ?_
      rw [hget, okRecs_ok]
      exact List.mem_cons_self
    · rw [hnext]
      have hpull := hrest.pull hget
      refine ⟨hpull.sorted, hpull.ahead, ?_, hpull.heap, hpull.streams⟩
      intro q hq
      refine ⟨hp, ?_⟩
      intro e he
      exact (hm.last_le q hq).2 e ((popMin_spec hpop).1.mem_iff.mpr (List.mem_cons_of_mem top he))

theorem nextRecord_ordered (hm : Ordered P last m) :
    Ends nextRecord m (fun o m' => Delivers P last m' o) fun _ => Ordered P last := by
  have hprimed : ∀ m' : KWayMerge, m'.primed = true → prime m' = .ok () m' := by
    intro m' hp
    simp [prime, act_bind, hp]
  refine (prime_ordered hm).bind ?_ (fun _ _ h => h)
  rintro _ m' ⟨hm', hp⟩
  have hnext := nextRecord_primed hm' hp
  unfold Ends at hnext ⊢
  rwa [show nextRecord m' = _ from act_bind_ok (hprimed m' hp)] at hnext

theorem ordered_new {ss : List (List (Res Rec))} (hs : ∀ s ∈ ss, SortedRecs (okRecs s))
    (hP : ∀ s ∈ ss, ∀ r ∈ okRecs s, P r) : Ordered P none (.new ss) := by
  have hget : ∀ i, ss.getD i [] ∈ ss ∨ ss.getD i [] = [] := by
    intro i
    by_cases hi : i < ss.length
    · left
      simp [List.getD, hi]
    · right
      simp [List.getD, hi]
  refine ⟨?_, by simp [KWayMerge.new], by simp, by simp [KWayMerge.new], ?_⟩
  · intro i
    rcases hget i with h | h
    · exact hs _ h
    · show SortedRecs (okRecs (ss.getD i []))
      rw [h]
      exact List.Pairwise.nil
  · intro i r hr
    rcases hget i with h | h
    · exact hP _ h r hr
    · have hr' : r ∈ okRecs (ss.getD i []) := hr
      rw [h] at hr'
      cases hr'

theorem drain_ordered {n : ℕ} {out : List (Res Rec)} {m' : KWayMerge} (hm : Ordered P last m)
    (h : drain n m = some (out, m')) :
    SortedRecs (okRecs out) ∧ ∀ r ∈ okRecs out, P r ∧ ∀ q ∈ last, ¬ r.Before q := by
  induction n generalizing m last out with
  | zero => cases h
  | succ n ih =>
    have hnext := nextRecord_ordered hm
    rw [drain] at h
    split at h
    · cases h
      exact ⟨List.Pairwise.nil, by simp⟩
    · rename_i r m₁ hrun
      obtain ⟨p, hp, heq⟩ := Option.map_eq_some_iff.mp h
      cases heq
      obtain ⟨hm₁, hP, hle⟩ := hnext.of_ok hrun
      obtain ⟨hsorted, hall⟩ := ih hm₁ hp
      refine ⟨List.pairwise_cons.mpr ⟨fun x hx => (hall x hx).2 r rfl, hsorted⟩, ?_⟩
      intro x hx
      rcases List.mem_cons.mp hx with rfl | hx
      · exact ⟨hP, hle⟩
      · refine ⟨(hall x hx).1, ?_⟩
        intro q hq
        exact Rec.not_before_trans (hle q hq) ((hall x hx).2 r rfl)
    · rename_i f m₁ hrun
      obtain ⟨p, hp, heq⟩ := Option.map_eq_some_iff.mp h
      cases heq
      have hrest := ih (hnext.of_error hrun) hp
      exact hrest

end PaddockKV.Compaction
