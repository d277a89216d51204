import PaddockKV.Records

/-!
# K-way merge (`compaction/merger.rs`)

A stream is the list of items it still yields. The heap holds at most one
record of each stream, with the position of the stream; `pop` takes the least
entry by key, then by descending sequence number, then by position. Merging
sorted streams is a stable sort of their concatenation (`Yields.cons`, `yields_new`).
-/

namespace PaddockKV.Compaction

structure HeapEntry where
  record : Rec
  source : ℕ
  deriving DecidableEq

/-- `Ord for HeapEntry`. -/
def HeapEntry.cmp (a b : HeapEntry) : Ordering :=
  match cmpKey a.record.key b.record.key with
  | .eq =>
    match compare b.record.seqno a.record.seqno with
    | .eq => compare a.source b.source
    | o => o
  | o => o

/-- `BinaryHeap::pop` through `Reverse`: a least entry and the others. -/
def popMin : List HeapEntry → Option (HeapEntry × List HeapEntry)
  | [] => none
  | e :: h =>
    match popMin h with
    | none => some (e, [])
    | some (top, rest) => if e.cmp top = .gt then some (top, e :: rest) else some (e, top :: rest)

structure KWayMerge where
  streams : List (List (Res Rec))
  heap : List HeapEntry
  primed : Bool

namespace KWayMerge

def new (streams : List (List (Res Rec))) : KWayMerge := ⟨streams, [], false⟩

/-- `advance`: an item that is an error leaves the stream behind it. -/
def advance (source : ℕ) : Act KWayMerge Bool := do
  let m ← get
  match m.streams.getD source [] with
  | [] => return false
  | item :: rest =>
    set { m with streams := m.streams.set source rest }
    let r ← Act.lift item
    modify fun m => { m with heap := ⟨r, source⟩ :: m.heap }
    return true

/-- The loop of `prime` over the sources from `source` on. -/
def primeFrom (source : ℕ) : ℕ → Act KWayMerge Unit
  | 0 => return
  | n + 1 => do
    let _ ← advance source
    primeFrom (source + 1) n

def prime : Act KWayMerge Unit := do
  let m ← get
  if m.primed then return
  else
    primeFrom 0 m.streams.length
    modify fun m => { m with primed := true }

def nextRecord : Act KWayMerge (Option Rec) := do
  prime
  let m ← get
  match popMin m.heap with
  | none => return none
  | some (top, rest) =>
    set { m with heap := rest }
    let _ ← advance top.source
    return some top.record

end KWayMerge

/-! ### The heap order -/

theorem cmp_eq_gt_iff (a b : HeapEntry) :
    a.cmp b = .gt ↔ b.record.Before a.record ∨
      (a.record.key = b.record.key ∧ a.record.seqno = b.record.seqno ∧ b.source < a.source) := by
  unfold HeapEntry.cmp Rec.Before KeyBefore
  rcases cmpKey_spec a.record.key b.record.key with ⟨h, hc⟩ | ⟨h, hc⟩ | ⟨h, hc⟩
  · simp [hc, h.not_gt, h.ne, h.ne']
  · rw [hc, h]
    rcases lt_trichotomy b.record.seqno a.record.seqno with hs | hs | hs
    · simp [compare_lt_iff_lt.mpr hs, hs.ne', hs.not_gt]
    · simp [hs, compare_gt_iff_gt]
    · simp [compare_gt_iff_gt.mpr hs, hs]
  · simp [hc, h]

theorem cmp_gt_asymm {a b : HeapEntry} (h : a.cmp b = .gt) : b.cmp a ≠ .gt := by
  rw [Ne, cmp_eq_gt_iff]
  rw [cmp_eq_gt_iff] at h
  rintro (h' | ⟨hk, hs, hlt⟩)
  · rcases h with h | ⟨hk, hs, -⟩
    · exact h.asymm h'
    · rcases h' with h' | ⟨-, h'⟩
      · exact h'.ne hk
      · omega
  · rcases h with h | ⟨-, -, hlt'⟩
    · rcases h with h | ⟨-, h⟩
      · exact h.ne hk
      · omega
    · omega

theorem cmp_le_trans {a b c : HeapEntry} (h : a.cmp b ≠ .gt) (h' : b.cmp c ≠ .gt) :
    a.cmp c ≠ .gt := by
  rw [Ne, cmp_eq_gt_iff] at *
  push Not at *
  obtain ⟨hab, htab⟩ := h
  obtain ⟨hbc, htbc⟩ := h'
  refine ⟨Rec.not_before_trans hab hbc, ?_⟩
  intro hk hs
  rw [Rec.not_before_iff] at hab hbc
  rcases hab with hlt | ⟨hk₁, hs₁⟩
  · rcases hbc with hlt' | ⟨hk₂, -⟩
    · exact absurd (hlt.trans hlt') (hk ▸ lt_irrefl _)
    · rw [← hk₂] at hk
      exact absurd hlt (hk ▸ lt_irrefl _)
  · rcases hbc with hlt' | ⟨hk₂, hs₂⟩
    · rw [← hk₁, hk] at hlt'
      exact absurd hlt' (lt_irrefl _)
    · have h₁ := htab hk₁ (by omega)
      have h₂ := htbc hk₂ (by omega)
      omega

theorem popMin_eq_none {h : List HeapEntry} : popMin h = none ↔ h = [] := by
  cases h with
  | nil => simp [popMin]
  | cons e h =>
    simp only [popMin, reduceCtorEq, iff_false]
    split
    · simp
    · split <;> simp

theorem popMin_spec {h rest : List HeapEntry} {top : HeapEntry}
    (hp : popMin h = some (top, rest)) :
    h.Perm (top :: rest) ∧ ∀ x ∈ rest, top.cmp x ≠ .gt := by
  induction h generalizing top rest with
  | nil => cases hp
  | cons e h ih =>
    simp only [popMin] at hp
    split at hp
    · rename_i hnone
      cases hp
      rw [popMin_eq_none.mp hnone]
      exact ⟨List.Perm.refl _, by simp⟩
    · rename_i top' rest' hsome
      obtain ⟨hperm, hmin⟩ := ih hsome
      split at hp
      · rename_i hgt
        cases hp
        refine ⟨(hperm.cons e).trans (List.Perm.swap ..), ?_⟩
        intro x hx
        rcases List.mem_cons.mp hx with rfl | hx
        · exact cmp_gt_asymm hgt
        · exact hmin x hx
      · rename_i hle
        cases hp
        refine ⟨hperm.cons e, ?_⟩
        intro x hx
        rcases List.mem_cons.mp hx with rfl | hx
        · exact hle
        · exact cmp_le_trans hle (hmin x hx)

/-! ### Primed mergers -/

/-- The heads of the sources, numbered from `n`. -/
def heads (n : ℕ) : List (List Rec) → List HeapEntry
  | [] => []
  | [] :: vs => heads (n + 1) vs
  | (r :: _) :: vs => ⟨r, n⟩ :: heads (n + 1) vs

/-- A stream without errors. -/
def items (v : List Rec) : List (Res Rec) := v.map .ok

/-- The sources `vs`, each with its first record in the heap. -/
structure Holds (m : KWayMerge) (vs : List (List Rec)) : Prop where
  primed : m.primed = true
  streams : m.streams = vs.map fun v => items v.tail
  heap : m.heap.Perm (heads 0 vs)

theorem heads_append (n : ℕ) (us vs : List (List Rec)) :
    heads n (us ++ vs) = heads n us ++ heads (n + us.length) vs := by
  induction us generalizing n with
  | nil => simp [heads]
  | cons u us ih =>
    have hlen : n + (u :: us).length = n + 1 + us.length := by
      rw [List.length_cons]
      omega
    cases u with
    | nil => rw [List.cons_append, heads, heads, ih, hlen]
    | cons r u => rw [List.cons_append, heads, heads, ih, hlen, List.cons_append]

theorem mem_heads {n : ℕ} {vs : List (List Rec)} {e : HeapEntry} :
    e ∈ heads n vs ↔ ∃ A t B, vs = A ++ (e.record :: t) :: B ∧ e.source = n + A.length := by
  constructor
  · intro h
    induction vs generalizing n with
    | nil => cases h
    | cons v vs ih =>
      cases v with
      | nil =>
        obtain ⟨A, t, B, rfl, hs⟩ := ih h
        refine ⟨[] :: A, t, B, rfl, ?_⟩
        rw [hs, List.length_cons]
        omega
      | cons r v =>
        rcases List.mem_cons.mp h with rfl | h
        · exact ⟨[], v, vs, rfl, rfl⟩
        · obtain ⟨A, t, B, rfl, hs⟩ := ih h
          refine ⟨(r :: v) :: A, t, B, rfl, ?_⟩
          rw [hs, List.length_cons]
          omega
  · rintro ⟨A, t, B, rfl, hs⟩
    rw [heads_append, heads, ← hs]
    simp

section Steps

open KWayMerge

variable {m : KWayMerge}

theorem advance_eq {A B : List (List (Res Rec))} {v : List Rec}
    (hm : m.streams = A ++ items v :: B) :
    advance A.length m = .ok (!v.isEmpty)
      { m with streams := A ++ items v.tail :: B, heap := heads A.length [v] ++ m.heap } := by
  have hget : m.streams.getD A.length [] = items v := by simp [hm]
  simp only [advance, act_bind, act_get, hget]
  cases v with
  | nil =>
    have hnil : items [] = [] := rfl
    rw [hnil] at hm
    simp [heads, hnil, ← hm]
  | cons r v =>
    have hcons : items (r :: v) = .ok r :: items v := rfl
    simp [act_bind, act_map, heads, hcons, hm]

theorem primeFrom_eq {us vs : List (List Rec)}
    (hm : m.streams = (us.map fun v => items v.tail) ++ vs.map items) :
    ∃ heap, primeFrom us.length vs.length m =
        .ok () { m with streams := (us ++ vs).map fun v => items v.tail, heap := heap } ∧
      heap.Perm (heads us.length vs ++ m.heap) := by
  induction vs generalizing m us with
  | nil =>
    refine ⟨m.heap, ?_, List.Perm.refl _⟩
    simp only [List.map_nil, List.append_nil] at hm
    simp only [List.length_nil, primeFrom, List.append_nil, ← hm]
    rfl
  | cons v vs ih =>
    have hlen : us.length = (us.map fun v => items v.tail).length := by simp
    have hadv := @advance_eq m (us.map fun v => items v.tail) (vs.map items) v (by simpa using hm)
    rw [← hlen] at hadv
    obtain ⟨heap, hprime, hperm⟩ := @ih { m with
      streams := (us.map fun v => items v.tail) ++ items v.tail :: vs.map items,
      heap := heads us.length [v] ++ m.heap } (us ++ [v]) (by simp)
    refine ⟨heap, ?_, ?_⟩
    · simp only [List.length_cons, primeFrom, act_bind, hadv]
      rw [List.length_append, List.length_singleton] at hprime
      rw [hprime]
      simp
    · refine hperm.trans ?_
      have hcons : heads us.length (v :: vs) = heads us.length [v] ++ heads (us.length + 1) vs :=
        heads_append us.length [v] vs
      rw [hcons, List.length_append, List.length_singleton, ← List.append_assoc]
      exact List.perm_append_comm.append_right m.heap

theorem prime_new (vs : List (List Rec)) :
    ∃ m', prime (.new (vs.map items)) = .ok () m' ∧ Holds m' vs := by
  obtain ⟨heap, hprime, hperm⟩ := @primeFrom_eq (.new (vs.map items)) [] vs rfl
  refine ⟨⟨vs.map fun v => items v.tail, heap, true⟩, ?_, rfl, rfl, ?_⟩
  · rw [List.length_nil] at hprime
    simp only [prime, act_bind, act_get, KWayMerge.new, List.length_map] at hprime ⊢
    simp [act_bind, hprime]
  · simpa [KWayMerge.new] using hperm

theorem prime_holds {vs : List (List Rec)} (h : Holds m vs) : prime m = .ok () m := by
  simp [prime, act_bind, h.primed]

theorem heads_eq_nil {n : ℕ} {vs : List (List Rec)} (h : heads n vs = []) : vs.flatten = [] := by
  induction vs generalizing n with
  | nil => rfl
  | cons v vs ih =>
    cases v with
    | nil => exact ih h
    | cons r v => cases h

theorem head_le {v : List Rec} {r x : Rec} (hs : SortedRecs (r :: v)) (hx : x ∈ r :: v) :
    ¬ x.Before r := by
  rcases List.mem_cons.mp hx with rfl | hx
  · exact Rec.Before.irrefl x
  · exact List.rel_of_pairwise_cons hs hx

theorem isort_pop {A B : List (List Rec)} {r : Rec} {t : List Rec}
    (hs : ∀ v ∈ A ++ (r :: t) :: B, SortedRecs v)
    (hmin : ∀ e ∈ heads 0 (A ++ (r :: t) :: B), HeapEntry.cmp ⟨r, A.length⟩ e ≠ .gt) :
    isort (A ++ (r :: t) :: B).flatten = r :: isort (A ++ t :: B).flatten := by
  simp only [List.flatten_append, List.flatten_cons, List.cons_append]
  refine isort_middle ?_ ?_
  · -- an earlier source wins ties, so its head is strictly larger
    intro a ha
    obtain ⟨v, hv, hav⟩ := List.mem_flatten.mp ha
    obtain ⟨A₁, A₂, rfl⟩ := List.append_of_mem hv
    cases v with
    | nil => cases hav
    | cons x v =>
      have hx : (⟨x, A₁.length⟩ : HeapEntry) ∈ heads 0 ((A₁ ++ (x :: v) :: A₂) ++ (r :: t) :: B) :=
        mem_heads.mpr ⟨A₁, v, A₂ ++ (r :: t) :: B, by simp, by simp⟩
      have hcmp := hmin _ hx
      rw [Ne, cmp_eq_gt_iff] at hcmp
      push Not at hcmp
      have hle := hcmp.1
      have hax := head_le (hs (x :: v) (by simp)) hav
      have hrx : r.Before x := by
        rw [Rec.not_before_iff] at hle
        rcases hle with hlt | ⟨hk, hsq⟩
        · exact .inl hlt
        · refine .inr ⟨hk, lt_of_le_of_ne hsq ?_⟩
          intro heq
          have := hcmp.2 hk heq.symm
          simp only [List.length_append, List.length_cons] at this
          omega
      rcases Rec.not_before_iff.mp hax with hlt | ⟨hk, hsq⟩
      · rcases hrx with hlt' | ⟨hk', -⟩
        · exact .inl (hlt'.trans hlt)
        · exact .inl (hk' ▸ hlt)
      · rcases hrx with hlt' | ⟨hk', hsq'⟩
        · exact .inl (hk ▸ hlt')
        · exact .inr ⟨hk'.trans hk, by omega⟩
  · intro b hb
    rcases List.mem_append.mp hb with hb | hb
    · exact head_le (hs (r :: t) (by simp)) (List.mem_cons_of_mem r hb)
    · obtain ⟨v, hv, hbv⟩ := List.mem_flatten.mp hb
      obtain ⟨B₁, B₂, rfl⟩ := List.append_of_mem hv
      cases v with
      | nil => cases hbv
      | cons x v =>
        have hx : (⟨x, (A ++ (r :: t) :: B₁).length⟩ : HeapEntry) ∈
            heads 0 (A ++ (r :: t) :: (B₁ ++ (x :: v) :: B₂)) :=
          mem_heads.mpr ⟨A ++ (r :: t) :: B₁, v, B₂, by simp, by simp⟩
        have hcmp := hmin _ hx
        rw [Ne, cmp_eq_gt_iff] at hcmp
        push Not at hcmp
        exact Rec.not_before_trans hcmp.1 (head_le (hs (x :: v) (by simp)) hbv)

theorem nextRecord_holds {vs : List (List Rec)} (h : Holds m vs) (hs : ∀ v ∈ vs, SortedRecs v) :
    (vs.flatten = [] ∧ nextRecord m = .ok none m) ∨
      ∃ r vs' m', nextRecord m = .ok (some r) m' ∧ Holds m' vs' ∧ (∀ v ∈ vs', SortedRecs v) ∧
        isort vs.flatten = r :: isort vs'.flatten := by
  cases hpop : popMin m.heap with
  | none =>
    left
    have hnil := popMin_eq_none.mp hpop
    have hheap := h.heap
    rw [hnil] at hheap
    refine ⟨heads_eq_nil hheap.symm.eq_nil, ?_⟩
    simp [nextRecord, act_bind, prime_holds h, hpop]
  | some x =>
    right
    obtain ⟨⟨r, i⟩, rest⟩ := x
    obtain ⟨hperm, hmin⟩ := popMin_spec hpop
    have hmem : (⟨r, i⟩ : HeapEntry) ∈ heads 0 vs :=
      (h.heap.symm.trans hperm).mem_iff.mpr (by simp)
    obtain ⟨A, t, B, rfl, hi⟩ := mem_heads.mp hmem
    simp only [Nat.zero_add] at hi
    subst hi
    have hstreams := h.streams
    simp only [List.map_append, List.map_cons, List.tail_cons] at hstreams
    have hadv := @advance_eq { m with heap := rest } (A.map fun v => items v.tail)
      (B.map fun v => items v.tail) t hstreams
    rw [List.length_map] at hadv
    refine ⟨r, A ++ t :: B, { m with
      streams := (A.map fun v => items v.tail) ++ items t.tail :: B.map fun v => items v.tail,
      heap := heads A.length [t] ++ rest }, ?_, ⟨h.primed, ?_, ?_⟩, ?_, ?_⟩
    · simp only [nextRecord, act_bind, prime_holds h, act_get, hpop, act_set, hadv, act_pure]
    · simp
    · -- the other heads stay, the next record of the source joins them
      have hall := h.heap.symm.trans hperm
      rw [heads_append, heads, Nat.zero_add] at hall
      have hrest := (List.perm_middle.symm.trans hall).cons_inv
      have hnew : heads 0 (A ++ t :: B) =
          heads 0 A ++ (heads A.length [t] ++ heads (A.length + 1) B) := by
        rw [heads_append, Nat.zero_add, ← List.singleton_append, heads_append]
        rfl
      rw [hnew]
      refine (hrest.symm.append_left _).trans ?_
      rw [← List.append_assoc, ← List.append_assoc]
      exact List.perm_append_comm.append_right _
    · intro v hv
      rcases List.mem_append.mp hv with hv' | hv'
      · exact hs v (List.mem_append_left _ hv')
      · rcases List.mem_cons.mp hv' with rfl | hv''
        · exact (List.pairwise_cons.mp (hs (r :: v) (by simp))).2
        · exact hs v (by simp [hv''])
    · refine isort_pop hs ?_
      intro e he
      have he' : e ∈ (⟨r, A.length⟩ : HeapEntry) :: rest :=
        (h.heap.symm.trans hperm).mem_iff.mp he
      rcases List.mem_cons.mp he' with rfl | he'
      · rw [Ne, cmp_eq_gt_iff]
        simp [Rec.Before.irrefl]
      · exact hmin e he'

/-- The merger is about to yield exactly the records of `l`. -/
def Yields (m : KWayMerge) (l : List Rec) : Prop :=
  ∃ vs : List (List Rec), (∀ v ∈ vs, SortedRecs v) ∧ l = isort vs.flatten ∧
    (Holds m vs ∨ m = .new (vs.map items))

theorem yields_new {vs : List (List Rec)} (hs : ∀ v ∈ vs, SortedRecs v) :
    Yields (.new (vs.map items)) (isort vs.flatten) :=
  ⟨vs, hs, rfl, .inr rfl⟩

theorem nextRecord_new (vs : List (List Rec)) :
    ∃ m', Holds m' vs ∧ nextRecord (.new (vs.map items)) = nextRecord m' := by
  obtain ⟨m', hprime, hm'⟩ := prime_new vs
  refine ⟨m', hm', ?_⟩
  simp only [nextRecord, act_bind, hprime, prime_holds hm']

theorem Yields.nil (h : Yields m []) : ∃ m', nextRecord m = .ok none m' ∧ Yields m' [] := by
  obtain ⟨vs, hs, hl, hm⟩ := h
  obtain ⟨m₁, hm₁, heq⟩ : ∃ m₁, Holds m₁ vs ∧ nextRecord m = nextRecord m₁ := by
    rcases hm with hm | rfl
    · exact ⟨m, hm, rfl⟩
    · exact nextRecord_new vs
  rcases nextRecord_holds hm₁ hs with ⟨-, hnone⟩ | ⟨r, vs', m', -, -, -, hsort⟩
  · exact ⟨m₁, heq.trans hnone, vs, hs, hl, .inl hm₁⟩
  · rw [hsort] at hl
    cases hl

theorem Yields.cons {r : Rec} {l : List Rec} (h : Yields m (r :: l)) :
    ∃ m', nextRecord m = .ok (some r) m' ∧ Yields m' l := by
  obtain ⟨vs, hs, hl, hm⟩ := h
  obtain ⟨m₁, hm₁, heq⟩ : ∃ m₁, Holds m₁ vs ∧ nextRecord m = nextRecord m₁ := by
    rcases hm with hm | rfl
    · exact ⟨m, hm, rfl⟩
    · exact nextRecord_new vs
  rcases nextRecord_holds hm₁ hs with ⟨hnil, -⟩ | ⟨r', vs', m', hnext, hm', hs', hsort⟩
  · rw [hnil] at hl
    cases hl
  · rw [hsort] at hl
    obtain ⟨rfl, rfl⟩ := List.cons.inj hl
    exact ⟨m', heq.trans hnext, vs', hs', rfl, .inl hm'⟩

end Steps

end PaddockKV.Compaction
