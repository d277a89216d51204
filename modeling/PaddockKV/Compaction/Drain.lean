import PaddockKV.Compaction.Merger
import PaddockKV.Lib.StableSort

/-!
# Draining a merge (`compaction/merger.rs`)

`drain` is a consumer that calls `next_record` until it returns `Ok(None)`,
also after errors. Without errors it gets the stable merge of the streams. With
errors it loses the record in hand whenever the source behind it fails; `Early`
is the shape of the streams where this never happens.
-/

namespace PaddockKV.Compaction

open KWayMerge

/-- What the calls returned up to the first `Ok(None)`, and the merger left. -/
def drain : ℕ → KWayMerge → Option (List (Res Rec) × KWayMerge)
  | 0, _ => none
  | n + 1, m =>
    match nextRecord m with
    | .ok none m' => some ([], m')
    | .ok (some r) m' => (drain n m').map fun p => (.ok r :: p.1, p.2)
    | .error f m' => (drain n m').map fun p => (.error f :: p.1, p.2)

/-! ### Streams without errors -/

/-- A record with the stream it comes from and its place there. -/
structure Tagged where
  record : Rec
  source : ℕ
  position : ℕ
  deriving DecidableEq, Repr

namespace Tagged

/-- The place of `a` is in front of the place of `b`. -/
def Earlier (a b : Tagged) : Prop :=
  a.source < b.source ∨ a.source = b.source ∧ a.position < b.position

/-- Key ascending, sequence number descending, then source and position. -/
def Before (a b : Tagged) : Prop :=
  a.record.key < b.record.key ∨ a.record.key = b.record.key ∧
    (b.record.seqno < a.record.seqno ∨ a.record.seqno = b.record.seqno ∧ a.Earlier b)

/-- The order of the records alone. -/
def Le (a b : Tagged) : Prop := ¬ b.record.Before a.record

instance : DecidableRel Le := fun _ _ => inferInstanceAs (Decidable (¬ _))

theorem le_total (a b : Tagged) : a.Le b ∨ b.Le a := by
  by_cases h : b.record.Before a.record
  · exact .inr h.asymm
  · exact .inl h

theorem before_of_le {a b : Tagged} (h : StableSort.Le Le Earlier a b) : a.Before b := by
  obtain ⟨hle, htie⟩ := h
  rcases Rec.not_before_iff.mp hle with hlt | ⟨hk, hs⟩
  · exact .inl hlt
  · refine .inr ⟨hk, ?_⟩
    rcases hs.lt_or_eq with hlt | heq
    · exact .inl hlt
    · exact .inr ⟨heq.symm, htie (Rec.not_before_iff.mpr (.inr ⟨hk.symm, heq.ge⟩))⟩

end Tagged

/-- The records of one stream, from `position` on. -/
def taggedFrom (source position : ℕ) : List Rec → List Tagged
  | [] => []
  | r :: v => ⟨r, source, position⟩ :: taggedFrom source (position + 1) v

/-- The records of all streams, numbered from `source`. -/
def tagged (source : ℕ) : List (List Rec) → List Tagged
  | [] => []
  | v :: vs => taggedFrom source 0 v ++ tagged (source + 1) vs

theorem taggedFrom_records (source position : ℕ) (v : List Rec) :
    (taggedFrom source position v).map Tagged.record = v := by
  induction v generalizing position with
  | nil => rfl
  | cons r v ih => rw [taggedFrom, List.map_cons, ih]

theorem tagged_records (source : ℕ) (vs : List (List Rec)) :
    (tagged source vs).map Tagged.record = vs.flatten := by
  induction vs generalizing source with
  | nil => rfl
  | cons v vs ih => rw [tagged, List.map_append, taggedFrom_records, ih, List.flatten_cons]

theorem mem_taggedFrom {source position : ℕ} {v : List Rec} {a : Tagged}
    (h : a ∈ taggedFrom source position v) : a.source = source ∧ position ≤ a.position := by
  induction v generalizing position with
  | nil => cases h
  | cons r v ih =>
    rcases List.mem_cons.mp h with rfl | h
    · exact ⟨rfl, le_rfl⟩
    · obtain ⟨hs, hp⟩ := ih h
      exact ⟨hs, by omega⟩

theorem mem_tagged {source : ℕ} {vs : List (List Rec)} {a : Tagged} (h : a ∈ tagged source vs) :
    source ≤ a.source := by
  induction vs generalizing source with
  | nil => cases h
  | cons v vs ih =>
    rcases List.mem_append.mp h with h | h
    · exact (mem_taggedFrom h).1.ge
    · have := ih h
      omega

theorem taggedFrom_earlier (source position : ℕ) (v : List Rec) :
    (taggedFrom source position v).Pairwise Tagged.Earlier := by
  induction v generalizing position with
  | nil => exact List.Pairwise.nil
  | cons r v ih =>
    refine List.pairwise_cons.mpr ⟨?_, ih (position + 1)⟩
    intro a ha
    obtain ⟨hs, hp⟩ := mem_taggedFrom ha
    exact .inr ⟨hs.symm, hp⟩

theorem tagged_earlier (source : ℕ) (vs : List (List Rec)) :
    (tagged source vs).Pairwise Tagged.Earlier := by
  induction vs generalizing source with
  | nil => exact List.Pairwise.nil
  | cons v vs ih =>
    refine List.pairwise_append.mpr ⟨taggedFrom_earlier source 0 v, ih (source + 1), ?_⟩
    intro a ha b hb
    have hs := (mem_taggedFrom ha).1
    have hb' := mem_tagged hb
    exact .inl (by omega)

theorem isort_eq_insertionSort (l : List Rec) :
    isort l = l.insertionSort fun a b => ¬ b.Before a := by
  have hins : ∀ (r : Rec) (l : List Rec),
      insertRec r l = l.orderedInsert (fun a b => ¬ b.Before a) r := by
    intro r l
    induction l with
    | nil => rfl
    | cons x l ih =>
      rw [insertRec, List.orderedInsert, ih, ite_not]
  induction l with
  | nil => rfl
  | cons r l ih =>
    show insertRec r (isort l) = _
    rw [ih, hins, List.insertionSort_cons]

theorem drain_yields {m : KWayMerge} {l : List Rec} (h : Yields m l) {n : ℕ} (hn : l.length < n) :
    ∃ m', drain n m = some (items l, m') := by
  induction l generalizing m n with
  | nil =>
    obtain ⟨n, rfl⟩ : ∃ k, n = k + 1 := ⟨n - 1, by omega⟩
    obtain ⟨m', hnext, -⟩ := h.nil
    refine ⟨m', ?_⟩
    rw [drain, hnext]
    rfl
  | cons r l ih =>
    rw [List.length_cons] at hn
    obtain ⟨n, rfl⟩ : ∃ k, n = k + 1 := ⟨n - 1, by omega⟩
    obtain ⟨m₁, hnext, hm₁⟩ := h.cons
    obtain ⟨m', hm'⟩ := ih hm₁ (show l.length < n by omega)
    refine ⟨m', ?_⟩
    rw [drain, hnext]
    dsimp only
    rw [hm']
    rfl

/-- Sorted streams without errors come out as one list of all their records, in
internal-key order, ties by stream and within a stream by position. -/
theorem drain_sorted (vs : List (List Rec)) (hs : ∀ v ∈ vs, SortedRecs v) :
    ∃ out : List Tagged, out.Perm (tagged 0 vs) ∧ out.Pairwise Tagged.Before ∧
      ∀ n, vs.flatten.length < n →
        ∃ m, drain n (.new (vs.map items)) = some (items (out.map Tagged.record), m) := by
  refine ⟨(tagged 0 vs).insertionSort Tagged.Le, List.perm_insertionSort _ _, ?_, ?_⟩
  · refine List.Pairwise.imp Tagged.before_of_le (StableSort.pairwise_insertionSort
      Tagged.le_total ?_ (tagged_earlier 0 vs))
    intro a b c hab hbc
    exact Rec.not_before_trans hab hbc
  · intro n hn
    have hmap : ((tagged 0 vs).insertionSort Tagged.Le).map Tagged.record = isort vs.flatten := by
      rw [List.map_insertionSort Tagged.Le (fun a b : Rec => ¬ b.Before a) Tagged.record _
        fun _ _ _ _ => Iff.rfl, tagged_records, isort_eq_insertionSort]
    rw [hmap]
    exact drain_yields (yields_new hs) (by rwa [length_isort])

-- the same internal key in both streams and twice in the first
theorem drain_sorted_ties : ∃ out : List Tagged,
    out.Perm (tagged 0 [[⟨[1], 4, .tombstone, []⟩, ⟨[1], 4, .put, [7]⟩], [⟨[1], 4, .put, [8]⟩]]) ∧
      out.Pairwise Tagged.Before ∧ ∀ n, 3 < n → ∃ m,
        drain n (.new ([[⟨[1], 4, .tombstone, []⟩, ⟨[1], 4, .put, [7]⟩], [⟨[1], 4, .put, [8]⟩]].map
          items)) = some (items (out.map Tagged.record), m) :=
  drain_sorted [[⟨[1], 4, .tombstone, []⟩, ⟨[1], 4, .put, [7]⟩], [⟨[1], 4, .put, [8]⟩]]
    (by unfold SortedRecs; decide)

/-! ### Streams with errors -/

def isErr : Res Rec → Bool
  | .ok _ => false
  | .error _ => true

/-- Every error of the stream has at most `k` records in front of it. -/
def ErrsWithin (k : ℕ) (s : List (Res Rec)) : Prop :=
  ∀ A f B, s = A ++ .error f :: B → A.countP (!isErr ·) ≤ k

/-- An error has at most as many records in front of it in its stream as there
are errors in the streams behind. -/
def Early : List (List (Res Rec)) → Prop
  | [] => True
  | s :: ss => ErrsWithin (ss.flatten.countP isErr) s ∧ Early ss

def NoErr (ss : List (List (Res Rec))) : Prop := ∀ s ∈ ss, ∀ x ∈ s, isErr x = false

/-- The items that streams gave away to become `rest`. -/
def pulled (ss rest : List (List (Res Rec))) : List (Res Rec) :=
  (List.zipWith (fun s t => s.take (s.length - t.length)) ss rest).flatten

theorem pulled_perm {ss rest : List (List (Res Rec))}
    (h : List.Forall₂ (fun t s => t <:+ s) rest ss) :
    (pulled ss rest ++ rest.flatten).Perm ss.flatten := by
  induction h with
  | nil => exact List.Perm.refl _
  | @cons t s rest ss hts _ ih =>
    obtain ⟨u, rfl⟩ := hts
    have htake : (u ++ t).take ((u ++ t).length - t.length) = u := by
      rw [List.length_append, Nat.add_sub_cancel, List.take_left]
    have hcons : pulled ((u ++ t) :: ss) (t :: rest) = u ++ pulled ss rest := by
      rw [pulled, List.zipWith_cons_cons, List.flatten_cons, htake, pulled]
    rw [hcons, List.flatten_cons, List.flatten_cons, List.append_assoc, List.append_assoc]
    refine List.Perm.append_left u ?_
    rw [← List.append_assoc]
    refine (List.perm_append_comm.append_right _).trans ?_
    rw [List.append_assoc]
    exact ih.append_left t

section ErrsWithin

variable {k : ℕ} {s : List (Res Rec)}

theorem errsWithin_nil (k : ℕ) : ErrsWithin k [] := by
  intro A f B h
  cases A <;> cases h

theorem errsWithin_error (f : Fault) : ErrsWithin k (.error f :: s) ↔ ErrsWithin k s := by
  constructor
  · intro h A f' B hs
    have := h (.error f :: A) f' B (by rw [hs, List.cons_append])
    rwa [List.countP_cons_of_neg (by simp [isErr])] at this
  · intro h A f' B hs
    cases A with
    | nil => exact Nat.zero_le k
    | cons x A =>
      obtain ⟨rfl, hs'⟩ := List.cons.inj hs
      rw [List.countP_cons_of_neg (by simp [isErr])]
      exact h A f' B hs'

theorem errsWithin_ok_succ (r : Rec) : ErrsWithin (k + 1) (.ok r :: s) ↔ ErrsWithin k s := by
  constructor
  · intro h A f B hs
    have := h (.ok r :: A) f B (by rw [hs, List.cons_append])
    rw [List.countP_cons_of_pos (by simp [isErr])] at this
    omega
  · intro h A f B hs
    cases A with
    | nil => exact Nat.zero_le _
    | cons x A =>
      obtain ⟨rfl, hs'⟩ := List.cons.inj hs
      rw [List.countP_cons_of_pos (by simp [isErr])]
      exact Nat.succ_le_succ (h A f B hs')

theorem errsWithin_ok_zero (r : Rec) :
    ErrsWithin 0 (.ok r :: s) ↔ ∀ x ∈ s, isErr x = false := by
  constructor
  · intro h x hx
    cases x with
    | ok r' => rfl
    | error f =>
      obtain ⟨A, B, rfl⟩ := List.append_of_mem hx
      have := h (.ok r :: A) f B (by rw [List.cons_append])
      rw [List.countP_cons_of_pos (by simp [isErr])] at this
      omega
  · intro h A f B hs
    cases A with
    | nil => exact Nat.zero_le _
    | cons x A =>
      obtain ⟨-, rfl⟩ := List.cons.inj hs
      have := h (.error f) (by simp)
      cases this

end ErrsWithin

theorem noErr_cons {s : List (Res Rec)} {ss : List (List (Res Rec))} :
    NoErr (s :: ss) ↔ (∀ x ∈ s, isErr x = false) ∧ NoErr ss := List.forall_mem_cons

theorem countP_isErr_eq_zero {ss : List (List (Res Rec))} (h : NoErr ss) :
    ss.flatten.countP isErr = 0 := by
  rw [List.countP_eq_zero]
  intro x hx
  obtain ⟨s, hs, hxs⟩ := List.mem_flatten.mp hx
  simp [h s hs x hxs]

theorem suffix_self (a : List (List (Res Rec))) : List.Forall₂ (fun t s => t <:+ s) a a :=
  List.forall₂_same.mpr fun _ _ => List.suffix_refl _

theorem suffix_trans {a b c : List (List (Res Rec))}
    (h : List.Forall₂ (fun t s => t <:+ s) a b) (h' : List.Forall₂ (fun t s => t <:+ s) b c) :
    List.Forall₂ (fun t s => t <:+ s) a c := by
  induction h generalizing c with
  | nil =>
    cases h'
    exact .nil
  | cons hab _ ih =>
    cases h' with
    | cons hbc hrest => exact .cons (hab.trans hbc) (ih hrest)

/-! ### Priming -/

/-- One pass of `prime` over streams numbered from `n`: the entries it pushes,
the error that ends it, and the streams it leaves. -/
inductive Primes : ℕ → List (List (Res Rec)) → List HeapEntry → Option Fault →
    List (List (Res Rec)) → Prop where
  | nil (n : ℕ) : Primes n [] [] none []
  | empty {n : ℕ} {ss ss' : List (List (Res Rec))} {es : List HeapEntry} {f : Option Fault}
      (h : Primes (n + 1) ss es f ss') : Primes n ([] :: ss) es f ([] :: ss')
  | ok {n : ℕ} {r : Rec} {s : List (Res Rec)} {ss ss' : List (List (Res Rec))}
      {es : List HeapEntry} {f : Option Fault} (h : Primes (n + 1) ss es f ss') :
      Primes n ((.ok r :: s) :: ss) (⟨r, n⟩ :: es) f (s :: ss')
  | error (n : ℕ) (f : Fault) (s : List (Res Rec)) (ss : List (List (Res Rec))) :
      Primes n ((.error f :: s) :: ss) [] (some f) (s :: ss)

/-- The items the merger holds. -/
def entryItems (es : List HeapEntry) : List (Res Rec) := es.map fun e => .ok e.record

namespace Primes

variable {n : ℕ} {ss ss' : List (List (Res Rec))} {es : List HeapEntry} {f : Option Fault}

theorem suffix (h : Primes n ss es f ss') : List.Forall₂ (fun t s => t <:+ s) ss' ss := by
  induction h with
  | nil => exact .nil
  | empty _ ih => exact .cons (List.suffix_refl _) ih
  | ok _ ih => exact .cons (List.suffix_cons _ _) ih
  | error n f s ss =>
    exact .cons (List.suffix_cons _ _) (suffix_self ss)

theorem perm (h : Primes n ss es f ss') :
    ss.flatten.Perm (f.toList.map .error ++ (entryItems es ++ ss'.flatten)) := by
  induction h with
  | nil => exact List.Perm.refl _
  | empty _ ih => exact ih
  | @ok n r s ss ss' es f _ ih =>
    rw [List.flatten_cons, List.flatten_cons, List.cons_append]
    refine .trans (.cons _ (ih.append_left s)) ?_
    show (.ok r :: (s ++ _)).Perm (_ ++ (.ok r :: entryItems es ++ _))
    refine .trans ?_ List.perm_middle.symm
    refine .cons _ ?_
    refine List.perm_append_comm_assoc _ _ _ |>.trans (List.Perm.append_left _ ?_)
    exact List.perm_append_comm_assoc _ _ _
  | error n f s ss => exact List.Perm.refl _

theorem count (h : Primes n ss es f ss') :
    ss.flatten.countP isErr = f.toList.length + ss'.flatten.countP isErr := by
  have hes : (entryItems es).countP isErr = 0 := by
    rw [List.countP_eq_zero]
    intro x hx
    obtain ⟨e, -, rfl⟩ := List.mem_map.mp hx
    simp [isErr]
  have hf : (f.toList.map (Except.error : Fault → Res Rec)).countP isErr = f.toList.length := by
    cases f <;> rfl
  rw [h.perm.countP_eq, List.countP_append, List.countP_append, hes, hf, Nat.zero_add]

theorem early_of_error {f : Fault} (h : Primes n ss es (some f) ss') : Early ss ↔ Early ss' := by
  generalize hf : some f = o at h
  induction h with
  | nil => rfl
  | empty _ ih =>
    rw [Early, Early, ih hf]
    exact and_congr_left fun _ => iff_of_true (errsWithin_nil _) (errsWithin_nil _)
  | ok h ih =>
    subst hf
    rw [Early, Early, ih rfl, h.count]
    exact and_congr_left fun _ => by
      rw [Nat.add_comm]
      exact errsWithin_ok_succ _
  | error n f' s ss =>
    rw [Early, Early, errsWithin_error]

theorem early_of_none (h : Primes n ss es none ss') : Early ss ↔ NoErr ss' := by
  generalize hf : (none : Option Fault) = o at h
  induction h with
  | nil => exact iff_of_true trivial (by simp [NoErr])
  | empty _ ih =>
    rw [Early, ih hf]
    simp [NoErr, errsWithin_nil]
  | @ok n r s ss ss' es f h ih =>
    subst hf
    rw [Early, ih rfl, noErr_cons]
    refine and_congr_left fun hno => ?_
    have hcount : ss.flatten.countP isErr = 0 := by
      rw [h.count, countP_isErr_eq_zero hno]
      rfl
    rw [hcount]
    exact errsWithin_ok_zero r
  | error => cases hf

theorem fed (h : Primes n ss es none ss') {i : ℕ} (hi : ss'.getD i [] ≠ []) :
    ∃ e ∈ es, e.source = n + i := by
  generalize hf : (none : Option Fault) = o at h
  induction h generalizing i with
  | nil => simp at hi
  | empty _ ih =>
    cases i with
    | zero => simp at hi
    | succ i =>
      obtain ⟨e, he, hs⟩ := ih (by simpa using hi) hf
      exact ⟨e, he, by omega⟩
  | ok _ ih =>
    cases i with
    | zero => exact ⟨_, List.mem_cons_self, rfl⟩
    | succ i =>
      obtain ⟨e, he, hs⟩ := ih (by simpa using hi) hf
      exact ⟨e, List.mem_cons_of_mem _ he, by omega⟩
  | error => cases hf

end Primes

theorem advance_empty {m : KWayMerge} {source : ℕ} (h : m.streams.getD source [] = []) :
    advance source m = .ok false m := by
  simp only [advance, act_bind, act_get, h, act_pure]

theorem advance_ok {m : KWayMerge} {source : ℕ} {r : Rec} {s : List (Res Rec)}
    (h : m.streams.getD source [] = .ok r :: s) :
    advance source m = .ok true
      { m with streams := m.streams.set source s, heap := ⟨r, source⟩ :: m.heap } := by
  simp only [advance, act_bind, act_get, h, act_set, act_lift_ok, act_modify, act_pure]

theorem advance_error {m : KWayMerge} {source : ℕ} {f : Fault} {s : List (Res Rec)}
    (h : m.streams.getD source [] = .error f :: s) :
    advance source m = .error f { m with streams := m.streams.set source s } := by
  simp only [advance, act_bind, act_get, h, act_set, act_lift_error]

theorem primeFrom_cases {m : KWayMerge} {done ss : List (List (Res Rec))}
    (hm : m.streams = done ++ ss) :
    ∃ es f ss', Primes done.length ss es f ss' ∧ primeFrom done.length ss.length m =
      match f with
      | none => .ok () { m with streams := done ++ ss', heap := es.reverse ++ m.heap }
      | some f => .error f { m with streams := done ++ ss', heap := es.reverse ++ m.heap } := by
  induction ss generalizing m done with
  | nil =>
    refine ⟨[], none, [], .nil _, ?_⟩
    rw [← hm]
    rfl
  | cons s ss ih =>
    have hget : m.streams.getD done.length [] = s := by simp [hm]
    have hlen : (done ++ [([] : List (Res Rec))]).length = done.length + 1 := by simp
    cases s with
    | nil =>
      obtain ⟨es, f, ss', hp, heq⟩ := @ih m (done ++ [[]]) (by simp [hm])
      rw [hlen] at hp heq
      refine ⟨es, f, [] :: ss', .empty hp, ?_⟩
      rw [List.length_cons, primeFrom, act_bind_ok (advance_empty hget), heq]
      cases f <;> simp
    | cons x s =>
      cases x with
      | ok r =>
        obtain ⟨es, f, ss', hp, heq⟩ := @ih { m with
          streams := m.streams.set done.length s, heap := ⟨r, done.length⟩ :: m.heap }
          (done ++ [s]) (by simp [hm])
        rw [List.length_append, List.length_singleton] at hp heq
        refine ⟨_, f, s :: ss', .ok hp, ?_⟩
        rw [List.length_cons, primeFrom, act_bind_ok (advance_ok hget), heq]
        cases f <;> simp
      | error f =>
        refine ⟨[], some f, s :: ss, .error _ f s ss, ?_⟩
        rw [List.length_cons, primeFrom, act_bind, advance_error hget]
        simp [hm]

/-! ### Popping -/

/-- The records in the heap and the items still in the streams. -/
def held (m : KWayMerge) : List (Res Rec) := entryItems m.heap ++ m.streams.flatten

/-- Every stream with items left has an entry in the heap. -/
def Fed (m : KWayMerge) : Prop := ∀ i, m.streams.getD i [] ≠ [] → ∃ e ∈ m.heap, e.source = i

theorem nextRecord_none {m : KWayMerge} (hp : m.primed = true) (h : m.heap = []) :
    nextRecord m = .ok none m := by
  simp [nextRecord, prime, act_bind, hp, h, popMin]

theorem nextRecord_pop {m : KWayMerge} {top : HeapEntry} {rest : List HeapEntry}
    (hp : m.primed = true) (hpop : popMin m.heap = some (top, rest)) :
    (m.streams.getD top.source [] = [] ∧
      nextRecord m = .ok (some top.record) { m with heap := rest }) ∨
    (∃ r s, m.streams.getD top.source [] = .ok r :: s ∧ nextRecord m = .ok (some top.record)
      { m with streams := m.streams.set top.source s, heap := ⟨r, top.source⟩ :: rest }) ∨
    ∃ f s, m.streams.getD top.source [] = .error f :: s ∧ nextRecord m =
      .error f { m with streams := m.streams.set top.source s, heap := rest } := by
  have hprime : prime m = .ok () m := by simp [prime, act_bind, hp]
  have hstep : nextRecord m =
      (advance top.source >>= fun _ => pure (some top.record)) { m with heap := rest } := by
    simp only [nextRecord, act_bind, hprime, act_get, hpop, act_set]
  cases hget : m.streams.getD top.source [] with
  | nil =>
    have hadv := @advance_empty { m with heap := rest } top.source hget
    exact .inl ⟨rfl, hstep.trans (act_bind_ok hadv)⟩
  | cons x s =>
    cases x with
    | ok r =>
      have hadv := @advance_ok { m with heap := rest } top.source r s hget
      exact .inr (.inl ⟨r, s, rfl, hstep.trans (act_bind_ok hadv)⟩)
    | error f =>
      have hadv := @advance_error { m with heap := rest } top.source f s hget
      refine .inr (.inr ⟨f, s, rfl, hstep.trans ?_⟩)
      rw [act_bind, hadv]

section Pull

variable {ss : List (List (Res Rec))} {i : ℕ} {x : Res Rec} {s : List (Res Rec)}

theorem getD_split (h : ss.getD i [] = x :: s) :
    ∃ A B, ss = A ++ (x :: s) :: B ∧ A.length = i ∧ ss.set i s = A ++ s :: B := by
  have hlt : i < ss.length := by
    by_contra hle
    rw [List.getD_eq_getElem?_getD, List.getElem?_eq_none (not_lt.mp hle)] at h
    cases h
  rw [List.getD_eq_getElem?_getD, List.getElem?_eq_getElem hlt, Option.getD_some] at h
  refine ⟨ss.take i, ss.drop (i + 1), ?_, List.length_take_of_le hlt.le, ?_⟩
  · rw [← h, ← List.drop_eq_getElem_cons hlt, List.take_append_drop]
  · rw [List.set_eq_take_append_cons_drop, if_pos hlt]

theorem flatten_pull (h : ss.getD i [] = x :: s) :
    ss.flatten.Perm (x :: (ss.set i s).flatten) := by
  obtain ⟨A, B, hss, -, hset⟩ := getD_split h
  rw [hset, hss]
  simp only [List.flatten_append, List.flatten_cons, List.cons_append]
  exact List.perm_middle

theorem suffix_pull (h : ss.getD i [] = x :: s) :
    List.Forall₂ (fun t s => t <:+ s) (ss.set i s) ss := by
  obtain ⟨A, B, hss, -, hset⟩ := getD_split h
  rw [hset, hss]
  exact List.rel_append (suffix_self A) (.cons (List.suffix_cons x s) (suffix_self B))

theorem noErr_iff_flatten : NoErr ss ↔ ∀ x ∈ ss.flatten, isErr x = false := by
  constructor
  · intro h x hx
    obtain ⟨s, hs, hxs⟩ := List.mem_flatten.mp hx
    exact h s hs x hxs
  · intro h s hs x hx
    exact h x (List.mem_flatten_of_mem hs hx)

theorem noErr_pull_ok {r : Rec} (h : ss.getD i [] = .ok r :: s) :
    NoErr ss ↔ NoErr (ss.set i s) := by
  rw [noErr_iff_flatten, noErr_iff_flatten]
  simp only [(flatten_pull h).mem_iff, List.forall_mem_cons]
  exact and_iff_right rfl

theorem not_noErr_pull {f : Fault} (h : ss.getD i [] = .error f :: s) : ¬ NoErr ss := by
  rw [noErr_iff_flatten]
  intro hno
  have := hno (.error f) ((flatten_pull h).mem_iff.mpr List.mem_cons_self)
  cases this

end Pull

theorem entryItems_pop {heap rest : List HeapEntry} {top : HeapEntry}
    (hpop : popMin heap = some (top, rest)) :
    (entryItems heap).Perm (.ok top.record :: entryItems rest) :=
  (popMin_spec hpop).1.map _

theorem mem_rest {heap rest : List HeapEntry} {top e : HeapEntry}
    (hpop : popMin heap = some (top, rest)) (he : e ∈ heap) (hne : e.source ≠ top.source) :
    e ∈ rest := by
  rcases List.mem_cons.mp ((popMin_spec hpop).1.mem_iff.mp he) with rfl | he
  · exact absurd rfl hne
  · exact he

/-- How a drain ends that began with the items `start`, some of them in streams
`ss`: what came out, what was lost on the way, what was never asked for. -/
structure Drained (start : List (Res Rec)) (ss : List (List (Res Rec)))
    (out : List (Res Rec)) (lost : List (Res Rec)) (m : KWayMerge) : Prop where
  perm : start.Perm (out ++ (lost ++ m.streams.flatten))
  suffix : List.Forall₂ (fun t s => t <:+ s) m.streams ss

namespace Drained

variable {start start' out lost : List (Res Rec)} {ss ss' : List (List (Res Rec))} {m : KWayMerge}

theorem cons (h : Drained start' ss' out lost m) {x : Res Rec} (hp : start.Perm (x :: start'))
    (hs : List.Forall₂ (fun t s => t <:+ s) ss' ss) : Drained start ss (x :: out) lost m :=
  ⟨hp.trans (h.perm.cons x), suffix_trans h.suffix hs⟩

theorem lose (h : Drained start' ss' out lost m) {x : Res Rec} (hp : start.Perm (x :: start'))
    (hs : List.Forall₂ (fun t s => t <:+ s) ss' ss) : Drained start ss out (x :: lost) m :=
  ⟨hp.trans ((h.perm.cons x).trans List.perm_middle.symm), suffix_trans h.suffix hs⟩

end Drained

theorem drain_primed {n : ℕ} {m : KWayMerge} (hp : m.primed = true) (hn : (held m).length < n) :
    ∃ out lost m', drain n m = some (out, m') ∧ Drained (held m) m.streams out lost m' ∧
      (Fed m → (lost = [] ↔ NoErr m.streams) ∧ (lost = [] → m'.streams.flatten = [])) := by
  induction n generalizing m with
  | zero => omega
  | succ n ih =>
    cases hpop : popMin m.heap with
    | none =>
      have hnil := popMin_eq_none.mp hpop
      refine ⟨[], [], m, ?_, ⟨?_, suffix_self _⟩, ?_⟩
      · rw [drain, nextRecord_none hp hnil]
      · rw [held, hnil]
        exact List.Perm.refl _
      · intro hfed
        -- no entries, so nothing is left in the streams
        have hempty : ∀ s ∈ m.streams, s = [] := by
          intro s hs
          obtain ⟨i, hi, rfl⟩ := List.mem_iff_getElem.mp hs
          by_contra hne
          have hget : m.streams.getD i [] = m.streams[i] := by
            rw [List.getD_eq_getElem?_getD, List.getElem?_eq_getElem hi, Option.getD_some]
          obtain ⟨e, he, -⟩ := hfed i (hget ▸ hne)
          rw [hnil] at he
          cases he
        refine ⟨iff_of_true rfl ?_, fun _ => List.flatten_eq_nil_iff.mpr hempty⟩
        intro s hs x hx
        rw [hempty s hs] at hx
        cases hx
    | some p =>
      obtain ⟨top, rest⟩ := p
      have hitems := entryItems_pop hpop
      rcases nextRecord_pop hp hpop with ⟨hget, hnext⟩ | ⟨r, s, hget, hnext⟩ | ⟨f, s, hget, hnext⟩
      · have hheld : (held m).Perm (.ok top.record :: held { m with heap := rest }) :=
          hitems.append_right _
        have hlen := hheld.length_eq
        rw [List.length_cons] at hlen
        obtain ⟨out, lost, m', hdrain, hd, hlost⟩ := @ih { m with heap := rest } hp (by omega)
        refine ⟨.ok top.record :: out, lost, m', ?_, hd.cons hheld (suffix_self _), ?_⟩
        · rw [drain, hnext]
          dsimp only
          rw [hdrain]
          rfl
        · intro hfed
          refine hlost ?_
          intro i hi
          obtain ⟨e, he, rfl⟩ := hfed i hi
          refine ⟨e, mem_rest hpop he ?_, rfl⟩
          intro heq
          exact hi (heq ▸ hget)
      · have hheld : (held m).Perm (.ok top.record :: held { m with
            streams := m.streams.set top.source s, heap := ⟨r, top.source⟩ :: rest }) := by
          refine (hitems.append (flatten_pull hget)).trans (.cons _ ?_)
          exact List.perm_middle
        have hlen := hheld.length_eq
        rw [List.length_cons] at hlen
        obtain ⟨out, lost, m', hdrain, hd, hlost⟩ := @ih { m with
          streams := m.streams.set top.source s, heap := ⟨r, top.source⟩ :: rest } hp (by omega)
        refine ⟨.ok top.record :: out, lost, m', ?_, hd.cons hheld (suffix_pull hget), ?_⟩
        · rw [drain, hnext]
          dsimp only
          rw [hdrain]
          rfl
        · intro hfed
          rw [noErr_pull_ok hget]
          refine hlost ?_
          intro i hi
          by_cases heq : i = top.source
          · exact ⟨⟨r, top.source⟩, List.mem_cons_self, heq.symm⟩
          · have hsame : (m.streams.set top.source s).getD i [] = m.streams.getD i [] := by
              simp [List.getD, List.getElem?_set_ne (Ne.symm heq)]
            dsimp only at hi
            rw [hsame] at hi
            obtain ⟨e, he, rfl⟩ := hfed i hi
            exact ⟨e, List.mem_cons_of_mem _ (mem_rest hpop he heq), rfl⟩
      · -- the record in hand is gone
        have hheld : (held m).Perm (.ok top.record :: .error f :: held { m with
            streams := m.streams.set top.source s, heap := rest }) := by
          refine (hitems.append (flatten_pull hget)).trans (.cons _ ?_)
          exact List.perm_middle
        have hlen := hheld.length_eq
        rw [List.length_cons, List.length_cons] at hlen
        obtain ⟨out, lost, m', hdrain, hd, -⟩ := @ih { m with
          streams := m.streams.set top.source s, heap := rest } hp (by omega)
        refine ⟨.error f :: out, .ok top.record :: lost, m', ?_,
          (hd.cons (.refl _) (suffix_pull hget)).lose hheld (suffix_self _), ?_⟩
        · rw [drain, hnext]
          dsimp only
          rw [hdrain]
          rfl
        · intro _
          exact ⟨iff_of_false (List.cons_ne_nil _ _) (not_noErr_pull hget),
            fun h => absurd h (List.cons_ne_nil _ _)⟩

theorem held_primes {m : KWayMerge} {n : ℕ} {es : List HeapEntry} {f : Option Fault}
    {ss' : List (List (Res Rec))} (h : Primes n m.streams es f ss') (b : Bool) :
    (held m).Perm (f.toList.map .error ++ held ⟨ss', es.reverse ++ m.heap, b⟩) := by
  refine (h.perm.append_left _).trans ((List.perm_append_comm_assoc _ _ _).trans ?_)
  refine List.Perm.append_left _ ?_
  rw [held, entryItems, entryItems, entryItems, List.map_append, ← List.append_assoc]
  refine List.Perm.append_right _ (List.perm_append_comm.trans ?_)
  exact ((List.reverse_perm es).symm.map _).append_right _

theorem drain_unprimed {n : ℕ} {m : KWayMerge} (hp : m.primed = false)
    (hn : (held m).length < n) :
    ∃ out lost m', drain n m = some (out, m') ∧ Drained (held m) m.streams out lost m' ∧
      (lost = [] ↔ Early m.streams) ∧ (lost = [] → m'.streams.flatten = []) := by
  induction n generalizing m with
  | zero => omega
  | succ n ih =>
    obtain ⟨es, f, ss', hprimes, hloop⟩ := @primeFrom_cases m [] m.streams rfl
    rw [List.length_nil, List.nil_append] at hloop
    cases f with
    | none =>
      have hprime : prime m = .ok ()
          { m with streams := ss', heap := es.reverse ++ m.heap, primed := true } := by
        simp [prime, act_bind, hp, hloop]
      have hnext : nextRecord m = nextRecord
          { m with streams := ss', heap := es.reverse ++ m.heap, primed := true } := by
        simp only [nextRecord, act_bind, hprime]
        simp [prime, act_bind]
      have hheld : (held m).Perm
          (held { m with streams := ss', heap := es.reverse ++ m.heap, primed := true }) :=
        held_primes hprimes true
      have hlen := hheld.length_eq
      obtain ⟨out, lost, m', hdrain, hd, hlost⟩ := @drain_primed (n + 1)
        { m with streams := ss', heap := es.reverse ++ m.heap, primed := true } rfl (by omega)
      refine ⟨out, lost, m', ?_, ⟨hheld.trans hd.perm, suffix_trans hd.suffix hprimes.suffix⟩, ?_⟩
      · rw [drain] at hdrain ⊢
        rw [hnext]
        exact hdrain
      · rw [hprimes.early_of_none]
        refine hlost ?_
        intro i hi
        obtain ⟨e, he, hs⟩ := hprimes.fed hi
        refine ⟨e, List.mem_append_left _ (List.mem_reverse.mpr he), ?_⟩
        rw [hs, List.length_nil, Nat.zero_add]
    | some f =>
      have hprime : prime m = .error f { m with streams := ss', heap := es.reverse ++ m.heap } := by
        simp [prime, act_bind, hp, hloop]
      have hnext : nextRecord m =
          .error f { m with streams := ss', heap := es.reverse ++ m.heap } := by
        simp only [nextRecord, act_bind, hprime]
      have hheld : (held m).Perm
          (.error f :: held { m with streams := ss', heap := es.reverse ++ m.heap }) :=
        held_primes hprimes m.primed
      have hlen := hheld.length_eq
      rw [List.length_cons] at hlen
      obtain ⟨out, lost, m', hdrain, hd, hlost⟩ := @ih
        { m with streams := ss', heap := es.reverse ++ m.heap } hp (by omega)
      refine ⟨.error f :: out, lost, m', ?_, hd.cons hheld hprimes.suffix, ?_⟩
      · rw [drain, hnext]
        dsimp only
        rw [hdrain]
        rfl
      · rw [hprimes.early_of_error]
        exact hlost

theorem drain_mono {n k : ℕ} {m : KWayMerge} {p : List (Res Rec) × KWayMerge}
    (h : drain n m = some p) (hk : n ≤ k) : drain k m = some p := by
  induction n generalizing k m p with
  | zero => cases h
  | succ n ih =>
    obtain ⟨k, rfl⟩ : ∃ j, k = j + 1 := ⟨k - 1, by omega⟩
    rw [drain] at h ⊢
    split at h
    · exact h
    · obtain ⟨q, hq, rfl⟩ := Option.map_eq_some_iff.mp h
      rw [ih hq (by omega)]
      rfl
    · obtain ⟨q, hq, rfl⟩ := Option.map_eq_some_iff.mp h
      rw [ih hq (by omega)]
      rfl

/-- Everything that was pulled comes out exactly once, records as records and
errors as errors, if and only if the errors stand early in their streams. -/
theorem drain_pulled_iff (ss : List (List (Res Rec))) :
    ∃ out m, (∀ n, ss.flatten.length < n → drain n (.new ss) = some (out, m)) ∧
      (out.Perm (pulled ss m.streams) ↔ Early ss) := by
  have hheld : held (.new ss) = ss.flatten := rfl
  obtain ⟨out, lost, m, hdrain, hd, hlost, -⟩ := @drain_unprimed (ss.flatten.length + 1) (.new ss) rfl
    (by rw [hheld]; omega)
  refine ⟨out, m, fun n hn => drain_mono hdrain hn, ?_⟩
  have hall : (out ++ lost).Perm (pulled ss m.streams) := by
    have hperm := hd.perm.symm.trans (hheld ▸ (pulled_perm hd.suffix).symm)
    rw [← List.append_assoc] at hperm
    exact (List.perm_append_right_iff _).mp hperm
  rw [← show lost = [] ↔ Early ss from hlost]
  constructor
  · intro hout
    have hlen := (hall.trans hout.symm).length_eq
    rw [List.length_append] at hlen
    exact List.eq_nil_of_length_eq_zero (by omega)
  · rintro rfl
    rwa [List.append_nil] at hall

theorem drain_early {ss : List (List (Res Rec))} (h : Early ss) :
    ∃ out m, drain (ss.flatten.length + 1) (.new ss) = some (out, m) ∧ out.Perm ss.flatten := by
  have hheld : held (.new ss) = ss.flatten := rfl
  obtain ⟨out, lost, m, hdrain, hd, hlost, hleft⟩ :=
    @drain_unprimed (ss.flatten.length + 1) (.new ss) rfl (by rw [hheld]; omega)
  refine ⟨out, m, hdrain, ?_⟩
  have hnone : lost = [] := hlost.mpr h
  have hperm := hd.perm
  rw [hheld, hnone, hleft hnone, List.append_nil, List.append_nil] at hperm
  exact hperm.symm

-- the only record of the stream is in hand when the error behind it is pulled
theorem drain_loses_record : ∃ out m,
    drain 4 (.new [[.ok ⟨[1], 1, .put, [2]⟩, .error (.err (.corruption "sstable data block" "crc"))]])
      = some (out, m) ∧
    ¬ out.Perm (pulled
      [[.ok ⟨[1], 1, .put, [2]⟩, .error (.err (.corruption "sstable data block" "crc"))]]
      m.streams) :=
  ⟨[.error (.err (.corruption "sstable data block" "crc"))], ⟨[[]], [], true⟩, rfl,
    fun h => absurd h.length_eq (by decide)⟩

end PaddockKV.Compaction
