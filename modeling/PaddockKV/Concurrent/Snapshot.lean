import PaddockKV.Concurrent.ProbeOrder

/-!
# Snapshot reads beside running commits

`commit_batch` takes its sequence number before its records are in the memtable.
A snapshot taken in between, or a read at it, falls into the gap: the records
appear one by one while the snapshot is in use. A read that loads the engine
state when no commit up to its snapshot is in that gap returns the value of the
versioned map at the snapshot, whatever commits run beside it, unless one of
them inserts between the two loads of the read's own `SkipList::get`.
-/

namespace PaddockKV.Concurrent

open Wal Transition Newest Engine History

variable {ι : Type} {t u : ι} {s s' : Shared ι} {pc pc' : Pc}

/-- The calls at issue: commits and reads. -/
def Choice.Serves : Choice → Prop
  | .call .flush | .call .compact => False
  | _ => True

/-- No commit up to `snapshot` is between its `fetch_add` and its last insert. -/
def SettledAt (s : Shared ι) (snapshot : ℕ) : Prop := ∀ q ∈ s.inflight, snapshot < q

def Pc.Settled (s : Shared ι) : Pc → Prop
  | .getLoad _ snapshot => SettledAt s snapshot
  | .rangeLoad scan => SettledAt s scan.snapshot
  | _ => True

/-- A reader between its last comparison and its candidate load, with a version to
find in memtable `target`, when `r` would land right behind its position. -/
def Pc.Missing (s : Shared ι) (target : ℕ) (r : Rec) : Pc → Prop
  | .getCandidate key snapshot cur m _ _ => m = target ∧ KeyBefore r.key r.seqno key snapshot ∧
    (∀ p ∈ cur, p.Before r) ∧ lookup (s.mem m) key snapshot ≠ none
  | _ => False

/-- Only commits and reads run, reads load the engine state when their snapshot is
settled, and no insert makes a reader miss what it is about to load. -/
def Settled (c : Sys ι) (x : ι × Choice) : Prop :=
  x.2.Serves ∧ (c.pc x.1).Settled c.shared ∧
    ∀ y ∈ (c.pc x.1).inserts, ∀ u, ¬ (c.pc u).Missing c.shared y.1 y.2

/-! ### Records up to a snapshot -/

def recsUpTo (n : ℕ) (l : List Rec) : List Rec := l.filter fun r => r.seqno ≤ n

theorem recsUpTo_append (n : ℕ) (l l' : List Rec) : recsUpTo n (l ++ l') = recsUpTo n l ++ recsUpTo n l' :=
  List.filter_append ..

theorem recsUpTo_eq_nil {n : ℕ} {l : List Rec} (h : ∀ r ∈ l, n < r.seqno) : recsUpTo n l = [] := by
  unfold recsUpTo
  rw [List.filter_eq_nil_iff]
  intro r hr
  simpa using h r hr

theorem recsUpTo_insertRec {n : ℕ} {r : Rec} (h : n < r.seqno) (l : List Rec) :
    recsUpTo n (insertRec r l) = recsUpTo n l := by
  have hr : decide (r.seqno ≤ n) = false := by simpa using h
  induction l with
  | nil => simp [insertRec, recsUpTo, hr]
  | cons x l ih =>
    unfold insertRec
    split
    · simp only [recsUpTo, List.filter_cons] at ih ⊢
      rw [ih]
    · simp only [recsUpTo, List.filter_cons, hr]
      rfl

theorem newestRec_upTo (l : List Rec) (k : Key) (n : ℕ) :
    newestRec (recsUpTo n l) k n = newestRec l k n :=
  newest_filter fun _ _ hv => by simpa using hv.2

theorem newestRec_congr {l l' : List Rec} {n : ℕ} (h : recsUpTo n l = recsUpTo n l') (k : Key) :
    newestRec l k n = newestRec l' k n := by
  rw [← newestRec_upTo l, h, newestRec_upTo]

theorem recsUpTo_walk {n : ℕ} {seen recs now : List Rec} (h : seen.Sublist recs)
    (h' : recs.Sublist now) (hseen : recsUpTo n seen = recsUpTo n now) : recsUpTo n recs = recsUpTo n now := by
  have h₁ : (recsUpTo n seen).Sublist (recsUpTo n recs) := h.filter _
  have h₂ : (recsUpTo n recs).Sublist (recsUpTo n now) := h'.filter _
  rw [hseen] at h₁
  exact h₂.antisymm h₁

/-! ### Invariants -/

/-- What a finished read returned. -/
def ReadOk (s : Shared ι) : Read → Prop
  | .got key n result => n ≤ s.seqno ∧ result = valueAt s.history key n
  | .ranged start stop n result =>
    n ≤ s.seqno ∧ IsScan (fun k => lastOp s.history k n) start stop result

structure SnapInv (s : Shared ι) : Prop where
  ssts : s.state.ssts = []
  holds : ∀ k n, newestRec (sources s).flatten k n = newestRec s.applied k n
  ascending : Ascending s.history
  bound : ∀ x ∈ s.history, x.1 ≤ s.seqno
  snaps : ∀ n ∈ s.snaps, n ≤ s.seqno
  free : s.lock = none → (records s.history).reverse = s.applied ∧ s.inflight = none
  settled : ∀ n, SettledAt s n → recsUpTo n (records s.history).reverse = recsUpTo n s.applied
  reads : ∀ x ∈ s.reads, ReadOk s x

/-- Commits, rotations by commits and reads. -/
def Pc.serving : Pc → Bool
  | .idle | .commitLock _ | .commitSeqno _ | .commitAppend .. | .commitSync .. | .commitLoad ..
  | .commitApply .. | .rotateLoad (.commit ..) | .rotateStore (.commit ..) _
  | .rotateOpen (.commit ..) | .rotateHeader (.commit ..) | .unlock (.commit ..) | .snapLoad
  | .getLoad .. | .getProbe .. | .getCandidate .. | .rangeLoad .. | .rangeNext ..
  | .rangeWalk .. => true
  | _ => false

/-- The records that have their number and are not inserted yet. -/
def Pc.toInsert : Pc → List Rec
  | .commitAppend b q | .commitSync b q | .commitLoad b q => b.map (Op.toRec q)
  | .commitApply _ q _ rest => rest.map (Op.toRec q)
  | _ => []

def Pc.inflight : Pc → Option ℕ
  | .commitAppend _ q | .commitSync _ q | .commitLoad _ q => some q
  | .commitApply _ q _ rest => pending q rest
  | _ => none

def Pc.loaded : Pc → Option EngineState
  | .rotateStore _ prev => some prev
  | _ => none

/-- The sources a reader has still to look at, with what it took from the others,
hold what the history holds up to its snapshot. -/
def Pc.Reading (s : Shared ι) : Pc → Prop
  | .getLoad _ n => n ≤ s.seqno
  | .getProbe k n mems ssts => n ≤ s.seqno ∧ SettledAt s n ∧ ssts = [] ∧
    mems.findSome? (fun m => newestRec (s.mem m) k n) = newestRec (records s.history).reverse k n
  | .getCandidate k n cur m mems ssts => n ≤ s.seqno ∧ SettledAt s n ∧ ssts = [] ∧
    (newestRec (s.mem m) k n ≠ none → cur = walkEnd (s.mem m) k n) ∧
    (m :: mems).findSome? (fun m => newestRec (s.mem m) k n) =
      newestRec (records s.history).reverse k n
  | .rangeLoad scan => scan.snapshot ≤ s.seqno
  | .rangeNext scan mems ssts got => scan.snapshot ≤ s.seqno ∧ SettledAt s scan.snapshot ∧
    ssts = [] ∧ (∀ l ∈ got, SortedRecs l) ∧
    ∀ k, newestRec (got ++ mems.map s.mem).flatten k scan.snapshot =
      newestRec (records s.history).reverse k scan.snapshot
  | .rangeWalk scan m seen mems ssts got => scan.snapshot ≤ s.seqno ∧
    SettledAt s scan.snapshot ∧ ssts = [] ∧ (∀ l ∈ got, SortedRecs l) ∧
    recsUpTo scan.snapshot seen = recsUpTo scan.snapshot (s.mem m) ∧
    ∀ k, newestRec (got ++ s.mem m :: mems.map s.mem).flatten k scan.snapshot =
      newestRec (records s.history).reverse k scan.snapshot
  | _ => True

structure SnapLocal (s : Shared ι) (pc : Pc) : Prop where
  serving : pc.serving = true
  pending : pc.holds = true →
    (records s.history).reverse = pc.toInsert.reverse ++ s.applied ∧ s.inflight = pc.inflight
  committing : ∀ q ∈ pc.committing, q = s.seqno ∧ ∀ l ∈ olderSources s, ∀ r ∈ l, r.seqno < q
  loaded : ∀ prev ∈ pc.loaded, prev = s.state
  reading : pc.Reading s

/-- What a reader with something to load relies on: it is still where its walk ends. -/
def Pc.Stands (s s' : Shared ι) : Pc → Prop
  | .getCandidate k n cur m _ _ => newestRec (s.mem m) k n ≠ none →
    cur = walkEnd (s.mem m) k n → cur = walkEnd (s'.mem m) k n
  | _ => True

theorem Pc.Stands.of_mem (h : s'.mem = s.mem) : pc.Stands s s' := by
  cases pc with
  | getCandidate k n cur m mems ssts =>
    intro _ hcur
    rw [h]
    exact hcur
  | _ => trivial

theorem Pc.Stands.of_insert {target : ℕ} {r : Rec} (hsorted : ∀ m, SortedRecs (s.mem m))
    (hmem : s'.mem = Function.update s.mem target (insertRec r (s.mem target)))
    (h : ¬ pc.Missing s target r) : pc.Stands s s' := by
  cases pc with
  | getCandidate k n cur m mems ssts =>
    intro hsome hcur
    by_cases hm : m = target
    · subst hm
      rw [hmem, Function.update_self, walkEnd_insertRec (hsorted m)]
      · exact hcur
      · intro hr
        by_contra hnone
        push Not at hnone
        rw [← lookup_eq_newestRec (hsorted m)] at hsome
        exact h ⟨rfl, hr, fun p hp => hnone p (hcur ▸ hp), hsome⟩
    · rw [hmem, Function.update_of_ne hm]
      exact hcur
  | _ => trivial

structure SnapRely (u : ι) (s s' : Shared ι) : Prop where
  seqno_le : s.seqno ≤ s'.seqno
  locked : s.lock = some u → s'.seqno = s.seqno ∧ s'.history = s.history ∧
    s'.applied = s.applied ∧ s'.inflight = s.inflight ∧ s'.state = s.state ∧ s'.mem = s.mem
  settled : ∀ n, n ≤ s.seqno → SettledAt s n → SettledAt s' n ∧
    (∀ m, recsUpTo n (s'.mem m) = recsUpTo n (s.mem m)) ∧
    recsUpTo n (records s'.history).reverse = recsUpTo n (records s.history).reverse

theorem recsUpTo_sources {n : ℕ} {got : List (List Rec)} {mems : List ℕ} {mem mem' : ℕ → List Rec}
    (h : ∀ m, recsUpTo n (mem' m) = recsUpTo n (mem m)) :
    recsUpTo n (got ++ mems.map mem').flatten = recsUpTo n (got ++ mems.map mem).flatten := by
  have hmems : recsUpTo n (mems.map mem').flatten = recsUpTo n (mems.map mem).flatten := by
    induction mems with
    | nil => rfl
    | cons m mems ih =>
      simp only [List.map_cons, List.flatten_cons, recsUpTo_append, h, ih]
  simp only [List.flatten_append, recsUpTo_append, hmems]

theorem Pc.Reading.stable (h : pc.Reading s) (hR : SnapRely u s s') (hstands : pc.Stands s s') :
    pc.Reading s' := by
  cases pc with
  | getLoad k n => exact (show n ≤ s.seqno from h).trans hR.seqno_le
  | rangeLoad scan => exact (show scan.snapshot ≤ s.seqno from h).trans hR.seqno_le
  | getProbe k n mems ssts =>
    obtain ⟨hle, hset, hssts, hview⟩ := h
    obtain ⟨hset', hmem, hhist⟩ := hR.settled n hle hset
    refine ⟨hle.trans hR.seqno_le, hset', hssts, ?_⟩
    rw [newestRec_congr hhist, ← hview]
    congr 1
    funext m
    exact newestRec_congr (hmem m) k
  | getCandidate k n cur m mems ssts =>
    obtain ⟨hle, hset, hssts, hcur, hview⟩ := h
    obtain ⟨hset', hmem, hhist⟩ := hR.settled n hle hset
    have hnewest : ∀ m, newestRec (s'.mem m) k n = newestRec (s.mem m) k n :=
      fun m => newestRec_congr (hmem m) k
    refine ⟨hle.trans hR.seqno_le, hset', hssts, ?_, ?_⟩
    · intro hsome
      rw [hnewest] at hsome
      exact hstands hsome (hcur hsome)
    · rw [newestRec_congr hhist, ← hview]
      congr 1
      funext m
      exact hnewest m
  | rangeNext scan mems ssts got =>
    obtain ⟨hle, hset, hssts, hgot, hview⟩ := h
    obtain ⟨hset', hmem, hhist⟩ := hR.settled _ hle hset
    refine ⟨hle.trans hR.seqno_le, hset', hssts, hgot, ?_⟩
    intro k
    rw [newestRec_congr hhist, ← hview k]
    exact newestRec_congr (recsUpTo_sources hmem) k
  | rangeWalk scan m seen mems ssts got =>
    obtain ⟨hle, hset, hssts, hgot, hseen, hview⟩ := h
    obtain ⟨hset', hmem, hhist⟩ := hR.settled _ hle hset
    refine ⟨hle.trans hR.seqno_le, hset', hssts, hgot, hseen.trans (hmem m).symm, ?_⟩
    intro k
    rw [newestRec_congr hhist, ← hview k]
    exact newestRec_congr (@recsUpTo_sources _ _ (m :: mems) _ _ hmem) k
  | _ => trivial

theorem SnapLocal.stable (hI : ThreadInv u s pc) (hL : SnapLocal s pc) (hR : SnapRely u s s')
    (hstands : pc.Stands s s') : SnapLocal s' pc where
  serving := hL.serving
  pending := by
    intro hholds
    obtain ⟨-, hh, ha, hi, -, -⟩ := hR.locked (hI.1.mp hholds)
    rw [hh, ha, hi]
    exact hL.pending hholds
  committing := by
    intro q hq
    have hholds : pc.holds = true := by
      cases pc <;> first | rfl | cases hq
    obtain ⟨hseq, -, -, -, hst, hmem⟩ := hR.locked (hI.1.mp hholds)
    have holder : olderSources s' = olderSources s := by
      simp only [olderSources, hst, hmem]
    rw [hseq, holder]
    exact hL.committing q hq
  loaded := by
    intro prev hprev
    have hholds : pc.holds = true := by
      cases pc <;> first | rfl | cases hprev
    obtain ⟨-, -, -, -, hst, -⟩ := hR.locked (hI.1.mp hholds)
    rw [hst]
    exact hL.loaded prev hprev
  reading := hL.reading.stable hR hstands

/-! ### Steps that leave the data alone -/

theorem SnapLocal.outside (hs : pc.serving = true) (hh : pc.holds = false)
    (hc : pc.committing = none) (hl : pc.loaded = none) (hr : pc.Reading s) : SnapLocal s pc :=
  ⟨hs, by simp [hh], by simp [hc], by simp [hl], hr⟩

theorem SnapLocal.inside (hs : pc.serving = true)
    (hp : (records s.history).reverse = s.applied ∧ s.inflight = none) (hi : pc.toInsert = [])
    (hf : pc.inflight = none) (hc : pc.committing = none) (hl : ∀ prev ∈ pc.loaded, prev = s.state)
    (hr : pc.Reading s) : SnapLocal s pc :=
  ⟨hs, by simpa [hi, hf] using fun _ => hp, by simp [hc], hl, hr⟩

/-- What a step has to establish here. -/
def SnapOk (t : ι) (s s' : Shared ι) (pc' : Pc) : Prop :=
  OrderInv s' ∧ SnapInv s' ∧ SnapLocal s' pc' ∧ ∀ u, u ≠ t → SnapRely u s s'

structure Same (s s' : Shared ι) : Prop extends Quiet s s' where
  history : s'.history = s.history
  applied : s'.applied = s.applied
  inflight : s'.inflight = s.inflight

theorem Same.settledAt (h : Same s s') {n : ℕ} : SettledAt s' n ↔ SettledAt s n := by
  unfold SettledAt
  rw [h.inflight]

theorem Same.rely (h : Same s s') (u : ι) : SnapRely u s s' where
  seqno_le := h.seqno.ge
  locked _ := ⟨h.seqno, h.history, h.applied, h.inflight, h.state, h.mem⟩
  settled n _ hset := ⟨h.settledAt.mpr hset, fun m => by rw [h.mem], by rw [h.history]⟩

theorem Same.readOk (h : Same s s') {x : Read} (hx : ReadOk s x) : ReadOk s' x := by
  cases x <;> simpa only [ReadOk, h.seqno, h.history] using hx

theorem Same.snapLocal (h : Same s s') (t : ι) (hL : SnapLocal s pc) : SnapLocal s' pc where
  serving := hL.serving
  pending := by
    rw [h.history, h.applied, h.inflight]
    exact hL.pending
  committing := by
    rw [h.seqno, h.older]
    exact hL.committing
  loaded := by
    rw [h.state]
    exact hL.loaded
  reading := hL.reading.stable (h.rely t) (.of_mem h.mem)

theorem SnapOk.same (hO : OrderInv s) (hS : SnapInv s) (h : Same s s')
    (hfree : s'.lock = none → (records s.history).reverse = s.applied ∧ s.inflight = none)
    (hsnaps : ∀ n ∈ s'.snaps, n ≤ s.seqno) (hreads : ∀ x ∈ s'.reads, ReadOk s x)
    (hL : SnapLocal s pc') : SnapOk t s s' pc' := by
  refine ⟨hO.quiet h.toQuiet, ⟨?_, ?_, ?_, ?_, ?_, ?_, ?_, ?_⟩, h.snapLocal t hL,
    fun u _ => h.rely u⟩
  · rw [h.state]; exact hS.ssts
  · rw [h.sources, h.applied]; exact hS.holds
  · rw [h.history]; exact hS.ascending
  · rw [h.history, h.seqno]; exact hS.bound
  · rw [h.seqno]; exact hsnaps
  · rw [h.history, h.applied, h.inflight]; exact hfree
  · intro n hn
    rw [h.history, h.applied]
    exact hS.settled n (h.settledAt.mp hn)
  · intro x hx
    exact h.readOk (hreads x hx)

theorem SnapOk.stay (hO : OrderInv s) (hS : SnapInv s) (hL : SnapLocal s pc') :
    SnapOk t s s pc' :=
  .same hO hS ⟨⟨rfl, rfl, rfl⟩, rfl, rfl, rfl⟩ hS.free hS.snaps hS.reads hL

theorem SnapOk.acquired (hO : OrderInv s) (hS : SnapInv s)
    (h : acquire t s pc = some (s', pc')) (hL : s.lock = none → SnapLocal s pc) :
    SnapOk t s s' pc' := by
  unfold acquire at h
  split at h
  · rename_i hfree
    cases h
    have hnone : s.lock = none := by simpa using hfree
    exact .same hO hS ⟨⟨rfl, rfl, rfl⟩, rfl, rfl, rfl⟩ (fun hl => by cases hl) hS.snaps hS.reads
      (hL hnone)
  · cases h

/-! ### Commits -/

theorem recsUpTo_records_append {n q : ℕ} (h : n < q) (history : History) (b : WriteBatch) :
    recsUpTo n (records (history ++ [(q, b)])).reverse =
      recsUpTo n (records history).reverse := by
  have hnil : recsUpTo n (b.map (Op.toRec q)).reverse = [] := by
    apply recsUpTo_eq_nil
    intro r hr
    obtain ⟨op, -, rfl⟩ := List.mem_map.mp (List.mem_reverse.mp hr)
    rw [toRec_seqno]
    exact h
  rw [records_append, records_singleton, List.reverse_append, recsUpTo_append, hnil,
    List.nil_append]

theorem lastOp_append {n q : ℕ} (h : n < q) (history : History) (b : WriteBatch) (k : Key) :
    lastOp (history ++ [(q, b)]) k n = lastOp history k n := by
  have hup : History.upTo (history ++ [(q, b)]) n = History.upTo history n := by
    unfold History.upTo
    rw [List.filter_append, List.filter_cons_of_neg (by simpa using h)]
    simp
  unfold lastOp
  rw [hup]

theorem SnapOk.numbered (hO : OrderInv s) (hS : SnapInv s) (hlock : s.lock = some t)
    {b : WriteBatch} (hL : SnapLocal s (.commitSeqno b)) :
    SnapOk t s { s with
      seqno := s.seqno + 1, history := s.history ++ [(s.seqno + 1, b)],
      inflight := some (s.seqno + 1) } (.commitAppend b (s.seqno + 1)) := by
  obtain ⟨happ, -⟩ := hL.pending rfl
  obtain ⟨hO', hL', -⟩ := @OrderOk.numbered _ t s hO hlock (s.history ++ [(s.seqno + 1, b)])
    (some (s.seqno + 1)) b
  have hlt : ∀ {n}, n ≤ s.seqno → n < s.seqno + 1 := Nat.lt_succ_of_le
  refine ⟨hO', ⟨hS.ssts, hS.holds, ?_, ?_, ?_, ?_, ?_, ?_⟩, ⟨rfl, ?_, hL'.committing, ?_, trivial⟩,
    ?_⟩
  · refine List.pairwise_append.mpr ⟨hS.ascending, List.pairwise_singleton _ _, ?_⟩
    intro x hx y hy
    obtain rfl : y = (s.seqno + 1, b) := by simpa using hy
    exact (hlt (hS.bound x hx)).le
  · intro x hx
    rcases List.mem_append.mp hx with hx | hx
    · exact (hlt (hS.bound x hx)).le
    · obtain rfl : x = (s.seqno + 1, b) := by simpa using hx
      exact le_rfl
  · intro n hn
    exact (hlt (hS.snaps n hn)).le
  · intro hnone
    cases hlock.symm.trans hnone
  · intro n hn
    rw [recsUpTo_records_append (hn _ rfl), happ]
    rfl
  · intro x hx
    have hok := hS.reads x hx
    cases x with
    | got k n result =>
      refine ⟨(hlt hok.1).le, ?_⟩
      rw [valueAt, lastOp_append (hlt hok.1)]
      exact hok.2
    | ranged start stop n result =>
      refine ⟨(hlt hok.1).le, ?_⟩
      simp only [lastOp_append (hlt hok.1)]
      exact hok.2
  · intro _
    refine ⟨?_, rfl⟩
    rw [records_append, records_singleton, List.reverse_append, happ]
    rfl
  · intro prev hprev
    cases hprev
  · intro u hu
    refine ⟨Nat.le_succ _, fun h => ?_, fun n hn _ => ⟨?_, fun _ => rfl, recsUpTo_records_append (hlt hn) ..⟩⟩
    · rw [hlock] at h
      exact absurd (Option.some.inj h).symm hu
    · rintro q ⟨⟩
      exact hlt hn

theorem settled_of_pending {history : History} {applied : List Rec} {q n : ℕ} {rest : List Op}
    (h : (records history).reverse = (rest.map (Op.toRec q)).reverse ++ applied)
    (hn : ∀ q' ∈ pending q rest, n < q') :
    recsUpTo n (records history).reverse = recsUpTo n applied := by
  rw [h, recsUpTo_append]
  cases rest with
  | nil => rfl
  | cons op rest =>
    have hnil : recsUpTo n ((op :: rest).map (Op.toRec q)).reverse = [] := by
      apply recsUpTo_eq_nil
      intro r hr
      obtain ⟨o, -, rfl⟩ := List.mem_map.mp (List.mem_reverse.mp hr)
      rw [toRec_seqno]
      exact hn q rfl
    rw [hnil, List.nil_append]

theorem pending_le {q n : ℕ} (rest : List Op) (h : n < q) : ∀ q' ∈ pending q rest, n < q' := by
  intro q' hq'
  unfold pending at hq'
  split at hq'
  · cases hq'
  · cases hq'
    exact h

theorem SnapOk.loaded (hO : OrderInv s) (hS : SnapInv s) (hlock : s.lock = some t)
    {b : WriteBatch} {q target : ℕ} (hL : SnapLocal s (.commitLoad b q)) :
    SnapOk t s { s with inflight := pending q b } (.commitApply b q target b) := by
  obtain ⟨happ, hin⟩ := hL.pending rfl
  refine ⟨hO.quiet ⟨rfl, rfl, rfl⟩, ⟨hS.ssts, hS.holds, hS.ascending, hS.bound, hS.snaps, ?_, ?_,
    hS.reads⟩, ⟨rfl, fun _ => ⟨happ, rfl⟩, hL.committing, hL.loaded, trivial⟩, ?_⟩
  · intro hnone
    cases hlock.symm.trans hnone
  · intro n hn
    exact settled_of_pending happ hn
  · intro u hu
    refine ⟨le_rfl, fun h => ?_, fun n _ hset => ⟨?_, fun _ => rfl, rfl⟩⟩
    · rw [hlock] at h
      exact absurd (Option.some.inj h).symm hu
    · exact pending_le b (hset q (by rw [hin]; rfl))

theorem SnapOk.inserted (hG : SharedInv s) (hO : OrderInv s) (hS : SnapInv s)
    (hlock : s.lock = some t) {b : WriteBatch} {q : ℕ} {op : Op} {rest : List Op}
    (hL : SnapLocal s (.commitApply b q s.state.active (op :: rest))) :
    SnapOk t s { s.insert s.state.active (op.toRec q) with inflight := pending q rest }
      (.commitApply b q s.state.active rest) := by
  obtain ⟨happ, hin⟩ := hL.pending rfl
  obtain ⟨rfl, hold⟩ := hL.committing q rfl
  have hlocal : OrderLocal s (.commitApply b s.seqno s.state.active rest) :=
    ⟨rfl, hL.committing, fun im him => by cases him⟩
  obtain ⟨hO', hL', -⟩ := @OrderOk.inserted _ t s _ hG hO hlock (op.toRec s.seqno)
    (pending s.seqno rest) hlocal (toRec_seqno ..) hold
  have happ' : (records s.history).reverse =
      (rest.map (Op.toRec s.seqno)).reverse ++ op.toRec s.seqno :: s.applied := by
    rw [happ]
    simp [Pc.toInsert]
  refine ⟨hO', ⟨hS.ssts, ?_, hS.ascending, hS.bound, hS.snaps, ?_, ?_, hS.reads⟩,
    ⟨rfl, fun _ => ⟨happ', rfl⟩, hL'.committing, hL.loaded, trivial⟩, ?_⟩
  · intro k n
    have hflat := hS.holds k n
    rw [sources, List.flatten_cons, newestRec_append] at hflat
    show _ = newestRec (op.toRec s.seqno :: s.applied) k n
    rw [sources_insert hG, List.flatten_cons, newestRec_append, newestRec_insertRec,
      ← List.singleton_append, newestRec_append, newer_assoc, hflat, ← newestRec_append]
    rfl
  · intro hnone
    cases hlock.symm.trans hnone
  · intro n hn
    exact settled_of_pending happ' hn
  · intro u hu
    refine ⟨le_rfl, fun h => ?_, fun n _ hset => ?_⟩
    · rw [hlock] at h
      exact absurd (Option.some.inj h).symm hu
    · have hlt : n < s.seqno := hset _ (by rw [hin]; rfl)
      refine ⟨pending_le rest hlt, ?_, rfl⟩
      intro m
      show recsUpTo n (Function.update s.mem _ _ m) = _
      by_cases hm : m = s.state.active
      · rw [hm, Function.update_self, recsUpTo_insertRec]
        rw [toRec_seqno]
        exact hlt
      · rw [Function.update_of_ne hm]

theorem SnapOk.rotated (hG : SharedInv s) (hO : OrderInv s) (hS : SnapInv s)
    (hlock : s.lock = some t) {b : WriteBatch} {q : ℕ} {prev : EngineState}
    (hL : SnapLocal s (.rotateStore (.commit b q) prev)) :
    SnapOk t s (s.rotate prev) (.rotateOpen (.commit b q)) := by
  obtain rfl : prev = s.state := hL.loaded prev rfl
  have hO' := (@OrderOk.rotated _ t s (.rotateOpen (.commit b q)) hG hO hlock
    fun _ => .of_none rfl rfl rfl).1
  refine ⟨hO', ⟨hS.ssts, ?_, hS.ascending, hS.bound, hS.snaps, hS.free, hS.settled, hS.reads⟩,
    .inside rfl (hL.pending rfl) rfl rfl rfl (by simp [Pc.loaded]) trivial, ?_⟩
  · intro k n
    rw [sources_rotate hG]
    exact hS.holds k n
  · intro u hu
    refine ⟨le_rfl, fun h => ?_, fun n _ hset => ⟨hset, fun _ => rfl, rfl⟩⟩
    rw [hlock] at h
    exact absurd (Option.some.inj h).symm hu

/-! ### Reads -/

theorem SnapInv.view (hS : SnapInv s) {n : ℕ} (hn : SettledAt s n) (k : Key) :
    newestRec (sources s).flatten k n = newestRec (records s.history).reverse k n := by
  rw [hS.holds]
  exact (newestRec_congr (hS.settled n hn) k).symm

theorem sources_of_no_ssts (h : s.state.ssts = []) :
    sources s = (s.state.active :: s.state.imms.map Imm.mem).map s.mem := by
  simp [sources, olderSources, h, Function.comp_def]

theorem reading_getLoad (hO : OrderInv s) (hS : SnapInv s) {k : Key} {n : ℕ} (hle : n ≤ s.seqno)
    (hn : SettledAt s n) :
    (Pc.getProbe k n (s.state.active :: s.state.imms.map Imm.mem) s.state.ssts).Reading s := by
  refine ⟨hle, hn, hS.ssts, ?_⟩
  have hfirst := firstHit_newest hO.sources_sorted hO.separated k n
  rw [hS.view hn] at hfirst
  rw [← hfirst, firstHit, sources_of_no_ssts hS.ssts, List.findSome?_map]
  congr 1
  funext m
  exact (lookup_eq_newestRec (hO.mem_sorted m) k n).symm

theorem reading_rangeLoad (hS : SnapInv s) {scan : Scan} (hle : scan.snapshot ≤ s.seqno)
    (hn : SettledAt s scan.snapshot) :
    (Pc.rangeNext scan (s.state.active :: s.state.imms.map Imm.mem) s.state.ssts []).Reading s := by
  refine ⟨hle, hn, hS.ssts, by simp, ?_⟩
  intro k
  rw [List.nil_append, ← sources_of_no_ssts hS.ssts]
  exact hS.view hn k

theorem readOk_got (hS : SnapInv s) {k : Key} {n : ℕ} {hit : Option Rec} (hle : n ≤ s.seqno)
    (h : newestRec (records s.history).reverse k n = hit) :
    ReadOk s (.got k n (hit.bind hitValue)) := by
  refine ⟨hle, ?_⟩
  rw [valueAt, lastOp_eq hS.ascending, h]

theorem readOk_ranged (hS : SnapInv s) {scan : Scan} {got : List (List Rec)}
    {out : List RangeRecord} (hle : scan.snapshot ≤ s.seqno) (hgot : ∀ l ∈ got, SortedRecs l)
    (hview : ∀ k, newestRec got.flatten k scan.snapshot =
      newestRec (records s.history).reverse k scan.snapshot)
    (hout : scanResult scan got = some out) :
    ReadOk s (.ranged scan.start scan.stop scan.snapshot out) := by
  obtain ⟨out', it', hcol, hscan⟩ := collectRecords_isScan hgot scan.start scan.stop scan.snapshot
    (Nat.lt_succ_of_le (length_sources_le scan.start scan.stop hgot))
  have heq : out' = out := by
    simp only [scanResult, hcol] at hout
    exact Option.some.inj hout
  refine ⟨hle, ?_⟩
  have hfun : (fun k => lastOp s.history k scan.snapshot) =
      fun k => newestRec got.flatten k scan.snapshot := by
    funext k
    rw [lastOp_eq hS.ascending, hview]
  rw [hfun, ← heq]
  exact hscan

theorem SnapOk.finished (hO : OrderInv s) (hS : SnapInv s) {x : Read} (hx : ReadOk s x)
    (hL : SnapLocal s .idle) : SnapOk t s { s with reads := x :: s.reads } .idle := by
  refine .same hO hS ⟨⟨rfl, rfl, rfl⟩, rfl, rfl, rfl⟩ hS.free hS.snaps ?_ hL
  intro y hy
  rcases List.mem_cons.mp hy with rfl | hy
  · exact hx
  · exact hS.reads y hy

theorem snap_begin {c : Call} (hserves : (Choice.call c).Serves) (hO : OrderInv s) (hS : SnapInv s)
    (h : begin s c = some (s', pc')) : SnapOk t s s' pc' := by
  cases c with
  | commit b =>
    cases h
    exact .stay hO hS (.outside rfl rfl rfl rfl trivial)
  | snapshot =>
    cases h
    exact .stay hO hS (.outside rfl rfl rfl rfl trivial)
  | getAt key n =>
    simp only [begin] at h
    split at h
    · rename_i hn
      cases h
      exact .stay hO hS (.outside rfl rfl rfl rfl (hS.snaps n hn))
    · cases h
  | range start stop n =>
    simp only [begin] at h
    split at h
    · rename_i hn
      cases h
      exact .stay hO hS (.outside rfl rfl rfl rfl (hS.snaps n hn))
    · cases h
  | flush => exact hserves.elim
  | compact => exact hserves.elim

theorem snap_commit {threshold : ℕ} {b : WriteBatch} {q target : ℕ} {rest : List Op}
    (hG : SharedInv s) (hO : OrderInv s) (hS : SnapInv s)
    (hI : ThreadInv t s (.commitApply b q target rest))
    (hL : SnapLocal s (.commitApply b q target rest))
    (h : act threshold t s (.commitApply b q target rest) .go = some (s', pc')) :
    SnapOk t s s' pc' := by
  obtain ⟨hlock, rfl, -⟩ := hI
  cases rest with
  | cons op rest =>
    cases h
    exact .inserted hG hO hS (hlock.mp rfl) hL
  | nil =>
    simp only [act] at h
    cases h
    refine .same hO hS ⟨⟨rfl, rfl, rfl⟩, rfl, rfl, rfl⟩ hS.free hS.snaps hS.reads ?_
    have hp := hL.pending rfl
    split <;> exact .inside rfl hp rfl rfl rfl (by simp [Pc.loaded]) trivial

theorem snap_probe {threshold n : ℕ} {k : Key} {mems : List ℕ} {ssts : List Sst} (hO : OrderInv s)
    (hS : SnapInv s) (hL : SnapLocal s (.getProbe k n mems ssts))
    (h : act threshold t s (.getProbe k n mems ssts) .go = some (s', pc')) :
    SnapOk t s s' pc' := by
  obtain ⟨hle, hset, rfl, hview⟩ := hL.reading
  have hidle : SnapLocal s .idle := .outside rfl rfl rfl rfl trivial
  cases mems with
  | nil =>
    cases h
    exact .finished hO hS (readOk_got hS hle hview.symm) hidle
  | cons m mems =>
    cases h
    exact .stay hO hS (.outside rfl rfl rfl rfl ⟨hle, hset, rfl, fun _ => rfl, hview⟩)

theorem snap_candidate {threshold n m : ℕ} {k : Key} {cur : Option Rec} {mems : List ℕ}
    {ssts : List Sst} (hO : OrderInv s) (hS : SnapInv s)
    (hL : SnapLocal s (.getCandidate k n cur m mems ssts))
    (h : act threshold t s (.getCandidate k n cur m mems ssts) .go = some (s', pc')) :
    SnapOk t s s' pc' := by
  obtain ⟨hle, hset, rfl, hcur, hview⟩ := hL.reading
  have hsorted := hO.mem_sorted m
  have hcand : (following (s.mem m) cur).filter (fun r => r.Visible k n) =
      newestRec (s.mem m) k n := by
    rw [← lookup_eq_newestRec hsorted]
    cases hnone : lookup (s.mem m) k n with
    | none => exact candidate_none hnone cur
    | some r =>
      rw [lookup_eq_newestRec hsorted] at hnone
      rw [hcur (by simp [hnone]), candidate_eq hsorted, lookup_eq_newestRec hsorted, hnone]
  simp only [act, hcand] at h
  rw [List.findSome?_cons] at hview
  split at h
  · rename_i r hr
    cases h
    rw [hr] at hview
    exact .finished hO hS (readOk_got hS hle hview.symm) (.outside rfl rfl rfl rfl trivial)
  · rename_i hr
    cases h
    rw [hr] at hview
    exact .stay hO hS (.outside rfl rfl rfl rfl ⟨hle, hset, rfl, hview⟩)

theorem snap_range {threshold : ℕ} {scan : Scan} {mems : List ℕ} {ssts : List Sst}
    {got : List (List Rec)} (hO : OrderInv s) (hS : SnapInv s)
    (hL : SnapLocal s (.rangeNext scan mems ssts got))
    (h : act threshold t s (.rangeNext scan mems ssts got) .go = some (s', pc')) :
    SnapOk t s s' pc' := by
  obtain ⟨hle, hset, rfl, hgot, hview⟩ := hL.reading
  cases mems with
  | nil =>
    obtain ⟨out, hout, heq⟩ := Option.map_eq_some_iff.mp h
    cases heq
    rw [List.map_nil, List.append_nil] at hview hout
    exact .finished hO hS (readOk_ranged hS hle hgot hview hout)
      (.outside rfl rfl rfl rfl trivial)
  | cons m mems =>
    cases h
    exact .stay hO hS (.outside rfl rfl rfl rfl ⟨hle, hset, rfl, hgot, rfl, hview⟩)

theorem snap_walk {threshold m : ℕ} {scan : Scan} {seen recs : List Rec} {mems : List ℕ}
    {ssts : List Sst} {got : List (List Rec)} (hO : OrderInv s) (hS : SnapInv s)
    (hL : SnapLocal s (.rangeWalk scan m seen mems ssts got))
    (h : act threshold t s (.rangeWalk scan m seen mems ssts got) (.met recs) = some (s', pc')) :
    SnapOk t s s' pc' := by
  obtain ⟨hle, hset, rfl, hgot, hseen, hview⟩ := hL.reading
  simp only [act] at h
  split at h
  · rename_i hrecs
    cases h
    refine .stay hO hS (.outside rfl rfl rfl rfl ⟨hle, hset, rfl, ?_, ?_⟩)
    · intro l hl
      rcases List.mem_append.mp hl with hl | hl
      · exact hgot l hl
      · obtain rfl : l = recs := by simpa using hl
        exact (hO.mem_sorted m).sublist hrecs.2
    · intro k
      rw [← hview k]
      apply newestRec_congr
      have hwalk := recsUpTo_walk hrecs.1 hrecs.2 hseen
      simp only [List.flatten_append, List.flatten_cons, List.flatten_nil, List.append_nil,
        recsUpTo_append, hwalk, List.append_assoc]
  · cases h

theorem act_snap {threshold : ℕ} {a : Choice} (hG : SharedInv s) (hO : OrderInv s)
    (hS : SnapInv s) (hI : ThreadInv t s pc) (hL : SnapLocal s pc) (hserves : a.Serves)
    (hset : pc.Settled s) (h : act threshold t s pc a = some (s', pc')) : SnapOk t s s' pc' := by
  cases pc with
  | idle =>
    cases a with
    | call c => exact snap_begin hserves hO hS h
    | _ => cases h
  | commitLock b =>
    cases a with
    | go =>
      refine .acquired hO hS h fun hnone => ?_
      exact .inside rfl (hS.free hnone) rfl rfl rfl (by simp [Pc.loaded]) trivial
    | _ => cases h
  | commitSeqno b =>
    cases a with
    | go =>
      cases h
      exact .numbered hO hS (hI.1.mp rfl) hL
    | _ => cases h
  | commitAppend b q =>
    cases a with
    | go =>
      simp only [act] at h
      split at h
      · cases h
        exact .stay hO hS ⟨rfl, hL.pending, hL.committing, hL.loaded, trivial⟩
      · cases h
    | _ => cases h
  | commitSync b q =>
    cases a with
    | go =>
      cases h
      exact .stay hO hS ⟨rfl, hL.pending, hL.committing, hL.loaded, trivial⟩
    | _ => cases h
  | commitLoad b q =>
    cases a with
    | go =>
      cases h
      exact .loaded hO hS (hI.1.mp rfl) hL
    | _ => cases h
  | commitApply b q target rest =>
    cases a with
    | go => exact snap_commit hG hO hS hI hL h
    | _ => cases rest <;> cases h
  | snapLoad =>
    cases a with
    | go =>
      cases h
      refine .same hO hS ⟨⟨rfl, rfl, rfl⟩, rfl, rfl, rfl⟩ hS.free ?_ hS.reads
        (.outside rfl rfl rfl rfl trivial)
      intro n hn
      rcases List.mem_cons.mp hn with rfl | hn
      · exact le_rfl
      · exact hS.snaps n hn
    | _ => cases h
  | getLoad k n =>
    cases a with
    | go =>
      cases h
      exact .stay hO hS (.outside rfl rfl rfl rfl (reading_getLoad hO hS hL.reading hset))
    | _ => cases h
  | getProbe k n mems ssts =>
    cases a with
    | go => exact snap_probe hO hS hL h
    | _ => simp [act] at h
  | getCandidate k n cur m mems ssts =>
    cases a with
    | go => exact snap_candidate hO hS hL h
    | _ => cases h
  | rangeLoad scan =>
    cases a with
    | go =>
      cases h
      exact .stay hO hS (.outside rfl rfl rfl rfl (reading_rangeLoad hS hL.reading hset))
    | _ => cases h
  | rangeNext scan mems ssts got =>
    cases a with
    | go => exact snap_range hO hS hL h
    | _ => cases mems <;> cases h
  | rangeWalk scan m seen mems ssts got =>
    cases a with
    | met recs => exact snap_walk hO hS hL h
    | _ => cases h
  | rotateLoad k =>
    cases k with
    | flush => cases hL.serving
    | commit b q =>
      cases a with
      | go =>
        cases h
        exact .stay hO hS
          (.inside rfl (hL.pending rfl) rfl rfl rfl (by simp [Pc.loaded]) trivial)
      | _ => cases h
  | rotateStore k prev =>
    cases k with
    | flush => cases hL.serving
    | commit b q =>
      cases a with
      | go =>
        cases h
        exact .rotated hG hO hS (hI.1.mp rfl) hL
      | _ => cases h
  | rotateOpen k =>
    cases k with
    | flush => cases hL.serving
    | commit b q =>
      cases a with
      | go =>
        cases h
        exact .stay hO hS
          (.inside rfl (hL.pending rfl) rfl rfl rfl (by simp [Pc.loaded]) trivial)
      | _ => cases h
  | rotateHeader k =>
    cases k with
    | flush => cases hL.serving
    | commit b q =>
      cases a with
      | go =>
        cases h
        exact .stay hO hS
          (.inside rfl (hL.pending rfl) rfl rfl rfl (by simp [Pc.loaded]) trivial)
      | _ => cases h
  | unlock k =>
    cases k with
    | flush => cases hL.serving
    | commit b q =>
      cases a with
      | go =>
        cases h
        exact .same hO hS ⟨⟨rfl, rfl, rfl⟩, rfl, rfl, rfl⟩ (fun _ => hL.pending rfl) hS.snaps
          hS.reads (.outside rfl rfl rfl rfl trivial)
      | _ => cases h
  | _ => cases hL.serving

/-! ### Results -/

theorem init_snap : SnapInv (Shared.init : Shared ι) where
  ssts := rfl
  holds _ _ := rfl
  ascending := .nil
  bound x hx := by cases hx
  snaps n hn := by cases hn
  free _ := ⟨rfl, rfl⟩
  settled _ _ := rfl
  reads x hx := by cases hx

theorem init_snapLocal : SnapLocal (Shared.init : Shared ι) .idle :=
  .outside rfl rfl rfl rfl trivial

theorem settled_inv [DecidableEq ι] {threshold : ℕ} {c : Sys ι}
    (h : Reach (step threshold) Settled Sys.init c) : SnapInv c.shared := by
  have hinv := Threads.rely_guarantee (G := fun s => SharedInv s ∧ OrderInv s ∧ SnapInv s)
    (I := fun t s pc => ThreadInv t s pc ∧ SnapLocal s pc)
    (R := fun t pc s s' => Rely t s s' ∧ SnapRely t s s' ∧ pc.Stands s s')
    ⟨init_inv, init_order, init_snap⟩
    (fun t => ⟨init_threadInv t, init_snapLocal⟩) ?_ ?_ h
  · exact hinv.1.2.2
  · intro c t a s' pc' hG hI hok hact
    have hkeep : (c.pc t).KeepsActive c.shared := by
      have hserving := (hI t).2.serving
      cases hpc : c.pc t <;> rw [hpc] at hserving <;> trivial
    obtain ⟨hG', hI', hR⟩ := act_inv hG.1 (hI t).1 hkeep hact
    obtain ⟨hO', hS', hL', hRS⟩ :=
      act_snap hG.1 hG.2.1 hG.2.2 (hI t).1 (hI t).2 hok.1 hok.2.1 hact
    have hstands : ∀ u, (c.pc u).Stands c.shared s' := by
      intro u
      rcases act_mem hact with hmem | ⟨target, r, hins, hmem⟩
      · exact .of_mem hmem
      · exact .of_insert hG.2.1.mem_sorted hmem (hok.2.2 _ hins u)
    exact ⟨⟨hG', hO', hS'⟩, ⟨hI', hL'⟩, fun u hu => ⟨hR u hu, hRS u hu, hstands u⟩⟩
  · intro u s s' pc _ hI hR
    exact ⟨hI.1.stable hR.1, hI.2.stable hI.1 hR.2.1 hR.2.2⟩

instance (a : Choice) : Decidable a.Serves := by
  cases a with
  | call c => cases c <;> first | exact instDecidableTrue | exact instDecidableFalse
  | _ => exact instDecidableTrue

instance (s : Shared ι) (snapshot : ℕ) : Decidable (SettledAt s snapshot) :=
  inferInstanceAs (Decidable (∀ q ∈ s.inflight, _))

instance (s : Shared ι) (pc : Pc) : Decidable (pc.Settled s) := by
  induction pc using Pc.casesOn with
  | getLoad key snapshot => exact instDecidableSettledAt s snapshot
  | rangeLoad scan => exact instDecidableSettledAt s scan.snapshot
  | _ => exact instDecidableTrue

instance (s : Shared ι) (target : ℕ) (r : Rec) (pc : Pc) : Decidable (pc.Missing s target r) := by
  induction pc using Pc.casesOn with
  | getCandidate key snapshot cur m mems ssts => exact instDecidableAnd
  | _ => exact instDecidableFalse

instance [Fintype ι] (c : Sys ι) (x : ι × Choice) : Decidable (Settled c x) :=
  inferInstanceAs (Decidable (_ ∧ _))

/-- A commit of two puts up to the load of the engine state. -/
def twoPuts : List (Thread × Choice) :=
  (.writer, .call (.commit [.put [1] [1], .put [2] [2]])) :: times 5 .writer

def takeSnapshot : List (Thread × Choice) := (.first, .call .snapshot) :: times 1 .first

/-- A lookup of `k` at snapshot `1`, in two steps when it is found. -/
def lookUp (k : Byte) (steps : ℕ) : List (Thread × Choice) :=
  (.first, .call (.getAt [k] 1)) :: times (steps + 1) .first

/-- Had it inserted both, the reader would have missed the version it was to find. -/
example : (run (step 1000) (Sys.init : Sys Thread)
    (twoPuts ++ times 4 .writer ++ takeSnapshot ++ lookUp 2 1 ++ twoPuts ++ times 2 .writer ++
      times 2 .first)).map (fun c => c.shared.reads) = some [.got [2] 1 none] := by
  decide +kernel

end PaddockKV.Concurrent
