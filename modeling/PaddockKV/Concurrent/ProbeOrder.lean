import PaddockKV.Concurrent.NoLoss

/-!
# Newest-first probing under concurrent maintenance

`get_at` probes the active memtable, the immutable memtables and the SSTables in
order and stops at the first hit. Here every publish of an engine state is one
step (`publishStep`). A flush that publishes while its memtable is still queued
and its file number is above the live ones, and a compaction that publishes
while the live tables are still its inputs, keep the sources separated: every
sequence number of an earlier source is above every one of a later source. A
compaction that publishes after a flush puts old versions in front.
-/

namespace PaddockKV.Concurrent

open Wal Transition Newest

variable {ι : Type} {t u : ι} {s s' : Shared ι} {pc pc' : Pc}

/-! ### Atomic publishes -/

/-- A store of an engine state is pending. -/
def Pc.stores : Pc → Bool
  | .rotateStore .. | .flushStore .. | .compactStore .. => true
  | _ => false

/-- A step of `t`, with the load and the store of a publish taken together. -/
def publishAct (threshold : ℕ) (t : ι) (s : Shared ι) : Pc → Choice → Option (Shared ι × Pc)
  | .rotateLoad k, .go => act threshold t s (.rotateStore k s.state) .go
  | .flushLoad im id recs, .go => act threshold t s (.flushStore im id recs s.state) .go
  | .compactPublish inputs id recs, .go =>
    act threshold t s (.compactStore inputs id recs s.state) .go
  | pc, a => act threshold t s pc a

def publishStep [DecidableEq ι] (threshold : ℕ) : Sys ι → ι × Choice → Option (Sys ι) :=
  Threads.next (publishAct threshold)

/-! ### Probing -/

def olderSources (s : Shared ι) : List (List Rec) :=
  s.state.imms.map (fun x => s.mem x.mem) ++ s.state.ssts.map Sst.recs

def sources (s : Shared ι) : List (List Rec) := s.mem s.state.active :: olderSources s

/-- The SSTables in the order in which `open_with` would list them. -/
def byFileId (ssts : List Sst) : List Sst := ssts.insertionSort fun a b => b.id ≤ a.id

/-- The sources a reopened engine would probe, the memtables aside. -/
def sourcesById (s : Shared ι) : List (List Rec) :=
  s.mem s.state.active ::
    (s.state.imms.map (fun x => s.mem x.mem) ++ (byFileId s.state.ssts).map Sst.recs)

/-- First-hit-wins over `srcs`. -/
def firstHit (srcs : List (List Rec)) (key : Key) (snapshot : ℕ) : Option Rec :=
  srcs.findSome? fun l => lookup l key snapshot

/-- Each source is wholly newer than the ones behind it. -/
def Separated (srcs : List (List Rec)) : Prop :=
  srcs.Pairwise fun a b => ∀ r ∈ a, ∀ r' ∈ b, r'.seqno < r.seqno

theorem firstHit_newest {srcs : List (List Rec)} (hsorted : ∀ l ∈ srcs, SortedRecs l)
    (hsep : Separated srcs) (key : Key) (snapshot : ℕ) :
    firstHit srcs key snapshot = newestRec srcs.flatten key snapshot := by
  have hlookup : firstHit srcs key snapshot =
      srcs.findSome? fun l => newestRec l key snapshot := by
    unfold firstHit
    induction srcs with
    | nil => rfl
    | cons l srcs ih =>
      have hrest := ih (fun x hx => hsorted x (List.mem_cons_of_mem l hx))
        (List.pairwise_cons.mp hsep).2
      rw [List.findSome?_cons, List.findSome?_cons, hrest,
        lookup_eq_newestRec (hsorted l List.mem_cons_self)]
  rw [hlookup]
  refine findSome_newest (hsep.imp ?_)
  intro l l' h a ha x hx _
  exact (h a (newest_mem ha).1 x hx).le

/-! ### Invariants -/

/-- The commit of which the records are being written. -/
def Pc.committing : Pc → Option ℕ
  | .commitAppend _ q | .commitSync _ q | .commitLoad _ q | .commitApply _ q _ _ => some q
  | _ => none

/-- The memtable being flushed. -/
def Pc.flushing : Pc → Option Imm
  | .flushReserve im | .flushNumber im | .flushRelease im _ | .flushOpen im _
  | .flushWalk im _ _ | .flushReader im _ _ | .flushLoad im _ _ => some im
  | _ => none

structure OrderInv (s : Shared ι) : Prop where
  mem_sorted : ∀ id, SortedRecs (s.mem id)
  sst_sorted : ∀ x ∈ s.state.ssts, SortedRecs x.recs
  bound : ∀ l ∈ sources s, ∀ r ∈ l, r.seqno ≤ s.seqno
  separated : Separated (sources s)
  wals : s.state.imms.Pairwise fun x y => y.wal < x.wal
  ids : s.state.ssts.Pairwise fun x y => y.id < x.id

structure OrderLocal (s : Shared ι) (pc : Pc) : Prop where
  stores : pc.stores = false
  committing : ∀ q ∈ pc.committing, q = s.seqno ∧ ∀ l ∈ olderSources s, ∀ r ∈ l, r.seqno < q
  flushing : ∀ im ∈ pc.flushing, ∀ x ∈ s.state.imms, im.wal ≤ x.wal

structure OrderRely (u : ι) (s s' : Shared ι) : Prop where
  seqno : s.lock = some u → s'.seqno = s.seqno
  older : s.lock = some u → ∀ l ∈ olderSources s', ∀ r ∈ l, ∃ l' ∈ olderSources s, r ∈ l'
  imms : ∀ x ∈ s'.state.imms, x ∈ s.state.imms ∨ s.walId ≤ x.wal

/-- What a publish finds: a flushed memtable still queued and a file number
above the live ones; the inputs of a compaction still the live tables. -/
def Pc.InOrder (s : Shared ι) : Pc → Prop
  | .flushLoad im id _ => im ∈ s.state.imms ∧ ∀ x ∈ s.state.ssts, x.id < id
  | .compactPublish inputs _ _ => s.state.ssts = inputs
  | _ => True

instance (s : Shared ι) (pc : Pc) : Decidable (pc.InOrder s) := by
  induction pc using Pc.casesOn with
  | flushLoad im id recs => exact instDecidableAnd
  | compactPublish inputs id recs => exact instDecidableEqList _ _
  | _ => exact instDecidableTrue

def InOrder (c : Sys ι) (x : ι × Choice) : Prop := (c.pc x.1).InOrder c.shared

theorem OrderLocal.stable (hI : ThreadInv u s pc) (hL : OrderLocal s pc) (hR : OrderRely u s s') :
    OrderLocal s' pc where
  stores := hL.stores
  committing := by
    intro q hq
    obtain ⟨rfl, hold⟩ := hL.committing q hq
    have hlock : s.lock = some u := by
      apply hI.1.mp
      cases pc <;> simp_all [Pc.committing, Pc.holds]
    refine ⟨(hR.seqno hlock).symm, ?_⟩
    intro l hl r hr
    obtain ⟨l', hl', hr'⟩ := hR.older hlock l hl r hr
    exact hold l' hl' r hr'
  flushing := by
    intro im him x hx
    rcases hR.imms x hx with hx | hx
    · exact hL.flushing im him x hx
    · have hknown : KnownImm s im := by
        have := hI.2
        cases pc <;> simp_all [Pc.flushing, LocalInv]
      exact (hknown.2.1.trans_le hx).le

/-! ### Steps -/

theorem publishAct_inv {threshold : ℕ} {a : Choice} (hG : SharedInv s) (hI : ThreadInv t s pc)
    (hpc : pc.stores = false) (h : publishAct threshold t s pc a = some (s', pc')) :
    StepOk t s s' pc' := by
  have hkeep : pc.KeepsActive s := by
    cases pc <;> trivial
  -- the load leaves the shared state as it is, and its copy is the current state
  have hload : ∀ {pc₁}, act threshold t s pc .go = some (s, pc₁) → pc₁.KeepsActive s →
      act threshold t s pc₁ .go = some (s', pc') → StepOk t s s' pc' := by
    intro pc₁ h₁ hkeep₁ h₂
    exact act_inv hG (act_inv hG hI hkeep h₁).2.1 hkeep₁ h₂
  unfold publishAct at h
  split at h
  · exact hload rfl trivial h
  · exact hload rfl rfl h
  · exact hload rfl rfl h
  · exact act_inv hG hI hkeep h

/-- What a step has to establish for the order of the sources. -/
def OrderOk (t : ι) (s s' : Shared ι) (pc' : Pc) : Prop :=
  OrderInv s' ∧ OrderLocal s' pc' ∧ ∀ u, u ≠ t → OrderRely u s s'

/-- The step leaves the sources and the counters alone. -/
structure Quiet (s s' : Shared ι) : Prop where
  state : s'.state = s.state
  mem : s'.mem = s.mem
  seqno : s'.seqno = s.seqno

theorem Quiet.older (h : Quiet s s') : olderSources s' = olderSources s := by
  simp only [olderSources, h.state, h.mem]

theorem Quiet.sources (h : Quiet s s') : sources s' = sources s := by
  simp only [Concurrent.sources, h.older, h.state, h.mem]

theorem OrderInv.quiet (hO : OrderInv s) (hq : Quiet s s') : OrderInv s' where
  mem_sorted := by rw [hq.mem]; exact hO.mem_sorted
  sst_sorted := by rw [hq.state]; exact hO.sst_sorted
  bound := by rw [hq.sources, hq.seqno]; exact hO.bound
  separated := by rw [hq.sources]; exact hO.separated
  wals := by rw [hq.state]; exact hO.wals
  ids := by rw [hq.state]; exact hO.ids

theorem OrderOk.quiet (hO : OrderInv s) (hq : Quiet s s') (hL : OrderLocal s pc') :
    OrderOk t s s' pc' := by
  refine ⟨hO.quiet hq, ⟨hL.stores, ?_, ?_⟩, ?_⟩
  · rw [hq.older, hq.seqno]; exact hL.committing
  · rw [hq.state]; exact hL.flushing
  · intro u _
    refine ⟨fun _ => hq.seqno, fun _ l hl r hr => ⟨l, hq.older ▸ hl, hr⟩, fun x hx => .inl ?_⟩
    rw [← hq.state]
    exact hx

theorem OrderOk.acquired (hO : OrderInv s) (h : acquire t s pc = some (s', pc'))
    (hL : OrderLocal s pc) : OrderOk t s s' pc' := by
  unfold acquire at h
  split at h
  · cases h
    exact OrderOk.quiet hO ⟨rfl, rfl, rfl⟩ hL
  · cases h

theorem OrderLocal.of_none (hst : pc.stores = false) (hc : pc.committing = none)
    (hf : pc.flushing = none) : OrderLocal s pc := by
  refine ⟨hst, ?_, ?_⟩
  · simp [hc]
  · simp [hf]

theorem OrderOk.numbered (hO : OrderInv s) (hlock : s.lock = some t) {history : List (ℕ × WriteBatch)}
    {inflight : Option ℕ} {batch : WriteBatch} :
    OrderOk t s { s with seqno := s.seqno + 1, history := history, inflight := inflight }
      (.commitAppend batch (s.seqno + 1)) := by
  refine ⟨⟨hO.mem_sorted, hO.sst_sorted, ?_, hO.separated, hO.wals, hO.ids⟩, ⟨rfl, ?_, ?_⟩, ?_⟩
  · intro l hl r hr
    exact (hO.bound l hl r hr).trans (Nat.le_succ _)
  · rintro q ⟨⟩
    refine ⟨rfl, ?_⟩
    intro l hl r hr
    exact Nat.lt_succ_of_le (hO.bound l (List.mem_cons_of_mem _ hl) r hr)
  · simp [Pc.flushing]
  · intro u hu
    have hfree : s.lock ≠ some u := by
      rw [hlock]
      simpa using Ne.symm hu
    exact ⟨fun h => absurd h hfree, fun h => absurd h hfree, fun x hx => .inl hx⟩

theorem olderSources_insert (hG : SharedInv s) (r : Rec) :
    olderSources (s.insert s.state.active r) = olderSources s := by
  have hmem : ∀ x ∈ s.state.imms, (s.insert s.state.active r).mem x.mem = s.mem x.mem := by
    intro x hx
    exact (evolves_insert s r).frozen _ (hG.known.2.1 x hx).1
  unfold olderSources
  exact congrArg (· ++ _) (List.map_congr_left hmem)

theorem sources_insert (hG : SharedInv s) (r : Rec) (inflight : Option ℕ) :
    sources { s.insert s.state.active r with inflight := inflight } =
      insertRec r (s.mem s.state.active) :: olderSources s := by
  have hact := mem_insert_active s r
  have holder := olderSources_insert hG r
  exact congrArg₂ List.cons hact holder

theorem sources_rotate (hG : SharedInv s) : sources (s.rotate s.state) = [] :: sources s := by
  show s.mem s.nextMem :: _ = _
  rw [hG.fresh _ le_rfl]
  rfl

theorem OrderOk.inserted (hG : SharedInv s) (hO : OrderInv s) (hlock : s.lock = some t) {r : Rec}
    {inflight : Option ℕ} (hL : OrderLocal s pc') (hr : r.seqno = s.seqno)
    (hold : ∀ l ∈ olderSources s, ∀ x ∈ l, x.seqno < s.seqno) :
    OrderOk t s { s.insert s.state.active r with inflight := inflight } pc' := by
  have hsrc := sources_insert hG r inflight
  refine ⟨⟨?_, hO.sst_sorted, ?_, ?_, hO.wals, hO.ids⟩, ⟨hL.stores, ?_, hL.flushing⟩, ?_⟩
  · intro id
    show SortedRecs (Function.update s.mem _ _ id)
    by_cases hid : id = s.state.active
    · rw [hid, Function.update_self]
      exact sorted_insertRec (hO.mem_sorted _)
    · rw [Function.update_of_ne hid]
      exact hO.mem_sorted id
  · rw [hsrc]
    intro l hl x hx
    rcases List.mem_cons.mp hl with rfl | hl
    · rcases mem_insertRec.mp hx with rfl | hx
      · exact hr.le
      · exact hO.bound _ List.mem_cons_self x hx
    · exact hO.bound l (List.mem_cons_of_mem _ hl) x hx
  · rw [hsrc]
    obtain ⟨hhead, htail⟩ := List.pairwise_cons.mp hO.separated
    refine List.pairwise_cons.mpr ⟨?_, htail⟩
    intro l hl x hx y hy
    rcases mem_insertRec.mp hx with rfl | hx
    · rw [hr]
      exact hold l hl y hy
    · exact hhead l hl x hx y hy
  · show ∀ q ∈ pc'.committing, q = s.seqno ∧ ∀ l ∈ olderSources (s.insert s.state.active r), _
    rw [olderSources_insert hG]
    exact hL.committing
  · intro u hu
    have hfree : s.lock ≠ some u := by
      rw [hlock]
      simpa using Ne.symm hu
    exact ⟨fun h => absurd h hfree, fun h => absurd h hfree, fun x hx => .inl hx⟩

theorem OrderOk.rotated (hG : SharedInv s) (hO : OrderInv s) (hlock : s.lock = some t)
    (hL : ∀ s₁ : Shared ι, OrderLocal s₁ pc') : OrderOk t s (s.rotate s.state) pc' := by
  have hsrc := sources_rotate hG
  refine ⟨⟨hO.mem_sorted, hO.sst_sorted, ?_, ?_, ?_, hO.ids⟩, hL _, ?_⟩
  · rw [hsrc]
    intro l hl r hr
    rcases List.mem_cons.mp hl with rfl | hl
    · cases hr
    · exact hO.bound l hl r hr
  · rw [hsrc]
    exact List.pairwise_cons.mpr ⟨by simp, hO.separated⟩
  · refine List.pairwise_cons.mpr ⟨?_, hO.wals⟩
    intro x hx
    exact (hG.known.2.1 x hx).2.1
  · intro u hu
    have hfree : s.lock ≠ some u := by
      rw [hlock]
      simpa using Ne.symm hu
    refine ⟨fun h => absurd h hfree, fun h => absurd h hfree, ?_⟩
    intro x hx
    rcases List.mem_cons.mp hx with rfl | hx
    · exact .inr le_rfl
    · exact .inl hx

theorem imms_split {imms : List Imm} {im : Imm} (hw : imms.Pairwise fun x y => y.wal < x.wal)
    (him : im ∈ imms) (hmin : ∀ x ∈ imms, im.wal ≤ x.wal) :
    imms = imms.filter (fun x => x.wal ≠ im.wal) ++ [im] := by
  obtain ⟨A, B, rfl⟩ := List.append_of_mem him
  obtain ⟨-, hB, hAB⟩ := List.pairwise_append.mp hw
  have hnil : B = [] := by
    apply List.eq_nil_iff_forall_not_mem.mpr
    intro y hy
    have hlt := (List.pairwise_cons.mp hB).1 y hy
    have hle := hmin y (by simp [hy])
    omega
  subst hnil
  have hA : A.filter (fun x => x.wal ≠ im.wal) = A := by
    rw [List.filter_eq_self]
    intro x hx
    have := hAB x hx im (by simp)
    simpa using this.ne'
  rw [List.filter_append, hA]
  simp

theorem OrderOk.flushed (hO : OrderInv s) {im : Imm} {id : ℕ} {recs : List Rec}
    (hrecs : recs = s.mem im.mem) (him : im ∈ s.state.imms)
    (hmin : ∀ x ∈ s.state.imms, im.wal ≤ x.wal) (hid : ∀ x ∈ s.state.ssts, x.id < id)
    (hL : ∀ s₁ : Shared ι, OrderLocal s₁ pc') :
    OrderOk t s { s with state := flushed im id recs s.state } pc' := by
  have hsplit := imms_split hO.wals him hmin
  have hold : olderSources { s with state := Concurrent.flushed im id recs s.state } =
      olderSources s := by
    show List.map (fun x => s.mem x.mem) (s.state.imms.filter fun x => x.wal ≠ im.wal)
      ++ recs :: s.state.ssts.map Sst.recs = _
    conv_rhs => rw [olderSources, hsplit]
    simp [hrecs]
  have hsrc : sources { s with state := Concurrent.flushed im id recs s.state } = sources s :=
    congrArg₂ List.cons rfl hold
  refine ⟨⟨hO.mem_sorted, ?_, hsrc ▸ hO.bound, hsrc ▸ hO.separated, hO.wals.filter _, ?_⟩, hL _, ?_⟩
  · intro x hx
    rcases List.mem_cons.mp hx with rfl | hx
    · exact hrecs ▸ hO.mem_sorted im.mem
    · exact hO.sst_sorted x hx
  · exact List.pairwise_cons.mpr ⟨hid, hO.ids⟩
  · intro u _
    refine ⟨fun _ => rfl, fun _ l hl r hr => ⟨l, hold ▸ hl, hr⟩, ?_⟩
    intro x hx
    exact .inl (List.mem_of_mem_filter hx)

theorem OrderOk.compacted (hO : OrderInv s) {id : ℕ} (hL : ∀ s₁ : Shared ι, OrderLocal s₁ pc') :
    OrderOk t s
      { s with state := compacted s.state.ssts id (mergedRecs s.state.ssts) s.state } pc' := by
  have hnone : (s.state.ssts.filter fun x => x.id ∉ s.state.ssts.map Sst.id) = [] := by
    rw [List.filter_eq_nil_iff]
    intro x hx
    simpa using ⟨x, hx, rfl⟩
  have hssts : (Concurrent.compacted s.state.ssts id (mergedRecs s.state.ssts) s.state).ssts =
      [⟨id, mergedRecs s.state.ssts⟩] := congrArg (List.cons _) hnone
  have hold : olderSources
      { s with state := Concurrent.compacted s.state.ssts id (mergedRecs s.state.ssts) s.state } =
      s.state.imms.map (fun x => s.mem x.mem) ++ [mergedRecs s.state.ssts] := by
    show _ ++ List.map Sst.recs (Concurrent.compacted ..).ssts = _
    rw [hssts]
    rfl
  have hmerged : ∀ r ∈ mergedRecs s.state.ssts, ∃ l ∈ s.state.ssts.map Sst.recs, r ∈ l := by
    intro r hr
    exact List.mem_flatten.mp (mem_isort.mp hr)
  have hback : ∀ l ∈ olderSources
      { s with state := Concurrent.compacted s.state.ssts id (mergedRecs s.state.ssts) s.state },
      ∀ r ∈ l, ∃ l' ∈ olderSources s, r ∈ l' := by
    rw [hold]
    intro l hl r hr
    rcases List.mem_append.mp hl with hl | hl
    · exact ⟨l, List.mem_append_left _ hl, hr⟩
    · obtain rfl : l = mergedRecs s.state.ssts := by simpa using hl
      obtain ⟨l', hl', hr'⟩ := hmerged r hr
      exact ⟨l', List.mem_append_right _ hl', hr'⟩
  refine ⟨⟨hO.mem_sorted, ?_, ?_, ?_, hO.wals, ?_⟩, hL _, ?_⟩
  · rw [hssts]
    intro x hx
    obtain rfl : x = ⟨id, mergedRecs s.state.ssts⟩ := by simpa using hx
    exact sorted_isort _
  · intro l hl r hr
    rcases List.mem_cons.mp hl with rfl | hl
    · exact hO.bound _ List.mem_cons_self r hr
    · obtain ⟨l', hl', hr'⟩ := hback l hl r hr
      exact hO.bound l' (List.mem_cons_of_mem _ hl') r hr'
  · obtain ⟨hhead, htail⟩ := List.pairwise_cons.mp hO.separated
    refine List.pairwise_cons.mpr ⟨?_, ?_⟩
    · intro l hl x hx y hy
      obtain ⟨l', hl', hy'⟩ := hback l hl y hy
      exact hhead l' hl' x hx y hy'
    · rw [hold]
      obtain ⟨himms, -, hcross⟩ := List.pairwise_append.mp htail
      refine List.pairwise_append.mpr ⟨himms, List.pairwise_singleton _ _, ?_⟩
      intro l hl m hm x hx y hy
      obtain rfl : m = mergedRecs s.state.ssts := by simpa using hm
      obtain ⟨l', hl', hy'⟩ := hmerged y hy
      exact hcross l hl l' hl' x hx y hy'
  · rw [hssts]
    exact List.pairwise_singleton _ _
  · intro u _
    exact ⟨fun _ => rfl, fun _ => hback, fun x hx => .inl hx⟩

theorem oldest_of_getLast {imms : List Imm} {im : Imm}
    (hw : imms.Pairwise fun x y => y.wal < x.wal) (him : imms.getLast? = some im) :
    ∀ x ∈ imms, im.wal ≤ x.wal := by
  obtain ⟨A, rfl⟩ := List.getLast?_eq_some_iff.mp him
  intro x hx
  rcases List.mem_append.mp hx with hx | hx
  · exact ((List.pairwise_append.mp hw).2.2 x hx im (by simp)).le
  · obtain rfl : x = im := by simpa using hx
    exact le_rfl

theorem order_begin {c : Call} (hO : OrderInv s) (h : begin s c = some (s', pc')) :
    OrderOk t s s' pc' := by
  cases c with
  | getAt key snapshot =>
    simp only [begin] at h
    split at h
    · cases h
      exact .quiet hO ⟨rfl, rfl, rfl⟩ (.of_none rfl rfl rfl)
    · cases h
  | range start stop snapshot =>
    simp only [begin] at h
    split at h
    · cases h
      exact .quiet hO ⟨rfl, rfl, rfl⟩ (.of_none rfl rfl rfl)
    · cases h
  | _ =>
    cases h
    exact .quiet hO ⟨rfl, rfl, rfl⟩ (.of_none rfl rfl rfl)

theorem order_probe {threshold snapshot : ℕ} {key : Key} {mems : List ℕ} {ssts : List Sst}
    (hO : OrderInv s)
    (h : act threshold t s (.getProbe key snapshot mems ssts) .go = some (s', pc')) :
    OrderOk t s s' pc' := by
  cases mems with
  | cons m mems =>
    cases h
    exact .quiet hO ⟨rfl, rfl, rfl⟩ (.of_none rfl rfl rfl)
  | nil =>
    cases ssts with
    | cons x ssts =>
      simp only [act] at h
      split at h
      all_goals
        cases h
        exact .quiet hO ⟨rfl, rfl, rfl⟩ (.of_none rfl rfl rfl)
    | nil =>
      cases h
      exact .quiet hO ⟨rfl, rfl, rfl⟩ (.of_none rfl rfl rfl)

theorem order_commit {threshold : ℕ} (hG : SharedInv s) (hO : OrderInv s) (hI : ThreadInv t s pc)
    (hL : OrderLocal s pc) (hpc : ∃ b q target rest, pc = .commitApply b q target rest)
    (h : act threshold t s pc .go = some (s', pc')) : OrderOk t s s' pc' := by
  obtain ⟨b, q, target, rest, rfl⟩ := hpc
  obtain ⟨hlock, rfl, -⟩ := hI
  cases rest with
  | nil =>
    simp only [act] at h
    cases h
    refine .quiet hO ⟨rfl, rfl, rfl⟩ ?_
    split <;> exact .of_none rfl rfl rfl
  | cons op rest =>
    cases h
    obtain ⟨rfl, hold⟩ := hL.committing q rfl
    refine .inserted hG hO (hlock.mp rfl) ⟨rfl, hL.committing, hL.flushing⟩ ?_ hold
    cases op <;> rfl

theorem publishAct_order {threshold : ℕ} {a : Choice} (hG : SharedInv s) (hO : OrderInv s)
    (hI : ThreadInv t s pc) (hL : OrderLocal s pc) (hord : pc.InOrder s)
    (h : publishAct threshold t s pc a = some (s', pc')) : OrderOk t s s' pc' := by
  unfold publishAct at h
  split at h
  · cases h
    exact .rotated hG hO (hI.1.mp rfl) fun _ => .of_none rfl rfl rfl
  · rename_i im id recs
    cases h
    exact .flushed hO hI.2.2.2 hord.1 (hL.flushing im rfl) hord.2 fun _ => .of_none rfl rfl rfl
  · rename_i inputs id recs
    cases h
    obtain ⟨-, -, rfl⟩ := hI.2
    obtain rfl : s.state.ssts = inputs := hord
    exact .compacted hO fun _ => .of_none rfl rfl rfl
  rename_i hrot hflush hcomp
  cases pc with
  | idle =>
    cases a with
    | call c => exact order_begin hO h
    | _ => cases h
  | commitLock b =>
    cases a with
    | go => exact .acquired hO h ⟨rfl, hL.committing, hL.flushing⟩
    | _ => cases h
  | commitSeqno b =>
    cases a with
    | go =>
      cases h
      exact .numbered hO (hI.1.mp rfl)
    | _ => cases h
  | commitAppend b q =>
    cases a with
    | go =>
      simp only [act] at h
      split at h
      · cases h
        exact .quiet hO ⟨rfl, rfl, rfl⟩ ⟨rfl, hL.committing, hL.flushing⟩
      · cases h
    | _ => cases h
  | commitApply b q target rest =>
    cases a with
    | go => exact order_commit hG hO hI hL ⟨_, _, _, _, rfl⟩ h
    | _ => cases rest <;> cases h
  | getProbe key snapshot mems ssts =>
    cases a with
    | go => exact order_probe hO h
    | _ => simp [act] at h
  | getCandidate key snapshot cur m mems ssts =>
    cases a with
    | go =>
      simp only [act] at h
      split at h
      all_goals
        cases h
        exact .quiet hO ⟨rfl, rfl, rfl⟩ (.of_none rfl rfl rfl)
    | _ => cases h
  | flushLock =>
    cases a with
    | go => exact .acquired hO h ⟨rfl, hL.committing, hL.flushing⟩
    | _ => cases h
  | flushCheck =>
    cases a with
    | go =>
      cases h
      refine .quiet hO ⟨rfl, rfl, rfl⟩ ?_
      split <;> exact .of_none rfl rfl rfl
    | _ => cases h
  | flushPeek =>
    cases a with
    | go =>
      simp only [act] at h
      split at h
      · cases h
        exact .quiet hO ⟨rfl, rfl, rfl⟩ (.of_none rfl rfl rfl)
      · rename_i im him
        cases h
        refine .quiet hO ⟨rfl, rfl, rfl⟩ ⟨rfl, hL.committing, ?_⟩
        rintro x ⟨⟩
        exact oldest_of_getLast hO.wals him
    | _ => cases h
  | flushReserve im =>
    cases a with
    | go => exact .acquired hO h ⟨rfl, hL.committing, hL.flushing⟩
    | _ => cases h
  | flushWalk im id seen =>
    cases a with
    | met recs =>
      simp only [act] at h
      split at h
      · cases h
        exact .quiet hO ⟨rfl, rfl, rfl⟩ ⟨rfl, hL.committing, hL.flushing⟩
      · cases h
    | _ => cases h
  | compactLoad =>
    cases a with
    | go =>
      cases h
      refine .quiet hO ⟨rfl, rfl, rfl⟩ ?_
      split <;> exact .of_none rfl rfl rfl
    | _ => cases h
  | compactReserve inputs =>
    cases a with
    | go => exact .acquired hO h ⟨rfl, hL.committing, hL.flushing⟩
    | _ => cases h
  | compactRemove inputs =>
    cases a with
    | go =>
      cases inputs with
      | nil =>
        cases h
        exact .quiet hO ⟨rfl, rfl, rfl⟩ (.of_none rfl rfl rfl)
      | cons x xs =>
        cases h
        exact .quiet hO ⟨rfl, rfl, rfl⟩ (.of_none rfl rfl rfl)
    | _ => cases inputs <;> cases h
  | unlock k =>
    cases a with
    | go =>
      cases k with
      | commit b q =>
        cases h
        exact .quiet hO ⟨rfl, rfl, rfl⟩ (.of_none rfl rfl rfl)
      | flush =>
        cases h
        exact .quiet hO ⟨rfl, rfl, rfl⟩ (.of_none rfl rfl rfl)
    | _ => cases k <;> cases h
  | rangeNext scan mems ssts got =>
    cases a with
    | go =>
      cases mems with
      | nil =>
        obtain ⟨out, -, hout⟩ := Option.map_eq_some_iff.mp h
        cases hout
        exact .quiet hO ⟨rfl, rfl, rfl⟩ (.of_none rfl rfl rfl)
      | cons m mems =>
        cases h
        exact .quiet hO ⟨rfl, rfl, rfl⟩ (.of_none rfl rfl rfl)
    | _ => cases mems <;> cases h
  | rangeWalk scan m seen mems ssts got =>
    cases a with
    | met recs =>
      simp only [act] at h
      split at h
      · cases h
        exact .quiet hO ⟨rfl, rfl, rfl⟩ (.of_none rfl rfl rfl)
      · cases h
    | _ => cases h
  | rotateLoad k =>
    cases a with
    | go => exact (hrot k rfl rfl).elim
    | _ => cases h
  | flushLoad im id recs =>
    cases a with
    | go => exact (hflush im id recs rfl rfl).elim
    | _ => cases h
  | compactPublish inputs id recs =>
    cases a with
    | go => exact (hcomp inputs id recs rfl rfl).elim
    | _ => cases h
  | rotateStore k prev => cases hL.stores
  | flushStore im id recs prev => cases hL.stores
  | compactStore inputs id recs prev => cases hL.stores
  | _ =>
    -- the remaining steps only move the program counter or do file work
    cases a with
    | go =>
      cases h
      exact .quiet hO ⟨rfl, rfl, rfl⟩ ⟨rfl, hL.committing, hL.flushing⟩
    | _ => cases h

/-! ### Results -/

theorem init_order : OrderInv (Shared.init : Shared ι) where
  mem_sorted _ := .nil
  sst_sorted x hx := by cases hx
  bound l hl r hr := by
    obtain rfl : l = [] := by simpa [sources, olderSources, Shared.init] using hl
    cases hr
  separated := List.pairwise_singleton _ _
  wals := .nil
  ids := .nil

theorem inOrder_inv [DecidableEq ι] {threshold : ℕ} {c : Sys ι}
    (h : Reach (publishStep threshold) InOrder Sys.init c) :
    SharedInv c.shared ∧ OrderInv c.shared := by
  have hinv := Threads.rely_guarantee (G := fun s => SharedInv s ∧ OrderInv s)
    (I := fun t s pc => ThreadInv t s pc ∧ OrderLocal s pc)
    (R := fun t _ s s' => Rely t s s' ∧ OrderRely t s s')
    ⟨init_inv, init_order⟩ (fun t => ⟨init_threadInv t, .of_none rfl rfl rfl⟩) ?_ ?_ h
  · exact hinv.1
  · intro c t a s' pc' hG hI hord hact
    obtain ⟨hG', hI', hR⟩ := publishAct_inv hG.1 (hI t).1 (hI t).2.stores hact
    obtain ⟨hO', hL', hRO⟩ := publishAct_order hG.1 hG.2 (hI t).1 (hI t).2 hord hact
    exact ⟨⟨hG', hO'⟩, ⟨hI', hL'⟩, fun u hu => ⟨hR u hu, hRO u hu⟩⟩
  · intro u s s' pc _ hI hR
    exact ⟨hI.1.stable hR.1, hI.2.stable hI.1 hR.2⟩

/-- The first source that holds a visible version holds the newest one. -/
def NewestFirst (srcs : List (List Rec)) : Prop :=
  ∀ key snapshot r, firstHit srcs key snapshot = some r →
    ∀ l ∈ srcs, ∀ x ∈ l, x.Visible key snapshot → x.seqno ≤ r.seqno

theorem newestFirst_of_separated {srcs : List (List Rec)} (hsorted : ∀ l ∈ srcs, SortedRecs l)
    (hsep : Separated srcs) : NewestFirst srcs := by
  intro key snapshot r hr l hl x hx hv
  rw [firstHit_newest hsorted hsep] at hr
  exact le_newest hr (List.mem_flatten.mpr ⟨l, hl, hx⟩) hv

theorem OrderInv.sources_sorted (hO : OrderInv s) : ∀ l ∈ sources s, SortedRecs l := by
  intro l hl
  rcases List.mem_cons.mp hl with rfl | hl
  · exact hO.mem_sorted _
  rcases List.mem_append.mp hl with hl | hl
  · obtain ⟨x, -, rfl⟩ := List.mem_map.mp hl
    exact hO.mem_sorted _
  · obtain ⟨x, hx, rfl⟩ := List.mem_map.mp hl
    exact hO.sst_sorted x hx

theorem OrderInv.sourcesById_eq (hO : OrderInv s) : sourcesById s = sources s := by
  have hids : byFileId s.state.ssts = s.state.ssts := by
    refine List.Pairwise.insertionSort_eq (hO.ids.imp ?_)
    exact fun h => h.le
  unfold sourcesById sources olderSources
  rw [hids]

theorem probe_newest_first [DecidableEq ι] {threshold : ℕ} {c : Sys ι}
    (h : Reach (publishStep threshold) InOrder Sys.init c) :
    NewestFirst (sources c.shared) ∧ NewestFirst (sourcesById c.shared) := by
  obtain ⟨-, hO⟩ := inOrder_inv h
  have hfirst := newestFirst_of_separated hO.sources_sorted hO.separated
  exact ⟨hfirst, hO.sourcesById_eq ▸ hfirst⟩

instance (c : Sys ι) (x : ι × Choice) : Decidable (InOrder c x) :=
  inferInstanceAs (Decidable (Pc.InOrder ..))

/-- Puts `v` under the key `[1]` and flushes; the walk meets one record. -/
def putAndFlush (v : Byte) (q : ℕ) : List (Thread × Choice) :=
  (.writer, .call (.commit [.put [1] [v]])) :: times 8 .writer ++
    (.writer, .call .flush) :: times 11 .writer ++
    (.writer, .met [⟨[1], q, .put, [v]⟩]) :: times 4 .writer

/-- `compact_all` up to its publish. -/
def compactToPublish : List (Thread × Choice) := (.first, .call .compact) :: times 5 .first

theorem probe_newest_first_compacted :
    ∃ c, Reach (publishStep 1000) InOrder (Sys.init : Sys (Thread)) c ∧
      c.shared.state.ssts.length = 1 ∧
      NewestFirst (sources c.shared) ∧ NewestFirst (sourcesById c.shared) := by
  have hrun : (runOk (publishStep 1000) (fun c x => decide (InOrder c x)) Sys.init
      (putAndFlush 1 1 ++ putAndFlush 2 2 ++ compactToPublish ++ times 1 .first)).map
      (fun c => decide (c.shared.state.ssts.length = 1)) = some true := by
    decide +kernel
  obtain ⟨c, hreach, hp⟩ := reach_of_runDecided hrun
  exact ⟨c, hreach, of_decide_eq_true hp, probe_newest_first hreach⟩

/-- The compaction takes the first two tables as inputs, a third flush is
published, and then the output is published in front of the third table. -/
theorem compaction_hides_newer :
    ∃ c, Reach (publishStep 1000) always (Sys.init : Sys (Thread)) c ∧
      ¬ NewestFirst (sources c.shared) := by
  have hrun : (run (publishStep 1000) (Sys.init : Sys (Thread))
      (putAndFlush 1 1 ++ putAndFlush 2 2 ++ compactToPublish ++ putAndFlush 3 3 ++ times 1 .first)).map
      (fun c : Sys (Thread) => decide (firstHit (sources c.shared) [1] 3 = some ⟨[1], 2, .put, [2]⟩ ∧
        ∃ l ∈ sources c.shared, (⟨[1], 3, .put, [3]⟩ : Rec) ∈ l)) = some true := by
    decide +kernel
  obtain ⟨c, hreach, hp⟩ := reach_of_run hrun
  obtain ⟨hhit, l, hl, hx⟩ := of_decide_eq_true hp
  refine ⟨c, hreach, ?_⟩
  intro hfirst
  exact absurd (hfirst _ _ _ hhit l hl _ hx ⟨rfl, le_rfl⟩) (by decide)

end PaddockKV.Concurrent
