import PaddockKV.Concurrent.Effects

/-!
# No acknowledged write is lost

`flush_one` and `compact_all` store a state built from a copy they loaded
earlier. A rotation stored in between is undone: the memtable it seated leaves
the engine state with every record committed to it. When no rotation falls into
such a gap, every record of every acknowledged commit stays in a source of the
engine state (`acked_present`).
-/

namespace PaddockKV.Concurrent

open Wal Transition

variable {ι : Type} {t : ι} {s s' : Shared ι} {pc pc' : Pc}

/-- At a store of a maintenance call the active memtable is still the one of
the copy it was built from. -/
def Pc.KeepsActive (s : Shared ι) : Pc → Prop
  | .flushStore _ _ _ prev | .compactStore _ _ _ prev => prev.active = s.state.active
  | _ => True

instance (s : Shared ι) (pc : Pc) : Decidable (pc.KeepsActive s) := by
  induction pc using Pc.casesOn <;> first | exact instDecidableTrue | exact instDecidableEqNat _ _

def KeepsActive (c : Sys ι) (x : ι × Choice) : Prop := (c.pc x.1).KeepsActive c.shared

/-- What a step of `t` has to establish. -/
def StepOk (t : ι) (s s' : Shared ι) (pc' : Pc) : Prop :=
  SharedInv s' ∧ ThreadInv t s' pc' ∧ ∀ u, u ≠ t → Rely u s s'

theorem StepOk.stay (hG : SharedInv s) (hlock : pc'.holds = true ↔ s.lock = some t)
    (hl : LocalInv t s pc') : StepOk t s s pc' :=
  ⟨hG, ⟨hlock, hl⟩, fun u _ => Rely.refl u s⟩

theorem StepOk.noted {seqno : ℕ} {history : List (ℕ × WriteBatch)} {inflight : Option ℕ}
    {bytes : ℕ} {snaps : List ℕ} {reads : List Read} (hG : SharedInv s)
    (hlock : pc'.holds = true ↔ s.lock = some t) (hl : LocalInv t s pc') :
    StepOk t s (s.note seqno history inflight bytes snaps reads) pc' :=
  ⟨hG.note, ⟨hlock, hl.note⟩, fun _ _ => rely_note⟩

theorem StepOk.acquired (hG : SharedInv s) (h : acquire t s pc = some (s', pc'))
    (hholds : pc.holds = true) (hl : LocalInv t s pc) : StepOk t s s' pc' := by
  unfold acquire at h
  split at h
  · rename_i hfree
    cases h
    have hnone : s.lock = none := by simpa using hfree
    refine ⟨hG.lock hG.acked, ⟨by simp [hholds], hl.lock⟩, ?_⟩
    intro u hu
    refine rely_lock ?_
    simp [hnone, Ne.symm hu]
  · cases h

theorem StepOk.released {acked : List (ℕ × WriteBatch)} (hG : SharedInv s)
    (hheld : s.lock = some t) (hl : LocalInv t s pc') (hholds : pc'.holds = false)
    (ha : ∀ x ∈ acked, Applied s x.1 x.2) :
    StepOk t s { s with lock := none, acked := acked } pc' := by
  refine ⟨hG.lock ha, ⟨by simp [hholds], hl.lock⟩, ?_⟩
  intro u hu
  refine rely_lock ?_
  simp [hheld, Ne.symm hu]

/-! ### Maintenance publishes what it removes -/

theorem known_flushed {im : Imm} {id : ℕ} {recs : List Rec} {prev : EngineState}
    (hfile : s.files id = some recs) (hprev : KnownState s prev) :
    KnownState s (flushed im id recs prev) := by
  refine ⟨hprev.1, ?_, ?_⟩
  · intro x hx
    exact hprev.2.1 x (List.mem_of_mem_filter hx)
  · intro x hx
    rcases List.mem_cons.mp hx with rfl | hx
    · exact hfile
    · exact hprev.2.2 x hx

theorem covers_flushed {im : Imm} {id : ℕ} {recs : List Rec} {prev : EngineState}
    (him : KnownImm s im) (hrecs : recs = s.mem im.mem) (hprev : Held s prev)
    (hact : prev.active = s.state.active) : Covers s (flushed im id recs prev) := by
  intro r hr
  rcases hprev.2 hact r hr with hm | ⟨x, hx, hm⟩ | ⟨x, hx, hm⟩
  · exact .inl hm
  · by_cases hw : x.wal = im.wal
    · right; right
      refine ⟨⟨id, recs⟩, by simp [flushed], ?_⟩
      have hxm : x.mem = im.mem := by
        rw [← (hprev.1.2.1 x hx).2.2, ← him.2.2, hw]
      rw [hrecs, ← hxm]
      exact hm
    · right; left
      exact ⟨x, by simp [flushed, hx, hw], hm⟩
  · exact .inr (.inr ⟨x, by simp [flushed, hx], hm⟩)

theorem known_compacted {inputs : List Sst} {id : ℕ} {recs : List Rec} {prev : EngineState}
    (hfile : s.files id = some recs) (hprev : KnownState s prev) :
    KnownState s (compacted inputs id recs prev) := by
  refine ⟨hprev.1, hprev.2.1, ?_⟩
  intro x hx
  rcases List.mem_cons.mp hx with rfl | hx
  · exact hfile
  · exact hprev.2.2 x (List.mem_of_mem_filter hx)

theorem covers_compacted {inputs : List Sst} {id : ℕ} {prev : EngineState}
    (hin : ∀ x ∈ inputs, KnownSst s x) (hprev : Held s prev)
    (hact : prev.active = s.state.active) :
    Covers s (compacted inputs id (mergedRecs inputs) prev) := by
  intro r hr
  rcases hprev.2 hact r hr with hm | ⟨x, hx, hm⟩ | ⟨x, hx, hm⟩
  · exact .inl hm
  · exact .inr (.inl ⟨x, hx, hm⟩)
  · right; right
    by_cases hid : x.id ∈ inputs.map Sst.id
    · obtain ⟨y, hy, hyx⟩ := List.mem_map.mp hid
      have hrecs : x.recs = y.recs := by
        have h₁ := hprev.1.2.2 x hx
        have h₂ := hin y hy
        unfold KnownSst at h₁ h₂
        rw [hyx, h₁] at h₂
        exact Option.some.inj h₂
      refine ⟨⟨id, mergedRecs inputs⟩, by simp [compacted], ?_⟩
      refine mem_isort.mpr (List.mem_flatten.mpr ⟨y.recs, List.mem_map_of_mem hy, ?_⟩)
      rw [← hrecs]
      exact hm
    · refine ⟨x, ?_, hm⟩
      simp only [compacted, List.mem_cons, List.mem_filter, decide_eq_true_eq]
      exact .inr ⟨hx, hid⟩

/-! ### Every step -/

theorem commit_inv {threshold : ℕ} (hG : SharedInv s) (hI : ThreadInv t s pc)
    (hpc : ∃ b q target rest, pc = .commitApply b q target rest)
    (h : act threshold t s pc .go = some (s', pc')) : StepOk t s s' pc' := by
  obtain ⟨b, q, target, rest, rfl⟩ := hpc
  obtain ⟨hlock, rfl, done, hb, hdone⟩ := hI
  have hheld : s.lock = some t := hlock.mp rfl
  cases rest with
  | nil =>
    have hb' : Applied s q b := by
      rw [hb, List.append_nil]
      exact hdone
    simp only [act] at h
    cases h
    refine StepOk.noted hG ?_ ?_
    · split <;> simpa [Pc.holds] using hheld
    · split <;> exact hb'
  | cons op rest =>
    simp only [act] at h
    cases h
    have hu : ∀ u, u ≠ t → s.lock ≠ some u := by
      rintro u hu hlu
      rw [hheld] at hlu
      exact hu (Option.some.inj hlu).symm
    have hdone' : Applied (s.insert s.state.active (op.toRec q)) q (done ++ [op]) := by
      intro o ho
      rcases List.mem_append.mp ho with ho | ho
      · exact List.mem_cons_of_mem _ (hdone o ho)
      · obtain rfl : o = op := by simpa using ho
        exact List.mem_cons_self
    refine ⟨(hG.insert _).note, ⟨?_, rfl, done ++ [op], by simpa using hb, hdone'⟩, ?_⟩
    · exact ⟨fun _ => hheld, fun _ => rfl⟩
    · intro u hut
      exact { rely_insert (hu u hut) (op.toRec q) with }

theorem begin_inv {c : Call} (hG : SharedInv s) (hI : ThreadInv t s .idle)
    (h : begin s c = some (s', pc')) : StepOk t s s' pc' := by
  cases c with
  | getAt key snapshot =>
    simp only [begin] at h
    split at h
    · cases h
      exact StepOk.stay hG hI.1 trivial
    · cases h
  | range start stop snapshot =>
    simp only [begin] at h
    split at h
    · cases h
      exact StepOk.stay hG hI.1 trivial
    · cases h
  | _ =>
    cases h
    exact StepOk.stay hG hI.1 trivial

theorem probe_inv {threshold snapshot : ℕ} {key : Key} {mems : List ℕ} {ssts : List Sst}
    (hG : SharedInv s) (hI : ThreadInv t s (.getProbe key snapshot mems ssts))
    (h : act threshold t s (.getProbe key snapshot mems ssts) .go = some (s', pc')) :
    StepOk t s s' pc' := by
  cases mems with
  | cons m mems =>
    cases h
    exact StepOk.stay hG hI.1 trivial
  | nil =>
    cases ssts with
    | cons x ssts =>
      simp only [act] at h
      split at h
      · cases h
        exact StepOk.noted hG hI.1 trivial
      · cases h
        exact StepOk.stay hG hI.1 trivial
    | nil =>
      cases h
      exact StepOk.noted hG hI.1 trivial

theorem act_inv {threshold : ℕ} {a : Choice} (hG : SharedInv s) (hI : ThreadInv t s pc)
    (hkeep : pc.KeepsActive s)
    (h : act threshold t s pc a = some (s', pc')) : StepOk t s s' pc' := by
  cases pc with
  | idle =>
    cases a with
    | call c => exact begin_inv hG hI h
    | _ => cases h
  | commitLock b =>
    cases a with
    | go =>
      exact StepOk.acquired hG h rfl trivial
    | _ => cases h
  | commitSeqno b =>
    cases a with
    | go =>
      cases h
      exact StepOk.noted hG hI.1 trivial
    | _ => cases h
  | commitAppend b q =>
    cases a with
    | go =>
      simp only [act] at h
      split at h
      · cases h
        exact StepOk.stay hG hI.1 trivial
      · cases h
    | _ => cases h
  | commitSync b q =>
    cases a with
    | go =>
      cases h
      exact StepOk.stay hG hI.1 trivial
    | _ => cases h
  | commitLoad b q =>
    cases a with
    | go =>
      cases h
      exact StepOk.noted hG hI.1 ⟨rfl, [], rfl, by simp [Applied]⟩
    | _ => cases h
  | commitApply b q target rest =>
    cases a with
    | go =>
      exact commit_inv hG hI ⟨b, q, target, rest, rfl⟩ h
    | _ => simp [act] at h
  | rotateLoad k =>
    cases a with
    | go =>
      cases h
      exact StepOk.stay hG hI.1 ⟨hI.2, ⟨hG.known, fun _ => hG.covers⟩, rfl⟩
    | _ => cases h
  | rotateStore k prev =>
    cases a with
    | go =>
      cases h
      obtain ⟨hlock, hk, hprev, hact⟩ := hI
      have hheld : s.lock = some t := hlock.mp rfl
      refine ⟨hG.rotate hprev hact, ⟨hlock, hk.stable (evolves_rotate hG prev)⟩, ?_⟩
      intro u hu
      refine rely_rotate hG ?_ prev
      rw [hheld]
      exact fun heq => hu (Option.some.inj heq).symm
    | _ => cases h
  | rotateOpen k =>
    cases a with
    | go =>
      cases h
      exact StepOk.stay hG hI.1 hI.2
    | _ => cases h
  | rotateHeader k =>
    cases a with
    | go =>
      cases h
      exact StepOk.stay hG hI.1 hI.2
    | _ => cases h
  | unlock k =>
    cases a with
    | go =>
      have hheld : s.lock = some t := hI.1.mp rfl
      cases k with
      | commit b q =>
        cases h
        refine StepOk.released hG hheld trivial rfl ?_
        intro x hx
        rcases List.mem_cons.mp hx with rfl | hx
        · exact hI.2
        · exact hG.acked x hx
      | flush =>
        cases h
        exact StepOk.released hG hheld trivial rfl hG.acked
    | _ => simp [act] at h
  | flushLock =>
    cases a with
    | go =>
      exact StepOk.acquired hG h rfl trivial
    | _ => cases h
  | flushCheck =>
    cases a with
    | go =>
      cases h
      refine StepOk.stay hG ?_ ?_
      · split <;> exact hI.1
      · split <;> trivial
    | _ => cases h
  | flushPeek =>
    cases a with
    | go =>
      simp only [act] at h
      split at h
      · cases h
        exact StepOk.stay hG hI.1 trivial
      · rename_i im him
        cases h
        exact StepOk.stay hG hI.1 (hG.known.2.1 im (List.mem_of_getLast? him))
    | _ => cases h
  | flushReserve im =>
    cases a with
    | go =>
      exact StepOk.acquired hG h rfl hI.2
    | _ => cases h
  | flushNumber im =>
    cases a with
    | go =>
      cases h
      exact ⟨hG.reserve, ⟨hI.1, KnownImm.stable (@rely_reserve _ t t s).toEvolves hI.2,
        reserved_reserve hG⟩, fun _ _ => rely_reserve⟩
    | _ => cases h
  | flushRelease im id =>
    cases a with
    | go =>
      cases h
      exact StepOk.released hG (hI.1.mp rfl) hI.2 rfl hG.acked
    | _ => cases h
  | flushOpen im id =>
    cases a with
    | go =>
      cases h
      exact StepOk.stay hG hI.1 ⟨hI.2.1, hI.2.2, rfl⟩
    | _ => cases h
  | flushWalk im id seen =>
    cases a with
    | met recs =>
      simp only [act] at h
      split at h
      · rename_i hmet
        cases h
        obtain ⟨hlock, him, hres, rfl⟩ := hI
        -- nobody inserts into a frozen memtable, so the walk met all of it
        have hrecs : recs = s.mem im.mem := hmet.2.antisymm hmet.1
        refine ⟨hG.write hres recs, ⟨hlock, him.stable (evolves_write hres recs), ?_, hrecs⟩, ?_⟩
        · simp [Shared.write]
        · exact fun u hu => rely_write hres recs hu
      · cases h
    | _ => cases h
  | flushReader im id recs =>
    cases a with
    | go =>
      cases h
      exact StepOk.stay hG hI.1 hI.2
    | _ => cases h
  | flushLoad im id recs =>
    cases a with
    | go =>
      cases h
      exact StepOk.stay hG hI.1 ⟨hI.2.1, hI.2.2.1, hI.2.2.2, hG.known, fun _ => hG.covers⟩
    | _ => cases h
  | flushStore im id recs prev =>
    cases a with
    | go =>
      cases h
      obtain ⟨hlock, him, hfile, hrecs, hprev⟩ := hI
      exact ⟨hG.publish (known_flushed hfile hprev.1) hkeep (covers_flushed him hrecs hprev hkeep),
        ⟨hlock, trivial⟩, fun u _ => rely_publish hkeep⟩
    | _ => cases h
  | flushRemove im =>
    cases a with
    | go =>
      cases h
      exact StepOk.stay hG hI.1 trivial
    | _ => cases h
  | compactLoad =>
    cases a with
    | go =>
      cases h
      refine StepOk.stay hG ?_ ?_
      · split <;> exact hI.1
      · split
        · trivial
        · exact hG.known.2.2
    | _ => cases h
  | compactReserve inputs =>
    cases a with
    | go =>
      exact StepOk.acquired hG h rfl hI.2
    | _ => cases h
  | compactNumber inputs =>
    cases a with
    | go =>
      cases h
      exact ⟨hG.reserve, ⟨hI.1, fun x hx => (hI.2 x hx).stable (@rely_reserve _ t t s).toEvolves,
        reserved_reserve hG⟩, fun _ _ => rely_reserve⟩
    | _ => cases h
  | compactRelease inputs id =>
    cases a with
    | go =>
      cases h
      exact StepOk.released hG (hI.1.mp rfl) hI.2 rfl hG.acked
    | _ => cases h
  | compactWrite inputs id =>
    cases a with
    | go =>
      cases h
      obtain ⟨hlock, hin, hres⟩ := hI
      have he := evolves_write hres (mergedRecs inputs)
      refine ⟨hG.write hres _, ⟨hlock, fun x hx => (hin x hx).stable he, ?_, rfl⟩, ?_⟩
      · simp [Shared.write]
      · exact fun u hu => rely_write hres _ hu
    | _ => cases h
  | compactPublish inputs id recs =>
    cases a with
    | go =>
      cases h
      exact StepOk.stay hG hI.1 ⟨hI.2.1, hI.2.2.1, hI.2.2.2, hG.known, fun _ => hG.covers⟩
    | _ => cases h
  | compactStore inputs id recs prev =>
    cases a with
    | go =>
      cases h
      obtain ⟨hlock, hin, hfile, rfl, hprev⟩ := hI
      exact ⟨hG.publish (known_compacted hfile hprev.1) hkeep (covers_compacted hin hprev hkeep),
        ⟨hlock, trivial⟩, fun u _ => rely_publish hkeep⟩
    | _ => cases h
  | compactRemove inputs =>
    cases a with
    | go =>
      cases inputs <;> (cases h; exact StepOk.stay hG hI.1 trivial)
    | _ => simp [act] at h
  | snapLoad =>
    cases a with
    | go =>
      cases h
      exact StepOk.noted hG hI.1 trivial
    | _ => cases h
  | getLoad key snapshot =>
    cases a with
    | go =>
      cases h
      exact StepOk.stay hG hI.1 trivial
    | _ => cases h
  | getProbe key snapshot mems ssts =>
    cases a with
    | go =>
      exact probe_inv hG hI h
    | _ => simp [act] at h
  | getCandidate key snapshot cur m mems ssts =>
    cases a with
    | go =>
      simp only [act] at h
      split at h
      · cases h
        exact StepOk.noted hG hI.1 trivial
      · cases h
        exact StepOk.stay hG hI.1 trivial
    | _ => cases h
  | rangeLoad scan =>
    cases a with
    | go =>
      cases h
      exact StepOk.stay hG hI.1 trivial
    | _ => cases h
  | rangeNext scan mems ssts got =>
    cases a with
    | go =>
      cases mems with
      | nil =>
        obtain ⟨out, -, hout⟩ := Option.map_eq_some_iff.mp h
        cases hout
        exact StepOk.noted hG hI.1 trivial
      | cons m mems =>
        cases h
        exact StepOk.stay hG hI.1 trivial
    | _ => simp [act] at h
  | rangeWalk scan m seen mems ssts got =>
    cases a with
    | met recs =>
      simp only [act] at h
      split at h
      · cases h
        exact StepOk.stay hG hI.1 trivial
      · cases h
    | _ => cases h

theorem init_inv : SharedInv (Shared.init : Shared ι) where
  known := ⟨Nat.zero_lt_one, by simp [Shared.init], by simp [Shared.init]⟩
  covers r hr := by cases hr
  acked x hx := by cases hx
  wal_lt := Nat.one_lt_two
  files_lt _ _ hf := by cases hf
  fresh _ _ := rfl

theorem init_threadInv (t : ι) : ThreadInv t (Shared.init : Shared ι) .idle :=
  ⟨by simp [Pc.holds, Shared.init], trivial⟩

theorem keepsActive_inv [DecidableEq ι] {threshold : ℕ} {c : Sys ι}
    (h : Reach (step threshold) KeepsActive Sys.init c) :
    SharedInv c.shared ∧ ∀ t, ThreadInv t c.shared (c.pc t) := by
  refine Threads.rely_guarantee (R := fun u _ => Rely u) init_inv init_threadInv ?_ ?_ h
  · intro c t a s' l' hG hI hok hact
    exact act_inv hG (hI t) hok hact
  · intro u s s' l _ hi hr
    exact hi.stable hr

/-! ### Results -/

/-- Every record of every commit that returned is in a source of the engine
state, in every run in which no rotation is undone. -/
theorem acked_present [DecidableEq ι] {threshold : ℕ} {c : Sys ι}
    (h : Reach (step threshold) KeepsActive Sys.init c) {q : ℕ} {batch : WriteBatch}
    (hacked : (q, batch) ∈ c.shared.acked) {op : Op} (hop : op ∈ batch) :
    Has c.shared c.shared.state (op.toRec q) := by
  obtain ⟨hG, -⟩ := keepsActive_inv h
  exact hG.covers _ (hG.acked _ hacked op hop)

/-- The threads of the runs below. -/
inductive Thread where
  | writer
  | first
  | second
  deriving DecidableEq

instance : Fintype Thread := ⟨{.writer, .first, .second}, fun t => by cases t <;> simp⟩

def times (n : ℕ) (t : Thread) : List (Thread × Choice) := List.replicate n (t, .go)

/-- A whole `commit_batch` of one put. -/
def commitRun (k : Byte) : List (Thread × Choice) :=
  (.writer, .call (.commit [.put [k] [k]])) :: times 8 .writer

/-- `flush` up to the load of the state it will publish from. -/
def flushToLoad : List (Thread × Choice) :=
  (.first, .call .flush) :: times 12 .first ++ [(.first, .met [⟨[1], 1, .put, [1]⟩])] ++
    times 2 .first

/-- Another `flush` up to the end of its rotation. -/
def flushToRotated : List (Thread × Choice) := (.second, .call .flush) :: times 7 .second

instance (c : Sys ι) (x : ι × Choice) : Decidable (KeepsActive c x) :=
  inferInstanceAs (Decidable (Pc.KeepsActive ..))

instance (pc : Pc) : Decidable (pc = .idle) := by
  induction pc using Pc.casesOn with
  | idle => exact isTrue rfl
  | _ => exact isFalse Pc.noConfusion

/-- The first flush publishes before the next rotation: the commit stays. -/
theorem acked_present_flush :
    ∃ c, Reach (step 1000) KeepsActive (Sys.init : Sys (Thread)) c ∧
      (2, [.put [2] [2]]) ∈ c.shared.acked ∧
      Has c.shared c.shared.state ((Op.put [2] [2]).toRec 2) := by
  have hrun : (runOk (step 1000) (fun c x => decide (KeepsActive c x)) Sys.init
      (commitRun 1 ++ flushToLoad ++ commitRun 2 ++ times 3 .first ++ flushToRotated)).map
      (fun c => decide ((2, [.put [2] [2]]) ∈ c.shared.acked)) = some true := by
    decide +kernel
  obtain ⟨c, hreach, hp⟩ := reach_of_runDecided hrun
  have hacked : (2, [.put [2] [2]]) ∈ c.shared.acked := by simpa using hp
  exact ⟨c, hreach, hacked, acked_present hreach hacked (by simp)⟩

/-- The first flush loads the state, the second rotates, a commit goes to the new
memtable and returns, and then the first flush stores its copy: when all calls
have returned the record of the third commit is in no source. -/
theorem acked_write_lost :
    ∃ c, Reach (step 1000) always (Sys.init : Sys (Thread)) c ∧ (∀ t, c.pc t = .idle) ∧
      (3, [.put [3] [3]]) ∈ c.shared.acked ∧
      ¬ Has c.shared c.shared.state ((Op.put [3] [3]).toRec 3) := by
  have hrun : (run (step 1000) (Sys.init : Sys (Thread))
      (commitRun 1 ++ flushToLoad ++ commitRun 2 ++ flushToRotated ++ commitRun 3
        ++ times 3 .first ++ times 1 .second)).map
      (fun c => decide ((∀ t, c.pc t = .idle) ∧ (3, [.put [3] [3]]) ∈ c.shared.acked ∧
        ¬ Has c.shared c.shared.state ((Op.put [3] [3]).toRec 3))) = some true := by
    decide +kernel
  obtain ⟨c, hreach, hp⟩ := reach_of_run hrun
  exact ⟨c, hreach, of_decide_eq_true hp⟩

end PaddockKV.Concurrent
