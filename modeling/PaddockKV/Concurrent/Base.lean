import PaddockKV.Concurrent.Machine

/-!
# What the calls know about the shared state

`flush_one` and `compact_all` load the engine state, build a new one from the
loaded copy and store it without the lock. As long as no memtable rotation is
stored in between (`KeepsActive`), the copy still covers every record applied so
far: new records only go to the active memtable, which the copy shares. The
invariants below hold in every run of that kind.
-/

namespace PaddockKV.Concurrent

open Wal Transition

variable {ι : Type}

/-! ### Names in use -/

/-- A memtable that will not change any more. -/
def Frozen (s : Shared ι) (id : ℕ) : Prop := id < s.nextMem ∧ id ≠ s.state.active

def KnownImm (s : Shared ι) (x : Imm) : Prop :=
  Frozen s x.mem ∧ x.wal < s.walId ∧ s.walMem x.wal = x.mem

def KnownSst (s : Shared ι) (x : Sst) : Prop := s.files x.id = some x.recs

def KnownState (s : Shared ι) (st : EngineState) : Prop :=
  st.active < s.nextMem ∧ (∀ x ∈ st.imms, KnownImm s x) ∧ ∀ x ∈ st.ssts, KnownSst s x

/-- Record `r` is in one of the sources of `st`. -/
def Has (s : Shared ι) (st : EngineState) (r : Rec) : Prop :=
  r ∈ s.mem st.active ∨ (∃ x ∈ st.imms, r ∈ s.mem x.mem) ∨ ∃ x ∈ st.ssts, r ∈ x.recs

instance (s : Shared ι) (st : EngineState) (r : Rec) : Decidable (Has s st r) :=
  inferInstanceAs (Decidable (_ ∨ _ ∨ _))

def Covers (s : Shared ι) (st : EngineState) : Prop := ∀ r ∈ s.applied, Has s st r

/-- A loaded copy of the engine state. -/
def Held (s : Shared ι) (st : EngineState) : Prop :=
  KnownState s st ∧ (st.active = s.state.active → Covers s st)

/-- A file number reserved by `t` under which nothing is written yet. -/
def Reserved (t : ι) (s : Shared ι) (id : ℕ) : Prop :=
  id < s.nextFile ∧ s.owner id = some t ∧ s.files id = none

def Applied (s : Shared ι) (q : ℕ) (ops : List Op) : Prop := ∀ op ∈ ops, op.toRec q ∈ s.applied

def CallerDone (s : Shared ι) : Caller → Prop
  | .commit b q => Applied s q b
  | .flush => True

/-- Program points at which a thread holds `write_lock`. -/
def Pc.holds : Pc → Bool
  | .commitSeqno _ | .commitAppend .. | .commitSync .. | .commitLoad .. | .commitApply ..
  | .rotateLoad _ | .rotateStore .. | .rotateOpen _ | .rotateHeader _ | .unlock _
  | .flushCheck | .flushNumber _ | .flushRelease .. | .compactNumber _ | .compactRelease .. => true
  | _ => false

structure SharedInv (s : Shared ι) : Prop where
  known : KnownState s s.state
  covers : Covers s s.state
  acked : ∀ x ∈ s.acked, Applied s x.1 x.2
  wal_lt : s.walId < s.nextFile
  files_lt : ∀ id recs, s.files id = some recs → id < s.nextFile
  fresh : ∀ id, s.nextMem ≤ id → s.mem id = []

/-- What a thread knows at its program point. -/
def LocalInv (t : ι) (s : Shared ι) : Pc → Prop
  | .commitApply b q target rest =>
    target = s.state.active ∧ ∃ done, b = done ++ rest ∧ Applied s q done
  | .rotateLoad k | .rotateOpen k | .rotateHeader k | .unlock k => CallerDone s k
  | .rotateStore k prev => CallerDone s k ∧ Held s prev ∧ prev.active = s.state.active
  | .flushReserve im | .flushNumber im => KnownImm s im
  | .flushRelease im id | .flushOpen im id => KnownImm s im ∧ Reserved t s id
  | .flushWalk im id seen => KnownImm s im ∧ Reserved t s id ∧ seen = s.mem im.mem
  | .flushReader im id recs | .flushLoad im id recs =>
    KnownImm s im ∧ s.files id = some recs ∧ recs = s.mem im.mem
  | .flushStore im id recs prev =>
    KnownImm s im ∧ s.files id = some recs ∧ recs = s.mem im.mem ∧ Held s prev
  | .compactReserve inputs | .compactNumber inputs => ∀ x ∈ inputs, KnownSst s x
  | .compactRelease inputs id | .compactWrite inputs id =>
    (∀ x ∈ inputs, KnownSst s x) ∧ Reserved t s id
  | .compactPublish inputs id recs =>
    (∀ x ∈ inputs, KnownSst s x) ∧ s.files id = some recs ∧ recs = mergedRecs inputs
  | .compactStore inputs id recs prev =>
    (∀ x ∈ inputs, KnownSst s x) ∧ s.files id = some recs ∧ recs = mergedRecs inputs ∧ Held s prev
  | _ => True

def ThreadInv (t : ι) (s : Shared ι) (pc : Pc) : Prop :=
  (pc.holds = true ↔ s.lock = some t) ∧ LocalInv t s pc

/-- How any step changes the shared state. -/
structure Evolves (s s' : Shared ι) : Prop where
  nextMem_le : s.nextMem ≤ s'.nextMem
  nextFile_le : s.nextFile ≤ s'.nextFile
  walId_le : s.walId ≤ s'.walId
  active : s'.state.active = s.state.active ∨ s.nextMem ≤ s'.state.active
  frozen : ∀ id, Frozen s id → s'.mem id = s.mem id
  grows : ∀ r ∈ s.mem s.state.active, r ∈ s'.mem s.state.active
  walMem : ∀ w, w < s.walId → s'.walMem w = s.walMem w
  files : ∀ id recs, s.files id = some recs → s'.files id = some recs
  applied : ∀ r ∈ s.applied, r ∈ s'.applied
  new_applied : ∀ r ∈ s'.applied, r ∈ s.applied ∨
    (s'.state.active = s.state.active ∧ r ∈ s'.mem s.state.active)

/-- What thread `t` may count on while others run. -/
structure Rely (t : ι) (s s' : Shared ι) : Prop extends Evolves s s' where
  lock : s.lock = some t ↔ s'.lock = some t
  locked : s.lock = some t → s'.state.active = s.state.active
  owned : ∀ id, id < s.nextFile → s.owner id = some t →
    s'.owner id = some t ∧ s'.files id = s.files id

/-! ### Stability -/

section Stable

variable {t : ι} {s s' : Shared ι}

section Evolves

variable (h : Evolves s s')

include h

theorem Frozen.stable {id : ℕ} (hf : Frozen s id) : Frozen s' id := by
  have := h.nextMem_le
  refine ⟨hf.1.trans_le this, ?_⟩
  rcases h.active with ha | ha
  · rw [ha]
    exact hf.2
  · have := hf.1
    omega

theorem KnownImm.stable {x : Imm} (hx : KnownImm s x) : KnownImm s' x :=
  ⟨hx.1.stable h, hx.2.1.trans_le h.walId_le, (h.walMem _ hx.2.1).trans hx.2.2⟩

theorem KnownSst.stable {x : Sst} (hx : KnownSst s x) : KnownSst s' x := h.files _ _ hx

theorem KnownState.stable {st : EngineState} (hst : KnownState s st) : KnownState s' st :=
  ⟨hst.1.trans_le h.nextMem_le, fun x hx => (hst.2.1 x hx).stable h,
    fun x hx => (hst.2.2 x hx).stable h⟩

theorem Held.stable {st : EngineState} (hst : Held s st) : Held s' st := by
  obtain ⟨hk, hc⟩ := hst
  refine ⟨hk.stable h, ?_⟩
  intro hact r hr
  have hsame : s'.state.active = s.state.active := by
    rcases h.active with ha | ha
    · exact ha
    · have := hk.1
      omega
  have hact' : st.active = s.state.active := hact.trans hsame
  rcases h.new_applied r hr with hr | ⟨-, hr⟩
  · rcases hc hact' r hr with hm | ⟨x, hx, hm⟩ | hsst
    · left
      rw [hact'] at hm ⊢
      exact h.grows r hm
    · right; left
      refine ⟨x, hx, ?_⟩
      rw [h.frozen x.mem (hk.2.1 x hx).1]
      exact hm
    · exact .inr (.inr hsst)
  · left
    rw [hact']
    exact hr

theorem Applied.stable {q : ℕ} {ops : List Op} (ha : Applied s q ops) : Applied s' q ops :=
  fun op hop => h.applied _ (ha op hop)

theorem CallerDone.stable {k : Caller} (hk : CallerDone s k) : CallerDone s' k := by
  cases k with
  | commit b q => exact Applied.stable h hk
  | flush => trivial

end Evolves

section Rely

variable (h : Rely t s s')

include h

theorem Reserved.stable {id : ℕ} (hr : Reserved t s id) : Reserved t s' id := by
  obtain ⟨hlt, hown, hnone⟩ := hr
  obtain ⟨hown', hfiles⟩ := h.owned id hlt hown
  exact ⟨hlt.trans_le h.nextFile_le, hown', hfiles.trans hnone⟩

theorem LocalInv.stable {pc : Pc} (hl : LocalInv t s pc) (hlock : pc.holds = true → s.lock = some t) :
    LocalInv t s' pc := by
  have hact : pc.holds = true → s'.state.active = s.state.active :=
    fun hh => h.locked (hlock hh)
  have he := h.toEvolves
  have hssts : ∀ inputs : List Sst, (∀ x ∈ inputs, KnownSst s x) → ∀ x ∈ inputs, KnownSst s' x :=
    fun inputs hi x hx => (hi x hx).stable he
  cases pc with
  | commitApply b q target rest =>
    obtain ⟨ht, done, hb, hdone⟩ := hl
    exact ⟨ht.trans (hact rfl).symm, done, hb, hdone.stable he⟩
  | rotateLoad k => exact CallerDone.stable he hl
  | rotateOpen k => exact CallerDone.stable he hl
  | rotateHeader k => exact CallerDone.stable he hl
  | unlock k => exact CallerDone.stable he hl
  | rotateStore k prev =>
    exact ⟨hl.1.stable he, hl.2.1.stable he, hl.2.2.trans (hact rfl).symm⟩
  | flushReserve im => exact KnownImm.stable he hl
  | flushNumber im => exact KnownImm.stable he hl
  | flushRelease im id => exact ⟨hl.1.stable he, hl.2.stable h⟩
  | flushOpen im id => exact ⟨hl.1.stable he, hl.2.stable h⟩
  | flushWalk im id seen =>
    exact ⟨hl.1.stable he, hl.2.1.stable h, hl.2.2.trans (h.frozen _ hl.1.1).symm⟩
  | flushReader im id recs =>
    exact ⟨hl.1.stable he, h.files _ _ hl.2.1, hl.2.2.trans (h.frozen _ hl.1.1).symm⟩
  | flushLoad im id recs =>
    exact ⟨hl.1.stable he, h.files _ _ hl.2.1, hl.2.2.trans (h.frozen _ hl.1.1).symm⟩
  | flushStore im id recs prev =>
    exact ⟨hl.1.stable he, h.files _ _ hl.2.1, hl.2.2.1.trans (h.frozen _ hl.1.1).symm,
      hl.2.2.2.stable he⟩
  | compactReserve inputs => exact hssts inputs hl
  | compactNumber inputs => exact hssts inputs hl
  | compactRelease inputs id => exact ⟨hssts inputs hl.1, hl.2.stable h⟩
  | compactWrite inputs id => exact ⟨hssts inputs hl.1, hl.2.stable h⟩
  | compactPublish inputs id recs => exact ⟨hssts inputs hl.1, h.files _ _ hl.2.1, hl.2.2⟩
  | compactStore inputs id recs prev =>
    exact ⟨hssts inputs hl.1, h.files _ _ hl.2.1, hl.2.2.1, hl.2.2.2.stable he⟩
  | _ => trivial

theorem ThreadInv.stable {pc : Pc} (hi : ThreadInv t s pc) : ThreadInv t s' pc :=
  ⟨hi.1.trans h.lock, hi.2.stable h hi.1.mp⟩

end Rely

end Stable

end PaddockKV.Concurrent
