import PaddockKV.Concurrent.Base

/-!
# The effects of the calls

A step changes the shared state in one of a few ways: bookkeeping, the lock, an
insert, a rotation, a reserved file number, a written file, a published state.
Each keeps `SharedInv` and is what the other threads rely on.
-/

namespace PaddockKV.Concurrent

open Wal

variable {ι : Type} {t u : ι} {s : Shared ι}

theorem Evolves.refl (s : Shared ι) : Evolves s s where
  nextMem_le := le_rfl
  nextFile_le := le_rfl
  walId_le := le_rfl
  active := .inl rfl
  frozen _ _ := rfl
  grows _ hr := hr
  walMem _ _ := rfl
  files _ _ hf := hf
  applied _ hr := hr
  new_applied _ hr := .inl hr

theorem Rely.refl (u : ι) (s : Shared ι) : Rely u s s :=
  { Evolves.refl s with lock := Iff.rfl, locked := fun _ => rfl, owned := fun _ _ ho => ⟨ho, rfl⟩ }

theorem SharedInv.of_evolves {s' : Shared ι} (h : SharedInv s) (he : Evolves s s')
    (hstate : s'.state = s.state) (hacked : s'.acked = s.acked) (hwal : s'.walId < s'.nextFile)
    (hfiles : ∀ id recs, s'.files id = some recs → id < s'.nextFile)
    (hfresh : ∀ id, s'.nextMem ≤ id → s'.mem id = []) : SharedInv s' where
  known := by
    rw [hstate]
    exact h.known.stable he
  covers := by
    have hheld : Held s s.state := ⟨h.known, fun _ => h.covers⟩
    rw [hstate]
    exact (hheld.stable he).2 (by rw [hstate])
  acked x hx := by
    rw [hacked] at hx
    exact (h.acked x hx).stable he
  wal_lt := hwal
  files_lt := hfiles
  fresh := hfresh

/-! ### Bookkeeping and the lock -/

/-- The parts of the shared state that no invariant of this group reads. -/
def Shared.note (s : Shared ι) (seqno : ℕ) (history : List (ℕ × WriteBatch))
    (inflight : Option ℕ) (bytes : ℕ) (snaps : List ℕ) (reads : List Read) : Shared ι :=
  { s with
    seqno := seqno, history := history, inflight := inflight, bytes := bytes, snaps := snaps,
    reads := reads }

section Note

variable {seqno : ℕ} {history : List (ℕ × WriteBatch)} {inflight : Option ℕ} {bytes : ℕ}
  {snaps : List ℕ} {reads : List Read}

theorem SharedInv.note (h : SharedInv s) :
    SharedInv (s.note seqno history inflight bytes snaps reads) :=
  ⟨h.known, h.covers, h.acked, h.wal_lt, h.files_lt, h.fresh⟩

theorem rely_note : Rely u s (s.note seqno history inflight bytes snaps reads) :=
  { Rely.refl u s with }

theorem LocalInv.note {pc : Pc} (h : LocalInv t s pc) :
    LocalInv t (s.note seqno history inflight bytes snaps reads) pc := by
  cases pc <;> exact h

end Note

theorem rely_lock {l : Option ι} {acked : List (ℕ × WriteBatch)}
    (h : s.lock = some u ↔ l = some u) : Rely u s { s with lock := l, acked := acked } :=
  { Rely.refl u s with lock := h }

theorem SharedInv.lock (h : SharedInv s) {l : Option ι} {acked : List (ℕ × WriteBatch)}
    (ha : ∀ x ∈ acked, Applied s x.1 x.2) : SharedInv { s with lock := l, acked := acked } :=
  ⟨h.known, h.covers, ha, h.wal_lt, h.files_lt, h.fresh⟩

theorem LocalInv.lock {pc : Pc} (h : LocalInv t s pc) {l : Option ι}
    {acked : List (ℕ × WriteBatch)} : LocalInv t { s with lock := l, acked := acked } pc := by
  cases pc <;> exact h

/-! ### Inserts -/

/-- The insert that the step from a program point makes. -/
def Pc.inserts : Pc → Option (ℕ × Rec)
  | .commitApply _ q target (op :: _) => some (target, op.toRec q)
  | _ => none

theorem begin_shared {s' : Shared ι} {pc' : Pc} {c : Call} (h : begin s c = some (s', pc')) :
    s' = s := by
  cases c with
  | getAt key snapshot =>
    obtain ⟨-, heq⟩ := Option.ite_none_right_eq_some.mp h
    cases heq
    rfl
  | range start stop snapshot =>
    obtain ⟨-, heq⟩ := Option.ite_none_right_eq_some.mp h
    cases heq
    rfl
  | _ =>
    cases h
    rfl

theorem acquire_mem {s' : Shared ι} {pc pc' : Pc} (h : acquire t s pc = some (s', pc')) :
    s'.mem = s.mem := by
  obtain ⟨-, heq⟩ := Option.ite_none_right_eq_some.mp h
  cases heq
  rfl

/-- Only an insert changes a memtable. -/
theorem act_mem {threshold : ℕ} {a : Choice} {s' : Shared ι} {pc pc' : Pc}
    (h : act threshold t s pc a = some (s', pc')) :
    s'.mem = s.mem ∨ ∃ target r, pc.inserts = some (target, r) ∧
      s'.mem = Function.update s.mem target (insertRec r (s.mem target)) := by
  revert h
  fun_cases act threshold t s pc a
  all_goals
    intro h
    first
    | cases h; done
    | cases h; exact .inl rfl
    | cases h; exact .inr ⟨_, _, rfl, rfl⟩
    | exact .inl (congrArg Shared.mem (begin_shared h))
    | exact .inl (acquire_mem h)
    | obtain ⟨out, -, heq⟩ := Option.map_eq_some_iff.mp h
      cases heq
      exact .inl rfl

theorem mem_insert_active (s : Shared ι) (r : Rec) :
    (s.insert s.state.active r).mem s.state.active = insertRec r (s.mem s.state.active) := by
  simp [Shared.insert]

theorem evolves_insert (s : Shared ι) (r : Rec) : Evolves s (s.insert s.state.active r) :=
  { Evolves.refl s with
    frozen := by
      intro id hf
      simp [Shared.insert, hf.2]
    grows := by
      intro x hx
      rw [mem_insert_active, mem_insertRec]
      exact .inr hx
    applied := fun x hx => List.mem_cons_of_mem r hx
    new_applied := by
      intro x hx
      rcases List.mem_cons.mp hx with rfl | hx
      · refine .inr ⟨rfl, ?_⟩
        rw [mem_insert_active, mem_insertRec]
        exact .inl rfl
      · exact .inl hx }

theorem rely_insert (hu : s.lock ≠ some u) (r : Rec) : Rely u s (s.insert s.state.active r) :=
  { evolves_insert s r with
    lock := Iff.rfl, locked := fun hl => absurd hl hu, owned := fun _ _ ho => ⟨ho, rfl⟩ }

theorem SharedInv.insert (h : SharedInv s) (r : Rec) :
    SharedInv (s.insert s.state.active r) := by
  refine h.of_evolves (evolves_insert s r) rfl rfl h.wal_lt h.files_lt ?_
  intro id hid
  have hid' : s.nextMem ≤ id := hid
  have hne : id ≠ s.state.active := by
    have := h.known.1
    omega
  simp only [Shared.insert, Function.update_of_ne hne]
  exact h.fresh id hid'

/-! ### Rotation -/

theorem evolves_rotate (h : SharedInv s) (prev : EngineState) : Evolves s (s.rotate prev) :=
  { Evolves.refl s with
    nextMem_le := Nat.le_succ _
    nextFile_le := Nat.le_succ _
    walId_le := h.wal_lt.le
    active := .inr le_rfl
    walMem := by
      intro w hw
      simp [Shared.rotate, hw.ne]
    new_applied := fun _ hr => .inl hr }

theorem rely_rotate (h : SharedInv s) (hu : s.lock ≠ some u) (prev : EngineState) :
    Rely u s (s.rotate prev) :=
  { evolves_rotate h prev with
    lock := Iff.rfl, locked := fun hl => absurd hl hu, owned := fun _ _ ho => ⟨ho, rfl⟩ }

theorem SharedInv.rotate (h : SharedInv s) {prev : EngineState} (hprev : Held s prev)
    (hact : prev.active = s.state.active) : SharedInv (s.rotate prev) where
  known := by
    have he := evolves_rotate h prev
    refine ⟨Nat.lt_succ_self _, ?_, fun x hx => (hprev.1.2.2 x hx).stable he⟩
    intro x hx
    rcases List.mem_cons.mp hx with rfl | hx
    · have hlt : prev.active < s.nextMem := hprev.1.1
      refine ⟨⟨hlt.trans (Nat.lt_succ_self _), hlt.ne⟩, h.wal_lt, ?_⟩
      simp [Shared.rotate]
    · exact (hprev.1.2.1 x hx).stable he
  covers := by
    intro r hr
    rcases hprev.2 hact r hr with hm | ⟨x, hx, hm⟩ | ⟨x, hx, hm⟩
    · exact .inr (.inl ⟨⟨prev.active, s.walId⟩, by simp [Shared.rotate], hm⟩)
    · exact .inr (.inl ⟨x, by simp [Shared.rotate, hx], hm⟩)
    · exact .inr (.inr ⟨x, hx, hm⟩)
  acked := h.acked
  wal_lt := Nat.lt_succ_self _
  files_lt id recs hf := (h.files_lt id recs hf).trans (Nat.lt_succ_self _)
  fresh id hid := h.fresh id ((Nat.le_succ _).trans hid)

/-! ### Files -/

theorem rely_reserve : Rely u s (s.reserve t) :=
  { Rely.refl u s with
    nextFile_le := Nat.le_succ _
    owned := by
      intro id hid ho
      simp [Shared.reserve, hid.ne, ho] }

theorem SharedInv.reserve (h : SharedInv s) : SharedInv (s.reserve t) :=
  h.of_evolves (@rely_reserve _ t t s).toEvolves rfl rfl (h.wal_lt.trans (Nat.lt_succ_self _))
    (fun id recs hf => (h.files_lt id recs hf).trans (Nat.lt_succ_self _)) h.fresh

theorem reserved_reserve (h : SharedInv s) : Reserved t (s.reserve t) s.nextFile := by
  refine ⟨Nat.lt_succ_self _, by simp [Shared.reserve], ?_⟩
  cases hf : s.files s.nextFile with
  | none => exact hf
  | some recs => exact absurd (h.files_lt _ _ hf) (lt_irrefl _)

theorem evolves_write {id : ℕ} (hr : Reserved t s id) (recs : List Rec) :
    Evolves s (s.write id recs) :=
  { Evolves.refl s with
    files := by
      intro id' recs' hf
      have hne : id' ≠ id := by
        rintro rfl
        rw [hr.2.2] at hf
        cases hf
      simp [Shared.write, hne, hf] }

theorem rely_write {id : ℕ} (hr : Reserved t s id) (recs : List Rec) (hu : u ≠ t) :
    Rely u s (s.write id recs) :=
  { evolves_write hr recs with
    lock := Iff.rfl
    locked := fun _ => rfl
    owned := by
      intro id' hid ho
      have hne : id' ≠ id := by
        rintro rfl
        rw [hr.2.1] at ho
        exact hu (Option.some.inj ho).symm
      simp [Shared.write, hne, ho] }

theorem SharedInv.write (h : SharedInv s) {id : ℕ} (hr : Reserved t s id) (recs : List Rec) :
    SharedInv (s.write id recs) := by
  refine h.of_evolves (evolves_write hr recs) rfl rfl h.wal_lt ?_ h.fresh
  intro id' recs' hf
  by_cases hid : id' = id
  · subst hid
    exact hr.1
  · simp only [Shared.write, Function.update_of_ne hid] at hf
    exact h.files_lt id' recs' hf

/-! ### Published states -/

theorem evolves_publish {st : EngineState} (hact : st.active = s.state.active) :
    Evolves s { s with state := st } :=
  { Evolves.refl s with
    active := .inl hact
    new_applied := fun _ hr => .inl hr }

theorem rely_publish {st : EngineState} (hact : st.active = s.state.active) :
    Rely u s { s with state := st } :=
  { evolves_publish hact with
    lock := Iff.rfl, locked := fun _ => hact, owned := fun _ _ ho => ⟨ho, rfl⟩ }

theorem SharedInv.publish (h : SharedInv s) {st : EngineState} (hk : KnownState s st)
    (hact : st.active = s.state.active) (hc : Covers s st) : SharedInv { s with state := st } where
  known := hk.stable (evolves_publish hact)
  covers := hc
  acked := h.acked
  wal_lt := h.wal_lt
  files_lt := h.files_lt
  fresh := h.fresh

end PaddockKV.Concurrent
