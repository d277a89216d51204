import PaddockKV.Concurrent.ProbeOrder

/-!
# Flushes and compactions at the same time

`compact_all` takes the live tables as its inputs and, when its output is
written, loads the state again and makes room for
`prev.sstables.len() - inputs.len() + 1` tables. The subtraction is safe as long
as every input is still live then.
-/

namespace PaddockKV.Concurrent

open Transition

variable {ι : Type} {t u : ι} {s s' : Shared ι} {pc pc' : Pc}

/-- The inputs of a `compact_all` that has not published yet. -/
def Pc.inputs : Pc → Option (List Sst)
  | .compactReserve inputs => some inputs
  | .compactNumber inputs => some inputs
  | .compactRelease inputs _ => some inputs
  | .compactWrite inputs _ => some inputs
  | .compactPublish inputs _ _ => some inputs
  | .compactStore inputs _ _ _ => some inputs
  | _ => none

/-- The state a call has loaded and is about to replace. -/
def Pc.prev : Pc → Option EngineState
  | .rotateStore _ prev => some prev
  | .flushStore _ _ _ prev => some prev
  | .compactStore _ _ _ prev => some prev
  | _ => none

/-- The live tables after a step from `pc`. -/
def Pc.tables (ssts : List Sst) : Pc → List Sst
  | .rotateStore _ prev => prev.ssts
  | .flushStore im id recs prev => (flushed im id recs prev).ssts
  | .compactStore inputs id recs prev => (compacted inputs id recs prev).ssts
  | _ => ssts

/-! ### What a step does to the tables -/

structure TableStep (s : Shared ι) (pc : Pc) (s' : Shared ι) (pc' : Pc) : Prop where
  tables : s'.state.ssts = pc.tables s.state.ssts
  inputs : ∀ i ∈ pc'.inputs, s'.state.ssts = s.state.ssts ∧ (i ∈ pc.inputs ∨ i = s.state.ssts)
  prev : ∀ p ∈ pc'.prev, p = s.state

theorem TableStep.aside (htables : pc.tables s.state.ssts = s.state.ssts)
    (hstate : s'.state = s.state) (hinputs : pc'.inputs = none ∨ pc'.inputs = pc.inputs)
    (hprev : pc'.prev = none) : TableStep s pc s' pc' where
  tables := by rw [hstate, htables]
  inputs := by
    intro i hi
    rw [hstate]
    rcases hinputs with hnone | hsame
    · rw [hnone] at hi
      cases hi
    · exact ⟨rfl, .inl (hsame ▸ hi)⟩
  prev := by
    intro p hp
    rw [hprev] at hp
    cases hp

theorem tableStep_begin {c : Call} (h : begin s c = some (s', pc')) : TableStep s .idle s' pc' := by
  cases c with
  | getAt key snapshot =>
    obtain ⟨-, heq⟩ := Option.ite_none_right_eq_some.mp h
    cases heq
    exact .aside rfl rfl (.inl rfl) rfl
  | range start stop snapshot =>
    obtain ⟨-, heq⟩ := Option.ite_none_right_eq_some.mp h
    cases heq
    exact .aside rfl rfl (.inl rfl) rfl
  | _ =>
    cases h
    exact .aside rfl rfl (.inl rfl) rfl

theorem tableStep_acquire {k : Pc} (h : acquire t s k = some (s', pc'))
    (htables : pc.tables s.state.ssts = s.state.ssts)
    (hinputs : k.inputs = none ∨ k.inputs = pc.inputs) (hprev : k.prev = none) :
    TableStep s pc s' pc' := by
  obtain ⟨-, heq⟩ := Option.ite_none_right_eq_some.mp h
  cases heq
  exact .aside htables rfl hinputs hprev

theorem TableStep.of_some {x : Shared ι × Pc} (h : some x = some (s', pc'))
    (hx : TableStep s pc x.1 x.2) : TableStep s pc s' pc' := by
  cases h
  exact hx

theorem TableStep.of_map {α : Type} {o : Option α} {f : α → Shared ι × Pc}
    (h : o.map f = some (s', pc')) (hx : ∀ x, TableStep s pc (f x).1 (f x).2) :
    TableStep s pc s' pc' := by
  obtain ⟨x, -, heq⟩ := Option.map_eq_some_iff.mp h
  exact .of_some (congrArg some heq) (hx x)

theorem TableStep.ite {p : Prop} [Decidable p] {k : Pc} (h : TableStep s pc s' pc')
    (hk : TableStep s pc s' k) : TableStep s pc s' (if p then pc' else k) := by
  split
  · exact h
  · exact hk

theorem act_tableStep {threshold : ℕ} {a : Choice}
    (h : act threshold t s pc a = some (s', pc')) : TableStep s pc s' pc' := by
  revert h
  fun_cases act threshold t s pc a
  all_goals
    intro h
    first
    | cases h; done
    -- a call that only moves on
    | exact .of_some h (.aside rfl rfl (.inl rfl) rfl)
    | exact .of_some h (.aside rfl rfl (.inr rfl) rfl)
    | exact .of_map h fun _ => .aside rfl rfl (.inl rfl) rfl
    | exact .of_some h (.ite (.aside rfl rfl (.inl rfl) rfl) (.aside rfl rfl (.inl rfl) rfl))
    | exact tableStep_begin h
    | exact tableStep_acquire h rfl (.inl rfl) rfl
    | exact tableStep_acquire h rfl (.inr rfl) rfl
    -- a load or a store of the state
    | exact .of_some h
        (.ite (.aside rfl rfl (.inl rfl) rfl) ⟨rfl, by simp [Pc.inputs], by simp [Pc.prev]⟩)
    | exact .of_some h ⟨rfl, by simp [Pc.inputs], by simp [Pc.prev]⟩

/-! ### The inputs stay live -/

/-- About to store the state without the inputs. -/
def Pc.compacts : Pc → Bool
  | .compactStore _ _ _ _ => true
  | _ => false

theorem tables_sublist (hprev : ∀ p ∈ pc.prev, p.ssts = s.state.ssts) (hc : pc.compacts = false) :
    s.state.ssts.Sublist (pc.tables s.state.ssts) := by
  cases pc with
  | rotateStore k prev => exact (hprev prev rfl) ▸ List.Sublist.refl _
  | flushStore im id recs prev => exact (hprev prev rfl) ▸ List.sublist_cons_self _ _
  | compactStore inputs id recs prev => cases hc
  | _ => exact List.Sublist.refl _

structure Captured (s : Shared ι) (pc : Pc) : Prop where
  live : ∀ i ∈ pc.inputs, i.Sublist s.state.ssts
  loaded : ∀ i ∈ pc.inputs, ∀ p ∈ pc.prev, i.Sublist p.ssts

/-- No table list was published since the call loaded the one it replaces, and a
compaction publishes while no other one holds its inputs. -/
def Alone (c : Sys ι) (x : ι × Choice) : Prop :=
  (∀ p ∈ (c.pc x.1).prev, p.ssts = c.shared.state.ssts) ∧
    ((c.pc x.1).compacts = true → ∀ u, u ≠ x.1 → (c.pc u).inputs = none)

theorem Captured.step (hI : Captured s pc) (h : TableStep s pc s' pc') : Captured s' pc' := by
  have hlive : ∀ i ∈ pc'.inputs, s'.state.ssts = s.state.ssts ∧ i.Sublist s.state.ssts := by
    intro i hi
    obtain ⟨hsame, hold | rfl⟩ := h.inputs i hi
    · exact ⟨hsame, hI.live i hold⟩
    · exact ⟨hsame, List.Sublist.refl _⟩
  refine ⟨fun i hi => ?_, fun i hi p hp => ?_⟩
  · rw [(hlive i hi).1]
    exact (hlive i hi).2
  · rw [h.prev p hp]
    exact (hlive i hi).2

theorem Captured.grow (hI : Captured s pc) (h : s.state.ssts.Sublist s'.state.ssts) :
    Captured s' pc :=
  ⟨fun i hi => (hI.live i hi).trans h, hI.loaded⟩

theorem Captured.outside (h : pc.inputs = none) : Captured s pc := by
  constructor <;> simp [h]

theorem captured_inv [DecidableEq ι] {threshold : ℕ} {c : Sys ι}
    (h : Reach (step threshold) Alone Sys.init c) (t : ι) : Captured c.shared (c.pc t) := by
  refine h.invariant (I := fun c => ∀ t, Captured c.shared (c.pc t)) (fun t => .outside rfl) ?_ t
  rintro c ⟨t, a⟩ c' hI ⟨hprev, halone⟩ hn
  obtain ⟨s', pc', hact, rfl⟩ := Threads.next_eq_some hn
  have hstep := act_tableStep hact
  intro u
  by_cases hu : u = t
  · subst hu
    simpa using (hI u).step hstep
  · simp only [Function.update_of_ne hu]
    cases hc : (c.pc t).compacts with
    | true => exact .outside (halone hc u hu)
    | false =>
      refine (hI u).grow ?_
      rw [hstep.tables]
      exact tables_sublist hprev hc

/-! ### The capacity of the new list -/

/-- `prev.sstables.len() - inputs.len() + 1`; the subtraction panics below zero. -/
def capacity (inputs : List Sst) (prev : EngineState) : Option ℕ :=
  if inputs.length ≤ prev.ssts.length then some (prev.ssts.length - inputs.length + 1) else none

def Pc.panics : Pc → Bool
  | .compactStore inputs _ _ prev => (capacity inputs prev).isNone
  | _ => false

/-- Every input is in the list the call replaces. -/
def Pc.InputsLive : Pc → Prop
  | .compactStore inputs _ _ prev => ∀ x ∈ inputs, x ∈ prev.ssts
  | _ => True

theorem compaction_inputs_live [DecidableEq ι] {threshold : ℕ} {c : Sys ι}
    (h : Reach (step threshold) Alone Sys.init c) (t : ι) :
    (c.pc t).panics = false ∧ (c.pc t).InputsLive := by
  have hI := captured_inv h t
  cases hpc : c.pc t with
  | compactStore inputs id recs prev =>
    rw [hpc] at hI
    have hsub : inputs.Sublist prev.ssts := hI.loaded inputs rfl prev rfl
    refine ⟨?_, fun x hx => hsub.subset hx⟩
    simp [Pc.panics, capacity, hsub.length_le]
  | _ => exact ⟨rfl, trivial⟩

/-- Puts `k` and flushes it with sequence number `q`. -/
def commitAndFlush (k : Byte) (q : ℕ) : List (Thread × Choice) :=
  commitRun k ++ (.writer, .call .flush) :: times 12 .writer ++
    (.writer, .met [⟨[k], q, .put, [k]⟩]) :: times 5 .writer

/-- `compact_all` until its output is written. -/
def compactToWritten (t : Thread) : List (Thread × Choice) := (t, .call .compact) :: times 5 t

instance (c : Sys Thread) (x : Thread × Choice) : Decidable (Alone c x) :=
  inferInstanceAs (Decidable (_ ∧ _))

/-- A flush publishes while the compaction writes its output. -/
theorem compaction_inputs_live_flush :
    ∃ c, Reach (step 1000) Alone (Sys.init : Sys Thread) c ∧ (c.pc .first).compacts = true ∧
      (c.pc .first).panics = false ∧ (c.pc .first).InputsLive := by
  have hrun : (runOk (step 1000) (fun c x => decide (Alone c x)) Sys.init
      (commitAndFlush 1 1 ++ commitAndFlush 2 2 ++ compactToWritten .first ++ commitAndFlush 3 3 ++
        times 1 .first)).map (fun c => (c.pc .first).compacts) = some true := by
    decide +kernel
  obtain ⟨c, hreach, hp⟩ := reach_of_runDecided hrun
  exact ⟨c, hreach, hp, compaction_inputs_live hreach .first⟩

/-- Two compactions take the same two tables; when the first has published, the
second finds one table where it has two inputs. -/
theorem second_compaction_panics :
    ∃ c, Reach (step 1000) always (Sys.init : Sys Thread) c ∧ (c.pc .second).panics = true := by
  have hrun : (run (step 1000) (Sys.init : Sys Thread)
      (commitAndFlush 1 1 ++ commitAndFlush 2 2 ++ compactToWritten .first ++
        compactToWritten .second ++ times 2 .first ++ times 1 .second)).map
      (fun c => (c.pc .second).panics) = some true := by
    decide +kernel
  exact reach_of_run hrun

/-- One compaction is enough when a flush stores a list it loaded long before:
both inputs are dropped from under it. -/
example : (run (step 1000) (Sys.init : Sys Thread)
    (commitRun 1 ++ flushToLoad ++ (.writer, .call .flush) :: times 8 .writer ++
      (.writer, .met [⟨[1], 1, .put, [1]⟩]) :: times 5 .writer ++ commitAndFlush 2 2 ++
      compactToWritten .second ++ times 1 .first ++ times 1 .second)).map
    (fun c => (c.pc .second).panics) = some true := by
  decide +kernel

end PaddockKV.Concurrent
