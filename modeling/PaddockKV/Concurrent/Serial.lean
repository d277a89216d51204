import PaddockKV.Concurrent.Maintenance

/-!
# Commits one after the other

Whatever threads run beside them, commits take their numbers, write and insert while
they hold `write_lock`. So the records go into the memtables in the order of the
commits, and only the last commit can be under way.
-/

namespace PaddockKV.Concurrent

open Wal Engine History Transition

variable {ι : Type} {t u : ι} {s s' : Shared ι} {pc pc' : Pc}

/-- A commit that has its number, and the operations it has not inserted yet. -/
structure Writing where
  seqno : ℕ
  batch : WriteBatch
  rest : List Op
  deriving DecidableEq

def Caller.writing : Caller → Option Writing
  | .commit b q => some ⟨q, b, []⟩
  | .flush => none

def Pc.writing : Pc → Option Writing
  | .commitAppend b q | .commitSync b q | .commitLoad b q => some ⟨q, b, b⟩
  | .commitApply b q _ rest => some ⟨q, b, rest⟩
  | .rotateLoad k | .rotateStore k _ | .rotateOpen k | .rotateHeader k | .unlock k => k.writing
  | _ => none

theorem holds_of_writing {w : Writing} (h : pc.writing = some w) : pc.holds = true := by
  cases pc with
  | commitAppend b q => rfl
  | commitSync b q => rfl
  | commitLoad b q => rfl
  | commitApply b q target rest => rfl
  | rotateLoad k => rfl
  | rotateStore k prev => rfl
  | rotateOpen k => rfl
  | rotateHeader k => rfl
  | unlock k => rfl
  | _ => cases h

/-! ### What a step does to the commits -/

structure SameCommits (s s' : Shared ι) : Prop where
  seqno : s'.seqno = s.seqno
  history : s'.history = s.history
  applied : s'.applied = s.applied
  acked : s'.acked = s.acked

inductive WriteStep (t : ι) (s : Shared ι) (pc : Pc) (s' : Shared ι) (pc' : Pc) : Prop where
  | aside (h : SameCommits s s') (hlock : s'.lock = s.lock) (hholds : pc'.holds = pc.holds)
    (hw : pc'.writing = pc.writing)
  | acquired (h : SameCommits s s') (hfree : s.lock = none) (hlock : s'.lock = some t)
    (hholds' : pc'.holds = true) (hw : pc.writing = none) (hw' : pc'.writing = none)
  | released (h : SameCommits s s') (hholds : pc.holds = true) (hlock : s'.lock = none)
    (hholds' : pc'.holds = false) (hw : pc.writing = none) (hw' : pc'.writing = none)
  | numbered (b : WriteBatch) (hholds : pc.holds = true) (hw : pc.writing = none)
    (hlock : s'.lock = s.lock) (hseqno : s'.seqno = s.seqno + 1)
    (hhistory : s'.history = s.history ++ [(s.seqno + 1, b)]) (happlied : s'.applied = s.applied)
    (hacked : s'.acked = s.acked) (hw' : pc'.writing = some ⟨s.seqno + 1, b, b⟩)
  | inserted {q : ℕ} {b : WriteBatch} {op : Op} {rest : List Op}
    (hw : pc.writing = some ⟨q, b, op :: rest⟩) (hlock : s'.lock = s.lock)
    (hseqno : s'.seqno = s.seqno) (hhistory : s'.history = s.history)
    (happlied : s'.applied = op.toRec q :: s.applied) (hacked : s'.acked = s.acked)
    (hw' : pc'.writing = some ⟨q, b, rest⟩)
  | acknowledged {q : ℕ} {b : WriteBatch} (hw : pc.writing = some ⟨q, b, []⟩)
    (hlock : s'.lock = none) (hseqno : s'.seqno = s.seqno) (hhistory : s'.history = s.history)
    (happlied : s'.applied = s.applied) (hacked : s'.acked = (q, b) :: s.acked)
    (hholds' : pc'.holds = false) (hw' : pc'.writing = none)

theorem WriteStep.of_some {x : Shared ι × Pc} (h : some x = some (s', pc'))
    (hx : WriteStep t s pc x.1 x.2) : WriteStep t s pc s' pc' := by
  cases h
  exact hx

theorem WriteStep.of_map {α : Type} {o : Option α} {f : α → Shared ι × Pc}
    (h : o.map f = some (s', pc')) (hx : ∀ x, WriteStep t s pc (f x).1 (f x).2) :
    WriteStep t s pc s' pc' := by
  obtain ⟨x, -, heq⟩ := Option.map_eq_some_iff.mp h
  exact .of_some (congrArg some heq) (hx x)

theorem WriteStep.ite {p : Prop} [Decidable p] {k : Pc} (h : WriteStep t s pc s' pc')
    (hk : WriteStep t s pc s' k) : WriteStep t s pc s' (if p then pc' else k) := by
  split
  · exact h
  · exact hk

theorem writeStep_begin {c : Call} (h : begin s c = some (s', pc')) :
    WriteStep t s .idle s' pc' := by
  cases c with
  | getAt key snapshot =>
    obtain ⟨-, heq⟩ := Option.ite_none_right_eq_some.mp h
    cases heq
    exact .aside ⟨rfl, rfl, rfl, rfl⟩ rfl rfl rfl
  | range start stop snapshot =>
    obtain ⟨-, heq⟩ := Option.ite_none_right_eq_some.mp h
    cases heq
    exact .aside ⟨rfl, rfl, rfl, rfl⟩ rfl rfl rfl
  | _ =>
    cases h
    exact .aside ⟨rfl, rfl, rfl, rfl⟩ rfl rfl rfl

theorem writeStep_acquire {k : Pc} (h : acquire t s k = some (s', pc')) (hk : k.holds = true)
    (hw : pc.writing = none) (hkw : k.writing = none) : WriteStep t s pc s' pc' := by
  obtain ⟨hfree, heq⟩ := Option.ite_none_right_eq_some.mp h
  cases heq
  exact .acquired ⟨rfl, rfl, rfl, rfl⟩ (Option.isNone_iff_eq_none.mp hfree) rfl hk hw hkw

theorem act_writeStep {threshold : ℕ} {a : Choice} (h : act threshold t s pc a = some (s', pc')) :
    WriteStep t s pc s' pc' := by
  revert h
  fun_cases act threshold t s pc a
  all_goals
    intro h
    first
    | cases h; done
    | exact writeStep_begin h
    | exact writeStep_acquire h rfl rfl rfl
    | exact .of_some h (.aside ⟨rfl, rfl, rfl, rfl⟩ rfl rfl rfl)
    | exact .of_map h fun _ => .aside ⟨rfl, rfl, rfl, rfl⟩ rfl rfl rfl
    | exact .of_some h (.ite (.aside ⟨rfl, rfl, rfl, rfl⟩ rfl rfl rfl)
        (.aside ⟨rfl, rfl, rfl, rfl⟩ rfl rfl rfl))
    | exact .of_some h (.released ⟨rfl, rfl, rfl, rfl⟩ rfl rfl rfl rfl rfl)
    | exact .of_some h (.numbered _ rfl rfl rfl rfl rfl rfl rfl rfl)
    | exact .of_some h (.inserted rfl rfl rfl rfl rfl rfl rfl)
    | exact .of_some h (.acknowledged rfl rfl rfl rfl rfl rfl rfl rfl)

/-! ### The order of the records -/

/-- The records a commit under way has still to insert. -/
def Writing.records (w : Writing) : List Rec := w.rest.map (Op.toRec w.seqno)

/-- Commits are numbered from one on, and the records of the history were inserted in
order, up to those the commit under way has to insert. -/
structure Ordered (seqno : ℕ) (history : List (ℕ × WriteBatch)) (applied : List Rec)
    (acked : List (ℕ × WriteBatch)) (current : Option Writing) : Prop where
  numbers : history.map Prod.fst = List.range' 1 seqno
  order : applied.reverse ++ (current.map Writing.records).getD [] = records history
  last : ∀ w ∈ current, history.getLast? = some (w.seqno, w.batch) ∧ (w.seqno, w.batch) ∉ acked
  made : ∀ x ∈ acked, x ∈ history
  once : acked.Nodup

section

variable {n : ℕ} {hist acks : List (ℕ × WriteBatch)} {recs : List Rec} {w : Option Writing}
  {q : ℕ} {b : WriteBatch} {op : Op} {rest : List Op}

theorem Ordered.number (h : Ordered n hist recs acks none) :
    Ordered (n + 1) (hist ++ [(n + 1, b)]) recs acks (some ⟨n + 1, b, b⟩) := by
  constructor
  · rw [List.map_append, h.numbers, List.range'_concat, Nat.one_mul, Nat.add_comm 1]
    rfl
  · have horder := h.order
    simp only [Option.map_none, Option.getD_none, List.append_nil] at horder
    rw [horder, records_append]
    simp [Writing.records, History.records]
  · rintro w ⟨⟩
    refine ⟨List.getLast?_concat, ?_⟩
    intro hmem
    have hnum : n + 1 ∈ hist.map Prod.fst := List.mem_map_of_mem (h.made _ hmem)
    rw [h.numbers, List.mem_range'_1] at hnum
    omega
  · intro x hx
    exact List.mem_append_left _ (h.made x hx)
  · exact h.once

theorem Ordered.insert (h : Ordered n hist recs acks (some ⟨q, b, op :: rest⟩)) :
    Ordered n hist (op.toRec q :: recs) acks (some ⟨q, b, rest⟩) := by
  refine ⟨h.numbers, ?_, ?_, h.made, h.once⟩
  · rw [List.reverse_cons, List.append_assoc]
    exact h.order
  · rintro w ⟨⟩
    exact h.last ⟨q, b, op :: rest⟩ rfl

theorem Ordered.acknowledge (h : Ordered n hist recs acks (some ⟨q, b, []⟩)) :
    Ordered n hist recs ((q, b) :: acks) none := by
  obtain ⟨hlast, hnew⟩ := h.last _ rfl
  refine ⟨h.numbers, h.order, nofun, ?_, List.nodup_cons.mpr ⟨hnew, h.once⟩⟩
  intro x hx
  rcases List.mem_cons.mp hx with rfl | hx
  · exact List.mem_of_getLast? hlast
  · exact h.made x hx

theorem Ordered.inserted (h : Ordered n hist recs acks w) {x : ℕ × WriteBatch} (hx : x ∈ acks)
    (hop : op ∈ x.2) : op.toRec x.1 ∈ recs := by
  have hmem : op.toRec x.1 ∈ records hist := mem_records.mpr ⟨x, h.made x hx, op, hop, rfl⟩
  rw [← h.order] at hmem
  rcases List.mem_append.mp hmem with hmem | hmem
  · exact List.mem_reverse.mp hmem
  · cases w with
    | none => cases hmem
    | some w =>
      obtain ⟨op', -, heq⟩ := List.mem_map.mp hmem
      obtain ⟨hlast, hnew⟩ := h.last w rfl
      have hseqno : w.seqno = x.1 := by
        have hs := congrArg Rec.seqno heq
        rwa [toRec_seqno, toRec_seqno] at hs
      -- the numbers tell the commits apart
      have hnodup : (hist.map Prod.fst).Nodup := by
        rw [h.numbers]
        exact List.nodup_range'
      have hsame : (w.seqno, w.batch) = x :=
        List.inj_on_of_nodup_map hnodup (List.mem_of_getLast? hlast) (h.made x hx) hseqno
      rw [hsame] at hnew
      exact absurd hx hnew

end

/-! ### Every interleaving -/

/-- The commit of the thread that holds the lock. -/
def Sys.current (c : Sys ι) : Option Writing := c.shared.lock.bind fun t => (c.pc t).writing

def Shared.Ordered (s : Shared ι) (current : Option Writing) : Prop :=
  Concurrent.Ordered s.seqno s.history s.applied s.acked current

theorem SameCommits.ordered {w : Option Writing} (hs : SameCommits s s') (h : s.Ordered w) :
    s'.Ordered w := by
  unfold Shared.Ordered
  rw [hs.seqno, hs.history, hs.applied, hs.acked]
  exact h

structure Serial (c : Sys ι) : Prop where
  holds : ∀ t, (c.pc t).holds = true ↔ c.shared.lock = some t
  ordered : c.shared.Ordered c.current

section

variable {c : Sys ι}

theorem Serial.current_eq (h : Serial c) (ht : (c.pc t).holds = true) :
    c.current = (c.pc t).writing := by
  rw [Sys.current, (h.holds t).mp ht]
  rfl

theorem Serial.holds_false (h : Serial c) (hlock : c.shared.lock ≠ some u) :
    (c.pc u).holds = false := by
  cases hh : (c.pc u).holds with
  | false => rfl
  | true => exact absurd ((h.holds u).mp hh) hlock

theorem serial_init : Serial (Sys.init : Sys ι) := by
  constructor
  · intro t
    exact iff_of_false Bool.false_ne_true nofun
  · constructor
    · rfl
    · rfl
    · rintro w ⟨⟩
    · intro x hx
      cases hx
    · exact List.nodup_nil

variable [DecidableEq ι]

theorem holds_update {l : Option ι} (ht : pc'.holds = true ↔ l = some t)
    (hu : ∀ u, u ≠ t → ((c.pc u).holds = true ↔ l = some u)) (u : ι) :
    (Function.update c.pc t pc' u).holds = true ↔ l = some u := by
  by_cases h : u = t
  · rw [h, Function.update_self]
    exact ht
  · rw [Function.update_of_ne h]
    exact hu u h

theorem Serial.step (h : Serial c) (hstep : WriteStep t c.shared (c.pc t) s' pc') :
    Serial ⟨s', Function.update c.pc t pc'⟩ := by
  -- a thread that holds the lock keeps the others out, before and after it lets go
  have hother : (c.pc t).holds = true → ∀ u, u ≠ t → c.shared.lock ≠ some u := by
    intro ht u hu heq
    rw [(h.holds t).mp ht] at heq
    exact hu (Option.some.inj heq).symm
  have hself : ∀ {w : Option Writing}, pc'.writing = w → s'.lock = some t →
      Sys.current ⟨s', Function.update c.pc t pc'⟩ = w := by
    intro w hw hlock
    simp only [Sys.current, hlock, Option.bind_some, Function.update_self, hw]
  have hnobody : s'.lock = none → Sys.current ⟨s', Function.update c.pc t pc'⟩ = none := by
    intro hlock
    simp only [Sys.current, hlock, Option.bind_none]
  cases hstep with
  | aside hs hlock hholds hw =>
    constructor
    · apply holds_update
      · rw [hholds, hlock]
        exact h.holds t
      · intro u _
        rw [hlock]
        exact h.holds u
    · have hcurrent : Sys.current ⟨s', Function.update c.pc t pc'⟩ = c.current := by
        simp only [Sys.current, hlock]
        congr 1
        funext u
        by_cases hu : u = t
        · rw [hu, Function.update_self, hw]
        · rw [Function.update_of_ne hu]
      rw [hcurrent]
      exact hs.ordered h.ordered
  | acquired hs hfree hlock hholds' hw hw' =>
    constructor
    · apply holds_update (iff_of_true hholds' hlock)
      intro u hu
      rw [h.holds_false (by simp [hfree]), hlock]
      simp [hu.symm]
    · rw [hself hw' hlock]
      have hcurrent : c.current = none := by
        rw [Sys.current, hfree]
        rfl
      have hord := h.ordered
      rw [hcurrent] at hord
      exact hs.ordered hord
  | released hs hholds hlock hholds' hw hw' =>
    constructor
    · apply holds_update
      · simp [hholds', hlock]
      · intro u hu
        rw [h.holds_false (hother hholds u hu), hlock]
        simp
    · rw [hnobody hlock]
      have hord := h.ordered
      rw [h.current_eq hholds, hw] at hord
      exact hs.ordered hord
  | numbered b hholds hw hlock hseqno hhistory happlied hacked hw' =>
    have hlock' := hlock.trans ((h.holds t).mp hholds)
    constructor
    · apply holds_update (iff_of_true (holds_of_writing hw') hlock')
      intro u hu
      rw [hlock]
      exact h.holds u
    · rw [hself hw' hlock']
      have hord := h.ordered
      rw [h.current_eq hholds, hw] at hord
      unfold Shared.Ordered
      rw [hseqno, hhistory, happlied, hacked]
      exact hord.number
  | inserted hw hlock hseqno hhistory happlied hacked hw' =>
    have hlock' := hlock.trans ((h.holds t).mp (holds_of_writing hw))
    constructor
    · apply holds_update (iff_of_true (holds_of_writing hw') hlock')
      intro u hu
      rw [hlock]
      exact h.holds u
    · rw [hself hw' hlock']
      have hord := h.ordered
      rw [h.current_eq (holds_of_writing hw), hw] at hord
      unfold Shared.Ordered
      rw [hseqno, hhistory, happlied, hacked]
      exact hord.insert
  | acknowledged hw hlock hseqno hhistory happlied hacked hholds' hw' =>
    constructor
    · apply holds_update
      · simp [hholds', hlock]
      · intro u hu
        rw [h.holds_false (hother (holds_of_writing hw) u hu), hlock]
        simp
    · rw [hnobody hlock]
      have hord := h.ordered
      rw [h.current_eq (holds_of_writing hw), hw] at hord
      unfold Shared.Ordered
      rw [hseqno, hhistory, happlied, hacked]
      exact hord.acknowledge

theorem reach_serial {threshold : ℕ} {ok : Sys ι → ι × Choice → Prop}
    (h : Reach (step threshold) ok Sys.init c) : Serial c := by
  refine h.invariant (I := Serial) serial_init ?_
  intro c x c' hc _ hn
  obtain ⟨s', pc', hact, rfl⟩ := Threads.next_eq_some hn
  exact hc.step (act_writeStep hact)

/-- Commits are serial under every interleaving with other commits, flushes, compactions
and readers: one thread at a time holds the lock, the commits are numbered without gaps,
and their records are inserted in commit order, where only the last commit may have some
still to insert; a commit is acknowledged once, and only after its last insert. -/
theorem commits_serial {threshold : ℕ} (h : Reach (step threshold) always Sys.init c) :
    (∀ t u, (c.pc t).holds = true → (c.pc u).holds = true → t = u) ∧
      c.shared.history.map Prod.fst = List.range' 1 c.shared.seqno ∧
      (∃ rest, c.shared.applied.reverse ++ rest = records c.shared.history ∧
        (c.shared.lock = none → rest = []) ∧ ∀ r ∈ rest, r.seqno = c.shared.seqno) ∧
      c.shared.acked.Nodup ∧ ∀ x ∈ c.shared.acked, x ∈ c.shared.history ∧
        ∀ op ∈ x.2, op.toRec x.1 ∈ c.shared.applied := by
  have hc := reach_serial h
  refine ⟨?_, hc.ordered.numbers, ⟨_, hc.ordered.order, ?_, ?_⟩, hc.ordered.once, ?_⟩
  · intro t u ht hu
    exact Option.some.inj (((hc.holds t).mp ht).symm.trans ((hc.holds u).mp hu))
  · intro hlock
    rw [Sys.current, hlock]
    rfl
  · intro r hr
    cases hw : c.current with
    | none =>
      rw [hw] at hr
      cases hr
    | some w =>
      rw [hw] at hr
      obtain ⟨op, -, rfl⟩ := List.mem_map.mp hr
      obtain ⟨hlast, -⟩ := hc.ordered.last w hw
      have hnum : (c.shared.history.map Prod.fst).getLast? = some w.seqno := by
        rw [List.getLast?_map, hlast]
        rfl
      rw [hc.ordered.numbers, List.getLast?_range'] at hnum
      rw [toRec_seqno]
      split at hnum
      · cases hnum
      · have heq := Option.some.inj hnum
        omega
  · intro x hx
    exact ⟨hc.ordered.made x hx, fun op hop => hc.ordered.inserted hx hop⟩

end

/-- The second commit has inserted one of its two records, and a flush waits for it. -/
theorem commits_serial_waiting :
    ∃ c : Sys Thread, Reach (step 1000) always Sys.init c ∧ c.shared.acked = [(1, [.put [1] [1]])] ∧
      c.shared.seqno = 2 ∧ c.shared.applied.length = 2 ∧
      (∀ t u, (c.pc t).holds = true → (c.pc u).holds = true → t = u) ∧
      c.shared.history.map Prod.fst = List.range' 1 c.shared.seqno ∧
      (∃ rest, c.shared.applied.reverse ++ rest = records c.shared.history ∧
        (c.shared.lock = none → rest = []) ∧ ∀ r ∈ rest, r.seqno = c.shared.seqno) ∧
      c.shared.acked.Nodup ∧ ∀ x ∈ c.shared.acked, x ∈ c.shared.history ∧
        ∀ op ∈ x.2, op.toRec x.1 ∈ c.shared.applied := by
  have hrun : (run (step 1000) (Sys.init : Sys Thread)
      (commitRun 1 ++ [(.writer, .call (.commit [.put [2] [2], .put [3] [3]])),
        (.first, .call .flush)] ++ times 6 .writer)).map
      (fun c => decide (c.shared.acked = [(1, [.put [1] [1]])] ∧ c.shared.seqno = 2 ∧
        c.shared.applied.length = 2)) = some true := by
    decide +kernel
  obtain ⟨c, hreach, hp⟩ := reach_of_run hrun
  obtain ⟨hacked, hseqno, happlied⟩ := of_decide_eq_true hp
  exact ⟨c, hreach, hacked, hseqno, happlied, commits_serial hreach⟩

end PaddockKV.Concurrent
