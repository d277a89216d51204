import PaddockKV.Engine.Calls
import PaddockKV.Lib.Transition

/-!
# Runs of the engine

A run opens databases on one directory and makes calls on them, one at a time.
Each action comes with the outcomes of the file-layer calls it makes. A call
that returns `Ok` or `Err` leaves the database usable; one that unwinds has no
successor. A crash in the middle of a call keeps the first `kept` of its
file-layer calls and ends the session.
-/

namespace PaddockKV.Engine

open Io Wal Crypto

inductive Call where
  | commit (batch : WriteBatch)
  | flush
  | compactAll
  deriving Repr, DecidableEq

def Call.run (prims : Primitives) : Call → Act Env Unit
  | .commit batch => commitBatch batch
  | .flush => Engine.flush prims
  | .compactAll => Engine.compactAll prims

/-- The directory, the database when one is open, and the commits that returned
`Ok` so far. -/
structure Sys where
  log : List VfsCall
  db : Option Db
  acked : History

inductive Action where
  | openDb (config : DbConfig) (faults : List Outcome)
  | call (c : Call) (faults : List Outcome)
  | drop
  | crashOpen (config : DbConfig) (faults : List Outcome) (kept : ℕ)
  | crashCall (c : Call) (faults : List Outcome) (kept : ℕ)
  deriving Repr, DecidableEq

/-- The commit a call makes when it returns `Ok`. -/
def Call.commits (db : Db) : Call → History
  | .commit batch => [(db.seqno + 1, batch)]
  | .flush | .compactAll => []

/-- The calls of `log'` up to the first `kept` made after `log`. -/
def cutLog (kept : ℕ) (log log' : List VfsCall) : List VfsCall :=
  log'.drop (log'.length - (log.length + kept))

def resultState {σ α : Type} : EStateM.Result Fault σ α → σ
  | .ok _ s => s
  | .error _ s => s

def Sys.next (prims : Primitives) (s : Sys) : Action → Option Sys
  | .openDb config faults =>
    match s.db with
    | some _ => none
    | none =>
      match openWith prims config ⟨s.log, faults⟩ with
      | .ok db w => some { s with log := w.log, db := some db }
      | .error (.err _) w => some { s with log := w.log }
      | .error (.panicked _) _ => none
  | .call c faults =>
    match s.db with
    | none => none
    | some db =>
      match c.run prims ⟨db, ⟨s.log, faults⟩⟩ with
      | .ok _ e => some ⟨e.world.log, some e.db, s.acked ++ c.commits db⟩
      | .error (.err _) e => some ⟨e.world.log, some e.db, s.acked⟩
      | .error (.panicked _) _ => none
  | .drop => s.db.map fun _ => { s with db := none }
  | .crashOpen config faults kept =>
    match s.db with
    | some _ => none
    | none =>
      let w := resultState (openWith prims config ⟨s.log, faults⟩)
      some { s with log := cutLog kept s.log w.log }
  | .crashCall c faults kept =>
    s.db.map fun db =>
      let e := resultState (c.run prims ⟨db, ⟨s.log, faults⟩⟩)
      { s with log := cutLog kept s.log e.world.log, db := none }

/-- An empty directory. -/
def Sys.start : Sys := ⟨[], none, []⟩

/-! ### Steps -/

section

variable {prims : Primitives} {s s' : Sys}

/-- How a step comes about. -/
inductive Sys.Step (prims : Primitives) (s : Sys) : Action → Sys → Prop where
  | opened {config : DbConfig} {faults : List Outcome} {db : Db} {w : World} (hdb : s.db = none)
    (h : openWith prims config ⟨s.log, faults⟩ = .ok db w) :
    Sys.Step prims s (.openDb config faults) ⟨w.log, some db, s.acked⟩
  | notOpened {config : DbConfig} {faults : List Outcome} {e : Error} {w : World}
    (hdb : s.db = none) (h : openWith prims config ⟨s.log, faults⟩ = .error (.err e) w) :
    Sys.Step prims s (.openDb config faults) ⟨w.log, none, s.acked⟩
  | returned {c : Call} {faults : List Outcome} {db : Db} {u : Unit} {e : Env} (hdb : s.db = some db)
    (h : c.run prims ⟨db, ⟨s.log, faults⟩⟩ = .ok u e) :
    Sys.Step prims s (.call c faults) ⟨e.world.log, some e.db, s.acked ++ c.commits db⟩
  | failed {c : Call} {faults : List Outcome} {db : Db} {err : Error} {e : Env}
    (hdb : s.db = some db) (h : c.run prims ⟨db, ⟨s.log, faults⟩⟩ = .error (.err err) e) :
    Sys.Step prims s (.call c faults) ⟨e.world.log, some e.db, s.acked⟩
  | dropped {db : Db} (hdb : s.db = some db) : Sys.Step prims s .drop ⟨s.log, none, s.acked⟩
  | crashedOpen {config : DbConfig} {faults : List Outcome} (kept : ℕ) (hdb : s.db = none) :
    Sys.Step prims s (.crashOpen config faults kept)
      ⟨cutLog kept s.log (resultState (openWith prims config ⟨s.log, faults⟩)).log, none, s.acked⟩
  | crashedCall {c : Call} {faults : List Outcome} {db : Db} (kept : ℕ) (hdb : s.db = some db) :
    Sys.Step prims s (.crashCall c faults kept)
      ⟨cutLog kept s.log (resultState (c.run prims ⟨db, ⟨s.log, faults⟩⟩)).world.log, none, s.acked⟩

theorem step_of_next {a : Action} (h : s.next prims a = some s') : Sys.Step prims s a s' := by
  obtain ⟨log, db, acked⟩ := s
  cases a with
  | openDb config faults =>
    cases db with
    | some db => cases h
    | none =>
      cases hopen : openWith prims config ⟨log, faults⟩ with
      | ok db w =>
        simp only [Sys.next, hopen, Option.some.injEq] at h
        subst h
        exact .opened rfl hopen
      | error f w =>
        cases f with
        | err e =>
          simp only [Sys.next, hopen, Option.some.injEq] at h
          subst h
          exact .notOpened rfl hopen
        | panicked msg =>
          simp only [Sys.next, hopen] at h
          cases h
  | call c faults =>
    cases db with
    | none => cases h
    | some db =>
      cases hrun : c.run prims ⟨db, ⟨log, faults⟩⟩ with
      | ok u e =>
        simp only [Sys.next, hrun, Option.some.injEq] at h
        subst h
        exact .returned rfl hrun
      | error f e =>
        cases f with
        | err err =>
          simp only [Sys.next, hrun, Option.some.injEq] at h
          subst h
          exact .failed rfl hrun
        | panicked msg =>
          simp only [Sys.next, hrun] at h
          cases h
  | drop =>
    cases db with
    | none => cases h
    | some db =>
      cases h
      exact .dropped rfl
  | crashOpen config faults kept =>
    cases db with
    | some db => cases h
    | none =>
      cases h
      exact .crashedOpen kept rfl
  | crashCall c faults kept =>
    cases db with
    | none => cases h
    | some db =>
      cases h
      exact .crashedCall kept rfl

theorem cutLog_suffix (kept : ℕ) (log log' : List VfsCall) : cutLog kept log log' <:+ log' :=
  List.drop_suffix _ _

theorem suffix_cutLog {log log' : List VfsCall} (kept : ℕ) (h : log <:+ log') :
    log <:+ cutLog kept log log' := by
  obtain ⟨evs, rfl⟩ := h
  unfold cutLog
  rw [List.length_append]
  have hle : evs.length + log.length - (log.length + kept) ≤ evs.length := by omega
  rw [List.drop_append_of_le_length hle]
  exact List.suffix_append _ _

theorem Ends.resultState {σ α : Type} {x : Act σ α} {t : σ} {I : σ → Prop}
    (h : Ends x t (fun _ => I) fun _ => I) : I (Engine.resultState (x t)) := by
  cases hx : x t with
  | ok a t' => exact h.of_ok hx
  | error f t' => exact h.of_error hx

end

/-! ### Rules for the calls made of several steps -/

section

variable {prims : Primitives}

theorem flushLoop_ends {I : Env → Prop} {Q : Fault → Env → Prop}
    (hflush : ∀ e im, I e → e.db.state.immutableMemtables.getLast? = some im →
      Ends (flushOne prims im) e (fun _ => I) Q) {fuel : ℕ} {e : Env} (he : I e)
    (hfuel : e.db.state.immutableMemtables.length < fuel) :
    Ends (flushLoop prims fuel) e
      (fun _ e' => I e' ∧ e'.db.state.immutableMemtables = []) Q := by
  induction fuel generalizing e with
  | zero => omega
  | succ fuel ih =>
    unfold flushLoop
    refine Ends.read_bind ?_
    cases hlast : e.db.state.immutableMemtables.getLast? with
    | none => exact Ends.ret ⟨he, List.getLast?_eq_none_iff.mp hlast⟩
    | some im =>
      refine Ends.bind (Ends.and (hflush e im he hlast) (flushOne_ends prims im e)) ?_
        (fun _ _ h => h.1)
      rintro - e₁ ⟨he₁, hdone⟩
      refine ih he₁ ?_
      obtain ⟨reader, w₁, w₂, -, -, -, hdb, -⟩ := hdone
      have him := List.mem_of_getLast? hlast
      have hlt : (e.db.state.immutableMemtables.filter fun m =>
          decide (m.walSegmentId ≠ im.walSegmentId)).length <
          e.db.state.immutableMemtables.length := by
        refine List.length_filter_lt_length_iff_exists.mpr ⟨im, him, ?_⟩
        simp
      rw [hdb]
      exact (show _ < _ from hlt).trans_le (Nat.lt_succ_iff.mp hfuel)

theorem flush_ends {I : Env → Prop} {Q : Fault → Env → Prop} {e : Env}
    (hrotate : Ends flushRotate e (fun _ => I) Q)
    (hflush : ∀ e im, I e → e.db.state.immutableMemtables.getLast? = some im →
      Ends (flushOne prims im) e (fun _ => I) Q) :
    Ends (flush prims) e (fun _ e' => I e' ∧ e'.db.state.immutableMemtables = []) Q := by
  unfold flush
  refine Ends.bind hrotate ?_ (fun _ _ h => h)
  intro _ e₁ he₁
  exact Ends.read_bind (flushLoop_ends hflush he₁ (Nat.lt_succ_self _))

end

end PaddockKV.Engine
