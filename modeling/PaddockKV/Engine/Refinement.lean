import PaddockKV.Engine.Kept
import PaddockKV.Engine.Runs
import PaddockKV.Engine.Sources

/-!
# Scans refine the versioned map

Through sessions, rotations, flushes and compactions the sources hold every commit
that has operations, perhaps more than once. A scan merges them by sequence number,
so it sees the last operation on every key.
-/

namespace PaddockKV.Engine

open Io Wal Crypto History Transition

def SmallBatch : Action → Prop
  | .call (.commit batch) _ => batch.length ≤ maxOpsPerBatch
  | _ => True

instance (a : Action) : Decidable (SmallBatch a) := by
  unfold SmallBatch
  split <;> infer_instance

/-- Steps without failures whose batches can be replayed. -/
def QuietSmall (key : Option Bytes) (s : Sys) (a : Action) : Prop := Quiet key s a ∧ SmallBatch a

instance (key : Option Bytes) (s : Sys) (a : Action) : Decidable (QuietSmall key s a) :=
  inferInstanceAs (Decidable (_ ∧ _))

section

variable {prims : Primitives} {key : Option Bytes} {s : Sys}

theorem kept_moves {acked acked' : History} {t t' : Store} {a : Action} (h : t.Kept acked)
    (hmoves : Moves acked t a acked' t') : t'.Kept acked' := by
  cases hmoves with
  | opened => exact h.reopen
  | notOpened => exact h
  | committed hwal hworks => exact (h.commit _ hwal).works hworks
  | flushed hworks => exact h.works hworks
  | compacted hworks => exact h.works hworks
  | dropped => exact h

theorem reach_kept (hseal : SealWorks prims) (h : Reach (Sys.next prims) (Quiet key) Sys.start s) :
    ∃ t, Models prims key s t ∧ t.Kept s.acked :=
  reach_models (I := fun acked t => t.Kept acked) hseal (fun _ _ hok => hok)
    (fun _ _ _ _ _ _ _ hkept hmoves => kept_moves hkept hmoves) h (models_start prims key)
    Store.kept_empty

theorem acked_next {s' : Sys} {a : Action} (hn : s.next prims a = some s') :
    s'.acked = s.acked ∨ ∃ batch faults q, a = .call (.commit batch) faults ∧
      s'.acked = s.acked ++ [(q, batch)] := by
  cases step_of_next hn with
  | @returned c faults db u e hdb hrun =>
    cases c with
    | commit batch => exact .inr ⟨batch, faults, db.seqno + 1, rfl, rfl⟩
    | flush => exact .inl (List.append_nil _)
    | compactAll => exact .inl (List.append_nil _)
  | opened => exact .inl rfl
  | notOpened => exact .inl rfl
  | failed => exact .inl rfl
  | dropped => exact .inl rfl
  | crashedOpen => exact .inl rfl
  | crashedCall => exact .inl rfl

theorem small_next {s' : Sys} {a : Action} (hok : SmallBatch a) (hn : s.next prims a = some s')
    (hs : ∀ c ∈ s.acked, c.2.length ≤ maxOpsPerBatch) :
    ∀ c ∈ s'.acked, c.2.length ≤ maxOpsPerBatch := by
  intro c hc
  rcases acked_next hn with hacked | ⟨batch, faults, q, rfl, hacked⟩
  · rw [hacked] at hc
    exact hs c hc
  · rw [hacked] at hc
    rcases List.mem_append.mp hc with hc | hc
    · exact hs c hc
    · rw [List.mem_singleton.mp hc]
      exact hok

theorem reach_small (h : Reach (Sys.next prims) (QuietSmall key) Sys.start s) :
    ∀ c ∈ s.acked, c.2.length ≤ maxOpsPerBatch := by
  refine h.invariant (I := fun s => ∀ c ∈ s.acked, c.2.length ≤ maxOpsPerBatch) ?_ ?_
  · intro c hc
    cases hc
  · intro s a s' hs hok hn
    exact small_next hok.2 hn hs

theorem Store.Kept.replayable {t : Store} {h : History} (hkept : t.Kept h)
    (hsmall : ∀ c ∈ h, c.2.length ≤ maxOpsPerBatch) : ∀ x ∈ t.wals, Replayable x.2 := by
  intro x hx c hc
  by_cases hne : c.2 = []
  · rw [hne]
    exact Nat.zero_le _
  · exact hsmall c (hkept.wals x hx c hc hne)

theorem opens_small {s' : Sys} {t : Store} {h : History} {config : DbConfig}
    (hdir : Directory prims config (diskOf s.log) t) (hkept : t.Kept h)
    (hsmall : ∀ c ∈ h, c.2.length ≤ maxOpsPerBatch)
    (hn : s.next prims (.openDb config []) = some s') :
    ∃ db, s'.db = some db ∧ s'.acked = s.acked ∧ Simulates prims ⟨db, ⟨s'.log, []⟩⟩ t.reopen := by
  cases step_of_next hn with
  | @opened _ _ db w _ hopen =>
    obtain ⟨-, hsim, -⟩ := (openWith_simulates (w := ⟨s.log, []⟩) hdir rfl).of_ok hopen
    exact ⟨db, rfl, rfl, hsim.of_log⟩
  | @notOpened _ _ e w _ hopen =>
    rcases (openWith_simulates (w := ⟨s.log, []⟩) hdir rfl).of_error hopen with
      ⟨⟨msg, hmsg⟩, -⟩ | ⟨-, x, hx, hlong⟩
    · cases hmsg
    · exact absurd (hkept.replayable hsmall x hx) hlong

/-- The scans of a database that shows the commits `h` and no others. -/
def ShowsExactly (prims : Primitives) (db : Db) (h : History) : Prop :=
  ∀ start stop snapshot, ∃ out, rangeBounds prims db.state start stop snapshot = .ok out ∧
    IsScan (fun k => h.lastOp k snapshot) start stop out

theorem showsExactly_of_kept {db : Db} {t : Store} {h : History}
    (hserving : Serving prims db.state t) (hkept : t.Kept h) : ShowsExactly prims db h := by
  intro start stop snapshot
  obtain ⟨out, hout, hscan⟩ := rangeBounds_serving hserving start stop snapshot
  refine ⟨out, hout, ?_⟩
  have hview : (fun k => newestRec (records t.history).reverse k snapshot) =
      fun k => h.lastOp k snapshot := funext fun k => hkept.view k snapshot
  rwa [hview] at hscan

/-- Scans refine the versioned map across sessions: every scan of an open database
returns, without error, the last operations up to its snapshot, and a closed
database opens again as long as it has numbers left. -/
theorem range_refines (hseal : SealWorks prims)
    (h : Reach (Sys.next prims) (QuietSmall key) Sys.start s) :
    (∀ db, s.db = some db → ∀ start stop snapshot, ∃ out,
      rangeBounds prims db.state start stop snapshot = .ok out ∧
        IsScan (fun k => s.acked.lastOp k snapshot) start stop out) ∧
    (s.db = none → ∀ config : DbConfig, config.masterKey = key →
      (s.next prims (.openDb config []) = none → OutOfNumbers prims config s) ∧
      ∀ s', s.next prims (.openDb config []) = some s' → s'.db.isSome = true) := by
  obtain ⟨t, hmodels, hkept⟩ := reach_kept hseal (h.mono fun _ _ hok => hok.1)
  constructor
  · intro db hdb
    exact showsExactly_of_kept (hmodels.opened db hdb).2.serving hkept
  · intro hdb config hkey
    have hdir := hmodels.closed hdb config hkey
    constructor
    · exact outOfNumbers_of_open hdir (hkept.replayable (reach_small h)) hdb
    · intro s' hn
      obtain ⟨db, hdb', -⟩ := opens_small hdir hkept (reach_small h) hn
      rw [hdb']
      rfl

end

theorem range_refines_reopened : ∃ s db,
    Reach (Sys.next .blank) (QuietSmall none) Sys.start s ∧ s.db = some db ∧
      s.acked = [(1, [.put [1] [2]]), (2, [.delete [1], .put [3] [4]])] ∧
      ∀ start stop snapshot, ∃ out, rangeBounds .blank db.state start stop snapshot = .ok out ∧
        IsScan (fun k => s.acked.lastOp k snapshot) start stop out := by
  obtain ⟨s, hreach, hs⟩ := reach_of_runDecided
    (show (runOk (Sys.next .blank) (fun s a => decide (QuietSmall none s a)) Sys.start
      [.openDb .default [], .call (.commit [.put [1] [2]]) [], .drop, .openDb .default [],
        .call (.commit [.delete [1], .put [3] [4]]) [], .drop, .openDb .default []]).map
      (fun s => decide (s.db.isSome = true ∧
        s.acked = [(1, [.put [1] [2]]), (2, [.delete [1], .put [3] [4]])])) = some true by
      decide +kernel)
  obtain ⟨hopen, hacked⟩ := of_decide_eq_true hs
  obtain ⟨db, hdb⟩ := Option.isSome_iff_exists.mp hopen
  exact ⟨s, db, hreach, hdb, hacked, (range_refines sealWorks_blank hreach).1 db hdb⟩

end PaddockKV.Engine
