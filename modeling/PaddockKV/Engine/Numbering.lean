import PaddockKV.Engine.Refinement

/-!
# The numbers of commits

The counter starts a session at the highest number that the directory shows. As long
as no batch is empty that is the number of the last commit, wherever its record is by
then, so numbers are neither skipped nor given twice.
-/

namespace PaddockKV.Engine

open Io Wal Crypto History Transition

/-- Commits that have operations. -/
def Filled : Action → Prop
  | .call (.commit batch) _ => batch ≠ []
  | _ => True

instance : (a : Action) → Decidable (Filled a)
  | .call (.commit batch) _ => inferInstanceAs (Decidable (batch ≠ []))
  | .call .flush _ | .call .compactAll _ | .openDb _ _ | .drop | .crashOpen _ _ _
  | .crashCall _ _ _ => .isTrue trivial

def QuietFilled (key : Option Bytes) (s : Sys) (a : Action) : Prop := Quiet key s a ∧ Filled a

instance (key : Option Bytes) (s : Sys) (a : Action) : Decidable (QuietFilled key s a) :=
  inferInstanceAs (Decidable (_ ∧ _))

namespace Store

/-- The commits are numbered from one on, and the counter is at the last of them. -/
structure Numbered (acked : History) (t : Store) : Prop where
  kept : t.Kept acked
  numbers : acked.map Prod.fst = List.range' 1 acked.length
  filled : ∀ c ∈ acked, c.2 ≠ []
  wals : ∀ w ∈ t.wals, ∀ c ∈ w.2, c.2 ≠ []
  seqno : t.seqno = acked.length

theorem numbered_empty : Numbered [] empty := by
  constructor
  case kept => exact kept_empty
  case numbers => rfl
  case seqno => rfl
  all_goals
    intro x hx
    cases hx

section

variable {acked : History} {t t' : Store}

theorem Numbered.commit (h : Numbered acked t) {batch : WriteBatch} (hne : batch ≠ [])
    (hwal : ∃ x, (t.walId, x) ∈ t.wals) :
    Numbered (acked ++ [(t.seqno + 1, batch)]) (t.commit batch) := by
  constructor
  · exact h.kept.commit batch hwal
  · rw [List.map_append, h.numbers, List.length_append, List.length_singleton,
      List.range'_concat, h.seqno, Nat.one_mul, Nat.add_comm 1]
    rfl
  · intro c hc
    rcases List.mem_append.mp hc with hc | hc
    · exact h.filled c hc
    · rw [List.mem_singleton.mp hc]
      exact hne
  · intro w hw c hc
    obtain ⟨w', hw', rfl⟩ := List.mem_map.mp hw
    split at hc
    · rcases List.mem_append.mp hc with hc | hc
      · exact h.wals w' hw' c hc
      · rw [List.mem_singleton.mp hc]
        exact hne
    · exact h.wals w' hw' c hc
  · rw [List.length_append, List.length_singleton, ← h.seqno]
    rfl

theorem Work.wals_mem (h : Work t t') : ∀ w ∈ t'.wals, w ∈ t.wals ∨ w.2 = [] := by
  intro w hw
  cases h with
  | rotate =>
    rcases List.mem_append.mp hw with hw | hw
    · exact .inl hw
    · rw [List.mem_singleton.mp hw]
      exact .inr rfl
  | flushOne hq =>
    unfold Store.flushOne at hw
    dsimp only at hw
    split at hw
    · exact .inl (List.mem_of_mem_filter hw)
    · exact .inl hw
  | compact => exact .inl hw

theorem Work.seqno_eq (h : Work t t') : t'.seqno = t.seqno := by
  cases h with
  | rotate => rfl
  | flushOne hq => rfl
  | compact => rfl

theorem Numbered.work (h : Numbered acked t) (hwork : Work t t') : Numbered acked t' := by
  constructor
  · exact h.kept.works (.single hwork)
  · exact h.numbers
  · exact h.filled
  · intro w hw c hc
    rcases hwork.wals_mem w hw with hmem | hnil
    · exact h.wals w hmem c hc
    · rw [hnil] at hc
      cases hc
  · rw [hwork.seqno_eq, h.seqno]

theorem Numbered.works (h : Numbered acked t) (hworks : Works t t') : Numbered acked t' :=
  Works.invariant (I := Numbered acked) (fun _ _ hs hwork => hs.work hwork) hworks h

theorem Numbered.le_length (h : Numbered acked t) {c : ℕ × WriteBatch} (hc : c ∈ acked) :
    c.1 ≤ acked.length := by
  have hmem : c.1 ∈ acked.map Prod.fst := List.mem_map_of_mem hc
  rw [h.numbers, List.mem_range'_1] at hmem
  omega

theorem foldl_max_le {α : Type} (g : α → ℕ) {l : List α} {start n : ℕ} (hstart : start ≤ n)
    (h : ∀ x ∈ l, g x ≤ n) : l.foldl (fun m x => max m (g x)) start ≤ n := by
  induction l generalizing start with
  | nil => exact hstart
  | cons x l ih =>
    apply ih
    · exact max_le hstart (h x List.mem_cons_self)
    · intro y hy
      exact h y (List.mem_cons_of_mem x hy)

theorem Numbered.tableSeqno_le (h : Numbered acked t) : t.tableSeqno ≤ acked.length := by
  apply foldl_max_le id (Nat.zero_le _)
  intro n hn
  obtain ⟨r, hr, rfl⟩ := List.mem_map.mp hn
  obtain ⟨c, hc, op, hop, rfl⟩ := mem_records.mp hr
  obtain ⟨x, hx, hcx⟩ := mem_oldestFirst.mp hc
  rw [id, toRec_seqno]
  apply h.le_length
  exact (h.kept.same c (List.ne_nil_of_mem hop)).mp (mem_history.mpr (.inl ⟨x, hx, hcx⟩))

theorem Numbered.reopen (h : Numbered acked t) : Numbered acked t.reopen := by
  constructor
  · exact h.kept.reopen
  · exact h.numbers
  · exact h.filled
  · intro w hw c hc
    rcases List.mem_append.mp hw with hw | hw
    · exact h.wals w hw c hc
    · rw [List.mem_singleton.mp hw] at hc
      cases hc
  · apply le_antisymm
    · apply foldl_max_le Prod.fst h.tableSeqno_le
      intro c hc
      obtain ⟨w, hw, hcw⟩ := mem_flatten_snd.mp hc
      exact h.le_length (h.kept.wals w hw c hcw (h.wals w hw c hcw))
    · cases hlast : acked.getLast? with
      | none =>
        rw [List.getLast?_eq_none_iff.mp hlast]
        exact Nat.zero_le _
      | some c =>
        have hc := List.mem_of_getLast? hlast
        have hfst : (acked.map Prod.fst).getLast? = some c.1 := by
          rw [List.getLast?_map, hlast]
          rfl
        rw [h.numbers, List.getLast?_range'] at hfst
        have hle := h.kept.reopen.le_seqno c hc (h.filled c hc)
        split at hfst
        · cases hfst
        · have hnum := Option.some.inj hfst
          omega

end

end Store

section

variable {prims : Primitives} {key : Option Bytes} {s : Sys}

theorem numbered_moves {acked acked' : History} {t t' : Store} {a : Action} (h : t.Numbered acked)
    (hfilled : Filled a) (hmoves : Moves acked t a acked' t') : t'.Numbered acked' := by
  cases hmoves with
  | opened => exact h.reopen
  | notOpened => exact h
  | committed hwal hworks => exact (h.commit hfilled hwal).works hworks
  | flushed hworks => exact h.works hworks
  | compacted hworks => exact h.works hworks
  | dropped => exact h

theorem reach_numbered (hseal : SealWorks prims)
    (h : Reach (Sys.next prims) (QuietFilled key) Sys.start s) :
    ∃ t, Models prims key s t ∧ t.Numbered s.acked :=
  reach_models (I := fun acked t => t.Numbered acked) hseal (fun _ _ hok => hok.1)
    (fun _ _ _ _ _ _ hok hnum hmoves => numbered_moves hnum hok.2 hmoves) h
    (models_start prims key) Store.numbered_empty

/-- Numbers without gaps: in runs without failing file operations and without empty
batches the `n`-th commit has the number `n`, whatever was flushed, compacted and opened
again in between, and the counter of an open database is the number of commits. -/
theorem commits_numbered (hseal : SealWorks prims)
    (h : Reach (Sys.next prims) (QuietFilled key) Sys.start s) :
    s.acked.map Prod.fst = List.range' 1 s.acked.length ∧
      ∀ db, s.db = some db → db.seqno = s.acked.length := by
  obtain ⟨t, hmodels, hnum⟩ := reach_numbered hseal h
  refine ⟨hnum.numbers, ?_⟩
  intro db hdb
  rw [← hnum.seqno]
  exact (hmodels.opened db hdb).2.seqno

end

section

set_option maxRecDepth 100000

theorem commits_numbered_flushed : ∃ s db,
    Reach (Sys.next .blank) (QuietFilled none) Sys.start s ∧ s.db = some db ∧
      db.state.sstables.length = 1 ∧
      s.acked.map Prod.snd = [[.put [1] [2]], [.delete [1], .put [3] [4]], [.put [5] [6]]] ∧
      s.acked.map Prod.fst = List.range' 1 s.acked.length ∧ db.seqno = s.acked.length := by
  obtain ⟨s, hreach, hs⟩ := reach_of_runDecided
    (show (runOk (Sys.next .blank) (fun s a => decide (QuietFilled none s a)) Sys.start
      [.openDb .default [], .call (.commit [.put [1] [2]]) [], .call .flush [], .drop,
        .openDb .default [], .call (.commit [.delete [1], .put [3] [4]]) [], .drop,
        .openDb .default [], .call (.commit [.put [5] [6]]) []]).map
      (fun s => decide ((s.db.map fun db => db.state.sstables.length) = some 1 ∧
        s.acked.map Prod.snd = [[.put [1] [2]], [.delete [1], .put [3] [4]], [.put [5] [6]]])) =
      some true by decide +kernel)
  obtain ⟨hopen, hacked⟩ := of_decide_eq_true hs
  obtain ⟨db, hdb, hone⟩ := Option.map_eq_some_iff.mp hopen
  have hnum := commits_numbered sealWorks_blank hreach
  exact ⟨s, db, hreach, hdb, hone, hacked, hnum.1, hnum.2 db hdb⟩

end

end PaddockKV.Engine
