import PaddockKV.Engine.Reopen
import PaddockKV.Engine.System

/-!
# Runs without failing file operations

A run of sessions on one directory, all with the same master key, takes the store
from one state to the next. A step of the engine is one of the `Moves`; what every
move keeps holds in every run.
-/

namespace PaddockKV.Engine

open Io Wal Crypto History Transition

/-- Steps in which no file operation fails, of sessions that are opened with `key`. -/
def Quiet (key : Option Bytes) : Sys → Action → Prop
  | _, .openDb config faults => config.masterKey = key ∧ faults = []
  | _, .call _ faults => faults = []
  | _, .drop => True
  | _, .crashOpen _ _ _ => False
  | _, .crashCall _ _ _ => False

instance (key : Option Bytes) (s : Sys) (a : Action) : Decidable (Quiet key s a) := by
  unfold Quiet
  split <;> infer_instance

/-- The calls of one session. -/
def Calls : Sys → Action → Prop
  | _, .call _ faults => faults = []
  | _, _ => False

instance (s : Sys) (a : Action) : Decidable (Calls s a) := by
  unfold Calls
  split <;> infer_instance

theorem quiet_of_calls (key : Option Bytes) (s : Sys) (a : Action) (h : Calls s a) :
    Quiet key s a := by
  cases a with
  | call c faults => exact h
  | openDb config faults => cases h
  | drop => cases h
  | crashOpen config faults kept => cases h
  | crashCall c faults kept => cases h

/-- The directory, and the database when one is open, are those of the store. -/
structure Models (prims : Primitives) (key : Option Bytes) (s : Sys) (t : Store) : Prop where
  closed : s.db = none → ∀ config : DbConfig, config.masterKey = key →
    Directory prims config (diskOf s.log) t
  opened : ∀ db, s.db = some db → db.config.masterKey = key ∧ Simulates prims ⟨db, ⟨s.log, []⟩⟩ t

/-- The same, where the open segment may end in what a failed append left. -/
structure Follows (prims : Primitives) (key : Option Bytes) (s : Sys) (t : Store) : Prop where
  closed : s.db = none → ∀ config : DbConfig, config.masterKey = key →
    Directory prims config (diskOf s.log) t
  opened : ∀ db, s.db = some db → db.config.masterKey = key ∧ Mirrors prims ⟨db, ⟨s.log, []⟩⟩ t

/-- What a step does to the commits made so far and to the store. -/
inductive Moves (acked : History) (t : Store) : Action → History → Store → Prop where
  | opened (config : DbConfig) (h : ∀ x ∈ t.wals, Replayable x.2) :
    Moves acked t (.openDb config []) acked t.reopen
  | notOpened (config : DbConfig) (h : ∃ x ∈ t.wals, ¬ Replayable x.2) :
    Moves acked t (.openDb config []) acked t
  | committed {batch : WriteBatch} {t' : Store} (hwal : ∃ h, (t.walId, h) ∈ t.wals)
    (h : Store.Works (t.commit batch) t') :
    Moves acked t (.call (.commit batch) []) (acked ++ [(t.seqno + 1, batch)]) t'
  | flushed {t' : Store} (h : Store.Works t t') (hqueue : t'.queue = [])
    (hactive : records t'.active = []) : Moves acked t (.call .flush []) acked t'
  | compacted {t' : Store} (h : Store.Works t t') : Moves acked t (.call .compactAll []) acked t'
  | dropped : Moves acked t .drop acked t

section

variable {prims : Primitives} {key : Option Bytes} {s s' s₀ : Sys} {t t₀ : Store}

theorem call_moves (hseal : SealWorks prims) {c : Call} {db : Db} {log : List VfsCall}
    (acked : History) (h : Mirrors prims ⟨db, ⟨log, []⟩⟩ t)
    (htidy : ∀ batch, c = .commit batch → TidySegment ⟨db, ⟨log, []⟩⟩ t) :
    Ends (c.run prims) ⟨db, ⟨log, []⟩⟩
      (fun _ e' => ∃ t', Mirrors prims e' t' ∧
        (Simulates prims ⟨db, ⟨log, []⟩⟩ t → Simulates prims e' t') ∧
        Moves acked t (.call c []) (acked ++ c.commits db) t')
      fun f _ => Panicked f := by
  cases c with
  | commit batch =>
    refine Ends.mono (commitBatch_mirrors batch h (htidy batch rfl)) ?_ (fun _ _ hstop => hstop)
    rintro - e' ⟨t', h', hsim, ht'⟩
    refine ⟨t', h', hsim, ?_⟩
    have hcommits : (Call.commit batch).commits db = [(t.seqno + 1, batch)] := by
      rw [← h.seqno]
      rfl
    rw [hcommits]
    refine .committed h.segment ?_
    rcases ht' with rfl | rfl
    · exact .refl
    · exact .single (.rotate _)
  | flush =>
    refine Ends.mono (flush_mirrors hseal h) ?_ (fun _ _ hstop => hstop)
    rintro - e' ⟨t', h', hsim, hworks, hqueue, hactive⟩
    refine ⟨t', h', hsim, ?_⟩
    rw [show Call.flush.commits db = [] from rfl, List.append_nil]
    exact .flushed hworks hqueue hactive
  | compactAll =>
    refine Ends.mono (compactAll_mirrors hseal h) ?_ (fun _ _ hstop => hstop)
    rintro - e' ⟨h', hsim⟩
    refine ⟨_, h', hsim, ?_⟩
    rw [show Call.compactAll.commits db = [] from rfl, List.append_nil]
    refine .compacted ?_
    split
    · exact .refl
    · exact .single (.compact t)

theorem env_of_log {e : Env} (hfaults : e.world.faults = []) :
    (⟨e.db, ⟨e.world.log, []⟩⟩ : Env) = e := by
  obtain ⟨db, log, faults⟩ := e
  cases hfaults
  rfl

theorem Simulates.of_log {e : Env} (h : Simulates prims e t) :
    Simulates prims ⟨e.db, ⟨e.world.log, []⟩⟩ t := by
  rw [env_of_log h.faults]
  exact h

theorem Mirrors.of_log {e : Env} (h : Mirrors prims e t) :
    Mirrors prims ⟨e.db, ⟨e.world.log, []⟩⟩ t := by
  rw [env_of_log h.faults]
  exact h

/-! ### The configuration -/

/-- A call does not touch the configuration. -/
abbrev KeepsConfig {α : Type} (config : DbConfig) (x : Act Env α) : Prop :=
  Keeps (fun e => e.db.config = config) (fun _ _ => True) x

section Config

variable {config : DbConfig}

theorem keeps_true {σ α : Type} (x : Act σ α) : Keeps (fun _ => True) (fun _ _ => True) x :=
  fun s _ => Ends.mono (Ends.self x s) (fun _ _ _ => trivial) fun _ _ _ => trivial

theorem keepsConfig_onWorld {α : Type} (x : Act World α) : KeepsConfig config (onWorld x) :=
  Keeps.zoom (keeps_true x) (fun _ _ => trivial) (fun _ _ h _ => h) fun _ _ _ _ _ => trivial

theorem keepsConfig_onWal {α : Type} (x : Act WalEnv α) : KeepsConfig config (onWal x) :=
  Keeps.zoom (keeps_true x) (fun _ _ => trivial) (fun _ _ h _ => h) fun _ _ _ _ _ => trivial

theorem keepsConfig_lift {α : Type} (x : Res α) : KeepsConfig config (Act.lift x) :=
  Keeps.lift fun _ _ _ _ => trivial

theorem keepsConfig_addU64 (a b : ℕ) (msg : String) : KeepsConfig config (addU64 a b msg) :=
  Keeps.addU64 fun _ _ => trivial

theorem keepsConfig_reserveFileNumber : KeepsConfig config reserveFileNumber := by
  refine Keeps.bind .read fun _ => Keeps.bind (keepsConfig_addU64 _ _ _) fun _ => ?_
  exact Keeps.bind (.update fun _ h => h) fun _ => Keeps.ret _

theorem keepsConfig_rotate : KeepsConfig config rotateMemtableLocked := by
  refine Keeps.bind (.update fun _ h => h) fun _ => ?_
  refine Keeps.bind keepsConfig_reserveFileNumber fun _ => ?_
  refine Keeps.bind (keepsConfig_onWorld _) fun _ => Keeps.bind .read fun _ => ?_
  refine Keeps.bind (keepsConfig_addU64 _ _ _) fun _ => ?_
  exact Keeps.bind (keepsConfig_onWorld _) fun _ => .update fun _ h => h

theorem keepsConfig_commitBatch (batch : WriteBatch) : KeepsConfig config (commitBatch batch) := by
  have hhead : KeepsConfig config (commitHead batch) := by
    refine Keeps.bind .read fun _ => Keeps.bind (keepsConfig_addU64 _ _ _) fun _ => ?_
    refine Keeps.bind (.update fun _ h => h) fun _ => Keeps.bind (keepsConfig_lift _) fun _ => ?_
    refine Keeps.bind (keepsConfig_onWal _) fun _ => Keeps.bind (keepsConfig_onWal _) fun _ => ?_
    refine Keeps.bind .read fun _ => Keeps.bind (keepsConfig_lift _) fun _ => ?_
    refine Keeps.bind (.update fun _ h => h) fun _ => ?_
    refine Keeps.bind (keepsConfig_addU64 _ _ _) fun _ => ?_
    exact Keeps.bind (.update fun _ h => h) fun _ => Keeps.ret _
  refine Keeps.bind hhead fun full => ?_
  split
  · exact keepsConfig_rotate
  · exact Keeps.ret _

theorem keepsConfig_flushOne (prims : Primitives) (im : ImmutableMemtable) :
    KeepsConfig config (flushOne prims im) := by
  refine Keeps.bind keepsConfig_reserveFileNumber fun _ => Keeps.bind .read fun _ => ?_
  refine Keeps.bind (keepsConfig_onWorld _) fun _ => Keeps.bind (keepsConfig_onWorld _) fun _ => ?_
  refine Keeps.bind (.update fun _ h => h) fun _ => ?_
  split
  · exact keepsConfig_onWorld _
  · exact Keeps.ret _

theorem keepsConfig_flushLoop (prims : Primitives) (fuel : ℕ) :
    KeepsConfig config (flushLoop prims fuel) := by
  induction fuel with
  | zero => exact Keeps.fail fun _ _ => trivial
  | succ fuel ih =>
    refine Keeps.bind .read fun e => ?_
    split
    · exact Keeps.ret _
    · exact Keeps.bind (keepsConfig_flushOne prims _) fun _ => ih

theorem keepsConfig_flush (prims : Primitives) : KeepsConfig config (flush prims) := by
  have hrotate : KeepsConfig config flushRotate := by
    refine Keeps.bind .read fun _ => ?_
    split
    · exact keepsConfig_rotate
    · exact Keeps.ret _
  exact Keeps.bind hrotate fun _ => Keeps.bind .read fun _ => keepsConfig_flushLoop prims _

theorem keepsConfig_removeTables (inputs : List LiveSst) :
    KeepsConfig config (removeTables inputs) := by
  induction inputs with
  | nil => exact Keeps.ret _
  | cons input inputs ih => exact Keeps.bind (keepsConfig_onWorld _) fun _ => ih

theorem keepsConfig_compactAll (prims : Primitives) : KeepsConfig config (compactAll prims) := by
  refine Keeps.bind .read fun e => ?_
  dsimp only
  split
  · exact Keeps.ret _
  refine Keeps.bind keepsConfig_reserveFileNumber fun _ => ?_
  refine Keeps.bind (keepsConfig_onWorld _) fun _ => Keeps.bind (.update fun _ h => h) fun _ => ?_
  exact keepsConfig_removeTables _

theorem keepsConfig_run (prims : Primitives) (c : Call) : KeepsConfig config (c.run prims) := by
  cases c with
  | commit batch => exact keepsConfig_commitBatch batch
  | flush => exact keepsConfig_flush prims
  | compactAll => exact keepsConfig_compactAll prims

end Config

/-! ### Steps -/

theorem models_open {db : Db} {e : Env} (acked : History) (hkey : db.config.masterKey = key)
    (hconfig : e.db.config = db.config) (h : Simulates prims e t) :
    Models prims key ⟨e.world.log, some e.db, acked⟩ t := by
  constructor
  · intro hnone
    cases hnone
  · rintro _ ⟨⟩
    rw [hconfig]
    exact ⟨hkey, h.of_log⟩

theorem models_closed {log : List VfsCall} (acked : History)
    (h : ∀ config : DbConfig, config.masterKey = key → Directory prims config (diskOf log) t) :
    Models prims key ⟨log, none, acked⟩ t := by
  refine ⟨fun _ => h, ?_⟩
  rintro _ ⟨⟩

theorem Models.follows (h : Models prims key s t) : Follows prims key s t :=
  ⟨h.closed, fun db hdb => ⟨(h.opened db hdb).1, (h.opened db hdb).2.mirrors⟩⟩

theorem step_follows (hseal : SealWorks prims) {a : Action} (hok : Quiet key s a)
    (htidy : ∀ batch db, a = .call (.commit batch) [] → s.db = some db →
      TidySegment ⟨db, ⟨s.log, []⟩⟩ t)
    (h : Follows prims key s t) (hn : s.next prims a = some s') :
    ∃ t', Follows prims key s' t' ∧ (Models prims key s t → Models prims key s' t') ∧
      Moves s.acked t a s'.acked t' := by
  cases step_of_next hn with
  | @opened config faults db w hdb hopen =>
    obtain ⟨hkey, rfl⟩ := hok
    obtain ⟨hconfig, hsim, hsmall⟩ :=
      (openWith_simulates (h.closed hdb config hkey) rfl).of_ok hopen
    have hmodels := models_open s.acked (hconfig ▸ hkey) rfl hsim
    exact ⟨t.reopen, hmodels.follows, fun _ => hmodels, .opened config hsmall⟩
  | @notOpened config faults e w hdb hopen =>
    obtain ⟨hkey, rfl⟩ := hok
    rcases (openWith_simulates (h.closed hdb config hkey) rfl).of_error hopen with
      ⟨⟨msg, hmsg⟩, -⟩ | ⟨hlog, hlong⟩
    · cases hmsg
    · have hmodels : Models prims key ⟨w.log, none, s.acked⟩ t := by
        rw [show w.log = s.log from hlog]
        exact models_closed s.acked (h.closed hdb)
      exact ⟨t, hmodels.follows, fun _ => hmodels, .notOpened config hlong⟩
  | @returned c faults db u e hdb hrun =>
    cases (show faults = [] from hok)
    obtain ⟨hkey, hm⟩ := h.opened db hdb
    obtain ⟨t', hm', hsim, hmoves⟩ := (call_moves hseal s.acked hm fun batch hc =>
      htidy batch db (hc ▸ rfl) hdb).of_ok hrun
    have hconfig := (keepsConfig_run prims c _ rfl).of_ok hrun
    refine ⟨t', ⟨?_, ?_⟩, ?_, hmoves⟩
    · intro hnone
      cases hnone
    · rintro db' ⟨⟩
      rw [hconfig]
      exact ⟨hkey, hm'.of_log⟩
    · intro hmodels
      exact models_open _ hkey hconfig (hsim (hmodels.opened db hdb).2)
  | @failed c faults db err e hdb hrun =>
    cases (show faults = [] from hok)
    obtain ⟨msg, hmsg⟩ := (call_moves hseal s.acked (h.opened db hdb).2 fun batch hc =>
      htidy batch db (hc ▸ rfl) hdb).of_error hrun
    cases hmsg
  | @dropped db hdb =>
    obtain ⟨hkey', hm⟩ := h.opened db hdb
    have hmodels := models_closed s.acked fun config hkey =>
      hm.dir.config (hkey.trans hkey'.symm)
    exact ⟨t, hmodels.follows, fun _ => hmodels, .dropped⟩
  | crashedOpen kept hdb => cases hok
  | crashedCall kept hdb => cases hok

theorem step_moves (hseal : SealWorks prims) {a : Action} (hok : Quiet key s a)
    (h : Models prims key s t) (hn : s.next prims a = some s') :
    ∃ t', Models prims key s' t' ∧ Moves s.acked t a s'.acked t' := by
  obtain ⟨t', -, hmodels, hmoves⟩ := step_follows hseal hok
    (fun batch db _ hdb => (h.opened db hdb).2.tidySegment) h.follows hn
  exact ⟨t', hmodels h, hmoves⟩

theorem reach_models {ok : Sys → Action → Prop} {I : History → Store → Prop}
    (hseal : SealWorks prims) (hquiet : ∀ s a, ok s a → Quiet key s a)
    (hstep : ∀ s a acked t acked' t', ok s a → I acked t → Moves acked t a acked' t' → I acked' t')
    (h : Reach (Sys.next prims) ok s₀ s) (hmodels : Models prims key s₀ t₀)
    (hinit : I s₀.acked t₀) : ∃ t, Models prims key s t ∧ I s.acked t := by
  refine h.invariant (I := fun s => ∃ t, Models prims key s t ∧ I s.acked t)
    ⟨t₀, hmodels, hinit⟩ ?_
  rintro s a s' ⟨t, hmodels, hI⟩ hok hn
  obtain ⟨t', hmodels', hmoves⟩ := step_moves hseal (hquiet s a hok) hmodels hn
  exact ⟨t', hmodels', hstep s a _ t _ t' hok hI hmoves⟩

theorem models_start (prims : Primitives) (key : Option Bytes) :
    Models prims key Sys.start Store.empty := by
  constructor
  · intro _ config _
    refine ⟨?_, ?_, ?_, ?_, .nil, .nil, ?_, ?_, ?_⟩
    all_goals
      intro x hx
      cases hx
  · rintro db ⟨⟩

theorem models_opened {config : DbConfig} {db : Db} {w : World}
    (h : openWith prims config ⟨[], []⟩ = .ok db w) (hkey : config.masterKey = key) :
    Models prims key ⟨w.log, some db, []⟩ Store.empty.reopen := by
  have hdir := (models_start prims key).closed rfl config hkey
  obtain ⟨hconfig, hsim, -⟩ := (openWith_simulates (w := ⟨[], []⟩) hdir rfl).of_ok h
  exact models_open [] (hconfig ▸ hkey) rfl hsim

end

end PaddockKV.Engine
