import PaddockKV.Engine.LiveTables
import PaddockKV.Vfs.LinuxVfs

/-!
# The engine on a backend

The calls on files that the engine has made in a run are proper, so a backend that
hosts the directory answers them as the file layer of the model did and ends with the
same files. A table that is open for reading is read there as the model reads it.
-/

namespace PaddockKV.Vfs

open Io Engine Crypto Transition

/-- The call behind an entry of the log. -/
def fileOp : VfsCall → Option FileOp
  | .openWritable name => some (.openWritable name)
  | .append name data => some (.append name data)
  | .writeAt name data offset => some (.writeAt name data offset)
  | .sync name => some (.sync name)
  | .remove name => some (.remove name)
  | .sealBlock _ _ => none

/-- The calls of a log, the first one first. -/
def callsOf (log : List VfsCall) : List FileOp := log.reverse.filterMap fileOp

/-- The state after a list of calls. -/
def after {S : Type} (step : S → FileOp → S × Answer) (s : S) (ops : List FileOp) : S :=
  ops.foldl (fun s op => (step s op).1) s

/-! ### Runs of calls -/

section Runs

variable {S : Type} {step : S → FileOp → S × Answer} {s : S} {c : Client} {ops more : List FileOp}

theorem after_append : after step s (ops ++ more) = after step (after step s ops) more :=
  List.foldl_append

theorem answers_append : answers step s (ops ++ more) =
    answers step s ops ++ answers step (after step s ops) more := by
  induction ops generalizing s with
  | nil => rfl
  | cons op ops ih => simp [answers, after, ih]

theorem properRun_append :
    ProperRun c (ops ++ more) ↔ ProperRun c ops ∧ ProperRun (after Client.step c ops) more := by
  induction ops generalizing c with
  | nil => simp [ProperRun, after]
  | cons op ops ih => simp [ProperRun, after, ih, and_assoc]

/-- All calls of a list succeed, and `c'` is where they end. -/
structure Runs (c : Client) (ops : List FileOp) (c' : Client) : Prop where
  proper : ProperRun c ops
  done : ∀ a ∈ answers Client.step c ops, a = .done
  ends : after Client.step c ops = c'

theorem Runs.nil (c : Client) : Runs c [] c := ⟨trivial, by simp [answers], rfl⟩

theorem Runs.append {c₁ c₂ : Client} (h : Runs c ops c₁) (h' : Runs c₁ more c₂) :
    Runs c (ops ++ more) c₂ := by
  constructor
  case proper =>
    rw [properRun_append, h.ends]
    exact ⟨h.proper, h'.proper⟩
  case done =>
    rw [answers_append, h.ends]
    intro a ha
    exact (List.mem_append.mp ha).elim (h.done a) (h'.done a)
  case ends => rw [after_append, h.ends, h'.ends]

theorem Runs.single {op : FileOp} {c' : Client} (hok : Proper c op)
    (h : c.step op = (c', .done)) : Runs c [op] c' := by
  constructor
  · exact ⟨hok, trivial⟩
  · simp [answers, h]
  · simp [after, h]

theorem Related.after {σ K : Type} [DecidableEq K] {V : Vfs σ} {dir : Str}
    {view : σ → Inodes K Bytes} {key : Str → K} {Inv : σ → Prop} {h : Host σ}
    (hV : Hosting V dir view key Inv) (hrel : Related view key Inv c h) (hok : ProperRun c ops) :
    Related view key Inv (after Client.step c ops) (after (Host.step V dir) h ops) := by
  induction ops generalizing c h with
  | nil => exact hrel
  | cons op ops ih => exact ih (hrel.step hV hok.1).2 hok.2

end Runs

/-! ### The calls of the engine -/

section Logs

variable {log : List VfsCall}

/-- The log without its notes on sealing. -/
def fileCalls (log : List VfsCall) : List VfsCall := log.filter fun c => (fileOp c).isSome

theorem fileCalls_cons (c : VfsCall) (log : List VfsCall) : fileCalls (c :: log) =
    if (fileOp c).isSome then c :: fileCalls log else fileCalls log := List.filter_cons

theorem diskOf_fileCalls (log : List VfsCall) : diskOf (fileCalls log) = diskOf log := by
  induction log with
  | nil => rfl
  | cons c log ih => cases c <;> simp [fileCalls_cons, fileOp, diskOf_cons, Disk.apply, ih]

theorem opened_fileCalls (log : List VfsCall) :
    (fileCalls log).filterMap opened = log.filterMap opened := by
  induction log with
  | nil => rfl
  | cons c log ih => cases c <;> simp [fileCalls_cons, fileOp, List.filterMap_cons, opened, ih]

/-- The file layer of the model after the calls of the log. -/
def clientOf (log : List VfsCall) : Client := ⟨⟨fileCalls log, []⟩, []⟩

theorem disk_clientOf (log : List VfsCall) : (clientOf log).world.disk = diskOf log :=
  diskOf_fileCalls log

theorem callsOf_cons (c : VfsCall) (log : List VfsCall) :
    callsOf (c :: log) = callsOf log ++ (fileOp c).toList := by
  unfold callsOf
  rw [List.reverse_cons, List.filterMap_append]
  cases h : fileOp c <;> simp [h]

theorem step_clientOf {c : VfsCall} {op : FileOp} (hop : fileOp c = some op)
    (hstep : (clientOf log).step op = (⟨(clientOf log).world.call c, []⟩, .done)) :
    (clientOf log).step op = (clientOf (c :: log), .done) := by
  rw [hstep]
  simp [clientOf, fileCalls_cons, World.call, hop]

theorem runs_use {name : FileName} {c : VfsCall} (hc : Use name log c)
    (hopened : name ∈ log.filterMap opened) :
    Runs (clientOf log) (fileOp c).toList (clientOf (c :: log)) := by
  have hmem : name ∈ (clientOf log).world.log.filterMap opened := by
    rw [clientOf, opened_fileCalls]
    exact hopened
  have hfree : ∀ r ∈ (clientOf log).readers, r.1 ≠ name := fun r hr => nomatch hr
  cases hc with
  | append data =>
    exact .single ⟨hmem, hfree⟩ (step_clientOf rfl (Client.append_served rfl))
  | sync =>
    exact .single hmem (step_clientOf rfl (Client.sync_served rfl))
  | sealing id offset => exact .nil _
  | @patch data offset f hf hle hlt =>
    have hdisk : (clientOf log).world.disk name = some f := by rw [disk_clientOf, hf]
    exact .single ⟨⟨f, hdisk, hle⟩, hlt, hfree⟩
      (step_clientOf rfl (Client.writeAt_served rfl hdisk hle))

theorem runs_callsOf (h : Disciplined log) : Runs Client.start (callsOf log) (clientOf log) := by
  induction h with
  | nil => exact .nil _
  | @create name log _ _ hlt ih =>
    rw [callsOf_cons]
    exact ih.append (.single hlt (step_clientOf rfl (Client.openWritable_served rfl)))
  | use _ hopened hc ih =>
    rw [callsOf_cons]
    exact ih.append (runs_use hc hopened)
  | @remove name log _ hlt ih =>
    rw [callsOf_cons]
    exact ih.append (.single hlt (step_clientOf rfl (Client.remove_served rfl)))

theorem runs_opens {ssts : List LiveSst} (hdisk : ∀ sst ∈ ssts, OnDisk log sst)
    (hlt : ∀ sst ∈ ssts, sst.id < u64Size) :
    Runs (clientOf log) (ssts.map fun sst => .openReadonly (.sst sst.id))
      { clientOf log with readers := ssts.map fun sst => (.sst sst.id, sst.reader.file) } := by
  induction ssts using List.reverseRecOn with
  | nil => exact .nil _
  | append_singleton ssts sst ih =>
    have hmem : sst ∈ ssts ++ [sst] := by simp
    obtain ⟨s, hs⟩ := hdisk sst hmem
    rw [List.map_append, List.map_append]
    refine (ih (fun x hx => hdisk x (List.mem_append_left _ hx))
      fun x hx => hlt x (List.mem_append_left _ hx)).append ?_
    apply Runs.single
    · exact hlt sst hmem
    · have hopen := openReadonly_nil (w := (clientOf log).world) rfl (.sst sst.id)
      rw [disk_clientOf, hs] at hopen
      simp only [Client.step, Client.call, hopen, List.map_singleton]

end Logs

/-- The calls the engine has made in a run are answered without error by a backend
that hosts its directory, whatever failed in the run and wherever crashes cut it. There
the tables open for reading are found and read as the engine's model reads them, and a
listing gives the numbers that the model lists. -/
theorem engine_on_backend {σ K : Type} [DecidableEq K] {V : Vfs σ} {dir : Str}
    {view : σ → Inodes K Bytes} {key : Str → K} {Inv : σ → Prop}
    (hV : Hosting V dir view key Inv) {fs : σ} (hinv : Inv fs) {owner : ℕ → K}
    (howned : (view fs).Owned owner) (hforeign : ∀ str, Numbered str → (view fs).find (key str) = none)
    {prims : Primitives} {s : Sys} {db : Db} (h : Reach (Sys.next prims) ListsServed Sys.start s)
    (hdb : s.db = some db) :
    let calls := callsOf s.log ++ db.state.sstables.map fun sst => .openReadonly (.sst sst.id)
    let host := after (Host.step V dir) (Host.start fs) calls
    (∀ a ∈ answers (Host.step V dir) (Host.start fs) calls, a = .done) ∧
    (∀ i sst, db.state.sstables[i]? = some sst → ∀ offset len, offset + len < 2 ^ 63 →
      (len = 0 → offset ≤ sst.reader.file.length) →
      (host.step V dir (.readAt i offset len)).2 =
        .ofRes (Io.readAt sst.reader.file offset len) .bytes) ∧
    (host.step V dir .list).2 = .ofNames (World.list ⟨s.log, []⟩) := by
  have hfiled := reach_filed h
  have hsmall : ∀ sst ∈ db.state.sstables, sst.id < u64Size := fun sst hsst =>
    ((hfiled.fresh db hdb).tables_lt sst hsst).trans (hfiled.filed db hdb).small
  have hruns := (runs_callsOf hfiled.disciplined).append
    (runs_opens (hfiled.filed db hdb).tables hsmall)
  intro calls host
  have hstart : Related view key Inv Client.start (Host.start fs) :=
    related_start hinv howned hforeign
  have hrel := hstart.after hV hruns.proper
  rw [hruns.ends] at hrel
  refine ⟨?_, ?_, ?_⟩
  · rw [hV.answers hstart hruns.proper]
    exact hruns.done
  · intro i sst hsst offset len hlt hempty
    have hreader : (db.state.sstables.map fun sst => (FileName.sst sst.id, sst.reader.file))[i]? =
        some (.sst sst.id, sst.reader.file) := by
      rw [List.getElem?_map, hsst]
      rfl
    have hok : Proper ⟨(clientOf s.log).world,
        db.state.sstables.map fun sst => (FileName.sst sst.id, sst.reader.file)⟩
        (.readAt i offset len) := by
      refine ⟨hlt, ?_⟩
      intro hlen r hr
      rw [hreader] at hr
      cases hr
      exact hempty hlen
    rw [← (hrel.step hV hok).1]
    simp only [Client.step, hreader]
  · have hok : Proper ⟨(clientOf s.log).world,
        db.state.sstables.map fun sst => (FileName.sst sst.id, sst.reader.file)⟩ .list := trivial
    rw [← (hrel.step hV hok).1]
    have hlist : (clientOf s.log).world.list = World.list ⟨s.log, []⟩ := by
      unfold World.list
      rw [disk_clientOf, clientOf, opened_fileCalls]
      rfl
    rw [← hlist]
    exact congrArg Prod.snd (@Client.list_served ⟨_, _⟩ rfl)

section

set_option maxRecDepth 100000

/-- After an append cut short, a commit and a flush, on the production backend. -/
theorem engine_on_backend_flushed : ∃ s db,
    Reach (Sys.next .blank) ListsServed Sys.start s ∧ s.db = some db ∧
    db.state.sstables.length = 1 ∧
    ∀ a ∈ answers (Host.step (LinuxVfs.vfs ['/', 'd', 'a', 't', 'a']) ['.']) (Host.start dataHost)
      (callsOf s.log ++ db.state.sstables.map fun sst => .openReadonly (.sst sst.id)), a = .done := by
  obtain ⟨s, hreach, hs⟩ := reach_of_runDecided
    (show (runOk (Sys.next .blank) (fun s a => decide (ListsServed s a)) Sys.start
      [.openDb .default [], .call (.commit [.put [1] [7]]) [.failed 5],
        .call (.commit [.put [1] [2]]) [], .call .flush []]).map
      (fun s => decide (s.db.map (fun db => db.state.sstables.length) = some 1)) =
      some true by decide +kernel)
  obtain ⟨db, hdb, hlen⟩ := Option.map_eq_some_iff.mp (of_decide_eq_true hs)
  exact ⟨s, db, hreach, hdb, hlen, (engine_on_backend
    (LinuxVfs.hosting ['/', 'd', 'a', 't', 'a'] (show Accepted ['.'] by decide)) dataHost_inv
    (fun _ _ h => nomatch h : dataHost.files.Owned fun _ => []) (fun _ _ => rfl) hreach hdb).1⟩

end

end PaddockKV.Vfs
