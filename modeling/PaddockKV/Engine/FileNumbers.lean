import PaddockKV.Engine.Recovery

/-!
# Numbers of files (`engine.rs`, `sstable/writer.rs`)

Files are numbered upwards and a file is removed only while one with a greater
number is there, so the numbers in a directory tell which were used. The blocks of
a table are sealed at ascending offsets.
-/

namespace PaddockKV.Engine

open Io Wal Sstable Crypto Compaction

def number : FileName → ℕ
  | .wal id => id
  | .sst id => id

/-- Calls that only change what is in a file. -/
def Plain : VfsCall → Prop
  | .append _ _ => True
  | .writeAt _ _ _ => True
  | .sync _ => True
  | _ => False

/-- The table and the offset of a sealed block. -/
def sealedAt : VfsCall → Option (ℕ × ℕ)
  | .sealBlock id offset => some (id, offset)
  | _ => none

theorem sealedAt_of_plain {c : VfsCall} (h : Plain c) : sealedAt c = none := by
  cases c with
  | sealBlock id o => exact h.elim
  | _ => rfl

theorem opened_of_plain {c : VfsCall} (h : Plain c) : opened c = none := by
  cases c with
  | openWritable n => exact h.elim
  | _ => rfl

theorem ne_remove_of_plain {c : VfsCall} (h : Plain c) (name : FileName) : c ≠ .remove name := by
  rintro rfl
  exact h

/-- Numbers of new files go up, a removed file is outnumbered by one that stays,
and the blocks of a table are sealed at ascending offsets. -/
inductive Numbered : List VfsCall → Prop where
  | nil : Numbered []
  | plain {c : VfsCall} {log : List VfsCall} (h : Numbered log) (hc : Plain c) : Numbered (c :: log)
  | created {name : FileName} {log : List VfsCall} (h : Numbered log)
    (hnew : ∀ x ∈ log.filterMap opened, number x < number name) :
    Numbered (.openWritable name :: log)
  | removed {name other : FileName} {log : List VfsCall} (h : Numbered log)
    (hother : (diskOf log other).isSome = true) (hlt : number name < number other) :
    Numbered (.remove name :: log)
  | sealing {id offset : ℕ} {log : List VfsCall} (h : Numbered log)
    (htable : .sst id ∈ log.filterMap opened)
    (hnew : ∀ o, VfsCall.sealBlock id o ∈ log → o < offset)
    (hid : id < u64Size) (hoffset : offset < u64Size) : Numbered (.sealBlock id offset :: log)

namespace Numbered

variable {log log' : List VfsCall}

theorem of_suffix (h : Numbered log') (hsuf : log <:+ log') : Numbered log := by
  obtain ⟨evs, rfl⟩ := hsuf
  induction evs with
  | nil => exact h
  | cons c evs ih =>
    cases h with
    | plain h _ => exact ih h
    | created h _ => exact ih h
    | removed h _ _ => exact ih h
    | sealing h _ _ _ _ => exact ih h

theorem opened_of_sealed (h : Numbered log) {id o : ℕ} (hmem : VfsCall.sealBlock id o ∈ log) :
    .sst id ∈ log.filterMap opened := by
  induction h with
  | nil => cases hmem
  | @plain c log _ hc ih =>
    rcases List.mem_cons.mp hmem with rfl | hmem
    · exact hc.elim
    · exact (List.sublist_cons_self c log).filterMap opened |>.subset (ih hmem)
  | @created name log _ _ ih =>
    rcases List.mem_cons.mp hmem with heq | hmem
    · cases heq
    · exact (List.sublist_cons_self _ log).filterMap opened |>.subset (ih hmem)
  | @removed name other log _ _ _ ih =>
    rcases List.mem_cons.mp hmem with heq | hmem
    · cases heq
    · exact (List.sublist_cons_self _ log).filterMap opened |>.subset (ih hmem)
  | @sealing id' offset log _ htable _ _ _ ih =>
    have hsub := (List.sublist_cons_self (VfsCall.sealBlock id' offset) log).filterMap opened
    rcases List.mem_cons.mp hmem with heq | hmem
    · cases heq
      exact hsub.subset htable
    · exact hsub.subset (ih hmem)

theorem nodup_sealed (h : Numbered log) : (log.filterMap sealedAt).Nodup := by
  induction h with
  | nil => exact List.nodup_nil
  | @plain c log _ hc ih =>
    rw [List.filterMap_cons_none (sealedAt_of_plain hc)]
    exact ih
  | created _ _ ih => exact ih
  | removed _ _ _ ih => exact ih
  | @sealing id offset log _ _ hnew _ _ ih =>
    rw [List.filterMap_cons_some (show sealedAt (.sealBlock id offset) = some (id, offset) from rfl)]
    refine List.nodup_cons.mpr ⟨?_, ih⟩
    intro hmem
    obtain ⟨c, hc, hsealed⟩ := List.mem_filterMap.mp hmem
    cases c with
    | sealBlock i o =>
      cases hsealed
      exact lt_irrefl _ (hnew _ hc)
    | _ => cases hsealed

theorem sealed_lt (h : Numbered log) :
    ∀ p ∈ log.filterMap sealedAt, p.1 < u64Size ∧ p.2 < u64Size := by
  induction h with
  | nil => intro p hp; cases hp
  | @plain c log _ hc ih =>
    rw [List.filterMap_cons_none (sealedAt_of_plain hc)]
    exact ih
  | created _ _ ih => exact ih
  | removed _ _ _ ih => exact ih
  | @sealing id offset log _ _ _ hid hoffset ih =>
    rw [List.filterMap_cons_some (show sealedAt (.sealBlock id offset) = some (id, offset) from rfl)]
    intro p hp
    rcases List.mem_cons.mp hp with rfl | hp
    · exact ⟨hid, hoffset⟩
    · exact ih p hp

end Numbered

/-! ### Files that are there -/

theorem isSome_apply_of_ne {d : Disk} {c : VfsCall} {name : FileName} (hc : c ≠ .remove name)
    (h : (d name).isSome = true) : (d.apply c name).isSome = true := by
  cases c with
  | openWritable n | append n data | writeAt n data off | sync n =>
    by_cases hn : name = n
    · subst hn
      simp [Disk.apply, h]
    · rw [Disk.apply, Function.update_of_ne hn]
      exact h
  | remove n =>
    have hn : name ≠ n := fun heq => hc (congrArg _ heq.symm)
    rw [Disk.apply, Function.update_of_ne hn]
    exact h
  | sealBlock id off => exact h

theorem isSome_openWritable (d : Disk) (name : FileName) :
    (d.apply (.openWritable name) name).isSome = true := by
  simp [Disk.apply]

theorem Numbered.outnumbered {log : List VfsCall} (h : Numbered log) {name : FileName}
    (hmem : name ∈ log.filterMap opened) :
    ∃ other, (diskOf log other).isSome = true ∧ number name ≤ number other := by
  induction h generalizing name with
  | nil => cases hmem
  | @plain c log _ hc ih =>
    rw [List.filterMap_cons_none (opened_of_plain hc)] at hmem
    obtain ⟨other, hother, hle⟩ := ih hmem
    exact ⟨other, isSome_apply_of_ne (ne_remove_of_plain hc _) hother, hle⟩
  | @created new log _ hnew ih =>
    rw [List.filterMap_cons_some (show opened (.openWritable new) = some new from rfl)] at hmem
    refine ⟨new, isSome_openWritable _ _, ?_⟩
    rcases List.mem_cons.mp hmem with rfl | hmem
    · exact le_refl _
    · exact (hnew _ hmem).le
  | @removed gone stays log _ hstays hlt ih =>
    obtain ⟨other, hother, hle⟩ := ih hmem
    by_cases heq : other = gone
    · subst heq
      have hne : VfsCall.remove other ≠ .remove stays := by
        intro h
        cases h
        exact lt_irrefl _ hlt
      exact ⟨stays, isSome_apply_of_ne hne hstays, hle.trans hlt.le⟩
    · have hne : VfsCall.remove gone ≠ .remove other := by
        intro h
        cases h
        exact heq rfl
      exact ⟨other, isSome_apply_of_ne hne hother, hle⟩
  | @sealing id offset log _ _ _ _ _ ih =>
    obtain ⟨other, hother, hle⟩ := ih hmem
    exact ⟨other, hother, hle⟩

/-- `log` goes on from `log₀` without creating or removing files. -/
def Extends (log₀ log : List VfsCall) : Prop :=
  ∃ evs, log = evs ++ log₀ ∧ ∀ c ∈ evs, opened c = none ∧ ∀ name, c ≠ .remove name

namespace Extends

variable {log₀ log : List VfsCall}

theorem refl (log : List VfsCall) : Extends log log := ⟨[], rfl, fun _ h => by cases h⟩

theorem cons (h : Extends log₀ log) {c : VfsCall} (hopened : opened c = none)
    (hstays : ∀ name, c ≠ .remove name) : Extends log₀ (c :: log) := by
  obtain ⟨evs, rfl, hevs⟩ := h
  refine ⟨c :: evs, rfl, ?_⟩
  intro c' hc'
  rcases List.mem_cons.mp hc' with rfl | hc'
  · exact ⟨hopened, hstays⟩
  · exact hevs c' hc'

theorem opened_eq (h : Extends log₀ log) : log.filterMap opened = log₀.filterMap opened := by
  obtain ⟨evs, rfl, hevs⟩ := h
  rw [List.filterMap_append, List.filterMap_eq_nil_iff.mpr fun c hc => (hevs c hc).1,
    List.nil_append]

theorem present (h : Extends log₀ log) {name : FileName}
    (hname : (diskOf log₀ name).isSome = true) : (diskOf log name).isSome = true := by
  obtain ⟨evs, rfl, hevs⟩ := h
  induction evs with
  | nil => exact hname
  | cons c evs ih =>
    exact isSome_apply_of_ne ((hevs c List.mem_cons_self).2 name)
      (ih fun c' hc' => hevs c' (List.mem_cons_of_mem _ hc'))

end Extends

/-! ### Calls that only write

`J` is any property of the log that calls on the contents of files keep. -/

section Writing

/-- The call keeps `J`, however it ends. -/
abbrev KeepsLog {α : Type} (J : List VfsCall → Prop) (x : Act World α) : Prop :=
  Keeps (fun w => J w.log) (fun _ w => J w.log) x

abbrev KeepsWal {α : Type} (J : List VfsCall → Prop) (x : Act WalEnv α) : Prop :=
  Keeps (fun e => J e.world.log) (fun _ e => J e.world.log) x

variable {J : List VfsCall → Prop}

theorem keeps_perform {onDone : World → World} {onFailed : ℕ → World → World} (msg : String)
    (hdone : ∀ w, J w.log → J (onDone w).log) (hfailed : ∀ n w, J w.log → J (onFailed n w).log) :
    KeepsLog J (perform onDone onFailed msg) := by
  intro w h
  refine Ends.mono (perform_ends _ _ _ w) ?_ ?_
  · rintro - _ rfl
    exact hdone { w with faults := w.faults.tail } h
  · rintro f _ ⟨-, -, n, rfl⟩
    exact hfailed n { w with faults := w.faults.tail } h

theorem keeps_tryReads : KeepsLog J tryReads :=
  keeps_perform _ (fun _ h => h) fun _ _ h => h

theorem keeps_openReadonly (name : FileName) : KeepsLog J (openReadonly name) := by
  refine Keeps.bind (keeps_perform _ (fun _ h => h) fun _ _ h => h) fun _ => Keeps.bind .read ?_
  intro w
  cases w.disk name with
  | none => exact Keeps.fail fun _ h => h
  | some f => exact Keeps.ret _

theorem keeps_openTable (prims : Primitives) (config : DbConfig) (id : ℕ) :
    KeepsLog J (openTable prims config id) :=
  Keeps.bind (keeps_openReadonly _) fun _ => Keeps.bind keeps_tryReads fun _ =>
    Keeps.lift fun _ _ _ h => h

theorem keeps_onWorld {α : Type} {x : Act World α} (hx : KeepsLog J x) :
    KeepsWal J (SegmentWriter.onWorld x) :=
  Keeps.zoom hx (fun _ h => h) (fun _ _ _ h => h) fun _ _ _ _ h => h

variable (hJ : ∀ c log, Plain c → J log → J (c :: log))
include hJ

theorem keeps_append (name : FileName) (data : Bytes) :
    KeepsLog J (append name data) :=
  keeps_perform _ (fun _ h => hJ _ _ trivial h) fun _ _ h => hJ _ _ trivial h

theorem keeps_sync (name : FileName) : KeepsLog J (Io.sync name) :=
  keeps_perform _ (fun _ h => hJ _ _ trivial h) fun _ _ h => h

theorem keeps_writeAt (name : FileName) (data : Bytes) (offset : ℕ) :
    KeepsLog J (writeAt name data offset) := by
  refine Keeps.bind .read ?_
  intro w
  cases w.disk name with
  | none => exact Keeps.fail fun _ h => h
  | some f =>
    dsimp only
    split
    · exact Keeps.fail fun _ h => h
    · exact keeps_perform _ (fun _ h => hJ _ _ trivial h) fun _ _ h => hJ _ _ trivial h

theorem keeps_fileAppend (data : Bytes) :
    KeepsWal J (SegmentWriter.fileAppend data) :=
  Keeps.bind .read fun _ => keeps_onWorld (keeps_append hJ _ _)

theorem keeps_writeFragment (t : RecordType) (seqno : ℕ) (payload : Bytes) :
    KeepsWal J (SegmentWriter.writeFragment t seqno payload) := by
  refine Keeps.bind (keeps_fileAppend hJ _) fun _ => Keeps.bind (keeps_fileAppend hJ _) fun _ => ?_
  refine Keeps.bind (.update fun _ h => h) fun _ => Keeps.bind .read fun _ => ?_
  exact Keeps.bind (Keeps.addU64 fun _ h => h) fun _ => .update fun _ h => h

theorem keeps_appendLoop (fuel : ℕ) (isFirst : Bool) (seqno : ℕ) (payload : Bytes) :
    KeepsWal J
      (SegmentWriter.appendLoop fuel isFirst seqno payload) := by
  induction fuel generalizing isFirst payload with
  | zero => exact Keeps.fail fun _ h => h
  | succ fuel ih =>
    refine Keeps.bind .read fun _ => Keeps.bind (keeps_writeFragment hJ _ _ _) fun _ => ?_
    dsimp only
    split
    · exact Keeps.ret _
    · exact Keeps.bind (.update fun _ h => h) fun _ => ih _ _

theorem keeps_appendRecord (seqno : ℕ) (payload : Bytes) :
    KeepsWal J (SegmentWriter.appendRecord seqno payload) := by
  have hpad : KeepsWal J SegmentWriter.padBlockIfHeaderWouldNotFit := by
    refine Keeps.bind .read fun _ => ?_
    dsimp only
    split
    · refine Keeps.bind (keeps_fileAppend hJ _) fun _ => Keeps.bind (Keeps.addU64 fun _ h => h) fun _ => ?_
      exact .update fun _ h => h
    · exact Keeps.ret _
  refine Keeps.bind .read fun _ => Keeps.bind hpad fun _ => ?_
  exact Keeps.bind (keeps_appendLoop hJ _ _ _ _) fun _ => Keeps.ret _

theorem keeps_walSync : KeepsWal J SegmentWriter.sync :=
  Keeps.bind .read fun _ => keeps_onWorld (keeps_sync hJ _)

theorem keeps_finishSections (w : SstWriter) :
    KeepsLog J w.finishSections := by
  have hfilter : KeepsLog J w.writeFilter := by
    unfold SstWriter.writeFilter
    split
    · refine Keeps.bind (keeps_append hJ _ _) fun _ => Keeps.bind (Keeps.addU64 fun _ h => h) fun _ => ?_
      exact Keeps.bind (Keeps.lift fun _ _ _ h => h) fun _ => Keeps.ret _
    · exact Keeps.ret _
  refine Keeps.bind hfilter fun _ => Keeps.bind (Keeps.lift fun _ _ _ h => h) fun _ => ?_
  refine Keeps.bind (keeps_append hJ _ _) fun _ => Keeps.bind (Keeps.addU64 fun _ h => h) fun _ => ?_
  refine Keeps.bind (Keeps.lift fun _ _ _ h => h) fun _ => Keeps.bind (keeps_append hJ _ _) fun _ => ?_
  exact Keeps.bind (Keeps.addU64 fun _ h => h) fun _ => keeps_writeAt hJ _ _ _

end Writing

/-! ### Writing a table -/

/-- The log while the table `id` is written: its blocks so far are sealed below
the offset `b`. -/
structure Filling (id : ℕ) (log₀ : List VfsCall) (b : ℕ) (log : List VfsCall) : Prop where
  numbered : Numbered log
  since : Extends log₀ log
  below : ∀ o, VfsCall.sealBlock id o ∈ log → o < b

theorem Filling.plain {id b : ℕ} {log₀ : List VfsCall} (c : VfsCall) (log : List VfsCall)
    (hc : Plain c) (h : Filling id log₀ b log) : Filling id log₀ b (c :: log) := by
  refine ⟨h.numbered.plain hc, h.since.cons (opened_of_plain hc) (ne_remove_of_plain hc), ?_⟩
  intro o ho
  rcases List.mem_cons.mp ho with rfl | ho
  · exact hc.elim
  · exact h.below o ho

theorem Filling.mono {id b b' : ℕ} {log₀ log : List VfsCall} (h : Filling id log₀ b log)
    (hle : b ≤ b') : Filling id log₀ b' log :=
  ⟨h.numbered, h.since, fun o ho => (h.below o ho).trans_le hle⟩

/-- What a writer that stopped leaves. -/
def Stopped (log₀ log : List VfsCall) : Prop := Numbered log ∧ Extends log₀ log

theorem Stopped.plain {log₀ : List VfsCall} (c : VfsCall) (log : List VfsCall) (hc : Plain c)
    (h : Stopped log₀ log) : Stopped log₀ (c :: log) :=
  ⟨h.1.plain hc, h.2.cons (opened_of_plain hc) (ne_remove_of_plain hc)⟩

theorem Filling.stopped {id b : ℕ} {log₀ log : List VfsCall} (h : Filling id log₀ b log) :
    Stopped log₀ log := ⟨h.numbered, h.since⟩

/-- The writer of the table `id` with the log it works on. -/
structure WriterAt (id : ℕ) (log₀ : List VfsCall) (w : SstWriter) (wd : World) : Prop where
  filling : Filling id log₀ w.bytesWritten wd.log
  crypto : ∀ ctx, w.crypto = some ctx → ctx.sstableId = id
  room : w.bytesWritten < u64Size

section Table

variable {prims : Primitives} {id : ℕ} {log₀ : List VfsCall} (hid : id < u64Size)
  (htable : .sst id ∈ log₀.filterMap opened)

theorem align_filling {w : SstWriter} {wd : World} (h : WriterAt id log₀ w wd) :
    Ends w.alignToBlockBoundary wd (WriterAt id log₀) fun _ wd' => Stopped log₀ wd'.log := by
  unfold SstWriter.alignToBlockBoundary
  dsimp only
  split
  · exact Ends.ret h
  · refine Ends.bind (keeps_append Filling.plain _ _ wd h.filling) ?_ (fun _ _ h => h.stopped)
    intro _ wd₁ h₁
    refine Ends.addU64_bind ?_ (fun _ => h₁.stopped)
    intro hlt
    exact Ends.ret ⟨h₁.mono (Nat.le_add_right _ _), h.crypto, hlt⟩

include hid htable

theorem writeBlock_filling {w : SstWriter} {wd : World} (plaintext : Bytes)
    (h : WriterAt id log₀ w wd) :
    Ends (w.writeBlock prims plaintext) wd (fun out => WriterAt id log₀ out.1)
      fun _ wd' => Stopped log₀ wd'.log := by
  unfold SstWriter.writeBlock
  refine Ends.lift_bind ?_ (fun _ _ => h.filling.stopped)
  rintro ⟨onDisk, checksum⟩ hdisk
  have hseal : Ends (SstWriter.noteSeal w.crypto w.bytesWritten) wd
      (fun _ wd' => Filling id log₀ (w.bytesWritten + onDisk.length) wd'.log) fun _ _ => False := by
    cases hcrypto : w.crypto with
    | none => exact Ends.ret (h.filling.mono (Nat.le_add_right _ _))
    | some ctx =>
      have hctx := h.crypto ctx hcrypto
      subst hctx
      simp only [SstWriter.onDiskBytes, hcrypto] at hdisk
      cases hct : ctx.sealBlock prims w.bytesWritten plaintext with
      | none =>
        simp only [hct] at hdisk
        cases hdisk
      | some ct =>
        simp only [hct] at hdisk
        cases hdisk
        have hlen : 0 < onDisk.length := by
          rw [prims.seal_length _ _ _ _ _ hct]
          exact Nat.lt_of_lt_of_le (by decide) (Nat.le_add_left tagLen _)
        refine Ends.update ⟨h.filling.numbered.sealing ?_ h.filling.below hid h.room,
          h.filling.since.cons rfl (fun _ h => by cases h), ?_⟩
        · rw [h.filling.since.opened_eq]
          exact htable
        · intro o ho
          rcases List.mem_cons.mp ho with heq | ho
          · cases heq
            omega
          · exact (h.filling.below o ho).trans (by omega)
  refine Ends.bind hseal ?_ (fun _ _ h => h.elim)
  intro _ wd₁ h₁
  refine Ends.bind (keeps_append Filling.plain _ _ wd₁ h₁) ?_ (fun _ _ h => h.stopped)
  intro _ wd₂ h₂
  refine Ends.addU64_bind ?_ (fun _ => h₂.stopped)
  intro hlt
  refine Ends.lift_bind ?_ (fun _ _ => h₂.stopped)
  intro length _
  refine Ends.bind (align_filling ⟨h₂, h.crypto, hlt⟩) ?_ (fun _ _ h => h)
  intro w' wd₃ h₃
  exact Ends.ret h₃

theorem flushBlock_filling {w : SstWriter} {wd : World} (h : WriterAt id log₀ w wd) :
    Ends (w.flushBlock prims) wd (WriterAt id log₀) fun _ wd' => Stopped log₀ wd'.log := by
  unfold SstWriter.flushBlock
  split
  · exact Ends.ret h
  · refine Ends.lift_bind ?_ (fun _ _ => h.filling.stopped)
    rintro ⟨bytes, builder⟩ _
    refine Ends.bind (writeBlock_filling hid htable bytes ⟨h.filling, h.crypto, h.room⟩) ?_
      (fun _ _ h => h)
    rintro ⟨w₁, handle⟩ wd₁ h₁
    refine Ends.addU64_bind ?_ (fun _ => h₁.filling.stopped)
    intro _
    exact Ends.ret ⟨h₁.filling, h₁.crypto, h₁.room⟩

theorem add_filling {w : SstWriter} {wd : World} (r : Rec) (h : WriterAt id log₀ w wd) :
    Ends (w.add prims r) wd (WriterAt id log₀) fun _ wd' => Stopped log₀ wd'.log := by
  unfold SstWriter.add
  refine Ends.debugAssert_bind ?_ (fun _ => h.filling.stopped)
  intro _
  refine Ends.addU64_bind ?_ (fun _ => h.filling.stopped)
  intro _
  dsimp only
  split
  · exact flushBlock_filling hid htable ⟨h.filling, h.crypto, h.room⟩
  · exact Ends.ret ⟨h.filling, h.crypto, h.room⟩

theorem addAll_filling {w : SstWriter} {wd : World} (rs : List Rec) (h : WriterAt id log₀ w wd) :
    Ends (w.addAll prims rs) wd (WriterAt id log₀) fun _ wd' => Stopped log₀ wd'.log := by
  induction rs generalizing w wd with
  | nil => exact Ends.ret h
  | cons r rs ih =>
    unfold SstWriter.addAll
    rw [List.foldlM_cons]
    exact Ends.bind (add_filling hid htable r h) (fun w₁ wd₁ h₁ => ih h₁) (fun _ _ h => h)

theorem mergeLoop_filling {fuel : ℕ} {m : KWayMerge} {w : SstWriter} {wd : World}
    (h : WriterAt id log₀ w wd) :
    Ends (mergeLoop prims fuel m w) wd (WriterAt id log₀) fun _ wd' => Stopped log₀ wd'.log := by
  induction fuel generalizing m w wd with
  | zero => exact Ends.fail h.filling.stopped
  | succ fuel ih =>
    unfold mergeLoop
    refine Ends.bind (keeps_tryReads (J := Filling id log₀ w.bytesWritten) wd h.filling) ?_
      (fun _ _ h => h.stopped)
    intro _ wd₁ h₁
    cases KWayMerge.nextRecord m with
    | error f m' => exact Ends.fail h₁.stopped
    | ok out m' =>
      cases out with
      | none => exact Ends.ret ⟨h₁, h.crypto, h.room⟩
      | some r =>
        exact Ends.bind (add_filling hid htable r ⟨h₁, h.crypto, h.room⟩)
          (fun w₂ wd₂ h₂ => ih h₂) (fun _ _ h => h)

theorem finish_filling {w : SstWriter} {wd : World} (h : WriterAt id log₀ w wd) :
    Ends (w.finish prims) wd (fun _ wd' => Stopped log₀ wd'.log)
      fun _ wd' => Stopped log₀ wd'.log :=
  Ends.bind (flushBlock_filling hid htable h)
    (fun w₁ wd₁ h₁ => keeps_finishSections Stopped.plain w₁ wd₁ h₁.filling.stopped)
    (fun _ _ h => h)

end Table

theorem createInner_filling {prims : Primitives} {config : DbConfig} {id keys : ℕ} {wd : World}
    {log₀ : List VfsCall} (h : Filling id log₀ fileHeaderRegionSize wd.log) :
    Ends (SstWriter.createInner (.sst id) keys config.bloomParams (config.cryptoFor prims id)) wd
      (WriterAt id log₀) fun _ wd' => Stopped log₀ wd'.log := by
  unfold SstWriter.createInner
  refine Ends.bind (keeps_append Filling.plain _ _ wd h) ?_ (fun _ _ h => h.stopped)
  intro _ wd₁ h₁
  refine Ends.lift_bind ?_ (fun _ _ => h₁.stopped)
  intro bloom _
  refine Ends.ret ⟨h₁, ?_, show fileHeaderRegionSize < u64Size by decide⟩
  intro ctx hctx
  obtain ⟨master, -, rfl⟩ := Option.map_eq_some_iff.mp hctx
  rfl

/-- The log after a table `id` was written, or was to be written. -/
def TableLog (id : ℕ) (log log' : List VfsCall) : Prop :=
  Numbered log' ∧ (log' = log ∨ Extends (.openWritable (.sst id) :: log) log')

theorem filling_new {id : ℕ} {log : List VfsCall} (h : Numbered log)
    (hnew : ∀ x ∈ log.filterMap opened, number x < id) (b : ℕ) :
    Filling id (.openWritable (.sst id) :: log) b (.openWritable (.sst id) :: log) := by
  refine ⟨h.created hnew, Extends.refl _, ?_⟩
  intro o ho
  rcases List.mem_cons.mp ho with heq | ho
  · cases heq
  · exact absurd (hnew _ (h.opened_of_sealed ho)) (lt_irrefl _)

section NewTable

variable {prims : Primitives} {config : DbConfig} {id keys : ℕ} {wd : World}
  (hid : id < u64Size) (hlog : Numbered wd.log)
  (hnew : ∀ x ∈ wd.log.filterMap opened, number x < id)
include hid hlog hnew

theorem writeTable_log (size : ℕ) (rs : List Rec) :
    Ends (SstWriter.writeTable prims (.sst id) keys config.bloomParams (config.cryptoFor prims id)
      size rs) wd
      (fun _ wd' => Stopped (.openWritable (.sst id) :: wd.log) wd'.log)
      fun _ wd' => TableLog id wd.log wd'.log := by
  have htable : .sst id ∈ (VfsCall.openWritable (.sst id) :: wd.log).filterMap opened :=
    List.mem_cons_self
  unfold SstWriter.writeTable
  refine Ends.bind (openWritable_ends _ wd) ?_ ?_
  · rintro - wd₁ ⟨hlog₁, -, -⟩
    refine Ends.bind (createInner_filling (hlog₁ ▸ filling_new hlog hnew _)) ?_
      (fun _ _ h => ⟨h.1, .inr h.2⟩)
    intro w wd₂ h₂
    refine Ends.bind (addAll_filling hid htable rs ⟨h₂.filling, h₂.crypto, h₂.room⟩) ?_
      (fun _ _ h => ⟨h.1, .inr h.2⟩)
    intro w' wd₃ h₃
    exact Ends.mono (finish_filling hid htable h₃) (fun _ _ h => h) (fun _ _ h => ⟨h.1, .inr h.2⟩)
  · rintro f wd₁ ⟨hlog₁, -⟩
    rw [hlog₁]
    exact ⟨hlog, .inl rfl⟩

theorem compactSstables_log (inputs : List SstReader) :
    Ends (compactSstables prims config inputs id) wd
      (fun _ wd' => Stopped (.openWritable (.sst id) :: wd.log) wd'.log)
      fun _ wd' => TableLog id wd.log wd'.log := by
  have htable : .sst id ∈ (VfsCall.openWritable (.sst id) :: wd.log).filterMap opened :=
    List.mem_cons_self
  unfold compactSstables
  refine Ends.lift_bind ?_ (fun _ _ => ⟨hlog, .inl rfl⟩)
  intro streams _
  refine Ends.bind (openWritable_ends _ wd) ?_ ?_
  · rintro - wd₁ ⟨hlog₁, -, -⟩
    refine Ends.bind (createInner_filling (hlog₁ ▸ filling_new hlog hnew _)) ?_
      (fun _ _ h => ⟨h.1, .inr h.2⟩)
    intro w wd₂ h₂
    refine Ends.bind (mergeLoop_filling hid htable h₂) ?_ (fun _ _ h => ⟨h.1, .inr h.2⟩)
    intro w' wd₃ h₃
    refine Ends.bind (finish_filling hid htable h₃) ?_ (fun _ _ h => ⟨h.1, .inr h.2⟩)
    intro _ wd₄ h₄
    exact Ends.mono (keeps_openTable (J := Stopped _) prims config id wd₄ h₄) (fun _ _ h => h)
      (fun _ _ h => ⟨h.1, .inr h.2⟩)
  · rintro f wd₁ ⟨hlog₁, -⟩
    rw [hlog₁]
    exact ⟨hlog, .inl rfl⟩

end NewTable

end PaddockKV.Engine
