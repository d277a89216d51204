import PaddockKV.Engine.Nonces
import PaddockKV.Engine.Sessions
import PaddockKV.Sstable.Authentic

/-!
# How the engine uses its files

A file is created once, under a number that was never used, and written only by the
call that created it or, for a segment, by the commits that follow. Nothing is written
to a table that is open for reading, and no such table is removed. This is what the
file layer of the model takes for granted when it names a handle by its file and lets
a reader keep the bytes it was opened with; it holds whatever operations fail and
wherever a crash cuts a run short.
-/

namespace PaddockKV.Engine

open Io Wal Sstable Crypto Transition

/-! ### Writing to one file -/

/-- A call on the contents of `name`. -/
inductive Use (name : FileName) (log : List VfsCall) : VfsCall → Prop where
  | append (data : Bytes) : Use name log (.append name data)
  | sync : Use name log (.sync name)
  | sealing (id offset : ℕ) : Use name log (.sealBlock id offset)
  | patch {data : Bytes} {offset : ℕ} {f : File} (hf : diskOf log name = some f)
    (hle : offset + data.length ≤ f.bytes.length) (hlt : offset + data.length < 2 ^ 63) :
    Use name log (.writeAt name data offset)

/-- `log` goes on from `log₀` with calls on the contents of `name`. -/
inductive Within (name : FileName) (log₀ : List VfsCall) : List VfsCall → Prop where
  | refl : Within name log₀ log₀
  | step {log : List VfsCall} {c : VfsCall} (h : Within name log₀ log) (hc : Use name log c) :
    Within name log₀ (c :: log)

/-- New files have new names, other calls are on files that were created, and numbers
fit their type. -/
inductive Disciplined : List VfsCall → Prop where
  | nil : Disciplined []
  | create {name : FileName} {log : List VfsCall} (h : Disciplined log)
    (hnew : name ∉ log.filterMap opened) (hlt : number name < u64Size) :
    Disciplined (.openWritable name :: log)
  | use {name : FileName} {log : List VfsCall} {c : VfsCall} (h : Disciplined log)
    (hopened : name ∈ log.filterMap opened) (hc : Use name log c) : Disciplined (c :: log)
  | remove {name : FileName} {log : List VfsCall} (h : Disciplined log)
    (hlt : number name < u64Size) : Disciplined (.remove name :: log)

theorem Use.opened_none {name : FileName} {log : List VfsCall} {c : VfsCall} (h : Use name log c) :
    opened c = none := by
  cases h <;> rfl

theorem Use.disk {name other : FileName} {log : List VfsCall} {c : VfsCall} (h : Use name log c)
    (hne : other ≠ name) : diskOf (c :: log) other = diskOf log other := by
  cases h <;> simp [diskOf_cons, Disk.apply, hne]

section Within

variable {name other : FileName} {log₀ log₁ log : List VfsCall}

theorem Within.opened_eq (h : Within name log₀ log) :
    log.filterMap opened = log₀.filterMap opened := by
  induction h with
  | refl => rfl
  | step _ hc ih => rw [List.filterMap_cons_none hc.opened_none, ih]

theorem Within.disk (h : Within name log₀ log) (hne : other ≠ name) :
    diskOf log other = diskOf log₀ other := by
  induction h with
  | refl => rfl
  | step _ hc ih => rw [hc.disk hne, ih]

theorem Within.disciplined (h : Within name log₀ log) (hd : Disciplined log₀)
    (hopened : name ∈ log₀.filterMap opened) : Disciplined log := by
  induction h with
  | refl => exact hd
  | step hw hc ih => exact ih.use (hw.opened_eq ▸ hopened) hc

theorem Disciplined.of_suffix (h : Disciplined log) (hsuf : log₀ <:+ log) : Disciplined log₀ := by
  induction h with
  | nil =>
    rw [List.suffix_nil.mp hsuf]
    exact .nil
  | create h hnew hlt ih =>
    rcases List.suffix_cons_iff.mp hsuf with rfl | hsuf
    · exact h.create hnew hlt
    · exact ih hsuf
  | use h hopened hc ih =>
    rcases List.suffix_cons_iff.mp hsuf with rfl | hsuf
    · exact h.use hopened hc
    · exact ih hsuf
  | remove h hlt ih =>
    rcases List.suffix_cons_iff.mp hsuf with rfl | hsuf
    · exact h.remove hlt
    · exact ih hsuf

/-- The file `name` was created, if anything was done, and then written. -/
def Created (name : FileName) (log log' : List VfsCall) : Prop :=
  log' = log ∨ Within name (.openWritable name :: log) log'

theorem Created.disciplined (h : Created name log₀ log) (hd : Disciplined log₀)
    (hnew : name ∉ log₀.filterMap opened) (hlt : number name < u64Size) : Disciplined log := by
  rcases h with rfl | h
  · exact hd
  · exact h.disciplined (hd.create hnew hlt) List.mem_cons_self

theorem Created.disk (h : Created name log₀ log) (hne : other ≠ name) :
    diskOf log other = diskOf log₀ other := by
  rcases h with rfl | h
  · rfl
  · rw [h.disk hne, diskOf_cons, Disk.apply, Function.update_of_ne hne]

theorem created_of_segmentLeft {faults : List Outcome} {id q : ℕ}
    (h : SegmentLeft faults id q log₀ log) : Created (.wal id) log₀ log := by
  rcases h with rfl | rfl | ⟨-, n, rfl⟩
  · exact .inl rfl
  · exact .inr .refl
  · exact .inr (.step .refl (.append _))

theorem created_of_segmentMade {id q : ℕ} (h : SegmentMade id q log₀ log) :
    Within (.wal id) (.openWritable (.wal id) :: log₀) log := by
  rw [h]
  exact .step .refl (.append _)

theorem Removed.disciplined {names : List FileName} {w w' : World} (h : Removed names w w')
    (hd : Disciplined w.log) (hlt : ∀ name ∈ names, number name < u64Size) :
    Disciplined w'.log := by
  obtain ⟨gone, hsub, hlog, -⟩ := h
  rw [hlog]
  have hall : ∀ name ∈ gone, number name < u64Size := fun name hn => hlt name (hsub.subset hn)
  clear hsub hlog
  induction gone using List.reverseRecOn with
  | nil => exact hd
  | append_singleton gone name ih =>
    rw [List.map_append, List.reverse_append]
    exact (ih fun n hn => hall n (List.mem_append_left _ hn)).remove
      (hall name (List.mem_append_right _ (List.mem_singleton_self _)))

theorem Removed.disk {names : List FileName} {w w' : World} (h : Removed names w w')
    (hne : other ∉ names) : diskOf w'.log other = diskOf w.log other := by
  obtain ⟨gone, hsub, hlog, -⟩ := h
  rw [hlog, diskOf_removes, if_neg fun hmem => hne (hsub.subset hmem)]

theorem Removed.opened_eq {names : List FileName} {w w' : World} (h : Removed names w w') :
    w'.log.filterMap opened = w.log.filterMap opened := by
  obtain ⟨gone, -, hlog, -⟩ := h
  have hnone : ((gone.map VfsCall.remove).reverse).filterMap opened = [] := by
    rw [List.filterMap_eq_nil_iff]
    intro c hc
    obtain ⟨name, -, rfl⟩ := List.mem_map.mp (List.mem_reverse.mp hc)
    rfl
  rw [hlog, List.filterMap_append, hnone, List.nil_append]

end Within

/-! ### The writers -/

section Writers

variable {prims : Primitives} {name : FileName} {log₀ : List VfsCall}

theorem within_append (data : Bytes) : KeepsLog (Within name log₀) (append name data) :=
  keeps_perform _ (fun _ h => h.step (.append _)) fun _ _ h => h.step (.append _)

theorem within_sync : KeepsLog (Within name log₀) (Io.sync name) :=
  keeps_perform _ (fun _ h => h.step .sync) fun _ _ h => h

theorem within_writeAt {data : Bytes} {offset : ℕ} (hlt : offset + data.length < 2 ^ 63) :
    KeepsLog (Within name log₀) (writeAt name data offset) := by
  intro w h
  apply Ends.read_bind
  cases hd : w.disk name with
  | none => exact Ends.fail h
  | some f =>
    dsimp only
    split
    · exact Ends.fail h
    · rename_i hle
      have hpatch : ∀ n, Use name w.log (.writeAt name (data.take n) offset) := by
        intro n
        have hn : (data.take n).length ≤ data.length := by simp
        exact .patch hd (by omega) (by omega)
      apply Ends.mono (perform_ends _ _ _ w)
      · rintro - _ rfl
        have hall := hpatch data.length
        rw [List.take_length] at hall
        exact h.step hall
      · rintro f _ ⟨-, -, n, rfl⟩
        exact h.step (hpatch n)

/-- The writer of the segment `name`. -/
def WalWithin (name : FileName) (log₀ : List VfsCall) (e : WalEnv) : Prop :=
  e.writer.file = name ∧ Within name log₀ e.world.log

abbrev KeepsSegment {α : Type} (name : FileName) (log₀ : List VfsCall) (x : Act WalEnv α) : Prop :=
  Keeps (WalWithin name log₀) (fun _ => WalWithin name log₀) x

theorem segment_onWorld {α : Type} {x : Act World α} (hx : KeepsLog (Within name log₀) x) :
    KeepsSegment name log₀ (SegmentWriter.onWorld x) := by
  intro e h
  apply Ends.mono (Ends.zoom (hx e.world h.2))
  · rintro a _ ⟨w, rfl, hw⟩
    exact ⟨h.1, hw⟩
  · rintro f _ ⟨w, rfl, hw⟩
    exact ⟨h.1, hw⟩

theorem segment_fileAppend (data : Bytes) :
    KeepsSegment name log₀ (SegmentWriter.fileAppend data) := by
  intro e h
  apply Ends.read_bind
  rw [h.1]
  exact segment_onWorld (within_append data) e h

theorem segment_addU64 (a b : ℕ) (msg : String) : KeepsSegment name log₀ (addU64 a b msg) :=
  Keeps.addU64 fun _ h => h

theorem segment_writeFragment (t : RecordType) (seqno : ℕ) (payload : Bytes) :
    KeepsSegment name log₀ (SegmentWriter.writeFragment t seqno payload) := by
  refine Keeps.bind (segment_fileAppend _) fun _ => Keeps.bind (segment_fileAppend _) fun _ => ?_
  refine Keeps.bind (.update fun _ h => h) fun _ => Keeps.bind .read fun _ => ?_
  exact Keeps.bind (segment_addU64 _ _ _) fun _ => .update fun _ h => h

theorem segment_appendLoop (fuel : ℕ) (isFirst : Bool) (seqno : ℕ) (payload : Bytes) :
    KeepsSegment name log₀ (SegmentWriter.appendLoop fuel isFirst seqno payload) := by
  induction fuel generalizing isFirst payload with
  | zero => exact Keeps.fail fun _ h => h
  | succ fuel ih =>
    refine Keeps.bind .read fun _ => Keeps.bind (segment_writeFragment _ _ _) fun _ => ?_
    dsimp only
    split
    · exact Keeps.ret _
    · exact Keeps.bind (.update fun _ h => h) fun _ => ih _ _

theorem segment_appendRecord (seqno : ℕ) (payload : Bytes) :
    KeepsSegment name log₀ (SegmentWriter.appendRecord seqno payload) := by
  have hpad : KeepsSegment name log₀ SegmentWriter.padBlockIfHeaderWouldNotFit := by
    refine Keeps.bind .read fun _ => ?_
    dsimp only
    split
    · refine Keeps.bind (segment_fileAppend _) fun _ => ?_
      exact Keeps.bind (segment_addU64 _ _ _) fun _ => .update fun _ h => h
    · exact Keeps.ret _
  refine Keeps.bind .read fun _ => Keeps.bind hpad fun _ => ?_
  exact Keeps.bind (segment_appendLoop _ _ _ _) fun _ => Keeps.ret _

theorem segment_sync : KeepsSegment name log₀ SegmentWriter.sync := by
  intro e h
  apply Ends.read_bind
  rw [h.1]
  exact segment_onWorld within_sync e h

/-- A step of the writer of the table `name`: it writes to its file and returns a
writer of it. -/
def TableStep (name : FileName) (log₀ : List VfsCall) (w : SstWriter)
    (x : Act World SstWriter) : Prop :=
  w.file = name → ∀ wd, Within name log₀ wd.log →
    Ends x wd (fun w' wd' => w'.file = name ∧ Within name log₀ wd'.log)
      fun _ wd' => Within name log₀ wd'.log

theorem table_align (w : SstWriter) : TableStep name log₀ w w.alignToBlockBoundary := by
  intro hw wd h
  unfold SstWriter.alignToBlockBoundary
  dsimp only
  split
  · exact Ends.ret ⟨hw, h⟩
  · rw [hw]
    apply Ends.bind (within_append _ wd h)
    · intro _ wd₁ h₁
      exact Ends.addU64_bind (fun _ => Ends.ret ⟨rfl, h₁⟩) fun _ => h₁
    · exact fun _ _ h => h

theorem table_writeBlock (w : SstWriter) (plaintext : Bytes) (hw : w.file = name) (wd : World)
    (h : Within name log₀ wd.log) :
    Ends (w.writeBlock prims plaintext) wd
      (fun out wd' => out.1.file = name ∧ Within name log₀ wd'.log)
      fun _ wd' => Within name log₀ wd'.log := by
  have hseal : ∀ crypto offset, KeepsLog (Within name log₀) (SstWriter.noteSeal crypto offset) := by
    intro crypto offset
    cases crypto with
    | none => exact Keeps.ret _
    | some ctx => exact .update fun _ h => h.step (.sealing _ _)
  unfold SstWriter.writeBlock
  apply Ends.lift_bind
  · intro out _
    apply Ends.bind (hseal _ _ wd h)
    · intro _ wd₁ h₁
      rw [hw]
      apply Ends.bind (within_append _ wd₁ h₁)
      · intro _ wd₂ h₂
        apply Ends.addU64_bind
        · intro _
          apply Ends.lift_bind
          · intro length _
            exact Ends.bind (table_align _ rfl wd₂ h₂) (fun _ _ h => Ends.ret h) fun _ _ h => h
          · exact fun _ _ => h₂
        · exact fun _ => h₂
      · exact fun _ _ h => h
    · exact fun _ _ h => h
  · exact fun _ _ => h

theorem table_flushBlock (w : SstWriter) : TableStep name log₀ w (w.flushBlock prims) := by
  intro hw wd h
  unfold SstWriter.flushBlock
  split
  · exact Ends.ret ⟨hw, h⟩
  · apply Ends.lift_bind
    · intro out _
      refine Ends.bind (table_writeBlock _ _ ?_ wd h) ?_ ?_
      · exact hw
      · intro out' wd₁ h₁
        exact Ends.addU64_bind (fun _ => Ends.ret h₁) fun _ => h₁.2
      · exact fun _ _ h => h
    · exact fun _ _ => h

theorem table_add (w : SstWriter) (r : Rec) : TableStep name log₀ w (w.add prims r) := by
  intro hw wd h
  unfold SstWriter.add
  apply Ends.debugAssert_bind
  · intro _
    apply Ends.addU64_bind
    · intro _
      dsimp only
      split
      · apply table_flushBlock _ _ wd h
        exact hw
      · exact Ends.ret ⟨hw, h⟩
    · exact fun _ => h
  · exact fun _ => h

theorem table_addAll (w : SstWriter) (rs : List Rec) :
    TableStep name log₀ w (w.addAll prims rs) := by
  intro hw wd h
  induction rs generalizing w wd with
  | nil => exact Ends.ret ⟨hw, h⟩
  | cons r rs ih =>
    unfold SstWriter.addAll
    rw [List.foldlM_cons]
    exact Ends.bind (table_add w r hw wd h) (fun w₁ wd₁ h₁ => ih w₁ h₁.1 wd₁ h₁.2) fun _ _ h => h

theorem table_mergeLoop (fuel : ℕ) (m : Compaction.KWayMerge) (w : SstWriter) :
    TableStep name log₀ w (mergeLoop prims fuel m w) := by
  intro hw wd h
  induction fuel generalizing m w wd with
  | zero => exact Ends.fail h
  | succ fuel ih =>
    unfold mergeLoop
    apply Ends.bind (keeps_tryReads (J := Within name log₀) wd h)
    · intro _ wd₁ h₁
      cases Compaction.KWayMerge.nextRecord m with
      | error f m' => exact Ends.fail h₁
      | ok out m' =>
        cases out with
        | none => exact Ends.ret ⟨hw, h₁⟩
        | some r =>
          exact Ends.bind (table_add w r hw wd₁ h₁) (fun w₂ wd₂ h₂ => ih m' w₂ h₂.1 wd₂ h₂.2)
            fun _ _ h => h
    · exact fun _ _ h => h

theorem table_finishSections (w : SstWriter) (hw : w.file = name) (wd : World)
    (h : Within name log₀ wd.log) :
    Ends w.finishSections wd (fun _ wd' => Within name log₀ wd'.log)
      fun _ wd' => Within name log₀ wd'.log := by
  have hfilter : Ends w.writeFilter wd
      (fun out wd' => out.1.file = name ∧ Within name log₀ wd'.log)
      fun _ wd' => Within name log₀ wd'.log := by
    unfold SstWriter.writeFilter
    split
    · rw [hw]
      apply Ends.bind (within_append _ wd h)
      · intro _ wd₁ h₁
        apply Ends.addU64_bind
        · exact fun _ => Ends.lift_bind (fun _ _ => Ends.ret ⟨rfl, h₁⟩) fun _ _ => h₁
        · exact fun _ => h₁
      · exact fun _ _ h => h
    · exact Ends.ret ⟨hw, h⟩
  unfold SstWriter.finishSections
  apply Ends.bind hfilter
  · intro out wd₁ h₁
    obtain ⟨hw₁, h₁⟩ := h₁
    apply Ends.lift_bind
    · intro index _
      dsimp only
      rw [hw₁]
      apply Ends.bind (within_append _ wd₁ h₁)
      · intro _ wd₂ h₂
        apply Ends.addU64_bind
        · intro _
          apply Ends.lift_bind
          · intro len _
            apply Ends.bind (within_append _ wd₂ h₂)
            · intro _ wd₃ h₃
              apply Ends.addU64_bind
              · intro _
                apply within_writeAt _ wd₃ h₃
                rw [FileHeader.asBytes_length]
                decide
              · exact fun _ => h₃
            · exact fun _ _ h => h
          · exact fun _ _ => h₂
        · exact fun _ => h₂
      · exact fun _ _ h => h
    · exact fun _ _ => h₁
  · exact fun _ _ h => h

theorem table_finish (w : SstWriter) (hw : w.file = name) (wd : World)
    (h : Within name log₀ wd.log) :
    Ends (w.finish prims) wd (fun _ wd' => Within name log₀ wd'.log)
      fun _ wd' => Within name log₀ wd'.log :=
  Ends.bind (table_flushBlock w hw wd h)
    (fun w₁ wd₁ h₁ => table_finishSections w₁ h₁.1 wd₁ h₁.2) fun _ _ h => h

theorem table_createInner (keys : ℕ) (params : Filter.BloomParams) (crypto : Option CryptoCtx)
    (wd : World) (h : Within name log₀ wd.log) :
    Ends (SstWriter.createInner name keys params crypto) wd
      (fun w wd' => w.file = name ∧ Within name log₀ wd'.log)
      fun _ wd' => Within name log₀ wd'.log := by
  unfold SstWriter.createInner
  apply Ends.bind (within_append _ wd h)
  · intro _ wd₁ h₁
    exact Ends.lift_bind (fun _ _ => Ends.ret ⟨rfl, h₁⟩) fun _ _ => h₁
  · exact fun _ _ h => h

theorem table_created {keys : ℕ} {params : Filter.BloomParams} {crypto : Option CryptoCtx}
    {fill : SstWriter → Act World SstWriter} (wd : World)
    (hfill : ∀ w, TableStep name (.openWritable name :: wd.log) w (fill w)) :
    Ends (do
      openWritable name
      let w ← SstWriter.createInner name keys params crypto
      let w ← fill w
      w.finish prims) wd
      (fun _ wd' => Within name (.openWritable name :: wd.log) wd'.log)
      fun _ wd' => Created name wd.log wd'.log := by
  apply Ends.bind (openWritable_ends _ wd)
  · intro _ wd₁ h₁
    have hopen : Within name (.openWritable name :: wd.log) wd₁.log := by
      rw [h₁.1]
      exact .refl
    apply Ends.bind (table_createInner _ _ _ wd₁ hopen)
    · intro w wd₂ h₂
      apply Ends.bind (hfill w h₂.1 wd₂ h₂.2)
      · intro w' wd₃ h₃
        exact Ends.mono (table_finish w' h₃.1 wd₃ h₃.2) (fun _ _ h => h) fun _ _ h => .inr h
      · exact fun _ _ h => .inr h
    · exact fun _ _ h => .inr h
  · exact fun _ _ h => .inl h.1

end Writers

end PaddockKV.Engine
