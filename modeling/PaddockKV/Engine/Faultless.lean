import PaddockKV.Engine.Compact

/-!
# Calls without failing file operations

Where no call of the file layer fails and blocks can be sealed, what is left to go
wrong is a counter or a length that does not fit its word, and that is a panic.
-/

namespace PaddockKV.Engine

open Io Wal Sstable Crypto Compaction PaddockKV.Filter

/-- Sealing a block succeeds. -/
def SealWorks (prims : Primitives) : Prop :=
  ∀ key nonce aad plaintext, (prims.sealText key nonce aad plaintext).isSome = true

theorem sealWorks_blank : SealWorks .blank := fun _ _ _ _ => rfl

/-! ### The WAL -/

abbrev PanicsWal {α : Type} (x : Act WalEnv α) : Prop :=
  Keeps (fun e => e.world.faults = []) (fun f _ => Panicked f) x

theorem panics_onWorld {α : Type} {x : Act World α}
    (hx : Keeps (fun w => w.faults = []) (fun f _ => Panicked f) x) :
    PanicsWal (SegmentWriter.onWorld x) :=
  Keeps.zoom hx (fun _ h => h) (fun _ _ _ h => h) fun _ _ _ _ h => h

theorem panics_perform {onDone : World → World} {onFailed : ℕ → World → World} (msg : String)
    (hdone : ∀ w, (onDone w).faults = w.faults) :
    Keeps (fun w => w.faults = []) (fun f _ => Panicked f) (perform onDone onFailed msg) := by
  intro w h
  refine Ends.mono (perform_ends _ _ _ w) ?_ ?_
  · rintro - _ rfl
    rw [hdone]
    show w.faults.tail = []
    rw [h]
    rfl
  · rintro f _ ⟨-, hne, -⟩
    exact absurd h hne

theorem panics_fileAppend (data : Bytes) : PanicsWal (SegmentWriter.fileAppend data) :=
  Keeps.bind .read fun _ => panics_onWorld (panics_perform _ fun _ => rfl)

theorem panics_writeFragment (t : RecordType) (seqno : ℕ) (payload : Bytes) :
    PanicsWal (SegmentWriter.writeFragment t seqno payload) := by
  refine Keeps.bind (panics_fileAppend _) fun _ => Keeps.bind (panics_fileAppend _) fun _ => ?_
  refine Keeps.bind (.update fun _ h => h) fun _ => Keeps.bind .read fun _ => ?_
  exact Keeps.bind (Keeps.addU64 fun _ _ => ⟨_, rfl⟩) fun _ => .update fun _ h => h

theorem panics_appendLoop (fuel : ℕ) (isFirst : Bool) (seqno : ℕ) (payload : Bytes) :
    PanicsWal (SegmentWriter.appendLoop fuel isFirst seqno payload) := by
  induction fuel generalizing isFirst payload with
  | zero => exact Keeps.fail fun _ _ => ⟨_, rfl⟩
  | succ fuel ih =>
    refine Keeps.bind .read fun _ => Keeps.bind (panics_writeFragment _ _ _) fun _ => ?_
    dsimp only
    split
    · exact Keeps.ret _
    · exact Keeps.bind (.update fun _ h => h) fun _ => ih _ _

theorem panics_appendRecord (seqno : ℕ) (payload : Bytes) :
    PanicsWal (SegmentWriter.appendRecord seqno payload) := by
  have hpad : PanicsWal SegmentWriter.padBlockIfHeaderWouldNotFit := by
    refine Keeps.bind .read fun _ => ?_
    dsimp only
    split
    · refine Keeps.bind (panics_fileAppend _) fun _ => ?_
      exact Keeps.bind (Keeps.addU64 fun _ _ => ⟨_, rfl⟩) fun _ => .update fun _ h => h
    · exact Keeps.ret _
  refine Keeps.bind .read fun _ => Keeps.bind hpad fun _ => ?_
  exact Keeps.bind (panics_appendLoop _ _ _ _) fun _ => Keeps.ret _

theorem panics_walSync : PanicsWal SegmentWriter.sync :=
  Keeps.bind .read fun _ => panics_onWorld (panics_perform _ fun _ => rfl)

/-! ### Tables -/

/-- The writer's file is there, with room for the header. -/
structure Ready (name : FileName) (w : SstWriter) (wd : World) : Prop where
  faults : wd.faults = []
  sameFile : w.file = name
  file : ∃ f, wd.disk name = some f ∧ fileHeaderSize ≤ f.bytes.length

section Table

variable {prims : Primitives} {name : FileName} {w : SstWriter} {wd : World}

theorem ready_append (data : Bytes) (h : Ready name w wd) :
    Ends (append w.file data) wd (fun _ wd' => ∀ w' : SstWriter, w'.file = name → Ready name w' wd')
      fun f _ => Panicked f := by
  obtain ⟨f, hf, hlen⟩ := h.file
  have hrun := append_nil w.file data h.faults
  refine Ends.mono (Ends.self _ _) ?_ ?_
  · intro _ wd' hok
    rw [hrun] at hok
    cases hok
    intro w' hw'
    refine ⟨h.faults, hw', ⟨f.bytes ++ data, false⟩, ?_, ?_⟩
    · rw [World.disk_call, Disk.apply, h.sameFile, Function.update_self, hf]
      rfl
    · rw [List.length_append]
      omega
  · intro f wd' herr
    rw [hrun] at herr
    cases herr

theorem align_ready (h : Ready name w wd) :
    Ends w.alignToBlockBoundary wd (Ready name) fun f _ => Panicked f := by
  unfold SstWriter.alignToBlockBoundary
  dsimp only
  split
  · exact Ends.ret h
  · refine Ends.bind (ready_append _ h) ?_ (fun _ _ h => h)
    intro _ wd₁ h₁
    exact Ends.addU64_bind (fun _ => Ends.ret (h₁ _ h.sameFile)) fun _ => ⟨_, rfl⟩

section

variable (hseal : SealWorks prims)
include hseal

theorem writeBlock_ready (plaintext : Bytes) (h : Ready name w wd) :
    Ends (w.writeBlock prims plaintext) wd (fun out => Ready name out.1) fun f _ => Panicked f := by
  have hsealed : ∀ e, SstWriter.onDiskBytes prims w.crypto w.bytesWritten plaintext = .error e →
      False := by
    intro e he
    unfold SstWriter.onDiskBytes at he
    split at he
    · rename_i ctx hctx
      obtain ⟨ct, hct⟩ := Option.isSome_iff_exists.mp
        (hseal ctx.aeadKey (deriveBlockNonce w.bytesWritten)
          (blockAad ctx.sstableId w.bytesWritten) plaintext)
      have hblock : ctx.sealBlock prims w.bytesWritten plaintext = some ct := hct
      rw [hblock] at he
      cases he
    · cases he
  unfold SstWriter.writeBlock
  refine Ends.lift_bind ?_ (fun e he => (hsealed e he).elim)
  rintro ⟨onDisk, checksum⟩ _
  have hnote : Ends (SstWriter.noteSeal w.crypto w.bytesWritten) wd
      (fun _ wd' => Ready name w wd') fun f _ => Panicked f := by
    cases w.crypto with
    | none => exact Ends.ret h
    | some ctx => exact Ends.update ⟨h.faults, h.sameFile, h.file⟩
  refine Ends.bind hnote ?_ (fun _ _ h => h)
  intro _ wd₁ h₁
  refine Ends.bind (ready_append _ h₁) ?_ (fun _ _ h => h)
  intro _ wd₂ h₂
  refine Ends.addU64_bind ?_ (fun _ => ⟨_, rfl⟩)
  intro _
  refine Ends.lift_bind ?_ (fun e he => ⟨_, expectU32_error he⟩)
  intro length _
  refine Ends.bind (align_ready (h₂ _ h.sameFile)) ?_ (fun _ _ h => h)
  intro w' wd₃ h₃
  exact Ends.ret h₃

omit hseal in
theorem builderFinish_error {b : BlockBuilder} {f : Fault} (h : b.finish = .error f) :
    Panicked f := by
  unfold BlockBuilder.finish at h
  rcases res_bind_eq_error h with hlen | ⟨n, -, hrest⟩
  · exact ⟨_, expectU32_error hlen⟩
  · cases hrest

theorem flushBlock_ready (h : Ready name w wd) :
    Ends (w.flushBlock prims) wd (Ready name) fun f _ => Panicked f := by
  unfold SstWriter.flushBlock
  split
  · exact Ends.ret h
  · refine Ends.lift_bind ?_ (fun e he => builderFinish_error he)
    rintro ⟨bytes, builder⟩ _
    refine Ends.bind (writeBlock_ready hseal bytes ⟨h.faults, h.sameFile, h.file⟩) ?_
      (fun _ _ h => h)
    rintro ⟨w₁, handle⟩ wd₁ h₁
    exact Ends.addU64_bind (fun _ => Ends.ret ⟨h₁.faults, h₁.sameFile, h₁.file⟩)
      fun _ => ⟨_, rfl⟩

theorem add_ready (r : Rec) (h : Ready name w wd) :
    Ends (w.add prims r) wd (Ready name) fun f _ => Panicked f := by
  unfold SstWriter.add
  refine Ends.debugAssert_bind ?_ (fun _ => ⟨_, rfl⟩)
  intro _
  refine Ends.addU64_bind ?_ (fun _ => ⟨_, rfl⟩)
  intro _
  dsimp only
  split
  · exact flushBlock_ready hseal ⟨h.faults, h.sameFile, h.file⟩
  · exact Ends.ret ⟨h.faults, h.sameFile, h.file⟩

theorem addAll_ready (rs : List Rec) (h : Ready name w wd) :
    Ends (w.addAll prims rs) wd (Ready name) fun f _ => Panicked f := by
  induction rs generalizing w wd with
  | nil => exact Ends.ret h
  | cons r rs ih =>
    unfold SstWriter.addAll
    rw [List.foldlM_cons]
    exact Ends.bind (add_ready hseal r h) (fun w₁ wd₁ h₁ => ih h₁) (fun _ _ h => h)

theorem mergeLoop_ready {fuel : ℕ} {m : KWayMerge} {l : List Rec} (hm : Yields m l)
    (h : Ready name w wd) :
    Ends (mergeLoop prims fuel m w) wd (Ready name) fun f _ => Panicked f := by
  induction fuel generalizing m l w wd with
  | zero => exact Ends.fail ⟨_, rfl⟩
  | succ fuel ih =>
    unfold mergeLoop
    refine Ends.bind (tryReads_ends wd) ?_ (fun _ _ hstop => absurd h.faults hstop.2.2)
    rintro - wd₁ ⟨hlog, hf⟩
    have h₁ : Ready name w wd₁ := by
      refine ⟨hf h.faults, h.sameFile, ?_⟩
      unfold World.disk
      rw [hlog]
      exact h.file
    cases l with
    | nil =>
      obtain ⟨m', hnext, -⟩ := hm.nil
      simp only [hnext]
      exact Ends.ret h₁
    | cons r l =>
      obtain ⟨m', hnext, hm'⟩ := hm.cons
      simp only [hnext]
      exact Ends.bind (add_ready hseal r h₁) (fun w₂ wd₂ h₂ => ih hm' h₂) (fun _ _ h => h)

omit hseal in
theorem finishSections_ready (h : Ready name w wd) :
    Ends w.finishSections wd (fun _ wd' => wd'.faults = []) fun f _ => Panicked f := by
  have hfilter : Ends w.writeFilter wd (fun out => Ready name out.1) fun f _ => Panicked f := by
    unfold SstWriter.writeFilter
    split
    · refine Ends.bind (ready_append _ h) ?_ (fun _ _ h => h)
      intro _ wd₁ h₁
      refine Ends.addU64_bind ?_ (fun _ => ⟨_, rfl⟩)
      intro _
      exact Ends.lift_bind (fun _ _ => Ends.ret (h₁ _ h.sameFile))
        fun e he => ⟨_, expectU32_error he⟩
    · exact Ends.ret h
  have hindex : ∀ (w₁ : SstWriter) e, w₁.buildIndexBlock = .error e → Panicked e := by
    intro w₁ e he
    unfold SstWriter.buildIndexBlock at he
    rcases res_bind_eq_error he with hfin | ⟨out, -, hrest⟩
    · exact builderFinish_error hfin
    · cases hrest
  unfold SstWriter.finishSections
  refine Ends.bind hfilter ?_ (fun _ _ h => h)
  rintro ⟨w₁, filterHandle⟩ wd₁ h₁
  refine Ends.lift_bind ?_ (hindex w₁)
  intro indexBytes _
  refine Ends.bind (ready_append _ h₁) ?_ (fun _ _ h => h)
  intro _ wd₂ h₂
  refine Ends.addU64_bind ?_ (fun _ => ⟨_, rfl⟩)
  intro _
  refine Ends.lift_bind ?_ (fun e he => ⟨_, expectU32_error he⟩)
  intro indexLength _
  refine Ends.bind (ready_append _ (h₂ w₁ h₁.sameFile)) ?_ (fun _ _ h => h)
  intro _ wd₃ h₃
  refine Ends.addU64_bind ?_ (fun _ => ⟨_, rfl⟩)
  intro _
  obtain ⟨hfaults, hfile, f, hdisk, hlen⟩ := h₃ w₁ h₁.sameFile
  rw [hfile]
  have hheader := FileHeader.asBytes_length (w₁.fileHeader w.bytesWritten)
  generalize (w₁.fileHeader w.bytesWritten).asBytes = header at hheader ⊢
  refine Ends.mono (writeAt_ends hdisk (by omega)) (fun _ _ hok => hok.2 hfaults) ?_
  rintro f' wd₄ ⟨hne, -⟩
  exact absurd hfaults hne

theorem finish_ready (h : Ready name w wd) :
    Ends (w.finish prims) wd (fun _ wd' => wd'.faults = []) fun f _ => Panicked f :=
  Ends.bind (flushBlock_ready hseal h) (fun _ _ h₁ => finishSections_ready h₁) (fun _ _ h => h)

omit hseal in
theorem createInner_ready {keys : ℕ} {params : BloomParams} {crypto : Option CryptoCtx}
    (hfaults : wd.faults = []) (hfile : ∃ f, wd.disk name = some f) :
    Ends (SstWriter.createInner name keys params crypto) wd (Ready name) fun f _ => Panicked f := by
  obtain ⟨f, hf⟩ := hfile
  unfold SstWriter.createInner
  refine Ends.ok_bind (append_nil name _ hfaults) ?_
  have hdisk : (wd.call (.append name (zeros fileHeaderRegionSize))).disk name =
      some ⟨f.bytes ++ zeros fileHeaderRegionSize, false⟩ := by
    rw [World.disk_call, Disk.apply, Function.update_self, hf]
    rfl
  refine Ends.lift_bind ?_ ?_
  · intro bloom _
    refine Ends.ret ⟨hfaults, rfl, _, hdisk, ?_⟩
    rw [List.length_append, zeros_length]
    unfold fileHeaderSize fileHeaderRegionSize
    omega
  · intro e he
    unfold SstWriter.newFilter at he
    split at he
    · cases he
    · rcases res_bind_eq_error he with hnew | ⟨bloom, -, hrest⟩
      · unfold BlockedBloom.new at hnew
        split at hnew
        · cases hnew
          exact ⟨_, rfl⟩
        · dsimp only at hnew
          split at hnew
          · cases hnew
            exact ⟨_, rfl⟩
          · cases hnew
      · cases hrest

theorem writeTable_panics {keys size : ℕ} {params : BloomParams} {crypto : Option CryptoCtx}
    (rs : List Rec) (hfaults : wd.faults = []) :
    Ends (SstWriter.writeTable prims name keys params crypto size rs) wd
      (fun _ wd' => wd'.faults = []) fun f _ => Panicked f := by
  unfold SstWriter.writeTable
  refine Ends.ok_bind (openWritable_nil name hfaults) ?_
  have hfile : ∃ f, (wd.call (.openWritable name)).disk name = some f := by
    rw [World.disk_call, Disk.apply, Function.update_self]
    exact ⟨_, rfl⟩
  refine Ends.bind (createInner_ready hfaults hfile) ?_ (fun _ _ h => h)
  intro w wd₁ h₁
  refine Ends.bind (addAll_ready hseal rs (show Ready name (w.setBlockSize size) wd₁ from
    ⟨h₁.faults, h₁.sameFile, h₁.file⟩)) ?_ (fun _ _ h => h)
  intro w' wd₂ h₂
  exact finish_ready hseal h₂

end

end Table

end PaddockKV.Engine
