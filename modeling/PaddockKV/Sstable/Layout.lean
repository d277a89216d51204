import PaddockKV.Sstable.Table

/-!
# What an encrypted table shows of its values

Two encrypted writers that are given the same records up to the bytes of their
values go in step: the blocks have the same places and lengths, and the files
differ nowhere else.
-/

namespace PaddockKV.Sstable

open Io Crypto PaddockKV.Filter

theorem seqnos_of_same {rs rs' : List Rec} {bound : ℕ} (h : List.Forall₂ SameButValue rs rs')
    (hrs : ∀ r ∈ rs, r.seqno < bound) : ∀ r ∈ rs', r.seqno < bound := by
  induction h with
  | nil => exact hrs
  | cons hr _ ih =>
    rw [List.forall_mem_cons] at hrs ⊢
    exact ⟨by rw [hr.seqno]; exact hrs.1, ih hrs.2⟩

/-! ### Files that agree outside some ranges -/

def BlockHandle.Covers (h : BlockHandle) (i : ℕ) : Prop := h.offset ≤ i ∧ i < h.offset + h.length

/-- The files have one length and differ only in the ranges of the handles. -/
structure AgreeOutside (handles : List BlockHandle) (f f' : Bytes) : Prop where
  length : f'.length = f.length
  byte : ∀ i, (∀ h ∈ handles, ¬ h.Covers i) → f'[i]? = f[i]?

namespace AgreeOutside

variable {handles : List BlockHandle} {f f' : Bytes}

theorem refl (f : Bytes) : AgreeOutside [] f f := ⟨rfl, fun _ _ => rfl⟩

theorem append (h : AgreeOutside handles f f') (d : Bytes) :
    AgreeOutside handles (f ++ d) (f' ++ d) := by
  constructor
  · rw [List.length_append, List.length_append, h.length]
  · intro i hi
    rw [List.getElem?_append, List.getElem?_append, h.length, h.byte i hi]

theorem block {d d' : Bytes} {sum : ℕ} (h : AgreeOutside handles f f')
    (hlen : d'.length = d.length) :
    AgreeOutside (handles ++ [⟨f.length, d.length, sum⟩]) (f ++ d) (f' ++ d') := by
  constructor
  · rw [List.length_append, List.length_append, h.length, hlen]
  · intro i hi
    have hold := h.byte i fun x hx => hi x (List.mem_append_left _ hx)
    have hnew : ¬ (f.length ≤ i ∧ i < f.length + d.length) :=
      hi _ (List.mem_append_right _ (List.mem_singleton_self _))
    by_cases hin : i < f.length
    · rw [List.getElem?_append_left hin, List.getElem?_append_left (by rw [h.length]; exact hin)]
      exact hold
    · have hend : f.length + d.length ≤ i := by omega
      rw [List.getElem?_eq_none (by rw [List.length_append, h.length, hlen]; exact hend),
        List.getElem?_eq_none (by rw [List.length_append]; exact hend)]

theorem overwrite (h : AgreeOutside handles f f') (d : Bytes) :
    AgreeOutside handles (overwrite f d 0) (Io.overwrite f' d 0) := by
  have hover : ∀ g : Bytes, Io.overwrite g d 0 = d ++ g.drop d.length := by
    intro g
    rw [Io.overwrite, List.take_zero, List.nil_append, Nat.zero_add]
  rw [hover, hover]
  constructor
  · rw [List.length_append, List.length_append, List.length_drop, List.length_drop, h.length]
  · intro i hi
    rw [List.getElem?_append, List.getElem?_append]
    split
    · rfl
    · rename_i hin
      rw [List.getElem?_drop, List.getElem?_drop, Nat.add_sub_cancel' (not_lt.mp hin)]
      exact h.byte i hi

end AgreeOutside

/-! ### Blocks -/

/-- Builders whose blocks get the same length and restarts. -/
structure SameShape (b b' : BlockBuilder) : Prop where
  buffer : b'.buffer.length = b.buffer.length
  restarts : b'.restarts = b.restarts
  lastKey : b'.lastKey = b.lastKey
  counter : b'.counter = b.counter

namespace SameShape

variable {b b' : BlockBuilder}

theorem refl (b : BlockBuilder) : SameShape b b := ⟨rfl, rfl, rfl, rfl⟩

theorem add (h : SameShape b b') {r r' : Rec} (hr : SameButValue r r') :
    SameShape (b.add r) (b'.add r') := by
  unfold BlockBuilder.add
  rw [h.counter]
  split
  · refine ⟨?_, h.restarts, hr.key, rfl⟩
    rw [List.length_append, List.length_append, h.buffer, h.lastKey, hr.key,
      entryBytes_sameLength hr]
  · refine ⟨?_, ?_, hr.key, rfl⟩
    · rw [List.length_append, List.length_append, h.buffer, entryBytes_sameLength hr]
    · rw [h.restarts, h.buffer]

theorem estimatedSize (h : SameShape b b') : b'.estimatedSize = b.estimatedSize := by
  unfold BlockBuilder.estimatedSize
  rw [h.buffer, h.restarts]

theorem buffer_nil (h : SameShape b b') : b'.buffer = [] ↔ b.buffer = [] := by
  rw [← List.length_eq_zero_iff, h.buffer, List.length_eq_zero_iff]

theorem finish (h : SameShape b b') {bytes bytes' : Bytes} {c c' : BlockBuilder}
    (hb : b.finish = .ok (bytes, c)) (hb' : b'.finish = .ok (bytes', c')) :
    bytes'.length = bytes.length := by
  obtain ⟨n, -, hret⟩ := res_bind_eq_ok.mp hb
  obtain ⟨n', -, hret'⟩ := res_bind_eq_ok.mp hb'
  cases hret
  cases hret'
  simp only [List.length_append, leBytes_length, h.buffer, h.restarts]

end SameShape

/-! ### Writers in step -/

section

variable {prims : Primitives} {w w' w₁ w₁' : SstWriter} {wd wd' wd₁ wd₁' : World} {f f' : Bytes}
  {name name' : FileName}

/-- The writer behind a sealed block of `length` bytes. -/
def SstWriter.flushed (w : SstWriter) (length : ℕ) : SstWriter :=
  { w with
    dataBuilder := .new
    pendingIndex := w.pendingIndex ++ [(w.lastKey, ⟨w.bytesWritten, length, 0⟩)]
    lastKey := []
    bytesWritten := w.bytesWritten + length + (padding (w.bytesWritten + length)).length
    numBlocks := w.numBlocks + 1 }

theorem flushBlock_ok {ctx : CryptoCtx} (hw : w.crypto = some ctx)
    (h : w.flushBlock prims wd = .ok w₁ wd₁) :
    (w.dataBuilder.buffer = [] ∧ w₁ = w ∧ wd₁ = wd) ∨
    (w.dataBuilder.buffer ≠ [] ∧ ∃ bytes onDisk, (∃ b, w.dataBuilder.finish = .ok (bytes, b)) ∧
      onDisk.length = bytes.length + tagLen ∧
      Wrote w.file wd wd₁ (onDisk ++ padding (w.bytesWritten + onDisk.length)) ∧
      w₁ = w.flushed onDisk.length) := by
  unfold SstWriter.flushBlock at h
  split at h
  · rename_i hnil
    cases h
    exact .inl ⟨hnil, rfl, rfl⟩
  · rename_i hne
    obtain ⟨⟨bytes, b⟩, wd₂, hfin, hrest⟩ := act_bind_eq_ok.mp h
    obtain ⟨⟨w₂, handle⟩, wd₃, hblock, hrest'⟩ := act_bind_eq_ok.mp hrest
    obtain ⟨n, wd₄, hadd, hret⟩ := act_bind_eq_ok.mp hrest'
    obtain ⟨-, rfl, rfl⟩ := addU64_ok.mp hadd
    obtain ⟨hfin', rfl⟩ := act_lift_eq_ok.mp hfin
    have hnew : b = .new := by
      obtain ⟨_, -, hb⟩ := res_bind_eq_ok.mp hfin'
      cases hb
      rfl
    subst hnew
    obtain ⟨onDisk, sum, hdisk, rfl, hwrote, rfl⟩ := writeBlock_ok hblock
    obtain ⟨hseal, rfl⟩ := onDiskBytes_some (hw ▸ hdisk)
    cases hret
    exact .inr ⟨hne, bytes, onDisk, ⟨_, hfin'⟩, prims.seal_length _ _ _ _ _ hseal, hwrote, rfl⟩

/-- Two encrypted writers at the same place, that differ at most in their open
blocks and in the ciphertext of the blocks they have written. -/
structure InStep (name name' : FileName) (w w' : SstWriter) (f f' : Bytes) : Prop where
  writer : ∃ b' crypto', w' = { w with file := name', dataBuilder := b', crypto := crypto' }
  sameFile : w.file = name
  encrypted : w.crypto.isSome
  encrypted' : w'.crypto.isSome
  builder : SameShape w.dataBuilder w'.dataBuilder
  written : w.bytesWritten = f.length
  agree : AgreeOutside (w.pendingIndex.map Prod.snd) f f'

/-- Both writers have gone on, and are in step again. -/
def Advanced (name name' : FileName) (wd wd' : World) (f f' : Bytes) (w₁ w₁' : SstWriter)
    (wd₁ wd₁' : World) : Prop :=
  ∃ bs bs', Wrote name wd wd₁ bs ∧ Wrote name' wd' wd₁' bs' ∧
    InStep name name' w₁ w₁' (f ++ bs) (f' ++ bs')

theorem InStep.stay (hs : InStep name name' w w' f f') :
    Advanced name name' wd wd' f f' w w' wd wd' := by
  refine ⟨[], [], Wrote.refl _ _, Wrote.refl _ _, ?_⟩
  rw [List.append_nil, List.append_nil]
  exact hs

theorem InStep.flushBlock (hs : InStep name name' w w' f f')
    (h : w.flushBlock prims wd = .ok w₁ wd₁) (h' : w'.flushBlock prims wd' = .ok w₁' wd₁') :
    Advanced name name' wd wd' f f' w₁ w₁' wd₁ wd₁' := by
  obtain ⟨ctx, hctx⟩ := Option.isSome_iff_exists.mp hs.encrypted
  obtain ⟨ctx', hctx'⟩ := Option.isSome_iff_exists.mp hs.encrypted'
  have hnil := hs.builder.buffer_nil
  rcases flushBlock_ok hctx h with ⟨hb, rfl, rfl⟩ | ⟨hb, bytes, d, ⟨c, hfin⟩, hd, hwrote, rfl⟩
  · rcases flushBlock_ok hctx' h' with ⟨-, rfl, rfl⟩ | ⟨hb', -⟩
    · exact hs.stay
    · exact absurd (hnil.mpr hb) hb'
  · rcases flushBlock_ok hctx' h' with ⟨hb', -⟩ | ⟨-, bytes', d', ⟨c', hfin'⟩, hd', hwrote', rfl⟩
    · exact absurd (hnil.mp hb') hb
    · have hlen : d'.length = d.length := by
        rw [hd, hd', hs.builder.finish hfin hfin']
      obtain ⟨⟨b', crypto', rfl⟩, hfile, henc, henc', -, hwritten, hagree⟩ := hs
      rw [hfile] at hwrote
      rw [hlen] at hwrote' ⊢
      refine ⟨_, _, hwrote, hwrote', ⟨_, _, rfl⟩, hfile, henc, henc', SameShape.refl _, ?_, ?_⟩
      · show w.bytesWritten + d.length + _ = _
        rw [List.length_append, List.length_append, hwritten, Nat.add_assoc]
      · rw [← List.append_assoc, ← List.append_assoc]
        refine AgreeOutside.append ?_ _
        show AgreeOutside ((w.pendingIndex ++ [_]).map Prod.snd) _ _
        rw [List.map_append, List.map_singleton, hwritten]
        exact hagree.block hlen

/-- The writer with `r` in its open block. -/
def SstWriter.put (prims : Primitives) (w : SstWriter) (r : Rec) : SstWriter :=
  { w with
    dataBuilder := w.dataBuilder.add r
    bloom := w.bloom.map (·.insert prims.xxh3 r.key)
    lastKey := r.key
    numEntries := w.numEntries + 1
    minSeqno := min w.minSeqno r.seqno
    maxSeqno := max w.maxSeqno r.seqno }

theorem InStep.put {r r' : Rec} (hs : InStep name name' w w' f f') (hr : SameButValue r r') :
    InStep name name' (w.put prims r) (w'.put prims r') f f' := by
  obtain ⟨⟨b', crypto', rfl⟩, hfile, henc, henc', hbuilder, hwritten, hagree⟩ := hs
  refine ⟨⟨b'.add r', crypto', ?_⟩, hfile, henc, henc', hbuilder.add hr, hwritten, hagree⟩
  unfold SstWriter.put
  rw [hr.key, hr.seqno]

theorem add_ok {r : Rec} (h : w.add prims r wd = .ok w₁ wd₁) :
    (w.blockSize ≤ (w.dataBuilder.add r).estimatedSize ∧
      (w.put prims r).flushBlock prims wd = .ok w₁ wd₁) ∨
    (¬ w.blockSize ≤ (w.dataBuilder.add r).estimatedSize ∧ w₁ = w.put prims r ∧ wd₁ = wd) := by
  obtain ⟨_, wd₀, hassert, hrest₀⟩ := act_bind_eq_ok.mp h
  obtain ⟨-, rfl⟩ := debugAssert_ok.mp hassert
  obtain ⟨n, wd₂, hadd, hrest⟩ := act_bind_eq_ok.mp hrest₀
  obtain ⟨-, rfl, rfl⟩ := addU64_ok.mp hadd
  dsimp only at hrest
  split at hrest
  · rename_i hfull
    exact .inl ⟨hfull, hrest⟩
  · rename_i hfull
    cases hrest
    exact .inr ⟨hfull, rfl, rfl⟩

theorem InStep.add {r r' : Rec} (hs : InStep name name' w w' f f') (hr : SameButValue r r')
    (h : w.add prims r wd = .ok w₁ wd₁) (h' : w'.add prims r' wd' = .ok w₁' wd₁') :
    Advanced name name' wd wd' f f' w₁ w₁' wd₁ wd₁' := by
  have hput : InStep name name' (w.put prims r) (w'.put prims r') f f' := hs.put hr
  have hsize := (hs.builder.add hr).estimatedSize
  have hblockSize : w'.blockSize = w.blockSize := by
    obtain ⟨b', crypto', rfl⟩ := hs.writer
    rfl
  rcases add_ok h with ⟨hfull, hflush⟩ | ⟨hroom, rfl, rfl⟩
  · rcases add_ok h' with ⟨-, hflush'⟩ | ⟨hroom', -⟩
    · exact hput.flushBlock hflush hflush'
    · rw [hsize, hblockSize] at hroom'
      exact absurd hfull hroom'
  · rcases add_ok h' with ⟨hfull', -⟩ | ⟨-, rfl, rfl⟩
    · rw [hsize, hblockSize] at hfull'
      exact absurd hfull' hroom
    · exact hput.stay

theorem InStep.addAll {rs rs' : List Rec} (hs : InStep name name' w w' f f')
    (hrs : List.Forall₂ SameButValue rs rs') (h : w.addAll prims rs wd = .ok w₁ wd₁)
    (h' : w'.addAll prims rs' wd' = .ok w₁' wd₁') :
    Advanced name name' wd wd' f f' w₁ w₁' wd₁ wd₁' := by
  induction hrs generalizing w w' wd wd' f f' with
  | nil =>
    cases h
    cases h'
    exact hs.stay
  | cons hr _ ih =>
    obtain ⟨w₂, wd₂, hadd, hrest⟩ := act_bind_eq_ok.mp h
    obtain ⟨w₂', wd₂', hadd', hrest'⟩ := act_bind_eq_ok.mp h'
    obtain ⟨bs, bs', hwrote, hwrote', hs₂⟩ := hs.add hr hadd hadd'
    obtain ⟨cs, cs', hwrote₁, hwrote₁', hs₁⟩ := ih hs₂ hrest hrest'
    rw [List.append_assoc, List.append_assoc] at hs₁
    exact ⟨bs ++ cs, bs' ++ cs', hwrote.trans hwrote₁, hwrote'.trans hwrote₁', hs₁⟩

/-! ### The sections behind the blocks -/

def SstWriter.filterBytes (w : SstWriter) : Bytes := (w.bloom.map BlockedBloom.encode).getD []

/-- Filter, index and footer of a writer. -/
def SstWriter.sections (w : SstWriter) : Bytes :=
  let filter := w.filterBytes
  let index := blockBytes (w.pendingIndex.map indexRec)
  let indexOffset := w.bytesWritten + filter.length
  filter ++ index ++ (Footer.newSigned ⟨indexOffset, index.length, trailingCrc index⟩
    ⟨w.bytesWritten, filter.length, 0⟩ ⟨indexOffset, 0, 0⟩).asBytes

theorem writeFilter_ok {h : BlockHandle} (hok : w.writeFilter wd = .ok (w₁, h) wd₁) :
    Wrote w.file wd wd₁ w.filterBytes ∧ h = ⟨w.bytesWritten, w.filterBytes.length, 0⟩ ∧
      w₁ = { w with bytesWritten := w.bytesWritten + w.filterBytes.length } := by
  unfold SstWriter.writeFilter at hok
  rcases Option.eq_none_or_eq_some w.bloom with hbloom | ⟨bloom, hbloom⟩
  · have hbytes : w.filterBytes = [] := by rw [SstWriter.filterBytes, hbloom]; rfl
    rw [hbloom] at hok
    cases hok
    rw [hbytes]
    exact ⟨Wrote.refl _ _, rfl, rfl⟩
  · have hbytes : w.filterBytes = bloom.encode := by rw [SstWriter.filterBytes, hbloom]; rfl
    rw [hbloom] at hok
    obtain ⟨_, wd₂, happend, hrest⟩ := act_bind_eq_ok.mp hok
    obtain ⟨n, wd₃, hadd, hrest'⟩ := act_bind_eq_ok.mp hrest
    obtain ⟨length, wd₄, hlength, hret⟩ := act_bind_eq_ok.mp hrest'
    obtain ⟨-, rfl, rfl⟩ := addU64_ok.mp hadd
    obtain ⟨hlength', rfl⟩ := act_lift_eq_ok.mp hlength
    obtain ⟨-, rfl⟩ := expectU32_ok.mp hlength'
    cases hret
    rw [hbytes, hbloom]
    exact ⟨append_ok happend, rfl, rfl⟩

theorem finishSections_ok (h : w.finishSections wd = .ok () wd₁) :
    ∃ wd₂, Wrote w.file wd wd₂ w.sections ∧
      writeAt w.file (w.fileHeader w.bytesWritten).asBytes 0 wd₂ = .ok () wd₁ := by
  obtain ⟨⟨w₂, fh⟩, wd₂, hfilter, hindexing⟩ := act_bind_eq_ok.mp h
  obtain ⟨index, wd₃, hindex, hrest⟩ := act_bind_eq_ok.mp hindexing
  obtain ⟨_, wd₄, happend, hcounting⟩ := act_bind_eq_ok.mp hrest
  obtain ⟨n, wd₅, hadd, hmeasuring⟩ := act_bind_eq_ok.mp hcounting
  obtain ⟨length, wd₆, hlength, hending⟩ := act_bind_eq_ok.mp hmeasuring
  obtain ⟨_, wd₇, hfooter, hlast⟩ := act_bind_eq_ok.mp hending
  obtain ⟨m, wd₈, hadd', hwrite⟩ := act_bind_eq_ok.mp hlast
  obtain ⟨hwrote, rfl, rfl⟩ := writeFilter_ok hfilter
  obtain ⟨hindex', rfl⟩ := act_lift_eq_ok.mp hindex
  obtain rfl := buildIndexBlock_ok hindex'
  obtain ⟨-, rfl, rfl⟩ := addU64_ok.mp hadd
  obtain ⟨hlength', rfl⟩ := act_lift_eq_ok.mp hlength
  obtain ⟨-, rfl⟩ := expectU32_ok.mp hlength'
  obtain ⟨-, -, rfl⟩ := addU64_ok.mp hadd'
  exact ⟨_, (hwrote.trans (append_ok happend)).trans (append_ok hfooter), hwrite⟩

theorem InStep.sections (hs : InStep name name' w w' f f') : w'.sections = w.sections := by
  obtain ⟨b', crypto', rfl⟩ := hs.writer
  rfl

theorem InStep.fileHeader (hs : InStep name name' w w' f f') (dataEnd : ℕ) :
    w'.fileHeader dataEnd = w.fileHeader dataEnd := by
  have henc := hs.encrypted
  have henc' := hs.encrypted'
  obtain ⟨b', crypto', rfl⟩ := hs.writer
  unfold SstWriter.fileHeader
  rw [henc, henc']

theorem bytesOf_finishSections {s : Bool} (hdisk : wd.disk w.file = some ⟨f, s⟩)
    (hregion : fileHeaderRegionSize ≤ f.length) (h : w.finishSections wd = .ok () wd₁) :
    wd₁.bytesOf w.file =
      overwrite (f ++ w.sections) (w.fileHeader w.bytesWritten).asBytes 0 := by
  obtain ⟨wd₂, hwrote, hwrite⟩ := finishSections_ok h
  obtain ⟨s', hdisk₂⟩ := disk_of_wrote hwrote hdisk
  have hfit : (w.fileHeader w.bytesWritten).asBytes.length ≤ (f ++ w.sections).length := by
    rw [FileHeader.asBytes_length, List.length_append]
    unfold fileHeaderSize fileHeaderRegionSize at *
    omega
  obtain ⟨hlog, -⟩ := (writeAt_ends hdisk₂ hfit).of_ok hwrite
  unfold World.bytesOf World.disk
  rw [hlog, diskOf_cons, Disk.apply, Function.update_self]
  unfold World.disk at hdisk₂
  rw [hdisk₂]
  rfl

theorem createInner_ok {expectedKeys : ℕ} {params : BloomParams} {crypto : Option CryptoCtx}
    (h : SstWriter.createInner name expectedKeys params crypto wd = .ok w₁ wd₁) :
    Wrote name wd wd₁ (zeros fileHeaderRegionSize) ∧
      ∃ bloom, SstWriter.newFilter expectedKeys params = .ok bloom ∧
        w₁ = ⟨name, .new, [], [], fileHeaderRegionSize, 0, 0, u64Size - 1, 0, defaultBlockSize,
          bloom, crypto⟩ := by
  obtain ⟨_, wd₂, happend, hrest⟩ := act_bind_eq_ok.mp h
  obtain ⟨bloom, wd₃, hfilter, hret⟩ := act_bind_eq_ok.mp hrest
  obtain ⟨hfilter', rfl⟩ := act_lift_eq_ok.mp hfilter
  cases hret
  exact ⟨append_ok happend, bloom, hfilter', rfl⟩

theorem inStep_created (bloom : Option BlockedBloom) (ctx ctx' : CryptoCtx) (size : ℕ) :
    InStep name name'
      (SstWriter.setBlockSize ⟨name, .new, [], [], fileHeaderRegionSize, 0, 0, u64Size - 1, 0,
        defaultBlockSize, bloom, some ctx⟩ size)
      (SstWriter.setBlockSize ⟨name', .new, [], [], fileHeaderRegionSize, 0, 0, u64Size - 1, 0,
        defaultBlockSize, bloom, some ctx'⟩ size)
      (zeros fileHeaderRegionSize) (zeros fileHeaderRegionSize) where
  writer := ⟨.new, some ctx', rfl⟩
  sameFile := rfl
  encrypted := rfl
  encrypted' := rfl
  builder := SameShape.refl _
  written := (zeros_length _).symm
  agree := AgreeOutside.refl _

/-- The writer `w₁` is in front of the sections, in a call that writes a table. -/
structure AtSections (prims : Primitives) (name : FileName) (expectedKeys : ℕ)
    (params : BloomParams) (crypto : Option CryptoCtx) (size : ℕ) (rs : List Rec) (wd : World)
    (w₁ : SstWriter) (wd₁ : World) : Prop where
  steps : ∃ wd₂ w₃ wd₃ w₄ wd₄, openWritable name wd = .ok () wd₂ ∧
    SstWriter.createInner name expectedKeys params crypto wd₂ = .ok w₃ wd₃ ∧
    (w₃.setBlockSize size).addAll prims rs wd₃ = .ok w₄ wd₄ ∧ w₄.flushBlock prims wd₄ = .ok w₁ wd₁

variable {expectedKeys size : ℕ} {params : BloomParams} {crypto crypto' : Option CryptoCtx}
  {rs rs' : List Rec}

theorem writeTable_ok
    (h : SstWriter.writeTable prims name expectedKeys params crypto size rs wd = .ok () wd₁) :
    ∃ w₂ wd₂, AtSections prims name expectedKeys params crypto size rs wd w₂ wd₂ ∧
      w₂.finishSections wd₂ = .ok () wd₁ := by
  obtain ⟨_, wd₂, hopen, hrest⟩ := act_bind_eq_ok.mp h
  obtain ⟨w₃, wd₃, hcreate, hrest'⟩ := act_bind_eq_ok.mp hrest
  obtain ⟨w₄, wd₄, hadd, hfinish⟩ := act_bind_eq_ok.mp hrest'
  obtain ⟨w₅, wd₅, hflush, hsections⟩ := act_bind_eq_ok.mp hfinish
  exact ⟨w₅, wd₅, ⟨wd₂, w₃, wd₃, w₄, wd₄, hopen, hcreate, hadd, hflush⟩, hsections⟩

theorem AtSections.writing (h : AtSections prims name expectedKeys params crypto size rs wd w₁ wd₁)
    (hnew : wd.disk name = none) (hrs : ∀ r ∈ rs, r.seqno < u64Size) :
    ∃ file s bloom₀, wd₁.disk name = some ⟨file, s⟩ ∧
      Writing prims crypto bloom₀ size name w₁ file (cutBlocks size [] rs) [] := by
  obtain ⟨wd₂, w₃, wd₃, w₄, wd₄, hopen, hcreate, hadd, hflush⟩ := h
  obtain ⟨hlog, -⟩ := (openWritable_ends name wd).of_ok hopen
  obtain ⟨⟨bloom₀, -, hwrote₃, hw₃⟩, -⟩ := (createInner_ends prims).of_ok hcreate
  obtain ⟨⟨bs, blocks, cur, hwrote₄, hw₄, hcut⟩, -⟩ :=
    (addAll_ends (writing_setBlockSize hw₃ size) hrs).of_ok hadd
  obtain ⟨⟨bs', hwrote₁, hw₁⟩, -⟩ := (flushBlock_ends hw₄).of_ok hflush
  obtain ⟨s, hdisk⟩ := disk_of_opened hnew hlog ((hwrote₃.trans hwrote₄).trans hwrote₁)
  have hblocks := hcut []
  rw [List.append_nil, List.nil_append] at hblocks
  refine ⟨_, s, bloom₀, hdisk, ?_⟩
  rw [← hblocks]
  exact hw₁

theorem AtSections.inStep {ctx ctx' : CryptoCtx}
    (h : AtSections prims name expectedKeys params (some ctx) size rs wd w₁ wd₁)
    (h' : AtSections prims name' expectedKeys params (some ctx') size rs' wd' w₁' wd₁')
    (hnew : wd.disk name = none) (hnew' : wd'.disk name' = none)
    (hsame : List.Forall₂ SameButValue rs rs') :
    ∃ file s file' s', wd₁.disk name = some ⟨file, s⟩ ∧ wd₁'.disk name' = some ⟨file', s'⟩ ∧
      InStep name name' w₁ w₁' file file' := by
  obtain ⟨wd₂, w₃, wd₃, w₄, wd₄, hopen, hcreate, hadd, hflush⟩ := h
  obtain ⟨wd₂', w₃', wd₃', w₄', wd₄', hopen', hcreate', hadd', hflush'⟩ := h'
  obtain ⟨hlog, -⟩ := (openWritable_ends name wd).of_ok hopen
  obtain ⟨hlog', -⟩ := (openWritable_ends name' wd').of_ok hopen'
  obtain ⟨hwrote₃, bloom, hbloom, rfl⟩ := createInner_ok hcreate
  obtain ⟨hwrote₃', bloom', hbloom', rfl⟩ := createInner_ok hcreate'
  obtain rfl : bloom = bloom' := by
    rw [hbloom] at hbloom'
    exact Except.ok.inj hbloom'
  obtain ⟨bs, bs', hwrote₄, hwrote₄', hs₄⟩ :=
    (inStep_created bloom ctx ctx' size).addAll hsame hadd hadd'
  obtain ⟨cs, cs', hwrote₁, hwrote₁', hs₁⟩ := hs₄.flushBlock hflush hflush'
  obtain ⟨s, hdisk⟩ := disk_of_opened hnew hlog ((hwrote₃.trans hwrote₄).trans hwrote₁)
  obtain ⟨s', hdisk'⟩ := disk_of_opened hnew' hlog' ((hwrote₃'.trans hwrote₄').trans hwrote₁')
  exact ⟨_, s, _, s', hdisk, hdisk', hs₁⟩

theorem Writing.finished {bloom₀ : Option BlockedBloom} {blocks : List (List Rec)} {cur : List Rec}
    (hw : Writing prims crypto bloom₀ size name w f blocks cur) :
    List.Forall₂ (BlockAt prims crypto
      (overwrite (f ++ w.sections) (w.fileHeader w.bytesWritten).asBytes 0))
      (w.pendingIndex.map Prod.snd) blocks := by
  rw [List.forall₂_map_left_iff]
  refine hw.index.imp ?_
  rintro entry rs ⟨-, hat⟩
  have hregion := hw.region
  refine (hat.mono w.sections).overwrite ?_ ?_
  · rw [FileHeader.asBytes_length]
    decide
  · rw [FileHeader.asBytes_length, List.length_append]
    unfold fileHeaderSize fileHeaderRegionSize at *
    omega

/-- The files of two encrypted tables whose records differ only in the bytes of
their values have their blocks at the same places and differ nowhere else. -/
theorem writeTable_agree {ctx ctx' : CryptoCtx} (hnew : wd.disk name = none)
    (hnew' : wd'.disk name' = none) (hrs : ∀ r ∈ rs, r.seqno < u64Size)
    (hsame : List.Forall₂ SameButValue rs rs')
    (h : SstWriter.writeTable prims name expectedKeys params (some ctx) size rs wd = .ok () wd₁)
    (h' : SstWriter.writeTable prims name' expectedKeys params (some ctx') size rs' wd' =
      .ok () wd₁') :
    ∃ handles,
      List.Forall₂ (BlockAt prims (some ctx) (wd₁.bytesOf name)) handles (cutBlocks size [] rs) ∧
      List.Forall₂ (BlockAt prims (some ctx') (wd₁'.bytesOf name')) handles
        (cutBlocks size [] rs') ∧
      AgreeOutside handles (wd₁.bytesOf name) (wd₁'.bytesOf name') := by
  have hrs' := seqnos_of_same hsame hrs
  obtain ⟨w₂, wd₂, hat, hfinish⟩ := writeTable_ok h
  obtain ⟨w₂', wd₂', hat', hfinish'⟩ := writeTable_ok h'
  obtain ⟨file, s, bloom, hdisk, hw⟩ := hat.writing hnew hrs
  obtain ⟨file', s', bloom', hdisk', hw'⟩ := hat'.writing hnew' hrs'
  obtain ⟨_, _, _, _, hd, hd', hstep⟩ := hat.inStep hat' hnew hnew' hsame
  cases hdisk.symm.trans hd
  cases hdisk'.symm.trans hd'
  have hhandles : w₂'.pendingIndex = w₂.pendingIndex := by
    obtain ⟨b', crypto', rfl⟩ := hstep.writer
    rfl
  have hwritten : w₂'.bytesWritten = w₂.bytesWritten := by
    obtain ⟨b', crypto', rfl⟩ := hstep.writer
    rfl
  have hbytes := bytesOf_finishSections (hw.sameFile ▸ hdisk) hw.region hfinish
  have hbytes' := bytesOf_finishSections (hw'.sameFile ▸ hdisk') hw'.region hfinish'
  rw [hw.sameFile] at hbytes
  rw [hw'.sameFile] at hbytes'
  refine ⟨w₂.pendingIndex.map Prod.snd, ?_, ?_, ?_⟩
  · rw [hbytes]
    exact hw.finished
  · rw [hbytes', ← hhandles]
    exact hw'.finished
  · rw [hbytes, hbytes', hstep.sections, hstep.fileHeader, hwritten]
    exact (hstep.agree.append _).overwrite _

end

/-- A table of one record with the value `v`. -/
def writeOne (v : Byte) : Act World Unit :=
  SstWriter.writeTable .blank (.sst 3) 0 ⟨7, 10⟩ (some ⟨[], 3⟩) 0 [⟨[1], 1, .put, [v]⟩]

theorem writeOne_returns {v : Byte}
    (h : Writable (some ⟨[], 3⟩) 0 ⟨7, 10⟩ (cutBlocks 0 [] [⟨[1], 1, .put, [v]⟩])) :
    ∃ wd, writeOne v ⟨[], []⟩ = .ok () wd := by
  have hends : Ends (writeOne v) ⟨[], []⟩ (fun _ _ => True) fun _ _ => False := by
    refine Ends.mono (writeTable_ends rfl ?_) (fun _ _ _ => trivial) ?_
    · intro r hr
      rw [List.mem_singleton.mp hr]
      exact (by decide : 1 < u64Size)
    · rintro - _ ⟨-, htrouble⟩
      exact h.not_trouble rfl (fun _ _ _ _ => not_sealFails_blank _ _) htrouble
  obtain ⟨_, wd, hok, -⟩ := hends.returns
  exact ⟨wd, hok⟩

theorem writeTable_agree_values : ∃ wd wd', writeOne 5 ⟨[], []⟩ = .ok () wd ∧
    writeOne 6 ⟨[], []⟩ = .ok () wd' ∧ ∃ handles : List BlockHandle, handles.length = 1 ∧
      AgreeOutside handles (wd.bytesOf (.sst 3)) (wd'.bytesOf (.sst 3)) := by
  obtain ⟨wd, h⟩ := writeOne_returns (v := 5) (by decide +kernel)
  obtain ⟨wd', h'⟩ := writeOne_returns (v := 6) (by decide +kernel)
  have hnew : World.disk ⟨[], []⟩ (.sst 3) = none := rfl
  have hone : (cutBlocks 0 [] [⟨[1], 1, .put, [5]⟩]).length = 1 := by decide
  unfold writeOne at h h' ⊢
  have hsame : List.Forall₂ SameButValue [⟨[1], 1, .put, [5]⟩] [⟨[1], 1, .put, [6]⟩] :=
    .cons ⟨rfl, rfl, rfl, rfl⟩ .nil
  obtain ⟨handles, hblocks, -, hagree⟩ := writeTable_agree hnew hnew (by decide) hsame h h'
  exact ⟨wd, wd', h, h', handles, hblocks.length_eq.trans hone, hagree⟩

end PaddockKV.Sstable
