import PaddockKV.Sstable.BlockRead
import PaddockKV.Sstable.Writer

/-!
# What the SSTable writer writes

`cutBlocks` says how the records are cut into blocks. While it runs the writer
keeps `Writing`: every sealed block stands in the file where its index entry
says, one behind the other. A call of the writer fails only when a call of the
file layer does, when a block cannot be sealed, when its keys are out of order,
or when a length or an offset does not fit the word it is kept in (`Trouble`).
-/

namespace PaddockKV.Sstable

open Io Crypto PaddockKV.Filter

/-- The block is full with these records. -/
def Full (size : ℕ) (rs : List Rec) : Prop :=
  size ≤ (entries 0 [] rs).length + restartCount rs.length * 4 + blockTrailerSize

instance (size : ℕ) (rs : List Rec) : Decidable (Full size rs) := inferInstanceAs (Decidable (_ ≤ _))

/-- The blocks of a table, `cur` being the records of the open one. -/
def cutBlocks (size : ℕ) (cur : List Rec) : List Rec → List (List Rec)
  | [] => if cur = [] then [] else [cur]
  | r :: rs =>
    if Full size (cur ++ [r]) then (cur ++ [r]) :: cutBlocks size [] rs
    else cutBlocks size (cur ++ [r]) rs

theorem cutBlocks_flatten (size : ℕ) (cur rs : List Rec) :
    (cutBlocks size cur rs).flatten = cur ++ rs := by
  induction rs generalizing cur with
  | nil =>
    unfold cutBlocks
    split
    · rename_i h
      rw [h]
      rfl
    · simp
  | cons r rs ih =>
    unfold cutBlocks
    split
    · rw [List.flatten_cons, ih]
      simp
    · rw [ih]
      simp

theorem cutBlocks_ne_nil (size : ℕ) (cur rs : List Rec) : ∀ b ∈ cutBlocks size cur rs, b ≠ [] := by
  induction rs generalizing cur with
  | nil =>
    unfold cutBlocks
    split
    · simp
    · simpa using ‹_›
  | cons r rs ih =>
    unfold cutBlocks
    split
    · intro b hb
      rcases List.mem_cons.mp hb with rfl | hb
      · simp
      · exact ih [] b hb
    · exact ih (cur ++ [r])

/-- The open block is the beginning of the next one that is cut. -/
theorem cutBlocks_prefix {cur : List Rec} (hne : cur ≠ []) (size : ℕ) (rs : List Rec) :
    ∃ b ∈ cutBlocks size cur rs, cur <+: b := by
  induction rs generalizing cur with
  | nil =>
    unfold cutBlocks
    rw [if_neg hne]
    exact ⟨cur, List.mem_cons_self, List.prefix_rfl⟩
  | cons r rs ih =>
    unfold cutBlocks
    split
    · exact ⟨cur ++ [r], List.mem_cons_self, List.prefix_append _ _⟩
    · obtain ⟨b, hb, hpre⟩ := @ih (cur ++ [r]) (by simp)
      exact ⟨b, hb, (List.prefix_append cur [r]).trans hpre⟩

/-! ### Sizes -/

theorem blockBytes_length (rs : List Rec) :
    (blockBytes rs).length = (entries 0 [] rs).length + numRestartsOf rs * 4 + blockTrailerSize := by
  unfold blockBytes sealedBytes blockTrailerSize
  simp only [List.length_append, readerOf_restartBytes_length, leBytes_length]
  show (entries 0 [] rs).length + _ + _ = _
  omega

/-- The bytes of a block in the file. -/
def diskLength (crypto : Option CryptoCtx) (b : List Rec) : ℕ :=
  (blockBytes b).length + if crypto.isSome then tagLen else 0

theorem length_lt_diskLength (crypto : Option CryptoCtx) (b : List Rec) :
    b.length < diskLength crypto b := by
  have hle := length_le_entries 0 [] b
  unfold diskLength
  rw [blockBytes_length]
  unfold blockTrailerSize
  omega

/-- The bytes behind `n` up to the next block. -/
def padding (n : ℕ) : Bytes :=
  if n % blockAlignment = 0 then [] else zeros (blockAlignment - n % blockAlignment)

def alignUp (n : ℕ) : ℕ := n + (padding n).length

theorem le_alignUp (n : ℕ) : n ≤ alignUp n := Nat.le_add_right _ _

theorem alignUp_mod (n : ℕ) : alignUp n % blockAlignment = 0 := by
  unfold alignUp padding
  split
  · assumption
  · rw [zeros_length]
    unfold blockAlignment
    omega

/-- Where the file ends behind these blocks. -/
def dataEndOf (crypto : Option CryptoCtx) (blocks : List (List Rec)) : ℕ :=
  blocks.foldl (fun n b => alignUp (n + diskLength crypto b)) fileHeaderRegionSize

section

variable (crypto : Option CryptoCtx)

theorem dataEndOf_concat (blocks : List (List Rec)) (b : List Rec) :
    dataEndOf crypto (blocks ++ [b]) = alignUp (dataEndOf crypto blocks + diskLength crypto b) :=
  List.foldl_concat ..

theorem add_length_le_foldl (blocks : List (List Rec)) (n : ℕ) :
    n + (blocks.flatten.length + blocks.length) ≤
      blocks.foldl (fun n b => alignUp (n + diskLength crypto b)) n := by
  induction blocks generalizing n with
  | nil => exact le_rfl
  | cons b blocks ih =>
    have hone := length_lt_diskLength crypto b
    have hrest := ih (alignUp (n + diskLength crypto b))
    have hup := le_alignUp (n + diskLength crypto b)
    rw [List.foldl_cons, List.flatten_cons, List.length_append, List.length_cons]
    omega

theorem dataEndOf_le_append (blocks blocks' : List (List Rec)) :
    dataEndOf crypto blocks ≤ dataEndOf crypto (blocks ++ blocks') := by
  unfold dataEndOf
  rw [List.foldl_append]
  exact (Nat.le_add_right _ _).trans (add_length_le_foldl crypto blocks' _)

theorem lengths_le_dataEndOf (blocks : List (List Rec)) :
    fileHeaderRegionSize + (blocks.flatten.length + blocks.length) ≤ dataEndOf crypto blocks :=
  add_length_le_foldl crypto blocks _

end

section

variable (prims : Primitives)

/-- The block cannot be sealed for the offset. -/
def SealFails (crypto : Option CryptoCtx) (offset : ℕ) (rs : List Rec) : Prop :=
  ∃ ctx, crypto = some ctx ∧ ctx.sealBlock prims offset (blockBytes rs) = none

/-- `onDisk` is the block of `rs`, sealed for its offset when there is a key. -/
def Sealed (crypto : Option CryptoCtx) (offset : ℕ) (onDisk : Bytes) (rs : List Rec) : Prop :=
  match crypto with
  | none => onDisk = blockBytes rs
  | some ctx => ctx.openBlock prims offset onDisk = some (blockBytes rs)

/-- The sizes of the block fit the words of its layout. -/
structure BlockFits (rs : List Rec) : Prop where
  recs : ∀ r ∈ rs, Fits r
  entries : (entries 0 [] rs).length < u32Size
  restarts : numRestartsOf rs < u32Size

/-- The block of `rs` stands in the file where the handle says. -/
structure BlockAt (crypto : Option CryptoCtx) (file : Bytes) (h : BlockHandle) (rs : List Rec) :
    Prop where
  bytes : ∃ onDisk, At file h.offset onDisk ∧ onDisk.length = h.length ∧
    Sealed prims crypto h.offset onDisk rs
  inside : h.offset + h.length ≤ file.length
  behindHeader : fileHeaderRegionSize ≤ h.offset
  aligned : h.offset % blockAlignment = 0
  handle : h.Fits
  fits : BlockFits rs
  nonempty : rs ≠ []

variable {prims} {crypto : Option CryptoCtx} {file rest : Bytes} {h : BlockHandle} {rs : List Rec}

theorem blockFits_of_length (hlen : (blockBytes rs).length < u32Size)
    (hseq : ∀ r ∈ rs, r.seqno < u64Size) : BlockFits rs := by
  rw [blockBytes_length] at hlen
  exact ⟨fits_of_entries (by omega) hseq, by omega, by omega⟩

theorem BlockAt.mono (hb : BlockAt prims crypto file h rs) (rest : Bytes) :
    BlockAt prims crypto (file ++ rest) h rs := by
  obtain ⟨⟨od, hat, hod⟩, hin, hreg, hal, hh, hf, hne⟩ := hb
  refine ⟨⟨od, hat.mono rest, hod⟩, ?_, hreg, hal, hh, hf, hne⟩
  rw [List.length_append]
  omega

theorem BlockAt.overwrite {data : Bytes} (hb : BlockAt prims crypto file h rs)
    (hdata : data.length ≤ fileHeaderRegionSize) (hfile : data.length ≤ file.length) :
    BlockAt prims crypto (overwrite file data 0) h rs := by
  obtain ⟨⟨od, hat, hod⟩, hin, hreg, hal, hh, hf, hne⟩ := hb
  have hin' : 0 + data.length ≤ file.length := by omega
  refine ⟨⟨od, hat.overwrite hin' (by omega), hod⟩, ?_, hreg, hal, hh, hf, hne⟩
  rw [overwrite_length hin']
  exact hin

/-- An entry of the index and the block it points to. -/
def IndexEntry (prims : Primitives) (crypto : Option CryptoCtx) (file : Bytes)
    (entry : Key × BlockHandle) (rs : List Rec) : Prop :=
  entry.1 = lastKeyOf [] rs ∧ BlockAt prims crypto file entry.2 rs

end

/-- The second block starts behind the first. -/
def Behind (a b : Key × BlockHandle) : Prop := a.2.offset + a.2.length ≤ b.2.offset

def maxSeqnoOf (rs : List Rec) : ℕ := (rs.map Rec.seqno).foldl max 0

/-- The state of a writer that has written `file`: the blocks that are sealed and
the records of the open one. -/
structure Writing (prims : Primitives) (crypto : Option CryptoCtx) (bloom₀ : Option BlockedBloom)
    (size : ℕ) (name : FileName) (w : SstWriter) (file : Bytes) (blocks : List (List Rec))
    (cur : List Rec) : Prop where
  sameFile : w.file = name
  sameCrypto : w.crypto = crypto
  blockSize : w.blockSize = size
  written : w.bytesWritten = file.length
  room : file.length < u64Size
  region : fileHeaderRegionSize ≤ file.length
  aligned : file.length % blockAlignment = 0
  length : file.length = dataEndOf crypto blocks
  builder : Built w.dataBuilder cur
  index : List.Forall₂ (IndexEntry prims crypto file) w.pendingIndex blocks
  ordered : w.pendingIndex.Pairwise Behind
  seqnos : ∀ r ∈ cur, r.seqno < u64Size
  lastKey : w.lastKey = lastKeyOf [] cur
  bloom : w.bloom = bloom₀.map fun f =>
    ((blocks.flatten ++ cur).map Rec.key).foldl (.insert prims.xxh3) f
  numEntries : w.numEntries = (blocks.flatten ++ cur).length
  numEntries_lt : w.numEntries < u64Size
  numBlocks : w.numBlocks = blocks.length
  numBlocks_lt : w.numBlocks < u64Size
  minSeqno : w.minSeqno < u64Size
  maxSeqno : w.maxSeqno = maxSeqnoOf (blocks.flatten ++ cur)
  maxSeqno_lt : w.maxSeqno < u64Size

/-! ### Writing a block -/

/-- Why a call of the writer fails when its table has these blocks. -/
inductive Trouble (prims : Primitives) (crypto : Option CryptoCtx) (wd : World)
    (blocks : List (List Rec)) : Prop where
  | fault (h : wd.faults ≠ [])
  | sealing {A B : List (List Rec)} {b : List Rec} (hb : blocks = A ++ b :: B)
    (h : SealFails prims crypto (dataEndOf crypto A) b)
  | disorder {b : List Rec} (hb : b ∈ blocks) (h : ¬ KeySorted (b.map Rec.key))
  | block {b : List Rec} (hb : b ∈ blocks) (h : u32Size ≤ diskLength crypto b)
  | file (h : u64Size ≤ dataEndOf crypto blocks)

section

variable {prims : Primitives} {crypto : Option CryptoCtx} {w : SstWriter} {wd : World}

theorem Trouble.append {blocks : List (List Rec)} (h : Trouble prims crypto wd blocks)
    (blocks' : List (List Rec)) : Trouble prims crypto wd (blocks ++ blocks') := by
  cases h with
  | fault h => exact .fault h
  | sealing hb h =>
    rw [hb, List.append_assoc]
    exact .sealing rfl h
  | disorder hb h => exact .disorder (List.mem_append_left _ hb) h
  | block hb h => exact .block (List.mem_append_left _ hb) h
  | file h => exact .file (h.trans (dataEndOf_le_append crypto blocks blocks'))

theorem Trouble.earlier {wd₁ : World} {blocks : List (List Rec)} (h : Trouble prims crypto wd₁ blocks)
    (hf : wd.faults = [] → wd₁.faults = []) : Trouble prims crypto wd blocks := by
  cases h with
  | fault h => exact .fault fun hnil => h (hf hnil)
  | sealing hb h => exact .sealing hb h
  | disorder hb h => exact .disorder hb h
  | block hb h => exact .block hb h
  | file h => exact .file h

theorem align_ends (w : SstWriter) (wd : World) (hroom : w.bytesWritten < u64Size) :
    Ends w.alignToBlockBoundary wd
      (fun w' wd' => Wrote w.file wd wd' (padding w.bytesWritten) ∧
        w' = { w with bytesWritten := alignUp w.bytesWritten } ∧
        alignUp w.bytesWritten < u64Size ∧ (wd.faults = [] → wd'.faults = []))
      fun _ wd' => (∃ bs, Wrote w.file wd wd' bs) ∧
        (wd.faults ≠ [] ∨ u64Size ≤ alignUp w.bytesWritten) := by
  unfold SstWriter.alignToBlockBoundary alignUp padding
  dsimp only
  split
  · exact Ends.ret ⟨Wrote.refl _ _, rfl, hroom, id⟩
  · rw [zeros_length]
    refine Ends.bind (append_ends _ _ wd) ?_ ?_
    · rintro - wd₁ ⟨hw, hf⟩
      refine Ends.addU64_bind ?_ ?_
      · intro hlt
        exact Ends.ret ⟨hw, rfl, hlt, hf⟩
      · intro hover
        exact ⟨⟨_, hw⟩, .inr hover⟩
    · rintro - wd₁ ⟨hne, n, hw⟩
      exact ⟨⟨_, hw⟩, .inl hne⟩

theorem align_ok {w' : SstWriter} {wd' : World} (h : w.alignToBlockBoundary wd = .ok w' wd') :
    Wrote w.file wd wd' (padding w.bytesWritten) ∧
      w' = { w with bytesWritten := w.bytesWritten + (padding w.bytesWritten).length } := by
  unfold SstWriter.alignToBlockBoundary at h
  unfold padding
  split at h
  · rename_i hal
    cases h
    rw [if_pos hal]
    exact ⟨Wrote.refl _ _, rfl⟩
  · rename_i hal
    obtain ⟨_, wd₁, happend, hrest⟩ := act_bind_eq_ok.mp h
    obtain ⟨n, wd₂, hadd, hret⟩ := act_bind_eq_ok.mp hrest
    obtain ⟨-, rfl, rfl⟩ := addU64_ok.mp hadd
    cases hret
    rw [if_neg hal, zeros_length]
    exact ⟨append_ok happend, rfl⟩

theorem trailingCrc_lt (bytes : Bytes) : SstWriter.trailingCrc bytes < 256 ^ 4 := by
  refine (leVal_lt _).trans_le (Nat.pow_le_pow_right (by decide) ?_)
  rw [List.length_drop]
  omega

theorem onDiskBytes_some {ctx : CryptoCtx} {offset : ℕ} {plaintext onDisk : Bytes} {sum : ℕ}
    (h : SstWriter.onDiskBytes prims (some ctx) offset plaintext = .ok (onDisk, sum)) :
    ctx.sealBlock prims offset plaintext = some onDisk ∧ sum = 0 := by
  unfold SstWriter.onDiskBytes at h
  cases hct : ctx.sealBlock prims offset plaintext with
  | none =>
    simp only [hct] at h
    cases h
  | some ct =>
    simp only [hct] at h
    cases h
    exact ⟨rfl, rfl⟩

theorem onDiskBytes_ok {offset : ℕ} {rs : List Rec} {onDisk : Bytes} {sum : ℕ}
    (h : SstWriter.onDiskBytes prims crypto offset (blockBytes rs) = .ok (onDisk, sum)) :
    Sealed prims crypto offset onDisk rs ∧ onDisk.length = diskLength crypto rs ∧
      sum < 256 ^ 4 := by
  cases crypto with
  | none =>
    cases h
    exact ⟨rfl, rfl, trailingCrc_lt _⟩
  | some ctx =>
    obtain ⟨hct, rfl⟩ := onDiskBytes_some h
    exact ⟨CryptoCtx.openBlock_sealBlock hct, prims.seal_length _ _ _ _ _ hct, by decide⟩

theorem onDiskBytes_error {offset : ℕ} {rs : List Rec} {e : Fault}
    (h : SstWriter.onDiskBytes prims crypto offset (blockBytes rs) = .error e) :
    SealFails prims crypto offset rs := by
  cases crypto with
  | none => cases h
  | some ctx =>
    unfold SstWriter.onDiskBytes at h
    cases hct : ctx.sealBlock prims offset (blockBytes rs) with
    | none => exact ⟨ctx, rfl, hct⟩
    | some ct =>
      simp only [hct] at h
      cases h

theorem noteSeal_ends (crypto : Option CryptoCtx) (offset : ℕ) (name : FileName) (wd : World)
    {Q : Fault → World → Prop} :
    Ends (SstWriter.noteSeal crypto offset) wd
      (fun _ wd' => Wrote name wd wd' [] ∧ wd'.faults = wd.faults) Q := by
  cases crypto with
  | none => exact Ends.ret ⟨Wrote.refl _ _, rfl⟩
  | some ctx => exact Ends.update ⟨⟨_, Appends.nil.sealBlock _ _, rfl⟩, rfl⟩

theorem writeBlock_ok {plaintext : Bytes} {w' : SstWriter} {handle : BlockHandle} {wd' : World}
    (h : w.writeBlock prims plaintext wd = .ok (w', handle) wd') :
    ∃ onDisk sum,
      SstWriter.onDiskBytes prims w.crypto w.bytesWritten plaintext = .ok (onDisk, sum) ∧
      handle = ⟨w.bytesWritten, onDisk.length, sum⟩ ∧
      Wrote w.file wd wd' (onDisk ++ padding (w.bytesWritten + onDisk.length)) ∧
      w' = { w with bytesWritten := w.bytesWritten + onDisk.length +
        (padding (w.bytesWritten + onDisk.length)).length } := by
  obtain ⟨⟨onDisk, sum⟩, wd₁, hdisk, hrest⟩ := act_bind_eq_ok.mp h
  obtain ⟨_, wd₂, hnote, hrest⟩ := act_bind_eq_ok.mp hrest
  obtain ⟨_, wd₃, happend, hrest⟩ := act_bind_eq_ok.mp hrest
  obtain ⟨written, wd₄, hadd, hrest⟩ := act_bind_eq_ok.mp hrest
  obtain ⟨length, wd₅, hlength, hrest⟩ := act_bind_eq_ok.mp hrest
  obtain ⟨w₁, wd₆, halign, hret⟩ := act_bind_eq_ok.mp hrest
  cases hret
  obtain ⟨hdisk', rfl⟩ := act_lift_eq_ok.mp hdisk
  obtain ⟨hlength', rfl⟩ := act_lift_eq_ok.mp hlength
  obtain ⟨-, hlen⟩ := expectU32_ok.mp hlength'
  obtain ⟨-, rfl, rfl⟩ := addU64_ok.mp hadd
  obtain ⟨hpad, rfl⟩ := align_ok halign
  have hnoted : Wrote w.file wd₁ wd₂ [] :=
    ((noteSeal_ends w.crypto w.bytesWritten w.file wd₁ (Q := fun _ _ => True)).of_ok hnote).1
  exact ⟨onDisk, sum, hdisk', by rw [hlen], (hnoted.trans (append_ok happend)).trans hpad, rfl⟩

theorem blockBytes_le_diskLength (crypto : Option CryptoCtx) (rs : List Rec) :
    (blockBytes rs).length ≤ diskLength crypto rs := Nat.le_add_right _ _

theorem writeBlock_ends {rs : List Rec} {file : Bytes} (hne : rs ≠ [])
    (hseq : ∀ r ∈ rs, r.seqno < u64Size) (hlen : w.bytesWritten = file.length)
    (hroom : file.length < u64Size) (hreg : fileHeaderRegionSize ≤ file.length)
    (hal : file.length % blockAlignment = 0) :
    Ends (w.writeBlock prims (blockBytes rs)) wd
      (fun out wd' => ∃ bs, Wrote w.file wd wd' bs ∧
        out.1 = { w with bytesWritten := (file ++ bs).length } ∧ (file ++ bs).length < u64Size ∧
        (file ++ bs).length = alignUp (file.length + diskLength w.crypto rs) ∧
        out.2.offset = file.length ∧ BlockAt prims w.crypto (file ++ bs) out.2 rs ∧
        (wd.faults = [] → wd'.faults = []))
      fun _ wd' => (∃ bs, Wrote w.file wd wd' bs) ∧
        (wd.faults ≠ [] ∨ SealFails prims w.crypto file.length rs ∨
          u32Size ≤ diskLength w.crypto rs ∨
          u64Size ≤ alignUp (file.length + diskLength w.crypto rs)) := by
  have hblock := blockBytes_le_diskLength w.crypto rs
  have hup := le_alignUp (file.length + diskLength w.crypto rs)
  unfold SstWriter.writeBlock
  dsimp only
  rw [hlen]
  refine Ends.lift_bind ?_ ?_
  · rintro ⟨onDisk, sum⟩ hdisk
    obtain ⟨hsealed, hdiskLen, hsum⟩ := onDiskBytes_ok hdisk
    rw [← hdiskLen] at hblock hup ⊢
    dsimp only
    refine Ends.bind (noteSeal_ends w.crypto file.length w.file wd) ?_ (fun _ _ h => h)
    rintro - wd₀ ⟨hw₀, hf₀⟩
    refine Ends.bind (append_ends _ _ wd₀) ?_ ?_
    · rintro - wd₁ ⟨hw₁, hf₁⟩
      have hw := hw₀.trans hw₁
      have hfaults : wd.faults = [] → wd₁.faults = [] := fun h => hf₁ (hf₀.trans h)
      rw [List.nil_append] at hw
      refine Ends.addU64_bind ?_ ?_
      · intro hlt
        refine Ends.expectU32_bind ?_ ?_
        · intro h32
          refine Ends.bind (align_ends _ wd₁ hlt) ?_ ?_
          · rintro w₂ wd₂ ⟨hpad, rfl, hroom', hf₂⟩
            dsimp only at hpad hroom' ⊢
            have hfinal : (file ++ (onDisk ++ padding (file.length + onDisk.length))).length =
                alignUp (file.length + onDisk.length) := by
              unfold alignUp
              rw [List.length_append, List.length_append, Nat.add_assoc]
            refine Ends.ret ⟨_, hw.trans hpad, ?_, ?_, hfinal, rfl, ?_, fun h => hf₂ (hfaults h)⟩
            · rw [hfinal]
            · rw [hfinal]
              exact hroom'
            · refine ⟨⟨onDisk, ?_, rfl, hsealed⟩, ?_, hreg, hal, ⟨hroom, h32, hsum⟩, ?_, hne⟩
              · show onDisk <+: (file ++ (onDisk ++ _)).drop file.length
                rw [List.drop_left]
                exact List.prefix_append _ _
              · rw [hfinal]
                exact hup
              · exact blockFits_of_length (hblock.trans_lt h32) hseq
          · rintro - wd₂ ⟨⟨bs, hbs⟩, hcause⟩
            refine ⟨⟨_, hw.trans hbs⟩, ?_⟩
            rcases hcause with hne₁ | hover
            · exact .inl fun h => hne₁ (hfaults h)
            · exact .inr (.inr (.inr hover))
        · intro hover
          exact ⟨⟨_, hw⟩, .inr (.inr (.inl hover))⟩
      · intro hover
        exact ⟨⟨_, hw⟩, .inr (.inr (.inr (hover.trans hup)))⟩
    · rintro - wd₁ ⟨hne₀, n, hw₁⟩
      exact ⟨⟨_, hw₀.trans hw₁⟩, .inl (hf₀ ▸ hne₀)⟩
  · intro e he
    exact ⟨⟨[], Wrote.refl _ _⟩, .inr (.inl (onDiskBytes_error he))⟩

/-! ### Adding records -/

variable {bloom₀ : Option BlockedBloom} {size : ℕ} {name : FileName} {file : Bytes}
  {blocks : List (List Rec)} {cur : List Rec}

theorem entries_eq_nil {rs : List Rec} : entries 0 [] rs = [] ↔ rs = [] := by
  constructor
  · intro h
    have hle := length_le_entries 0 [] rs
    rw [h] at hle
    exact List.eq_nil_of_length_eq_zero (Nat.le_zero.mp hle)
  · rintro rfl
    rfl

theorem indexEntry_mono {rest : Bytes} {index : List (Key × BlockHandle)}
    (h : List.Forall₂ (IndexEntry prims crypto file) index blocks) :
    List.Forall₂ (IndexEntry prims crypto (file ++ rest)) index blocks :=
  h.imp fun _ _ hb => ⟨hb.1, hb.2.mono rest⟩

theorem exists_block_of_mem {index : List (Key × BlockHandle)}
    (h : List.Forall₂ (IndexEntry prims crypto file) index blocks) {e : Key × BlockHandle}
    (he : e ∈ index) : ∃ rs ∈ blocks, BlockAt prims crypto file e.2 rs := by
  induction h with
  | nil => cases he
  | cons hb _ ih =>
    rcases List.mem_cons.mp he with rfl | he
    · exact ⟨_, List.mem_cons_self, hb.2⟩
    · obtain ⟨rs, hrs, hat⟩ := ih he
      exact ⟨rs, List.mem_cons_of_mem _ hrs, hat⟩

/-- After the block of `cur` was put at the end of the file. -/
theorem writing_block {bs : Bytes} {handle : BlockHandle}
    (hw : Writing prims crypto bloom₀ size name w file blocks cur)
    (hroom : (file ++ bs).length < u64Size)
    (hlen : (file ++ bs).length = alignUp (file.length + diskLength crypto cur))
    (hoff : handle.offset = file.length) (hat : BlockAt prims crypto (file ++ bs) handle cur)
    (hn : w.numBlocks + 1 < u64Size) :
    Writing prims crypto bloom₀ size name { w with
      dataBuilder := .new
      bytesWritten := (file ++ bs).length
      pendingIndex := w.pendingIndex ++ [(w.lastKey, handle)]
      lastKey := []
      numBlocks := w.numBlocks + 1 } (file ++ bs) (blocks ++ [cur]) [] := by
  have hflat : (blocks ++ [cur]).flatten ++ [] = blocks.flatten ++ cur := by simp
  constructor
  · exact hw.sameFile
  · exact hw.sameCrypto
  · exact hw.blockSize
  · rfl
  · exact hroom
  · rw [List.length_append]
    exact hw.region.trans (Nat.le_add_right _ _)
  · rw [hlen]
    exact alignUp_mod _
  · rw [hlen, dataEndOf_concat, hw.length]
  · exact built_new
  · exact List.rel_append (indexEntry_mono hw.index) (.cons ⟨hw.lastKey, hat⟩ .nil)
  · refine List.pairwise_append.mpr ⟨hw.ordered, List.pairwise_singleton _ _, ?_⟩
    intro a ha b hb
    obtain ⟨rs, -, hblock⟩ := exists_block_of_mem hw.index ha
    rw [List.mem_singleton.mp hb]
    exact hblock.inside.trans hoff.ge
  · simp
  · rfl
  · rw [hflat]
    exact hw.bloom
  · rw [hflat]
    exact hw.numEntries
  · exact hw.numEntries_lt
  · show w.numBlocks + 1 = _
    rw [List.length_append, List.length_singleton, hw.numBlocks]
  · exact hn
  · exact hw.minSeqno
  · rw [hflat]
    exact hw.maxSeqno
  · exact hw.maxSeqno_lt

theorem flushBlock_ends (hw : Writing prims crypto bloom₀ size name w file blocks cur) :
    Ends (w.flushBlock prims) wd
      (fun w' wd' => (∃ bs, Wrote name wd wd' bs ∧ Writing prims crypto bloom₀ size name w'
        (file ++ bs) (blocks ++ if cur = [] then [] else [cur]) []) ∧
        (wd.faults = [] → wd'.faults = []))
      fun _ wd' => (∃ bs, Wrote name wd wd' bs) ∧ cur ≠ [] ∧
        Trouble prims crypto wd (blocks ++ [cur]) := by
  have hempty : w.dataBuilder.buffer = [] ↔ cur = [] := by
    rw [hw.builder.buffer, entries_eq_nil]
  have hmem : cur ∈ blocks ++ [cur] := List.mem_append_right _ List.mem_cons_self
  have hend := dataEndOf_concat crypto blocks cur
  rw [← hw.length] at hend
  unfold SstWriter.flushBlock
  by_cases hcur : cur = []
  · rw [if_pos (hempty.mpr hcur), if_pos hcur]
    refine Ends.ret ⟨⟨[], Wrote.refl _ _, ?_⟩, id⟩
    rw [List.append_nil, List.append_nil]
    exact hcur ▸ hw
  · rw [if_neg fun hbuf => hcur (hempty.mp hbuf), if_neg hcur]
    refine Ends.lift_bind ?_ ?_
    · rintro ⟨bytes, builder⟩ hfin
      obtain ⟨rfl, rfl, -⟩ := finish_eq hw.builder hfin
      refine Ends.bind (writeBlock_ends hcur hw.seqnos hw.written hw.room hw.region
        hw.aligned) ?_ ?_
      · rintro ⟨w₁, handle⟩ wd₁ ⟨bs, hwrote, rfl, hroom, hlen, hoff, hat, hf⟩
        dsimp only at hlen hat
        rw [hw.sameFile] at hwrote
        rw [hw.sameCrypto] at hlen hat
        refine Ends.addU64_bind ?_ ?_
        · intro hlt
          have hnew := writing_block hw hroom hlen hoff hat hlt
          exact Ends.ret ⟨⟨bs, hwrote, hnew⟩, hf⟩
        · intro hover
          refine ⟨⟨bs, hwrote⟩, hcur, .file ?_⟩
          have hcount := lengths_le_dataEndOf crypto (blocks ++ [cur])
          rw [List.length_append, List.length_singleton, ← hw.numBlocks] at hcount
          dsimp only at hover
          omega
      · rintro - wd₁ ⟨⟨bs, hwrote⟩, hcause⟩
        dsimp only at hwrote hcause
        rw [hw.sameFile] at hwrote
        rw [hw.sameCrypto] at hcause
        refine ⟨⟨bs, hwrote⟩, hcur, ?_⟩
        rcases hcause with hne | hseal | hlong | hover
        · exact .fault hne
        · exact .sealing rfl (hw.length ▸ hseal)
        · exact .block hmem hlong
        · rw [← hend] at hover
          exact .file hover
    · intro e he
      refine ⟨⟨[], Wrote.refl _ _⟩, hcur, ?_⟩
      rcases finish_ends hw.builder with ⟨b', hfin, -⟩ | hover
      · rw [he] at hfin
        cases hfin
      · have hn := numRestartsOf_le cur
        have hc := length_lt_diskLength crypto cur
        exact .block hmem (by omega)

theorem writing_put {r : Rec} (hw : Writing prims crypto bloom₀ size name w file blocks cur)
    (hr : r.seqno < u64Size) (hn : w.numEntries + 1 < u64Size) :
    Writing prims crypto bloom₀ size name { w with
      dataBuilder := w.dataBuilder.add r
      bloom := w.bloom.map (·.insert prims.xxh3 r.key)
      lastKey := r.key
      numEntries := w.numEntries + 1
      minSeqno := min w.minSeqno r.seqno
      maxSeqno := max w.maxSeqno r.seqno } file blocks (cur ++ [r]) := by
  constructor
  · exact hw.sameFile
  · exact hw.sameCrypto
  · exact hw.blockSize
  · exact hw.written
  · exact hw.room
  · exact hw.region
  · exact hw.aligned
  · exact hw.length
  · exact hw.builder.add r
  · exact hw.index
  · exact hw.ordered
  · intro x hx
    rcases List.mem_append.mp hx with hx | hx
    · exact hw.seqnos x hx
    · rw [List.mem_singleton.mp hx]
      exact hr
  · simp [lastKeyOf]
  · rw [hw.bloom, Option.map_map]
    refine congrArg (Option.map · bloom₀) (funext fun f => ?_)
    simp
  · show w.numEntries + 1 = _
    rw [hw.numEntries, ← List.append_assoc, List.length_append, List.length_append,
      List.length_append, List.length_singleton]
  · exact hn
  · exact hw.numBlocks
  · exact hw.numBlocks_lt
  · exact (Nat.min_le_left _ _).trans_lt hw.minSeqno
  · rw [hw.maxSeqno]
    simp [maxSeqnoOf]
  · exact Nat.max_lt.mpr ⟨hw.maxSeqno_lt, hr⟩

/-- What a step of the writer leaves when the blocks are to be those of
`blocks ++ cutBlocks size cur (rs ++ tail)`, whatever comes after. -/
def Stepped (prims : Primitives) (crypto : Option CryptoCtx) (bloom₀ : Option BlockedBloom)
    (size : ℕ) (name : FileName) (file : Bytes) (blocks : List (List Rec)) (cur rs : List Rec)
    (wd : World) (w' : SstWriter) (wd' : World) : Prop :=
  (∃ bs blocks' cur', Wrote name wd wd' bs ∧
    Writing prims crypto bloom₀ size name w' (file ++ bs) blocks' cur' ∧
    ∀ tail, blocks' ++ cutBlocks size cur' tail = blocks ++ cutBlocks size cur (rs ++ tail)) ∧
  (wd.faults = [] → wd'.faults = [])

theorem disorder_of_lt {r : Rec} (hne : lastKeyOf [] cur ≠ []) (hlt : r.key < lastKeyOf [] cur)
    (tail : List Rec) : Trouble prims crypto wd (blocks ++ cutBlocks size cur (r :: tail)) := by
  obtain ⟨init, x, rfl⟩ : ∃ init x, cur = init ++ [x] := by
    rcases List.eq_nil_or_concat cur with rfl | ⟨init, x, h⟩
    · exact absurd rfl hne
    · exact ⟨init, x, h.trans (List.concat_eq_append ..)⟩
  have hlast : lastKeyOf [] (init ++ [x]) = x.key := by simp [lastKeyOf]
  rw [hlast] at hlt
  obtain ⟨b, hb, hpre⟩ : ∃ b ∈ cutBlocks size (init ++ [x]) (r :: tail),
      init ++ [x] ++ [r] <+: b := by
    unfold cutBlocks
    split
    · exact ⟨_, List.mem_cons_self, List.prefix_rfl⟩
    · exact cutBlocks_prefix (by simp) size tail
  refine .disorder (List.mem_append_right _ hb) ?_
  intro hsorted
  have hpair := List.Pairwise.sublist (hpre.sublist.map Rec.key) hsorted
  simp only [List.map_append, List.map_cons, List.map_nil, List.append_assoc, List.singleton_append,
    List.pairwise_append, List.pairwise_cons] at hpair
  exact absurd (hpair.2.1.1 r.key (by simp)) (not_le.mpr hlt)

theorem add_ends {r : Rec} (hw : Writing prims crypto bloom₀ size name w file blocks cur)
    (hr : r.seqno < u64Size) :
    Ends (w.add prims r) wd (Stepped prims crypto bloom₀ size name file blocks cur [r] wd)
      fun _ wd' => (∃ bs, Wrote name wd wd' bs) ∧
        ∀ tail, Trouble prims crypto wd (blocks ++ cutBlocks size cur ([r] ++ tail)) := by
  unfold SstWriter.add
  rw [hw.lastKey]
  refine Ends.debugAssert_bind ?_ ?_
  · intro _
    refine Ends.addU64_bind ?_ ?_
    · intro hlt
      have hput := writing_put hw hr hlt
      have hsize : w.blockSize ≤ (w.dataBuilder.add r).estimatedSize ↔ Full size (cur ++ [r]) := by
        have hb := hput.builder
        rw [BlockBuilder.estimatedSize, hb.buffer, hb.restarts, List.length_map, List.length_range,
          hw.blockSize]
        rfl
      dsimp only
      by_cases hfull : Full size (cur ++ [r])
      · have hcut : ∀ tail, blocks ++ cutBlocks size cur ([r] ++ tail) =
            blocks ++ [cur ++ [r]] ++ cutBlocks size [] tail := by
          intro tail
          rw [List.singleton_append, cutBlocks, if_pos hfull, List.append_assoc]
          rfl
        rw [if_pos (hsize.mpr hfull)]
        refine Ends.mono (flushBlock_ends hput) ?_ ?_
        · rintro w' wd' ⟨⟨bs, hwrote, hw'⟩, hf⟩
          rw [if_neg (by simp)] at hw'
          exact ⟨⟨bs, _, [], hwrote, hw', fun tail => (hcut tail).symm⟩, hf⟩
        · rintro - wd' ⟨hbs, -, hcause⟩
          refine ⟨hbs, fun tail => ?_⟩
          rw [hcut]
          exact hcause.append _
      · rw [if_neg fun h => hfull (hsize.mp h)]
        refine Ends.ret ⟨⟨[], blocks, cur ++ [r], Wrote.refl _ _, ?_, ?_⟩, id⟩
        · rw [List.append_nil]
          exact hput
        · intro tail
          rw [List.singleton_append, cutBlocks, if_neg hfull]
    · intro hover
      refine ⟨⟨[], Wrote.refl _ _⟩, fun tail => .file ?_⟩
      have hcount := lengths_le_dataEndOf crypto (blocks ++ cutBlocks size cur ([r] ++ tail))
      have hn := hw.numEntries
      simp only [List.flatten_append, cutBlocks_flatten, List.length_append,
        List.length_singleton] at hcount hn
      omega
  · intro hno
    obtain ⟨hne, hlt⟩ := not_or.mp hno
    exact ⟨⟨[], Wrote.refl _ _⟩, fun tail => disorder_of_lt hne (not_le.mp hlt) tail⟩

theorem addAll_ends {rs : List Rec} (hw : Writing prims crypto bloom₀ size name w file blocks cur)
    (hrs : ∀ r ∈ rs, r.seqno < u64Size) :
    Ends (w.addAll prims rs) wd (Stepped prims crypto bloom₀ size name file blocks cur rs wd)
      fun _ wd' => (∃ bs, Wrote name wd wd' bs) ∧
        ∀ tail, Trouble prims crypto wd (blocks ++ cutBlocks size cur (rs ++ tail)) := by
  induction rs generalizing w wd file blocks cur with
  | nil =>
    refine Ends.ret ⟨⟨[], blocks, cur, Wrote.refl _ _, ?_, fun tail => rfl⟩, id⟩
    rw [List.append_nil]
    exact hw
  | cons r rs ih =>
    unfold SstWriter.addAll
    rw [List.foldlM_cons]
    refine Ends.bind (add_ends hw (hrs r List.mem_cons_self)) ?_ ?_
    · rintro w₁ wd₁ ⟨⟨bs, blocks₁, cur₁, hwrote, hw₁, hcut⟩, hf⟩
      refine Ends.mono (ih hw₁ fun x hx => hrs x (List.mem_cons_of_mem r hx)) ?_ ?_
      · rintro w₂ wd₂ ⟨⟨bs', blocks₂, cur₂, hwrote', hw₂, hcut'⟩, hf'⟩
        refine ⟨⟨bs ++ bs', blocks₂, cur₂, hwrote.trans hwrote', ?_, ?_⟩, fun h => hf' (hf h)⟩
        · rw [← List.append_assoc]
          exact hw₂
        · intro tail
          rw [hcut', hcut]
          rfl
      · rintro - wd₂ ⟨⟨bs', hwrote'⟩, hcause⟩
        refine ⟨⟨bs ++ bs', hwrote.trans hwrote'⟩, fun tail => ?_⟩
        have htail := hcause tail
        rw [hcut] at htail
        exact htail.earlier hf
    · rintro - wd₁ ⟨hbs, hcause⟩
      exact ⟨hbs, fun tail => hcause (rs ++ tail)⟩

/-! ### The filter -/

/-- The bytes of the filter in the file. -/
def filterLength (expectedKeys : ℕ) (params : BloomParams) : ℕ :=
  if expectedKeys = 0 then 0
  else headerSize + max (min ((expectedKeys * params.bitsPerKey.val + (blockBits - 1)) / blockBits)
    (u32Size - 1)) 1 * Filter.blockBytes

/-- The filter a writer starts with. -/
structure FilterOf (expectedKeys : ℕ) (params : BloomParams) (bloom : Option BlockedBloom) :
    Prop where
  length : (bloom.map fun f => f.encode.length).getD 0 = filterLength expectedKeys params
  valid : ∀ f, bloom = some f → Valid f

/-- The filter cannot be made. -/
def FilterFails (expectedKeys : ℕ) (params : BloomParams) : Prop :=
  (expectedKeys ≠ 0 ∧ ¬ (1 ≤ params.numHashes.val ∧ params.numHashes.val ≤ 16)) ∨
    u32Size ≤ filterLength expectedKeys params

instance (expectedKeys : ℕ) (params : BloomParams) : Decidable (FilterFails expectedKeys params) :=
  inferInstanceAs (Decidable (_ ∨ _))

theorem new_length {n : ℕ} {params : BloomParams} {f : BlockedBloom} (hn : n ≠ 0)
    (h : BlockedBloom.new n params = .ok f) : f.encode.length = filterLength n params := by
  rw [encode_length (valid_new h), filterLength, if_neg hn]
  have hmax : max n 1 = n := max_eq_left (Nat.one_le_iff_ne_zero.mpr hn)
  unfold BlockedBloom.new at h
  rw [hmax] at h
  split at h
  · cases h
  · dsimp only at h
    split at h
    · cases h
    · cases h
      dsimp only
      generalize (n * params.bitsPerKey.val + (blockBits - 1)) / blockBits = wanted
      split <;> congr 3 <;> omega

theorem newFilter_ok {n : ℕ} {params : BloomParams} {bloom : Option BlockedBloom}
    (h : SstWriter.newFilter n params = .ok bloom) : FilterOf n params bloom := by
  unfold SstWriter.newFilter at h
  split at h
  · rename_i hn
    cases h
    refine ⟨?_, fun f hf => by cases hf⟩
    rw [filterLength, if_pos hn]
    rfl
  · rename_i hn
    rw [res_bind_eq_ok] at h
    obtain ⟨f, hnew, h⟩ := h
    cases h
    refine ⟨new_length hn hnew, ?_⟩
    rintro f' ⟨⟩
    exact valid_new hnew

theorem newFilter_error {n : ℕ} {params : BloomParams} {e : Fault}
    (h : SstWriter.newFilter n params = .error e) : FilterFails n params := by
  unfold SstWriter.newFilter at h
  split at h
  · cases h
  · rename_i hn
    have hmax : max n 1 = n := max_eq_left (Nat.one_le_iff_ne_zero.mpr hn)
    rcases res_bind_eq_error h with h | ⟨f, -, h⟩
    · unfold BlockedBloom.new at h
      rw [hmax] at h
      split at h
      · rename_i hhash
        exact .inl ⟨hn, hhash⟩
      · dsimp only at h
        split at h
        · rename_i hover
          -- the clamped number of blocks is too long already
          refine .inr ?_
          rw [filterLength, if_neg hn]
          unfold u64Size u32Size blockBits Filter.blockBytes headerSize at *
          omega
        · cases h
    · cases h

variable (prims) in
theorem createInner_ends {n : ℕ} {params : BloomParams} :
    Ends (SstWriter.createInner name n params crypto) wd
      (fun w wd' => (∃ bloom₀, FilterOf n params bloom₀ ∧
        Wrote name wd wd' (zeros fileHeaderRegionSize) ∧
        Writing prims crypto bloom₀ defaultBlockSize name w (zeros fileHeaderRegionSize) [] []) ∧
        (wd.faults = [] → wd'.faults = []))
      fun _ wd' => (∃ bs, bs <+: zeros fileHeaderRegionSize ∧ Wrote name wd wd' bs) ∧
        (wd.faults ≠ [] ∨ FilterFails n params) := by
  unfold SstWriter.createInner
  refine Ends.bind (append_ends _ _ wd) ?_ ?_
  · rintro - wd₁ ⟨hwrote, hf⟩
    refine Ends.lift_bind ?_ ?_
    · intro bloom hbloom
      have hregion : (zeros fileHeaderRegionSize).length = fileHeaderRegionSize := zeros_length _
      have hzero : 0 < u64Size := by decide
      refine Ends.ret ⟨⟨bloom, newFilter_ok hbloom, hwrote, ?_⟩, hf⟩
      constructor
      · rfl
      · rfl
      · rfl
      · exact hregion.symm
      · rw [hregion]
        decide
      · exact hregion.ge
      · rw [hregion]
        decide
      · exact hregion
      · exact built_new
      · exact .nil
      · exact .nil
      · simp
      · rfl
      · cases bloom <;> rfl
      · rfl
      · exact hzero
      · rfl
      · exact hzero
      · exact Nat.sub_lt hzero Nat.one_pos
      · rfl
      · exact hzero
    · intro e he
      exact ⟨⟨_, List.prefix_rfl, hwrote⟩, .inr (newFilter_error he)⟩
  · rintro - wd₁ ⟨hne, k, hwrote⟩
    exact ⟨⟨_, List.take_prefix _ _, hwrote⟩, .inl hne⟩

theorem writing_setBlockSize (hw : Writing prims crypto bloom₀ size name w file [] [])
    (size' : ℕ) : Writing prims crypto bloom₀ size' name (w.setBlockSize size') file [] [] :=
  { hw with blockSize := rfl }

end

end PaddockKV.Sstable
