import PaddockKV.Checksum

/-!
# On-disk layout of an SSTable (`sstable/format.rs`)

The file header at offset 0, the handles that point to blocks, and the footer
at the end of the file. All words are little-endian.
-/

namespace PaddockKV.Sstable

open Checksum

def sstableMagic : ℕ := 0x53564B50
def footerMagic : ℕ := 0x4654525353564B50
def formatVersion : ℕ := 1
def fileHeaderSize : ℕ := 64
def fileHeaderRegionSize : ℕ := 4096
def footerSize : ℕ := 64
def defaultBlockSize : ℕ := 16 * 1024
def blockAlignment : ℕ := 4096
def blockHandleSize : ℕ := 16

namespace flag

def checksummed : ℕ := 1
def encrypted : ℕ := 2

end flag

/-- `CompressionAlg::None` and the tag of `Algorithm::Crc32c`. -/
def compressionNone : ℕ := 0
def checksumCrc32c : ℕ := 0

/-! ### Block handles -/

structure BlockHandle where
  offset : ℕ
  length : ℕ
  checksum : ℕ
  deriving Repr, DecidableEq

namespace BlockHandle

def words (h : BlockHandle) : List (ℕ × ℕ) := [(8, h.offset), (4, h.length), (4, h.checksum)]

def asBytes (h : BlockHandle) : Bytes := packWords h.words

def ofWords : List ℕ → BlockHandle
  | [offset, length, checksum] => ⟨offset, length, checksum⟩
  | _ => ⟨0, 0, 0⟩

def refFromBytes (b : Bytes) : BlockHandle := ofWords (readWords [8, 4, 4] b)

/-- The fields fit their words. -/
structure Fits (h : BlockHandle) : Prop where
  offset : h.offset < 256 ^ 8
  length : h.length < 256 ^ 4
  checksum : h.checksum < 256 ^ 4

@[simp] theorem asBytes_length (h : BlockHandle) : h.asBytes.length = blockHandleSize :=
  packWords_length h.words

theorem Fits.words {h : BlockHandle} (hf : h.Fits) : ∀ w ∈ h.words, w.2 < 256 ^ w.1 := by
  intro w hw
  simp only [BlockHandle.words, List.mem_cons, List.not_mem_nil, or_false] at hw
  rcases hw with rfl | rfl | rfl
  · exact hf.offset
  · exact hf.length
  · exact hf.checksum

theorem refFromBytes_asBytes {h : BlockHandle} (hf : h.Fits) (rest : Bytes) :
    refFromBytes (h.asBytes ++ rest) = h :=
  congrArg ofWords (readWords_packWords hf.words rest)

end BlockHandle

/-! ### File header -/

structure FileHeader where
  magic : ℕ
  version : ℕ
  flags : ℕ
  compressionAlg : ℕ
  checksumAlg : ℕ
  reserved : ℕ
  numEntries : ℕ
  numBlocks : ℕ
  minSeqno : ℕ
  maxSeqno : ℕ
  dataBlocksEndOffset : ℕ
  headerCrc32c : ℕ
  reserved2 : ℕ
  deriving Repr, DecidableEq

namespace FileHeader

-- the 56 bytes under the checksum
def signedWords (h : FileHeader) : List (ℕ × ℕ) :=
  [(4, h.magic), (4, h.version), (4, h.flags), (1, h.compressionAlg), (1, h.checksumAlg),
    (2, h.reserved), (8, h.numEntries), (8, h.numBlocks), (8, h.minSeqno), (8, h.maxSeqno),
    (8, h.dataBlocksEndOffset)]

def words (h : FileHeader) : List (ℕ × ℕ) :=
  h.signedWords ++ [(4, h.headerCrc32c), (4, h.reserved2)]

def asBytes (h : FileHeader) : Bytes := packWords h.words

def ofWords : List ℕ → FileHeader
  | [magic, version, flags, compressionAlg, checksumAlg, reserved, numEntries, numBlocks,
      minSeqno, maxSeqno, dataBlocksEndOffset, headerCrc32c, reserved2] =>
    ⟨magic, version, flags, compressionAlg, checksumAlg, reserved, numEntries, numBlocks,
      minSeqno, maxSeqno, dataBlocksEndOffset, headerCrc32c, reserved2⟩
  | _ => ⟨0, 0, 0, 0, 0, 0, 0, 0, 0, 0, 0, 0, 0⟩

def refFromBytes (b : Bytes) : FileHeader :=
  ofWords (readWords [4, 4, 4, 1, 1, 2, 8, 8, 8, 8, 8, 4, 4] b)

def new (flags numEntries numBlocks minSeqno maxSeqno dataBlocksEndOffset : ℕ) : FileHeader :=
  ⟨sstableMagic, formatVersion, flags, compressionNone, checksumCrc32c, 0, numEntries, numBlocks,
    minSeqno, maxSeqno, dataBlocksEndOffset, 0, 0⟩

def sign (h : FileHeader) : FileHeader :=
  { h with headerCrc32c := crc32c (packWords h.signedWords) }

def newSigned (flags numEntries numBlocks minSeqno maxSeqno dataBlocksEndOffset : ℕ) :
    FileHeader :=
  (new flags numEntries numBlocks minSeqno maxSeqno dataBlocksEndOffset).sign

def isValid (h : FileHeader) : Bool :=
  h.magic = sstableMagic ∧ h.version = formatVersion ∧ h.reserved = 0 ∧ h.reserved2 = 0 ∧
    h.headerCrc32c = crc32c (packWords h.signedWords)

@[simp] theorem asBytes_length (h : FileHeader) : h.asBytes.length = fileHeaderSize :=
  packWords_length h.words

theorem refFromBytes_asBytes {h : FileHeader} (hf : ∀ w ∈ h.words, w.2 < 256 ^ w.1)
    (rest : Bytes) : refFromBytes (h.asBytes ++ rest) = h :=
  congrArg ofWords (readWords_packWords hf rest)

end FileHeader

/-! ### Footer -/

structure Footer where
  indexHandle : BlockHandle
  filterHandle : BlockHandle
  metaHandle : BlockHandle
  footerMagic : ℕ
  formatVersion : ℕ
  footerCrc32c : ℕ
  deriving Repr, DecidableEq

namespace Footer

-- the 60 bytes under the checksum
def signedWords (f : Footer) : List (ℕ × ℕ) :=
  f.indexHandle.words ++ f.filterHandle.words ++ f.metaHandle.words ++
    [(8, f.footerMagic), (4, f.formatVersion)]

def words (f : Footer) : List (ℕ × ℕ) := f.signedWords ++ [(4, f.footerCrc32c)]

def asBytes (f : Footer) : Bytes := packWords f.words

def ofWords : List ℕ → Footer
  | [io, il, ic, fo, fl, fc, mo, ml, mc, magic, version, crc] =>
    ⟨⟨io, il, ic⟩, ⟨fo, fl, fc⟩, ⟨mo, ml, mc⟩, magic, version, crc⟩
  | _ => ⟨⟨0, 0, 0⟩, ⟨0, 0, 0⟩, ⟨0, 0, 0⟩, 0, 0, 0⟩

def refFromBytes (b : Bytes) : Footer :=
  ofWords (readWords [8, 4, 4, 8, 4, 4, 8, 4, 4, 8, 4, 4] b)

def new (indexHandle filterHandle metaHandle : BlockHandle) : Footer :=
  ⟨indexHandle, filterHandle, metaHandle, Sstable.footerMagic, Sstable.formatVersion, 0⟩

def sign (f : Footer) : Footer := { f with footerCrc32c := crc32c (packWords f.signedWords) }

def newSigned (indexHandle filterHandle metaHandle : BlockHandle) : Footer :=
  (new indexHandle filterHandle metaHandle).sign

def isValid (f : Footer) : Bool :=
  f.footerMagic = Sstable.footerMagic ∧ f.formatVersion = Sstable.formatVersion ∧
    f.footerCrc32c = crc32c (packWords f.signedWords)

@[simp] theorem asBytes_length (f : Footer) : f.asBytes.length = footerSize :=
  packWords_length f.words

theorem refFromBytes_asBytes {f : Footer} (hf : ∀ w ∈ f.words, w.2 < 256 ^ w.1) (rest : Bytes) :
    refFromBytes (f.asBytes ++ rest) = f :=
  congrArg ofWords (readWords_packWords hf rest)

end Footer

/-! ### Signed headers pass their checks -/

theorem fileHeader_isValid (flags n b lo hi e : ℕ) :
    (FileHeader.newSigned flags n b lo hi e).isValid = true := by
  simp [FileHeader.isValid, FileHeader.newSigned, FileHeader.sign, FileHeader.new,
    FileHeader.signedWords]

theorem footer_isValid (i f m : BlockHandle) : (Footer.newSigned i f m).isValid = true := by
  simp [Footer.isValid, Footer.newSigned, Footer.sign, Footer.new, Footer.signedWords]

theorem footer_refFromBytes {i f m : BlockHandle} (hi : i.Fits) (hf : f.Fits) (hm : m.Fits)
    (rest : Bytes) :
    Footer.refFromBytes ((Footer.newSigned i f m).asBytes ++ rest) = Footer.newSigned i f m := by
  refine Footer.refFromBytes_asBytes ?_ rest
  intro w hw
  simp only [Footer.words, List.mem_append, List.mem_singleton] at hw
  rcases hw with hw | rfl
  · simp only [Footer.newSigned, Footer.sign, Footer.new, Footer.signedWords, List.mem_append,
      List.mem_cons, List.not_mem_nil, or_false] at hw
    rcases hw with ((hw | hw) | hw) | rfl | rfl
    · exact hi.words w hw
    · exact hf.words w hw
    · exact hm.words w hw
    · decide
    · decide
  · exact crc32c_lt _

theorem fileHeader_refFromBytes {flags lo hi n b e : ℕ} (hfl : flags < u32Size)
    (hn : n < u64Size) (hb : b < u64Size) (hlo : lo < u64Size) (hhi : hi < u64Size)
    (he : e < u64Size) (rest : Bytes) :
    FileHeader.refFromBytes ((FileHeader.newSigned flags n b lo hi e).asBytes ++ rest) =
      FileHeader.newSigned flags n b lo hi e := by
  refine FileHeader.refFromBytes_asBytes ?_ rest
  intro w hw
  simp only [FileHeader.words, FileHeader.newSigned, FileHeader.sign, FileHeader.new,
    FileHeader.signedWords, List.mem_append, List.mem_cons, List.not_mem_nil, or_false] at hw
  rcases hw with (rfl | rfl | rfl | rfl | rfl | rfl | rfl | rfl | rfl | rfl | rfl) | rfl | rfl
  · decide
  · decide
  · exact hfl
  · decide
  · decide
  · decide
  · exact hn
  · exact hb
  · exact hlo
  · exact hhi
  · exact he
  · exact crc32c_lt _
  · decide

end PaddockKV.Sstable
