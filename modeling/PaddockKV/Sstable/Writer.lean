import PaddockKV.Crypto.Envelope
import PaddockKV.Filter.BlockedBloom
import PaddockKV.Sstable.Block
import PaddockKV.Sstable.Format

/-!
# The SSTable writer (`sstable/writer.rs`)

Records go into a block until its estimated size reaches the target; a full
block is sealed, written and padded to the alignment. `finish` writes the
filter, the index and the footer and then fills in the file header.
-/

namespace PaddockKV.Sstable

open Io Crypto PaddockKV.Filter

structure SstWriter where
  file : FileName
  dataBuilder : BlockBuilder
  pendingIndex : List (Key × BlockHandle)
  lastKey : Key
  bytesWritten : ℕ
  numEntries : ℕ
  numBlocks : ℕ
  minSeqno : ℕ
  maxSeqno : ℕ
  blockSize : ℕ
  bloom : Option BlockedBloom
  crypto : Option CryptoCtx

namespace SstWriter

def newFilter (expectedKeys : ℕ) (params : BloomParams) : Res (Option BlockedBloom) :=
  if expectedKeys = 0 then .ok none
  else do
    let bloom ← BlockedBloom.new expectedKeys params
    return some bloom

def createInner (file : FileName) (expectedKeys : ℕ) (params : BloomParams)
    (crypto : Option CryptoCtx) : Act World SstWriter := do
  append file (zeros fileHeaderRegionSize)
  let bloom ← Act.lift (newFilter expectedKeys params)
  return ⟨file, .new, [], [], fileHeaderRegionSize, 0, 0, u64Size - 1, 0, defaultBlockSize, bloom,
    crypto⟩

def alignToBlockBoundary (w : SstWriter) : Act World SstWriter := do
  let rem := w.bytesWritten % blockAlignment
  if rem = 0 then return w
  append w.file (zeros (blockAlignment - rem))
  let bytesWritten ← addU64 w.bytesWritten (blockAlignment - rem) overflowMsg
  return { w with bytesWritten := bytesWritten }

-- the checksum of a block is its last four bytes
def trailingCrc (bytes : Bytes) : ℕ := leVal (bytes.drop (bytes.length - 4))

/-- What `write_block` puts on disk, and the checksum of the handle. -/
def onDiskBytes (prims : Primitives) (crypto : Option CryptoCtx) (offset : ℕ) (plaintext : Bytes) :
    Res (Bytes × ℕ) :=
  match crypto with
  | some ctx =>
    match ctx.sealBlock prims offset plaintext with
    | some ct => .ok (ct, 0)
    | none => .error (.err (.corruption "sstable writer" "AEAD seal failed"))
  | none => .ok (plaintext, trailingCrc plaintext)

-- the log notes that a block was sealed
def noteSeal (crypto : Option CryptoCtx) (offset : ℕ) : Act World Unit :=
  match crypto with
  | some ctx => modify (·.call (.sealBlock ctx.sstableId offset))
  | none => return ()

def writeBlock (prims : Primitives) (w : SstWriter) (plaintext : Bytes) :
    Act World (SstWriter × BlockHandle) := do
  let offset := w.bytesWritten
  let (onDisk, checksum) ← Act.lift (onDiskBytes prims w.crypto offset plaintext)
  noteSeal w.crypto offset
  append w.file onDisk
  let bytesWritten ← addU64 w.bytesWritten onDisk.length overflowMsg
  let length ← Act.lift (expectU32 onDisk.length "block length always fits in u32")
  let w ← alignToBlockBoundary { w with bytesWritten := bytesWritten }
  return (w, ⟨offset, length, checksum⟩)

def flushBlock (prims : Primitives) (w : SstWriter) : Act World SstWriter := do
  if w.dataBuilder.buffer = [] then return w
  let (bytes, builder) ← Act.lift w.dataBuilder.finish
  let (w, handle) ← writeBlock prims { w with dataBuilder := builder } bytes
  let numBlocks ← addU64 w.numBlocks 1 overflowMsg
  return { w with
    pendingIndex := w.pendingIndex ++ [(w.lastKey, handle)]
    lastKey := []
    numBlocks := numBlocks }

def setBlockSize (w : SstWriter) (size : ℕ) : SstWriter := { w with blockSize := size }

def orderMsg (lastKey key : Key) : String :=
  "SstWriter::add called out of order: previous key " ++ toString (lastKey.map Fin.val) ++
    ", new key " ++ toString (key.map Fin.val)

def add (prims : Primitives) (w : SstWriter) (r : Rec) : Act World SstWriter := do
  debugAssert (w.lastKey = [] ∨ w.lastKey ≤ r.key) (orderMsg w.lastKey r.key)
  let numEntries ← addU64 w.numEntries 1 overflowMsg
  let w := { w with
    dataBuilder := w.dataBuilder.add r
    bloom := w.bloom.map (·.insert prims.xxh3 r.key)
    lastKey := r.key
    numEntries := numEntries
    minSeqno := min w.minSeqno r.seqno
    maxSeqno := max w.maxSeqno r.seqno }
  if w.blockSize ≤ w.dataBuilder.estimatedSize then flushBlock prims w else return w

def addAll (prims : Primitives) (w : SstWriter) (rs : List Rec) : Act World SstWriter :=
  rs.foldlM (add prims) w

-- index records carry the handle as value, sequence number 0 and `Put`
def indexRec (entry : Key × BlockHandle) : Rec := ⟨entry.1, 0, .put, entry.2.asBytes⟩

def buildIndexBlock (w : SstWriter) : Res Bytes := do
  let (bytes, _) ← ((w.pendingIndex.map indexRec).foldl .add BlockBuilder.new).finish
  return bytes

/-- The filter block, with the writer behind it. -/
def writeFilter (w : SstWriter) : Act World (SstWriter × BlockHandle) :=
  match w.bloom with
  | some bloom => do
    let bytes := bloom.encode
    append w.file bytes
    let bytesWritten ← addU64 w.bytesWritten bytes.length overflowMsg
    let length ← Act.lift (expectU32 bytes.length "filter block fits in u32")
    return ({ w with bytesWritten := bytesWritten }, ⟨w.bytesWritten, length, 0⟩)
  | none => return (w, ⟨w.bytesWritten, 0, 0⟩)

def fileHeader (w : SstWriter) (dataBlocksEndOffset : ℕ) : FileHeader :=
  FileHeader.newSigned
    (if w.crypto.isSome then flag.checksummed + flag.encrypted else flag.checksummed)
    w.numEntries w.numBlocks (if w.minSeqno = u64Size - 1 then 0 else w.minSeqno) w.maxSeqno
    dataBlocksEndOffset

/-- `finish` behind the last data block. -/
def finishSections (w : SstWriter) : Act World Unit := do
  let dataBlocksEndOffset := w.bytesWritten
  let (w, filterHandle) ← writeFilter w
  let metaHandle : BlockHandle := ⟨w.bytesWritten, 0, 0⟩
  let indexBytes ← Act.lift w.buildIndexBlock
  let indexOffset := w.bytesWritten
  append w.file indexBytes
  let bytesWritten ← addU64 w.bytesWritten indexBytes.length overflowMsg
  let indexLength ← Act.lift (expectU32 indexBytes.length "u32 fits")
  let footer := Footer.newSigned ⟨indexOffset, indexLength, trailingCrc indexBytes⟩ filterHandle
    metaHandle
  append w.file footer.asBytes
  let _ ← addU64 bytesWritten footerSize overflowMsg
  writeAt w.file (w.fileHeader dataBlocksEndOffset).asBytes 0

def finish (prims : Primitives) (w : SstWriter) : Act World Unit := do
  let w ← flushBlock prims w
  finishSections w

/-- A new table with the records `rs`. -/
def writeTable (prims : Primitives) (file : FileName) (expectedKeys : ℕ) (params : BloomParams)
    (crypto : Option CryptoCtx) (blockSize : ℕ) (rs : List Rec) : Act World Unit := do
  openWritable file
  let w ← createInner file expectedKeys params crypto
  let w ← addAll prims (w.setBlockSize blockSize) rs
  finish prims w

end SstWriter

end PaddockKV.Sstable
