import PaddockKV.Crypto.Envelope
import PaddockKV.Filter.BlockedBloom
import PaddockKV.Sstable.Block
import PaddockKV.Sstable.Format

/-!
# The SSTable reader (`sstable/reader.rs`)

A reader holds the bytes of its file. A lookup asks the filter, finds a block
in the index and seeks inside that one block.
-/

namespace PaddockKV.Sstable

open Io Crypto PaddockKV.Filter

structure SstReader where
  file : Bytes
  header : FileHeader
  footer : Footer
  indexBytes : Bytes
  bloom : Option BlockedBloom
  crypto : Option CryptoCtx

def decodeBlockHandle (bytes : Bytes) : Res BlockHandle :=
  if bytes.length < blockHandleSize then
    .error (.err (.invalidFormat "sstable index value" "shorter than BlockHandle"))
  else .ok (BlockHandle.refFromBytes (bytes.take blockHandleSize))

namespace SstReader

def readBloom (file : Bytes) (handle : BlockHandle) : Res (Option BlockedBloom) :=
  if handle.length = 0 then .ok none
  else do
    let filterBytes ← readAt file handle.offset handle.length
    let bloom ← BlockedBloom.decode filterBytes
    return some bloom

def checkEncryption (fileIsEncrypted wanted : Bool) : Res Unit :=
  match fileIsEncrypted, wanted with
  | true, false => .error (.err (.invalidFormat "sstable"
      "file is encrypted; open via SstReader::open_encrypted"))
  | false, true => .error (.err (.invalidFormat "sstable"
      "file is not encrypted; open via SstReader::open"))
  | _, _ => .ok ()

def openInner (file : Bytes) (crypto : Option CryptoCtx) : Res SstReader := do
  let size := file.length
  if size < fileHeaderSize + footerSize then
    .error (.err (.invalidFormat "sstable" "file smaller than header + footer"))
  else
    let footerBytes ← readAt file (size - footerSize) footerSize
    let footer := Footer.refFromBytes footerBytes
    if !footer.isValid then
      .error (.err (.corruption "sstable footer" "checksum / magic mismatch"))
    else
      let headerBytes ← readAt file 0 fileHeaderSize
      let header := FileHeader.refFromBytes headerBytes
      if !header.isValid then
        .error (.err (.corruption "sstable file header"
          "magic / version / reserved / checksum mismatch"))
      else
        checkEncryption (header.flags &&& flag.encrypted ≠ 0) crypto.isSome
        let indexBytes ← readAt file footer.indexHandle.offset footer.indexHandle.length
        let bloom ← readBloom file footer.filterHandle
        return ⟨file, header, footer, indexBytes, bloom, crypto⟩

def readDataBlock (prims : Primitives) (r : SstReader) (handle : BlockHandle) : Res Bytes := do
  let onDisk ← readAt r.file handle.offset handle.length
  match r.crypto with
  | some ctx =>
    match ctx.openBlock prims handle.offset onDisk with
    | some plaintext => return plaintext
    | none => .error (.err (.corruption "sstable data block"
        "AEAD authentication failed (corruption or wrong key)"))
  | none => return onDisk

def locateBlock (r : SstReader) (key : Key) : Res (Option BlockHandle) := do
  let reader ← BlockReader.openBlock r.indexBytes
  match reader.seek key with
  | none => return none
  | some entry =>
    let handle ← decodeBlockHandle entry.value
    return some handle

-- `recs` is what `reader.iter()` yields
def nextAfter (recs : List Rec) (sameKey : Key) (seqno : ℕ) : Option Rec :=
  recs.find? fun r => r.key = sameKey ∧ r.seqno < seqno

/-- The loop of `get` that skips versions above the snapshot. -/
def skipNewer (recs : List Rec) (key : Key) (snapshot : ℕ) : ℕ → Option Rec → Option Rec
  | 0, _ => none
  | _, none => none
  | fuel + 1, some r =>
    if r.key ≠ key then none
    else if r.seqno ≤ snapshot then some r
    else skipNewer recs key snapshot fuel (nextAfter recs r.key r.seqno)

/-- `get`; a hit is the record with its key. -/
def get (prims : Primitives) (r : SstReader) (key : Key) (snapshot : ℕ) : Res (Option Rec) :=
  if r.bloom.any fun f => !f.contains prims.xxh3 key then .ok none
  else do
    match ← locateBlock r key with
    | none => return none
    | some handle =>
      let blockBytes ← readDataBlock prims r handle
      let reader ← BlockReader.openBlock blockBytes
      return skipNewer reader.iter key snapshot (reader.iter.length + 1) (reader.seek key)

def decodeIndexHandles (indexBytes : Bytes) : Res (List BlockHandle) := do
  let reader ← BlockReader.openBlock indexBytes
  reader.iter.mapM fun entry => decodeBlockHandle entry.value

def blockRecords (prims : Primitives) (r : SstReader) (handle : BlockHandle) : Res (List Rec) := do
  let blockBytes ← readDataBlock prims r handle
  let reader ← BlockReader.openBlock blockBytes
  return reader.iter

def scan (prims : Primitives) (r : SstReader) : Res (List Rec) := do
  let indexReader ← BlockReader.openBlock r.indexBytes
  let blocks ← indexReader.iter.mapM fun entry => do
    let handle ← decodeBlockHandle entry.value
    blockRecords prims r handle
  return blocks.flatten

/-- `scan_stream` with the items `SstStream` yields: a block that cannot be read
is one error, and the stream goes on with the next block. -/
def scanStream (prims : Primitives) (r : SstReader) : Res (List (Res Rec)) := do
  let handles ← decodeIndexHandles r.indexBytes
  return handles.flatMap fun handle =>
    match blockRecords prims r handle with
    | .ok rs => rs.map .ok
    | .error e => [.error e]

end SstReader

end PaddockKV.Sstable
