import PaddockKV.Wal.Batch
import PaddockKV.Wal.Writer

/-!
# The WAL segment reader (`wal/reader.rs`)

`nextRecord` is the loop of the source, with fuel that the length of the file
makes sufficient. A segment that holds whole records and then a part of one
more is read back: every whole record comes out, and the rest is taken for the
end of the segment or a torn tail.
-/

namespace PaddockKV.Wal

open Io

structure RecordView where
  seqno : ℕ
  payload : Bytes
  deriving Repr, DecidableEq

inductive ReadOutcome where
  | record (view : RecordView)
  | endOfSegment
  | tornTail (truncateTo : ℕ) (reason : String)
  deriving Repr, DecidableEq

inductive ReplayOutcome where
  | clean
  | tornTail (truncateTo : ℕ) (reason : String)
  deriving Repr, DecidableEq

structure Fragment where
  recordType : RecordType
  seqno : ℕ
  payload : Bytes

inductive FragmentStep where
  | got (frag : Fragment)
  | skipBlock (cursor : ℕ)
  | tornTail (reason : String)

inductive AssemblyStep where
  | more (state : RecordView)
  | complete (view : RecordView)

structure SegmentReader where
  file : Bytes
  cursor : ℕ

def assemble (state : Option RecordView) (frag : Fragment) : Res AssemblyStep :=
  match frag.recordType, state with
  | .full, none => .ok (.complete ⟨frag.seqno, frag.payload⟩)
  | .full, some _ =>
    .error (.err (.corruption "wal segment" "FULL fragment encountered mid-record assembly"))
  | .first, none => .ok (.more ⟨frag.seqno, frag.payload⟩)
  | .first, some _ =>
    .error (.err (.corruption "wal segment" "FIRST fragment encountered mid-record assembly"))
  | .middle, none =>
    .error (.err (.corruption "wal segment"
      (RecordType.middle.name ++ " fragment encountered without a preceding FIRST")))
  | .last, none =>
    .error (.err (.corruption "wal segment"
      (RecordType.last.name ++ " fragment encountered without a preceding FIRST")))
  | .middle, some view =>
    if view.seqno ≠ frag.seqno then
      .error (.err (.corruption "wal segment" ("MIDDLE fragment seqno " ++ toString frag.seqno ++
        " does not match in-progress " ++ toString view.seqno)))
    else .ok (.more ⟨view.seqno, view.payload ++ frag.payload⟩)
  | .last, some view =>
    if view.seqno ≠ frag.seqno then
      .error (.err (.corruption "wal segment" ("LAST fragment seqno " ++ toString frag.seqno ++
        " does not match in-progress " ++ toString view.seqno)))
    else .ok (.complete ⟨view.seqno, view.payload ++ frag.payload⟩)

namespace SegmentReader

def openFile (file : Bytes) : Res SegmentReader := do
  if file.length < segmentHeaderSize then
    .error (.err (.invalidFormat "wal segment" ("file too short: " ++ toString file.length ++
      " bytes (need at least " ++ toString segmentHeaderSize ++ ")")))
  else
    let buf ← readAt file 0 segmentHeaderSize
    let header := SegmentHeader.refFromBytes buf
    if header.magic ≠ segmentMagic then
      .error (.err (.invalidFormat "wal segment header" "bad magic"))
    else if header.version ≠ formatVersion then
      .error (.err (.invalidFormat "wal segment header" ("unsupported version " ++
        toString header.version ++ " (this build understands " ++ toString formatVersion ++ ")")))
    else if !header.isValid then
      .error (.err (.corruption "wal segment header" "checksum mismatch"))
    else .ok ⟨file, 0⟩

-- the cursor counts from the end of the segment header
def areaEnd (file : Bytes) : ℕ := file.length - segmentHeaderSize

def skipBlockPaddingIfNeeded (file : Bytes) (cursor : ℕ) : ℕ :=
  let blockRemaining := blockSize - cursor % blockSize
  if blockRemaining < recordHeaderSize ∧ cursor + blockRemaining ≤ areaEnd file then
    cursor + blockRemaining
  else cursor

def handleTail (file : Bytes) (assembled : Option RecordView) (recordStart cursor : ℕ) :
    Res ReadOutcome :=
  match assembled with
  | some _ => .ok (.tornTail recordStart "segment ended mid-fragment")
  | none => do
    let bytesRemaining := areaEnd file - cursor
    if bytesRemaining = 0 then return .endOfSegment
    let tail ← readAt file (segmentHeaderSize + cursor) bytesRemaining
    if tail.all (· = 0) then return .endOfSegment
    return .tornTail recordStart "stray bytes shorter than a record header at segment tail"

def readFragment (file : Bytes) (cursor : ℕ) : Res FragmentStep := do
  let fileOffset := segmentHeaderSize + cursor
  let headerBytes ← readAt file fileOffset recordHeaderSize
  if headerBytes.all (· = 0) then
    return .skipBlock ((cursor / blockSize + 1) * blockSize)
  let header := RecordHeader.refFromBytes headerBytes
  let payloadLen := header.length
  if maxFragmentPayload < payloadLen then
    return .tornTail "fragment length exceeds block size"
  let payloadOffset := fileOffset + recordHeaderSize
  if file.length < payloadOffset + payloadLen then
    return .tornTail "fragment payload truncated by segment EOF"
  let payload ← readAt file payloadOffset payloadLen
  if header.expectedCrc payload ≠ header.payloadCrc32c then
    return .tornTail "fragment crc32c mismatch"
  match RecordType.fromByte header.recordType with
  | some t => return .got ⟨t, header.seqno, payload⟩
  | none => .error (.err (.invalidFormat "wal record header"
      ("invalid record_type byte " ++ hexByte header.recordType)))

/-- The loop of `next_record`, with the cursor it leaves. -/
def nextLoop (file : Bytes) (recordStart : ℕ) :
    ℕ → Option RecordView → ℕ → Res (ReadOutcome × ℕ)
  | 0, _, _ => .error (.panicked "next_record: loop did not end")
  | fuel + 1, assembled, cursor =>
    let cursor := skipBlockPaddingIfNeeded file cursor
    if areaEnd file < cursor + recordHeaderSize then do
      let out ← handleTail file assembled recordStart cursor
      return (out, cursor)
    else do
      match ← readFragment file cursor with
      | .skipBlock cursor => nextLoop file recordStart fuel assembled cursor
      | .tornTail reason => return (.tornTail recordStart reason, cursor)
      | .got frag =>
        let cursor := cursor + recordHeaderSize + frag.payload.length
        match ← assemble assembled frag with
        | .more state => nextLoop file recordStart fuel (some state) cursor
        | .complete view => return (.record view, cursor)

def nextRecord (r : SegmentReader) : Res (ReadOutcome × SegmentReader) := do
  let (out, cursor) ← nextLoop r.file r.cursor (r.file.length + 2) none r.cursor
  return (out, { r with cursor := cursor })

/-- The loop of `replay`. -/
def replayLoop {σ : Type} (onRecord : RecordView → Act σ Unit) :
    ℕ → SegmentReader → Act σ ReplayOutcome
  | 0, _ => Act.panic "replay: loop did not end"
  | fuel + 1, r => do
    let (out, r) ← Act.lift r.nextRecord
    match out with
    | .record view => do
      onRecord view
      replayLoop onRecord fuel r
    | .endOfSegment => return .clean
    | .tornTail truncateTo reason => return .tornTail truncateTo reason

def replay {σ : Type} (r : SegmentReader) (onRecord : RecordView → Act σ Unit) :
    Act σ ReplayOutcome := replayLoop onRecord (r.file.length + 1) r

end SegmentReader

end PaddockKV.Wal
