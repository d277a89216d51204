import PaddockKV.Checksum

/-!
# On-disk layout of a WAL segment (`wal/format.rs`)

A segment is a 32-byte header and then blocks of 32 KiB. A record is one
fragment, or several that each end their block; every fragment carries a
16-byte header. All words are little-endian.
-/

namespace PaddockKV.Wal

open Checksum

def blockSize : ℕ := 32768
def segmentHeaderSize : ℕ := 32
def recordHeaderSize : ℕ := 16
def maxFragmentPayload : ℕ := blockSize - recordHeaderSize
def segmentMagic : ℕ := 0x4C574B50
def formatVersion : ℕ := 1

/-! ### Segment header -/

structure SegmentHeader where
  magic : ℕ
  version : ℕ
  segmentId : ℕ
  firstSeqno : ℕ
  headerCrc32c : ℕ
  reserved : ℕ
  deriving Repr, DecidableEq

namespace SegmentHeader

-- the 24 bytes under the checksum
def signedBytes (h : SegmentHeader) : Bytes :=
  leBytes 4 h.magic ++ leBytes 4 h.version ++ leBytes 8 h.segmentId ++ leBytes 8 h.firstSeqno

def asBytes (h : SegmentHeader) : Bytes :=
  h.signedBytes ++ leBytes 4 h.headerCrc32c ++ leBytes 4 h.reserved

def refFromBytes (b : Bytes) : SegmentHeader where
  magic := leVal (b.take 4)
  version := leVal ((b.drop 4).take 4)
  segmentId := leVal ((b.drop 8).take 8)
  firstSeqno := leVal ((b.drop 16).take 8)
  headerCrc32c := leVal ((b.drop 24).take 4)
  reserved := leVal ((b.drop 28).take 4)

def new (segmentId firstSeqno : ℕ) : SegmentHeader :=
  ⟨segmentMagic, formatVersion, segmentId, firstSeqno, 0, 0⟩

def newSigned (segmentId firstSeqno : ℕ) : SegmentHeader :=
  let h := new segmentId firstSeqno
  { h with headerCrc32c := crc32c h.signedBytes }

def isValid (h : SegmentHeader) : Bool :=
  h.magic = segmentMagic ∧ h.version = formatVersion ∧ h.reserved = 0 ∧
    h.headerCrc32c = crc32c h.signedBytes

end SegmentHeader

/-! ### Record header -/

inductive RecordType where
  | full
  | first
  | middle
  | last
  deriving Repr, DecidableEq

def RecordType.asByte : RecordType → Byte
  | full => 1
  | first => 2
  | middle => 3
  | last => 4

def RecordType.fromByte (b : Byte) : Option RecordType :=
  if b = 1 then some full
  else if b = 2 then some first
  else if b = 3 then some middle
  else if b = 4 then some last
  else none

-- the name `{record_type:?}` prints
def RecordType.name : RecordType → String
  | full => "Full"
  | first => "First"
  | middle => "Middle"
  | last => "Last"

structure RecordHeader where
  payloadCrc32c : ℕ
  length : ℕ
  recordType : Byte
  reserved : Byte
  seqno : ℕ
  deriving Repr, DecidableEq

namespace RecordHeader

def asBytes (h : RecordHeader) : Bytes :=
  leBytes 4 h.payloadCrc32c ++ leBytes 2 h.length ++ [h.recordType, h.reserved] ++ leBytes 8 h.seqno

def refFromBytes (b : Bytes) : RecordHeader where
  payloadCrc32c := leVal (b.take 4)
  length := leVal ((b.drop 4).take 2)
  recordType := (b.drop 6).headD 0
  reserved := (b.drop 7).headD 0
  seqno := leVal ((b.drop 8).take 8)

def new (recordType : RecordType) (seqno payloadLen : ℕ) : RecordHeader :=
  ⟨0, payloadLen, recordType.asByte, 0, seqno⟩

-- the digest over type, reserved byte, sequence number and payload
def expectedCrc (h : RecordHeader) (payload : Bytes) : ℕ :=
  let c := crc32cAppend 0 [h.recordType, h.reserved]
  let c := crc32cAppend c (leBytes 8 h.seqno)
  (crc32cAppend c payload).toNat

def sign (h : RecordHeader) (payload : Bytes) : RecordHeader :=
  { h with payloadCrc32c := h.expectedCrc payload }

end RecordHeader

/-! ### Round trips -/

theorem asBytes_length (h : RecordHeader) : h.asBytes.length = recordHeaderSize := by
  simp [RecordHeader.asBytes, recordHeaderSize]

theorem segmentHeader_length (h : SegmentHeader) : h.asBytes.length = segmentHeaderSize := by
  simp [SegmentHeader.asBytes, SegmentHeader.signedBytes, segmentHeaderSize]

theorem fromByte_asByte (t : RecordType) : RecordType.fromByte t.asByte = some t := by
  cases t <;> rfl

theorem asByte_ne_zero (t : RecordType) : t.asByte ≠ 0 := by
  cases t <;> decide

theorem expectedCrc_lt (h : RecordHeader) (payload : Bytes) : h.expectedCrc payload < u32Size :=
  UInt32.toNat_lt _

theorem refFromBytes_asBytes {h : RecordHeader} (hc : h.payloadCrc32c < u32Size)
    (hl : h.length < 65536) (hs : h.seqno < u64Size) :
    RecordHeader.refFromBytes h.asBytes = h := by
  have h2 : leVal (leBytes 2 h.length) = h.length := leVal_leBytes_of_lt (by simpa using hl)
  obtain ⟨crc, len, t, r, q⟩ := h
  simp [RecordHeader.refFromBytes, RecordHeader.asBytes, List.drop_append, List.take_of_length_le,
    List.drop_of_length_le, leVal_u32 hc, h2, leVal_u64 hs]

theorem newSigned_refFromBytes {segmentId firstSeqno : ℕ} (hi : segmentId < u64Size)
    (hs : firstSeqno < u64Size) :
    SegmentHeader.refFromBytes (SegmentHeader.newSigned segmentId firstSeqno).asBytes =
      SegmentHeader.newSigned segmentId firstSeqno := by
  have hcrc := crc32c_lt (SegmentHeader.new segmentId firstSeqno).signedBytes
  have hm : leVal (leBytes 4 segmentMagic) = segmentMagic := leVal_u32 (by decide)
  have hv : leVal (leBytes 4 formatVersion) = formatVersion := leVal_u32 (by decide)
  have hz : leVal (leBytes 4 0) = 0 := leVal_u32 (by decide)
  simp only [SegmentHeader.newSigned] at hcrc ⊢
  generalize crc32c (SegmentHeader.new segmentId firstSeqno).signedBytes = crc at hcrc ⊢
  simp [SegmentHeader.refFromBytes, SegmentHeader.asBytes, SegmentHeader.signedBytes,
    SegmentHeader.new, List.drop_append, List.take_of_length_le,
    List.drop_of_length_le, leVal_u32 hcrc, leVal_u64 hi, leVal_u64 hs, hm, hv, hz]

theorem newSigned_isValid (segmentId firstSeqno : ℕ) :
    (SegmentHeader.newSigned segmentId firstSeqno).isValid = true := by
  simp [SegmentHeader.isValid, SegmentHeader.newSigned, SegmentHeader.new,
    SegmentHeader.signedBytes]

theorem asBytes_ne_zeros (h : RecordHeader) (ht : h.recordType ≠ 0) :
    ¬ ∀ b ∈ h.asBytes, b = 0 := by
  intro hz
  exact ht (hz h.recordType (by simp [RecordHeader.asBytes]))

end PaddockKV.Wal
