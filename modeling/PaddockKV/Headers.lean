import PaddockKV.Sstable.Format
import PaddockKV.Wal.Format

/-!
# Headers and footers detect a flipped bit

A segment header, a file header and a footer are signed regions: the checksum
covers a first part, stands right behind it, and what follows must be zero. A
header whose bytes pass `is_valid` is such a region, so no two of them differ in
one bit.
-/

namespace PaddockKV

open Checksum

/-! ### Words read from bytes -/

theorem packWords_readWords {widths : List ℕ} {b : Bytes} (h : widths.sum ≤ b.length) :
    packWords (widths.zip (readWords widths b)) = b.take widths.sum := by
  induction widths generalizing b with
  | nil => rfl
  | cons w widths ih =>
    rw [List.sum_cons] at h
    have hword : leBytes w (leVal (b.take w)) = b.take w := by
      have hlen : (b.take w).length = w := List.length_take_of_le (by omega)
      nth_rewrite 1 [← hlen]
      exact leBytes_leVal _
    have hrest : widths.sum ≤ (b.drop w).length := by
      rw [List.length_drop]
      omega
    show leBytes w (leVal (b.take w)) ++ packWords (widths.zip (readWords widths (b.drop w))) = _
    rw [hword, ih hrest, List.sum_cons, List.take_add]

theorem leVal_eq_zero {b : Bytes} (h : leVal b = 0) : ∀ x ∈ b, x = 0 := by
  induction b with
  | nil => simp
  | cons y b ih =>
    rw [leVal] at h
    intro x hx
    rcases List.mem_cons.mp hx with rfl | hx
    · exact Fin.ext (by simp; omega)
    · exact ih (by omega) x hx

theorem sealed_of_signed {n : ℕ} {signed : Bytes} (hlen : signed.length = n) (pad : ℕ) :
    Sealed n (signed ++ (leBytes 4 (crc32c signed) ++ zeros pad)) := by
  have hdrop : (signed ++ (leBytes 4 (crc32c signed) ++ zeros pad)).drop n =
      leBytes 4 (crc32c signed) ++ zeros pad := List.drop_left' hlen
  constructor
  · rw [hdrop, List.take_left' hlen, List.take_left' (leBytes_length _ _), leVal_u32 (crc32c_lt _)]
  · rw [← List.drop_drop, hdrop, List.drop_left' (leBytes_length _ _)]
    intro x hx
    exact (List.mem_replicate.mp hx).2

theorem flip_rejected {n size i : ℕ} {b : Bytes} {v : Bytes → Bool} (hb : Sealed n b)
    (hlen : b.length = size) (hvalid : ∀ c, c.length = size → v c = true → Sealed n c)
    (hi : i < 8 * size) : v (flipBit b i) = false := by
  rw [Bool.eq_false_iff]
  intro h
  refine not_sealed_flipBit hb ?_ (hvalid _ ((flipBit_length b i).trans hlen) h)
  rw [hlen]
  omega

end PaddockKV

namespace PaddockKV.Wal

open Checksum

theorem newSigned_sealed (segmentId firstSeqno : ℕ) :
    Sealed 24 (SegmentHeader.newSigned segmentId firstSeqno).asBytes := by
  have hlen : (SegmentHeader.new segmentId firstSeqno).signedBytes.length = 24 := by
    simp [SegmentHeader.signedBytes]
  have hpad : leBytes 4 0 = zeros 4 := rfl
  have h := sealed_of_signed hlen 4
  rw [← List.append_assoc, ← hpad] at h
  exact h

theorem segmentHeader_sealed {b : Bytes} (hlen : b.length = segmentHeaderSize)
    (h : (SegmentHeader.refFromBytes b).isValid = true) : Sealed 24 b := by
  unfold segmentHeaderSize at hlen
  simp only [SegmentHeader.isValid, decide_eq_true_eq] at h
  obtain ⟨-, -, hreserved, hcrc⟩ := h
  have hsigned : (SegmentHeader.refFromBytes b).signedBytes = b.take 24 := by
    have hpack : packWords _ = b.take 24 :=
      @packWords_readWords [4, 4, 8, 8] b (by simp only [List.sum_cons, List.sum_nil]; omega)
    rw [← hpack]
    simp [SegmentHeader.signedBytes, SegmentHeader.refFromBytes, packWords, readWords]
  rw [hsigned] at hcrc
  refine ⟨hcrc, leVal_eq_zero ?_⟩
  have htail : (b.drop 28).take 4 = b.drop 28 := List.take_of_length_le (by simp; omega)
  rw [← htail]
  exact hreserved

end PaddockKV.Wal

namespace PaddockKV.Sstable

open Checksum

/-- `CompressionAlg`, and its tag. -/
inductive CompressionAlg where
  | none
  | lz4
  | zstd
  deriving Repr, DecidableEq

def CompressionAlg.toByte : CompressionAlg → ℕ
  | none => 0
  | lz4 => 1
  | zstd => 2

/-- `checksum::Algorithm`, and its tag. -/
inductive Algorithm where
  | crc32c
  | xxh3
  deriving Repr, DecidableEq

def Algorithm.tag : Algorithm → ℕ
  | crc32c => 0
  | xxh3 => 1

/-- `FileHeader::new_signed` with all its arguments; the writer passes no
compression and CRC32C. -/
def FileHeader.newSignedWith (flags : ℕ) (compression : CompressionAlg) (checksum : Algorithm)
    (numEntries numBlocks minSeqno maxSeqno dataBlocksEndOffset : ℕ) : FileHeader :=
  { FileHeader.new flags numEntries numBlocks minSeqno maxSeqno dataBlocksEndOffset with
    compressionAlg := compression.toByte
    checksumAlg := checksum.tag }.sign

theorem sign_sealed {h : FileHeader} (hpad : h.reserved2 = 0) : Checksum.Sealed 56 h.sign.asBytes := by
  have hbytes : h.sign.asBytes = packWords h.signedWords ++
      (leBytes 4 (crc32c (packWords h.signedWords)) ++ zeros 4) := by
    show packWords (h.signedWords ++ [(4, _), (4, h.reserved2)]) = _
    rw [packWords_append, hpad]
    rfl
  have hlen : (packWords h.signedWords).length = 56 := packWords_length h.signedWords
  rw [hbytes]
  exact sealed_of_signed hlen 4

theorem fileHeader_sealed {b : Bytes} (hlen : b.length = fileHeaderSize)
    (h : (FileHeader.refFromBytes b).isValid = true) : Checksum.Sealed 56 b := by
  unfold fileHeaderSize at hlen
  simp only [FileHeader.isValid, decide_eq_true_eq] at h
  obtain ⟨-, -, -, hreserved, hcrc⟩ := h
  have hsigned : packWords (FileHeader.refFromBytes b).signedWords = b.take 56 :=
    @packWords_readWords [4, 4, 4, 1, 1, 2, 8, 8, 8, 8, 8] b
      (by simp only [List.sum_cons, List.sum_nil]; omega)
  rw [hsigned] at hcrc
  simp only [FileHeader.refFromBytes, readWords, FileHeader.ofWords, List.drop_drop,
    Nat.reduceAdd] at hreserved hcrc
  refine ⟨hcrc, leVal_eq_zero ?_⟩
  have htail : (b.drop 60).take 4 = b.drop 60 := List.take_of_length_le (by simp; omega)
  rw [← htail]
  exact hreserved

theorem footer_sign_sealed (f : Footer) : Checksum.Sealed 60 f.sign.asBytes := by
  have hbytes : f.sign.asBytes = packWords f.signedWords ++
      (leBytes 4 (crc32c (packWords f.signedWords)) ++ zeros 0) := by
    show packWords (f.signedWords ++ [(4, _)]) = _
    rw [packWords_append]
    rfl
  have hlen : (packWords f.signedWords).length = 60 := packWords_length f.signedWords
  rw [hbytes]
  exact sealed_of_signed hlen 0

theorem footer_sealed {b : Bytes} (hlen : b.length = footerSize)
    (h : (Footer.refFromBytes b).isValid = true) : Checksum.Sealed 60 b := by
  unfold footerSize at hlen
  simp only [Footer.isValid, decide_eq_true_eq] at h
  obtain ⟨-, -, hcrc⟩ := h
  have hsigned : packWords (Footer.refFromBytes b).signedWords = b.take 60 :=
    @packWords_readWords [8, 4, 4, 8, 4, 4, 8, 4, 4, 8, 4] b
      (by simp only [List.sum_cons, List.sum_nil]; omega)
  rw [hsigned] at hcrc
  simp only [Footer.refFromBytes, readWords, Footer.ofWords, List.drop_drop,
    Nat.reduceAdd] at hcrc
  refine ⟨hcrc, ?_⟩
  rw [List.drop_eq_nil_of_le (by omega)]
  simp

end PaddockKV.Sstable

namespace PaddockKV

open Checksum Wal Sstable

/-- One flipped bit anywhere in a signed segment header, file header or footer
is seen by its `is_valid`. -/
theorem flipped_header_invalid :
    (∀ segmentId firstSeqno, ∀ i < 8 * segmentHeaderSize,
      (SegmentHeader.refFromBytes
        (flipBit (SegmentHeader.newSigned segmentId firstSeqno).asBytes i)).isValid = false) ∧
    (∀ flags compression checksum numEntries numBlocks minSeqno maxSeqno dataBlocksEndOffset,
      ∀ i < 8 * fileHeaderSize,
        (FileHeader.refFromBytes (flipBit (FileHeader.newSignedWith flags compression checksum
          numEntries numBlocks minSeqno maxSeqno dataBlocksEndOffset).asBytes i)).isValid =
            false) ∧
    ∀ indexHandle filterHandle metaHandle, ∀ i < 8 * footerSize,
      (Footer.refFromBytes
        (flipBit (Footer.newSigned indexHandle filterHandle metaHandle).asBytes i)).isValid =
          false := by
  refine ⟨?_, ?_, ?_⟩
  · intro segmentId firstSeqno i hi
    exact flip_rejected (newSigned_sealed segmentId firstSeqno) (segmentHeader_length _)
      (v := fun c => (SegmentHeader.refFromBytes c).isValid)
      (fun c => segmentHeader_sealed) hi
  · intro flags compression checksum n b lo hi' e i hi
    exact flip_rejected (sign_sealed rfl) (FileHeader.asBytes_length _)
      (v := fun c => (FileHeader.refFromBytes c).isValid) (fun c => fileHeader_sealed) hi
  · intro indexHandle filterHandle metaHandle i hi
    exact flip_rejected (footer_sign_sealed _) (Footer.asBytes_length _)
      (v := fun c => (Footer.refFromBytes c).isValid) (fun c => footer_sealed) hi

end PaddockKV
