import PaddockKV.Wal.Repair

/-!
# One flipped bit in a record

The checksum of a record covers its type, its sequence number and its payload,
but not the length field, which decides how much payload is checked. A flip in
the covered part is always seen. A flip that makes the length smaller is seen
unless the shorter payload has the checksum of the whole one.
-/

namespace PaddockKV.Wal

open Io Checksum SegmentReader

/-- The records a replay of `file` hands out. -/
def deliveredBy (file : Bytes) : List RecordView :=
  match replayFile file deliver [] with
  | .ok _ vs => vs
  | .error _ vs => vs

/-! ### The first record of a block -/

/-- The length field of the record header at the start of `area`. -/
def lengthField (area : Bytes) : ℕ := leVal ((area.drop 4).take 2)

/-- `read_fragment` takes the bytes at the start of `area` for a fragment. -/
structure Accepts (area : Bytes) : Prop where
  nonzero : (area.take recordHeaderSize).all (· = 0) = false
  small : lengthField area ≤ maxFragmentPayload
  inside : recordHeaderSize + lengthField area ≤ area.length
  crc : crc32c ((area.drop 6).take (10 + lengthField area)) = leVal (area.take 4)

section FirstRecord

variable (header : SegmentHeader) {area : Bytes}

theorem readAt_area {c len : ℕ} (h : c + len ≤ area.length) :
    readAt (header.asBytes ++ area) (segmentHeaderSize + c) len = .ok ((area.drop c).take len) := by
  have hlen := segmentHeader_length header
  unfold readAt
  rw [if_neg (by rw [List.length_append, hlen]; omega), ← List.drop_drop, List.drop_left' hlen]

theorem areaEnd_append : areaEnd (header.asBytes ++ area) = area.length := by
  rw [areaEnd, List.length_append, segmentHeader_length, Nat.add_sub_cancel_left]

theorem expectedCrc_refFromBytes {b : Bytes} (hb : b.length = recordHeaderSize) (payload : Bytes) :
    (RecordHeader.refFromBytes b).expectedCrc payload = crc32c (b.drop 6 ++ payload) := by
  unfold recordHeaderSize at hb
  have hseqno : leBytes 8 (leVal ((b.drop 8).take 8)) = b.drop 8 := by
    have hlen : (b.drop 8).length = 8 := by rw [List.length_drop]; omega
    rw [List.take_of_length_le hlen.le]
    nth_rewrite 1 [← hlen]
    exact leBytes_leVal _
  have hhead : b.drop 6 = [(b.drop 6).headD 0, (b.drop 7).headD 0] ++ b.drop 8 := by
    rw [List.drop_eq_getElem_cons (by omega), List.drop_eq_getElem_cons (i := 7) (by omega)]
    rfl
  simp only [RecordHeader.expectedCrc, RecordHeader.refFromBytes, hseqno, crc32cAppend_append]
  rw [hhead]
  rfl

theorem refFromBytes_take_length (area : Bytes) :
    (RecordHeader.refFromBytes (area.take recordHeaderSize)).length = lengthField area := by
  simp only [RecordHeader.refFromBytes, lengthField, List.drop_take, List.take_take]
  rfl

theorem refFromBytes_take_crc (area : Bytes) :
    (RecordHeader.refFromBytes (area.take recordHeaderSize)).payloadCrc32c = leVal (area.take 4) := by
  simp only [RecordHeader.refFromBytes, List.take_take]
  rfl

/-- The payload of the record at the start of `area`. -/
def payloadField (area : Bytes) : Bytes := (area.drop recordHeaderSize).take (lengthField area)

theorem expectedCrc_area (hlong : recordHeaderSize ≤ area.length) :
    (RecordHeader.refFromBytes (area.take recordHeaderSize)).expectedCrc (payloadField area) =
      crc32c ((area.drop 6).take (10 + lengthField area)) := by
  rw [expectedCrc_refFromBytes (List.length_take_of_le hlong), payloadField, List.drop_take,
    List.take_add, List.drop_drop]
  rfl

theorem readFragment_rejects (hlong : recordHeaderSize ≤ area.length) (h : ¬ Accepts area) :
    readFragment (header.asBytes ++ area) 0 = .ok (.skipBlock blockSize) ∨
      ∃ reason, readFragment (header.asBytes ++ area) 0 = .ok (.tornTail reason) := by
  have hread : readAt (header.asBytes ++ area) (segmentHeaderSize + 0) recordHeaderSize =
      .ok (area.take recordHeaderSize) := by
    rw [readAt_area header (by omega), List.drop_zero]
  have hfile : (header.asBytes ++ area).length = segmentHeaderSize + area.length := by
    rw [List.length_append, segmentHeader_length]
  unfold readFragment
  dsimp only
  rw [hread, res_ok_bind]
  cases hzero : (area.take recordHeaderSize).all (· = 0) with
  | true => exact .inl rfl
  | false =>
    right
    rw [if_neg Bool.false_ne_true, refFromBytes_take_length, hfile]
    by_cases hmax : maxFragmentPayload < lengthField area
    · exact ⟨_, if_pos hmax⟩
    rw [if_neg hmax]
    by_cases hshort :
        segmentHeaderSize + area.length < segmentHeaderSize + 0 + recordHeaderSize + lengthField area
    · exact ⟨_, if_pos hshort⟩
    rw [if_neg hshort]
    have hpayload : readAt (header.asBytes ++ area) (segmentHeaderSize + 0 + recordHeaderSize)
        (lengthField area) = .ok (payloadField area) := by
      rw [Nat.add_zero, readAt_area header (by omega)]
      rfl
    rw [hpayload, res_ok_bind, expectedCrc_area hlong, refFromBytes_take_crc]
    refine ⟨_, if_pos ?_⟩
    intro hcrc
    exact h ⟨hzero, not_lt.mp hmax, by omega, hcrc⟩

theorem readFragment_accepts (hlong : recordHeaderSize ≤ area.length) (h : Accepts area)
    (htype : (area.drop 6).headD 0 = RecordType.full.asByte) :
    readFragment (header.asBytes ++ area) 0 =
      .ok (.got ⟨.full, leVal ((area.drop 8).take 8), payloadField area⟩) := by
  have hread : readAt (header.asBytes ++ area) (segmentHeaderSize + 0) recordHeaderSize =
      .ok (area.take recordHeaderSize) := by
    rw [readAt_area header (by omega), List.drop_zero]
  have hfile : (header.asBytes ++ area).length = segmentHeaderSize + area.length := by
    rw [List.length_append, segmentHeader_length]
  have hinside := h.inside
  have hpayload : readAt (header.asBytes ++ area) (segmentHeaderSize + 0 + recordHeaderSize)
      (lengthField area) = .ok (payloadField area) := by
    rw [Nat.add_zero, readAt_area header (by omega)]
    rfl
  have hcrc : ¬ (RecordHeader.refFromBytes (area.take recordHeaderSize)).expectedCrc
      (payloadField area) ≠
        (RecordHeader.refFromBytes (area.take recordHeaderSize)).payloadCrc32c := by
    rw [expectedCrc_area hlong, refFromBytes_take_crc, not_not]
    exact h.crc
  have htype' : RecordType.fromByte
      (RecordHeader.refFromBytes (area.take recordHeaderSize)).recordType = some .full := by
    have hbyte : (RecordHeader.refFromBytes (area.take recordHeaderSize)).recordType =
        (area.drop 6).headD 0 := by
      show ((area.take 16).drop 6).headD 0 = _
      rw [List.drop_take]
      cases area.drop 6 <;> rfl
    rw [hbyte, htype, fromByte_asByte]
  have hseqno : (RecordHeader.refFromBytes (area.take recordHeaderSize)).seqno =
      leVal ((area.drop 8).take 8) := by
    show leVal (((area.take 16).drop 8).take 8) = _
    rw [List.drop_take, List.take_take]
    rfl
  unfold readFragment
  dsimp only
  rw [hread, res_ok_bind, h.nonzero, if_neg Bool.false_ne_true, refFromBytes_take_length, hfile,
    if_neg (not_lt.mpr h.small), if_neg (by omega), hpayload, res_ok_bind, if_neg hcrc, htype',
    hseqno]
  rfl

theorem nextRecord_rejects (hlong : recordHeaderSize ≤ area.length)
    (hblock : area.length ≤ blockSize) (h : ¬ Accepts area) :
    ∃ out r, nextRecord ⟨header.asBytes ++ area, 0⟩ = .ok (out, r) ∧ Stops out := by
  have hskip : skipBlockPaddingIfNeeded (header.asBytes ++ area) 0 = 0 := skip_of_room _ (by decide)
  have hroom : ¬ areaEnd (header.asBytes ++ area) < 0 + recordHeaderSize := by
    rw [areaEnd_append]
    omega
  suffices hloop : ∃ out c, nextLoop (header.asBytes ++ area) 0
      ((header.asBytes ++ area).length + 2) none 0 = .ok (out, c) ∧ Stops out by
    obtain ⟨out, c, hout, hstops⟩ := hloop
    exact ⟨out, _, nextRecord_of_loop hout, hstops⟩
  rw [nextLoop]
  simp only [hskip, if_neg hroom]
  rcases readFragment_rejects header hlong h with hzero | ⟨reason, htorn⟩
  · -- the rest of the block is taken for padding, and there is no other block
    have hskip' : skipBlockPaddingIfNeeded (header.asBytes ++ area) blockSize = blockSize :=
      skip_of_room _ (by decide)
    have hend : areaEnd (header.asBytes ++ area) < blockSize + recordHeaderSize := by
      rw [areaEnd_append]
      exact Nat.lt_add_right_iff_pos.mpr (by decide) |>.trans_le' hblock
    have hnone : areaEnd (header.asBytes ++ area) - blockSize = 0 := by
      rw [areaEnd_append]
      omega
    rw [hzero, res_ok_bind]
    dsimp only
    rw [nextLoop]
    simp only [hskip', if_pos hend, handleTail, hnone, if_true]
    exact ⟨_, _, rfl, trivial⟩
  · rw [htorn]
    exact ⟨_, _, rfl, trivial⟩

theorem nextRecord_accepts (hlong : recordHeaderSize ≤ area.length) (h : Accepts area)
    (htype : (area.drop 6).headD 0 = RecordType.full.asByte) :
    ∃ r, nextRecord ⟨header.asBytes ++ area, 0⟩ =
      .ok (.record ⟨leVal ((area.drop 8).take 8), payloadField area⟩, r) := by
  have hskip : skipBlockPaddingIfNeeded (header.asBytes ++ area) 0 = 0 := skip_of_room _ (by decide)
  have hroom : ¬ areaEnd (header.asBytes ++ area) < 0 + recordHeaderSize := by
    rw [areaEnd_append]
    omega
  have hloop : nextLoop (header.asBytes ++ area) 0 ((header.asBytes ++ area).length + 2) none 0 =
      .ok (.record ⟨leVal ((area.drop 8).take 8), payloadField area⟩,
        0 + recordHeaderSize + (payloadField area).length) := by
    rw [nextLoop]
    simp only [hskip, if_neg hroom, readFragment_accepts header hlong h htype]
    rfl
  exact ⟨_, nextRecord_of_loop hloop⟩

end FirstRecord

/-! ### What a replay delivers -/

theorem replayLoop_keeps (fuel : ℕ) (r : SegmentReader) (vs : List RecordView) :
    Ends (replayLoop deliver fuel r) vs (fun _ vs' => vs <+: vs') fun _ vs' => vs <+: vs' := by
  induction fuel generalizing r vs with
  | zero => exact Ends.fail (List.prefix_refl vs)
  | succ fuel ih =>
    unfold replayLoop
    refine Ends.lift_bind ?_ (fun e _ => List.prefix_refl vs)
    rintro ⟨out, r'⟩ -
    cases out with
    | record view =>
      refine Ends.ok_bind (act_modify _ vs) (Ends.mono (ih r' (vs ++ [view])) ?_ ?_)
      · intro _ vs' hvs
        exact (List.prefix_append vs [view]).trans hvs
      · intro _ vs' hvs
        exact (List.prefix_append vs [view]).trans hvs
    | endOfSegment => exact Ends.ret (List.prefix_refl vs)
    | tornTail truncateTo reason => exact Ends.ret (List.prefix_refl vs)

section Delivered

variable {segmentId firstSeqno : ℕ} {area : Bytes}

theorem deliveredBy_rejects (hid : segmentId < u64Size) (hfs : firstSeqno < u64Size)
    (hlong : recordHeaderSize ≤ area.length) (hblock : area.length ≤ blockSize)
    (h : ¬ Accepts area) :
    deliveredBy ((SegmentHeader.newSigned segmentId firstSeqno).asBytes ++ area) = [] := by
  obtain ⟨out, r, hnext, hstops⟩ :=
    nextRecord_rejects (SegmentHeader.newSigned segmentId firstSeqno) hlong hblock h
  unfold deliveredBy replayFile
  rw [openFile_header hid hfs, act_lift_ok_bind]
  unfold SegmentReader.replay
  rw [replayLoop, hnext, act_lift_ok_bind]
  cases out with
  | record view => exact hstops.elim
  | endOfSegment => rfl
  | tornTail truncateTo reason => rfl

theorem deliveredBy_accepts (hid : segmentId < u64Size) (hfs : firstSeqno < u64Size)
    (hlong : recordHeaderSize ≤ area.length) (h : Accepts area)
    (htype : (area.drop 6).headD 0 = RecordType.full.asByte) :
    [⟨leVal ((area.drop 8).take 8), payloadField area⟩] <+:
      deliveredBy ((SegmentHeader.newSigned segmentId firstSeqno).asBytes ++ area) := by
  obtain ⟨r, hnext⟩ :=
    nextRecord_accepts (SegmentHeader.newSigned segmentId firstSeqno) hlong h htype
  unfold deliveredBy replayFile
  rw [openFile_header hid hfs, act_lift_ok_bind]
  unfold SegmentReader.replay
  rw [replayLoop, hnext, act_lift_ok_bind]
  have hdeliver : deliver ⟨leVal ((area.drop 8).take 8), payloadField area⟩ [] =
      .ok ⟨⟩ [⟨leVal ((area.drop 8).take 8), payloadField area⟩] := rfl
  dsimp only
  rw [act_bind_ok hdeliver]
  have hkeeps := replayLoop_keeps
    ((SegmentHeader.newSigned segmentId firstSeqno).asBytes ++ area).length r
    [⟨leVal ((area.drop 8).take 8), payloadField area⟩]
  unfold Ends at hkeeps
  split <;> rename_i heq <;> rw [heq] at hkeeps <;> exact hkeeps

end Delivered

/-! ### One record and its flips -/

/-- The bytes under the checksum of a record in one piece. -/
def signedPart (seqno : ℕ) (payload : Bytes) : Bytes :=
  RecordType.full.asByte :: 0 :: (leBytes 8 seqno ++ payload)

/-- No bit of the length can be flipped so that the payload cut to the smaller
length has the checksum of the whole one. -/
def LengthProtected (seqno : ℕ) (payload : Bytes) : Prop :=
  ∀ k < 16, payload.length ^^^ 2 ^ k < payload.length →
    crc32c (signedPart seqno (payload.take (payload.length ^^^ 2 ^ k))) ≠
      crc32c (signedPart seqno payload)

instance (seqno : ℕ) (payload : Bytes) : Decidable (LengthProtected seqno payload) :=
  inferInstanceAs (Decidable (∀ k < 16, _))

section Record

variable (q : ℕ) (payload : Bytes)

theorem fragment_drop_six : (fragment .full q payload).drop 6 = signedPart q payload := by
  have hsix : (leBytes 4 (headerOf .full q payload).payloadCrc32c ++
      leBytes 2 (headerOf .full q payload).length).length = 6 := by
    rw [List.length_append, leBytes_length, leBytes_length]
  rw [fragment_eq, RecordHeader.asBytes, List.append_assoc, List.append_assoc,
    List.drop_left' hsix]
  rfl

theorem signedPart_take (m : ℕ) :
    (signedPart q payload).take (10 + m) = signedPart q (payload.take m) := by
  have hten : 10 + m = 2 + (8 + m) := by omega
  have hpay : (leBytes 8 q ++ payload).take (8 + m) = leBytes 8 q ++ payload.take m := by
    have hall : (leBytes 8 q).length ≤ 8 + m := by
      rw [leBytes_length]
      exact Nat.le_add_right 8 m
    rw [List.take_append, leBytes_length, List.take_of_length_le hall, Nat.add_sub_cancel_left]
  rw [hten, signedPart, Nat.add_comm 2, List.take_succ_cons, List.take_succ_cons, hpay]
  rfl

theorem fragment_crc : leVal ((fragment .full q payload).take 4) = crc32c (signedPart q payload) := by
  have hcrc : (headerOf .full q payload).payloadCrc32c = crc32c (signedPart q payload) := by
    show RecordHeader.expectedCrc _ _ = _
    simp only [RecordHeader.expectedCrc, crc32cAppend_append]
    rfl
  rw [fragment_eq, RecordHeader.asBytes, List.append_assoc, List.append_assoc, List.append_assoc,
    List.take_left' (leBytes_length _ _), hcrc, leVal_u32 (crc32c_lt _)]

theorem fragment_lengthField {payload : Bytes} (hlen : payload.length ≤ maxFragmentPayload) :
    lengthField (fragment .full q payload) = payload.length := by
  rw [lengthField, fragment_eq, RecordHeader.asBytes, List.append_assoc, List.append_assoc,
    List.append_assoc, List.drop_left' (leBytes_length _ _), List.take_left' (leBytes_length _ _)]
  exact leVal_leBytes_of_lt (hlen.trans_lt maxFragmentPayload_lt)

end Record

section Flips

variable {q : ℕ} {payload : Bytes}

theorem lengthField_flip (hlen : payload.length ≤ maxFragmentPayload) {k : ℕ} (hk : k < 16) :
    lengthField (flipBit (fragment .full q payload) (32 + k)) = payload.length ^^^ 2 ^ k := by
  have hlong : 16 ≤ (fragment .full q payload).length := by
    rw [fragment_length]
    exact Nat.le_add_right 16 _
  have hfield : ((flipBit (fragment .full q payload) (32 + k)).drop 4).take 2 =
      flipBit (((fragment .full q payload).drop 4).take 2) k := by
    rw [flipBit_drop_of_ge (by omega)]
    have hk' : 32 + k - 8 * 4 = k := by omega
    rw [hk']
    exact List.take_modify ..
  rw [lengthField, hfield, leVal_flipBit, ← fragment_lengthField q hlen]
  · rfl
  · rw [List.length_take, List.length_drop]
    omega

theorem not_accepts_flip (hlen : payload.length ≤ maxFragmentPayload) {i : ℕ}
    (hi : i < 8 * (recordHeaderSize + payload.length)) (hout : i < 32 ∨ 48 ≤ i) :
    ¬ Accepts (flipBit (fragment .full q payload) i) := by
  have hsize := fragment_length .full q payload
  have hin : i / 8 < (fragment .full q payload).length := by omega
  have hfield := fragment_lengthField q hlen
  have hall : (signedPart q payload).take (10 + payload.length) = signedPart q payload := by
    rw [signedPart_take, List.take_length]
  intro h
  have hcrc := h.crc
  rcases hout with hcrcField | hsigned
  · -- the stored digest changes
    have hsame : lengthField (flipBit (fragment .full q payload) i) = payload.length := by
      rw [← hfield, lengthField, flipBit_drop_of_lt (by omega)]
      rfl
    have hstored : (flipBit (fragment .full q payload) i).take 4 =
        flipBit ((fragment .full q payload).take 4) i := List.take_modify ..
    have hfour : i / 8 < ((fragment .full q payload).take 4).length := by
      rw [List.length_take]
      omega
    rw [hsame, flipBit_drop_of_lt (by omega), fragment_drop_six, hall, hstored,
      leVal_flipBit hfour, fragment_crc] at hcrc
    have hzero := Nat.xor_right_inj.mp (hcrc.symm.trans (Nat.xor_zero _).symm)
    exact absurd hzero (Nat.two_pow_pos i).ne'
  · -- the digest of the signed bytes changes
    have hsame : lengthField (flipBit (fragment .full q payload) i) = payload.length := by
      have hdrop : ((flipBit (fragment .full q payload) i).drop 4).take 2 =
          ((fragment .full q payload).drop 4).take 2 := by
        rw [flipBit_drop_of_ge (by omega), flipBit_take_of_le (by omega)]
      rw [← hfield, lengthField, hdrop]
      rfl
    have hlong : (flipBit (signedPart q payload) (i - 8 * 6)).length ≤ 10 + payload.length := by
      rw [flipBit_length, ← hall, List.length_take]
      exact Nat.min_le_left _ _
    have hfour : (flipBit (fragment .full q payload) i).take 4 = (fragment .full q payload).take 4 :=
      flipBit_take_of_le (by omega)
    rw [hsame, flipBit_drop_of_ge (by omega), fragment_drop_six, hfour, fragment_crc,
      List.take_of_length_le hlong] at hcrc
    refine crc32c_flipBit ?_ hcrc
    rw [← fragment_drop_six, List.length_drop]
    omega

theorem accepts_flip_iff (hlen : payload.length ≤ maxFragmentPayload) {k : ℕ} (hk : k < 16) :
    Accepts (flipBit (fragment .full q payload) (32 + k)) ↔
      payload.length ^^^ 2 ^ k < payload.length ∧
        crc32c (signedPart q (payload.take (payload.length ^^^ 2 ^ k))) =
          crc32c (signedPart q payload) := by
  have hsize := fragment_length .full q payload
  have hfield := lengthField_flip (q := q) hlen hk
  have hsix : (flipBit (fragment .full q payload) (32 + k)).drop 6 = signedPart q payload := by
    rw [flipBit_drop_of_lt (by omega), fragment_drop_six]
  have hfour : (flipBit (fragment .full q payload) (32 + k)).take 4 =
      (fragment .full q payload).take 4 := flipBit_take_of_le (by omega)
  have hne : payload.length ^^^ 2 ^ k ≠ payload.length := by
    intro heq
    have hzero := Nat.xor_right_inj.mp (heq.trans (Nat.xor_zero _).symm)
    exact absurd hzero (Nat.two_pow_pos k).ne'
  constructor
  · intro h
    have hinside := h.inside
    have hcrc := h.crc
    rw [hfield, flipBit_length, hsize] at hinside
    rw [hfield, hsix, hfour, signedPart_take, fragment_crc] at hcrc
    exact ⟨by omega, hcrc⟩
  · rintro ⟨hlt, hcrc⟩
    refine ⟨?_, ?_, ?_, ?_⟩
    · rw [← Bool.not_eq_true, List.all_eq_true]
      intro hzero
      have hbyte : RecordType.full.asByte ∈
          (flipBit (fragment .full q payload) (32 + k)).take recordHeaderSize := by
        apply List.mem_of_mem_drop (i := 6)
        rw [List.drop_take, hsix]
        exact List.mem_cons_self
      exact absurd (hzero _ hbyte) (by decide)
    · rw [hfield]
      omega
    · rw [hfield, flipBit_length, hsize]
      omega
    · rw [hfield, hsix, hfour, signedPart_take, fragment_crc]
      exact hcrc

end Flips

theorem flipBit_append_right (a b : Bytes) (i : ℕ) :
    flipBit (a ++ b) (8 * a.length + i) = a ++ flipBit b i := by
  rw [← List.take_append_drop a.length (flipBit (a ++ b) (8 * a.length + i)),
    flipBit_take_of_le (by omega), flipBit_drop_of_ge (by omega), List.take_left, List.drop_left,
    Nat.add_sub_cancel_left]

theorem layout_one {q : ℕ} {payload : Bytes} (hlen : payload.length ≤ maxFragmentPayload) :
    layout 0 [⟨q, payload⟩] = fragment .full q payload := by
  have hroom : payload.length ≤ blockSize - startOf 0 - recordHeaderSize := hlen
  simp only [layout, recordBytes, fragmentsFrom, if_pos hroom, List.append_nil]
  rfl

theorem writeSegment_one {name : FileName} (segmentId firstSeqno q : ℕ) {payload : Bytes} {w : World}
    (hlen : payload.length ≤ maxFragmentPayload) (hf : w.faults = []) (hnew : w.disk name = none) :
    ∃ w', writeSegment name segmentId firstSeqno [⟨q, payload⟩] w = .ok () w' ∧
      w'.bytesOf name =
        (SegmentHeader.newSigned segmentId firstSeqno).asBytes ++ fragment .full q payload := by
  have hends := writeSegment_ends segmentId firstSeqno [⟨q, payload⟩] hf hnew
  rw [layout_one hlen] at hends
  unfold Ends at hends
  cases hw : writeSegment name segmentId firstSeqno [⟨q, payload⟩] w with
  | ok a w' =>
    rw [hw] at hends
    exact ⟨w', rfl, hends⟩
  | error e w' =>
    rw [hw, fragment_length] at hends
    unfold maxFragmentPayload blockSize recordHeaderSize u64Size at *
    omega

theorem deliveredBy_flip_iff {segmentId firstSeqno q : ℕ} {payload : Bytes}
    (hid : segmentId < u64Size) (hfs : firstSeqno < u64Size)
    (hlen : payload.length ≤ maxFragmentPayload) :
    (∀ i < 8 * (recordHeaderSize + payload.length),
      deliveredBy ((SegmentHeader.newSigned segmentId firstSeqno).asBytes ++
        flipBit (fragment .full q payload) i) = []) ↔ LengthProtected q payload := by
  have hsize := fragment_length .full q payload
  have hlong : ∀ i, recordHeaderSize ≤ (flipBit (fragment .full q payload) i).length := by
    intro i
    rw [flipBit_length, hsize]
    omega
  constructor
  · intro hnone k hk hlt hcrc
    have haccepts := (accepts_flip_iff hlen hk).mpr ⟨hlt, hcrc⟩
    have htype : ((flipBit (fragment .full q payload) (32 + k)).drop 6).headD 0 =
        RecordType.full.asByte := by
      rw [flipBit_drop_of_lt (by omega), fragment_drop_six]
      rfl
    have hprefix := deliveredBy_accepts hid hfs (hlong _) haccepts htype
    rw [hnone (32 + k) (by unfold recordHeaderSize; omega)] at hprefix
    exact absurd (List.prefix_nil.mp hprefix) (List.cons_ne_nil _ _)
  · intro hprotected i hi
    refine deliveredBy_rejects hid hfs (hlong i) ?_ ?_
    · rw [flipBit_length, hsize]
      unfold maxFragmentPayload blockSize recordHeaderSize at *
      omega
    · by_cases hout : i < 32 ∨ 48 ≤ i
      · exact not_accepts_flip hlen hi hout
      · obtain ⟨k, rfl⟩ : ∃ k, i = 32 + k := ⟨i - 32, by omega⟩
        rw [accepts_flip_iff hlen (by omega)]
        rintro ⟨hlt, hcrc⟩
        exact hprotected k (by omega) hlt hcrc

/-- A record of one fragment is written as the only one of a segment. No flipped
bit of its header or payload makes a replay deliver anything if and only if the
flips of the length field are covered by chance. -/
theorem flipped_record_rejected_iff (name : FileName) {segmentId firstSeqno : ℕ} (q : ℕ)
    {payload : Bytes} (w : World) (hid : segmentId < u64Size) (hfs : firstSeqno < u64Size)
    (hlen : payload.length ≤ maxFragmentPayload) (hf : w.faults = []) (hnew : w.disk name = none) :
    ∃ w', writeSegment name segmentId firstSeqno [⟨q, payload⟩] w = .ok () w' ∧
      ((∀ i < 8 * (recordHeaderSize + payload.length),
        deliveredBy (flipBit (w'.bytesOf name) (8 * segmentHeaderSize + i)) = []) ↔
          LengthProtected q payload) := by
  obtain ⟨w', hw, hbytes⟩ := writeSegment_one segmentId firstSeqno q hlen hf hnew
  have hheader := segmentHeader_length (SegmentHeader.newSigned segmentId firstSeqno)
  refine ⟨w', hw, ?_⟩
  simp only [hbytes, ← hheader, flipBit_append_right]
  exact deliveredBy_flip_iff hid hfs hlen

theorem flipped_record_rejected_iff_one :
    ∃ w', writeSegment (.wal 1) 1 7 [⟨7, [5]⟩] ⟨[], []⟩ = .ok () w' ∧
      ((∀ i < 8 * (recordHeaderSize + [(5 : Byte)].length),
        deliveredBy (flipBit (w'.bytesOf (.wal 1)) (8 * segmentHeaderSize + i)) = []) ↔
          LengthProtected 7 [5]) :=
  flipped_record_rejected_iff (.wal 1) 7 ⟨[], []⟩ (by decide) (by decide) (by decide) rfl rfl

-- bit 2 of the length 4 is cleared; these four bytes leave the digest as it was before them
theorem flipped_length_delivered :
    ∃ w', writeSegment (.wal 1) 1 1 [⟨1, [194, 75, 232, 4]⟩] ⟨[], []⟩ = .ok () w' ∧
      deliveredBy (flipBit (w'.bytesOf (.wal 1)) (8 * segmentHeaderSize + 34)) = [⟨1, []⟩] := by
  obtain ⟨w', hw, hbytes⟩ := @writeSegment_one (.wal 1) 1 1 1 [194, 75, 232, 4] ⟨[], []⟩ (by decide)
    rfl rfl
  refine ⟨w', hw, ?_⟩
  rw [hbytes]
  decide +kernel

end PaddockKV.Wal
