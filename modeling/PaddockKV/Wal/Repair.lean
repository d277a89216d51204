import PaddockKV.Wal.Segment

/-!
# Cutting a segment back (`ReadOutcome::TornTail`)

The reader looks at the end of the file when it skips padding, jumps over a
zero header and tests for a tail. None of this changes for a record that ends
before the cut, whatever the bytes are, so a segment cut at `truncate_to`
replays the same records and is clean.
-/

namespace PaddockKV.Wal

open Io

namespace SegmentReader

section Cut

variable {file : Bytes} {n : ℕ}

theorem readAt_take {m pos len : ℕ} (hm : m ≤ file.length) (h : pos + len ≤ m) :
    readAt (file.take m) pos len = readAt file pos len := by
  have hlen : (file.take m).length = m := List.length_take_of_le hm
  unfold readAt
  rw [if_neg (by omega), if_neg (by omega), List.drop_take, List.take_take,
    Nat.min_eq_left (by omega)]

theorem areaEnd_take (hn : segmentHeaderSize + n ≤ file.length) :
    areaEnd (file.take (segmentHeaderSize + n)) = n := by
  rw [areaEnd, List.length_take_of_le hn]
  omega

theorem skip_take {c : ℕ} (hn : segmentHeaderSize + n ≤ file.length)
    (h : skipBlockPaddingIfNeeded file c ≤ n) :
    skipBlockPaddingIfNeeded (file.take (segmentHeaderSize + n)) c =
      skipBlockPaddingIfNeeded file c := by
  have hend : n ≤ areaEnd file := by
    unfold areaEnd
    omega
  unfold skipBlockPaddingIfNeeded at h ⊢
  dsimp only at h ⊢
  rw [areaEnd_take hn]
  split at h
  · rename_i hskip
    rw [if_pos ⟨hskip.1, h⟩, if_pos hskip]
  · rename_i hstay
    rw [if_neg hstay, if_neg]
    rintro ⟨hroom, hle⟩
    exact hstay ⟨hroom, hle.trans hend⟩

theorem header_le_block {c : ℕ}
    (h : ¬ areaEnd file < skipBlockPaddingIfNeeded file c + recordHeaderSize) :
    skipBlockPaddingIfNeeded file c + recordHeaderSize ≤
      (skipBlockPaddingIfNeeded file c / blockSize + 1) * blockSize := by
  have hb : blockSize = 32768 := rfl
  have hr : recordHeaderSize = 16 := rfl
  unfold skipBlockPaddingIfNeeded at h ⊢
  dsimp only at h ⊢
  split at h
  · rename_i hskip
    rw [if_pos hskip]
    rw [hb, hr] at *
    omega
  · rename_i hstay
    rw [if_neg hstay]
    rw [hb, hr] at *
    omega

theorem readFragment_take {c : ℕ} {step : FragmentStep} (hn : segmentHeaderSize + n ≤ file.length)
    (h : readFragment file c = .ok step) (hheader : c + recordHeaderSize ≤ n)
    (hgot : ∀ frag, step = .got frag → c + recordHeaderSize + frag.payload.length ≤ n)
    (htorn : ∀ reason, step ≠ .tornTail reason) :
    readFragment (file.take (segmentHeaderSize + n)) c = .ok step := by
  unfold readFragment at h ⊢
  obtain ⟨headerBytes, hread, h⟩ := res_bind_eq_ok.mp h
  dsimp only at h ⊢
  rw [readAt_take hn (by omega), hread]
  show (if _ then _ else _) = _
  split at h
  · rename_i hzero
    rw [if_pos hzero]
    exact h
  · rename_i hzero
    rw [if_neg hzero]
    split at h
    · cases h
      exact absurd rfl (htorn _)
    · rename_i hlen
      rw [if_neg hlen]
      split at h
      · cases h
        exact absurd rfl (htorn _)
      · obtain ⟨payload, hpayload, h⟩ := res_bind_eq_ok.mp h
        have hsize := (readAt_ok hpayload).2
        split at h
        · cases h
          exact absurd rfl (htorn _)
        · rename_i hcrc
          split at h
          · rename_i t ht
            cases h
            have hin := hgot _ rfl
            dsimp only at hin
            rw [List.length_take_of_le hn, if_neg (by omega), readAt_take hn (by omega), hpayload]
            show (if _ then _ else _) = _
            rw [if_neg hcrc]
            rfl
          · cases h

/-- A record that ends before the cut. Each round moves the cursor on, so the
distance to its end is enough fuel. -/
theorem nextLoop_take {start fuel fuel' c c' : ℕ} {asm : Option RecordView} {v : RecordView}
    (hn : segmentHeaderSize + n ≤ file.length)
    (h : nextLoop file start fuel asm c = .ok (.record v, c')) (hc' : c' ≤ n)
    (hfuel : c' < c + fuel') :
    nextLoop (file.take (segmentHeaderSize + n)) start fuel' asm c = .ok (.record v, c') := by
  induction fuel generalizing asm c fuel' with
  | zero => cases h
  | succ fuel ih =>
    have hlt := (nextLoop_bounds h).1
    obtain ⟨fuel', rfl⟩ : ∃ f, fuel' = f + 1 := ⟨fuel' - 1, by omega⟩
    have hge := skip_ge file c
    have hpos : 0 < recordHeaderSize := by decide
    rw [nextLoop] at h ⊢
    dsimp only at h ⊢
    split at h
    · obtain ⟨out, hout, h⟩ := res_bind_eq_ok.mp h
      cases h
      exact (handleTail_stop hout).elim
    · rename_i hroom
      have hblock := header_le_block hroom
      obtain ⟨step, hstep, h⟩ := res_bind_eq_ok.mp h
      have hjump := (readFragment_bounds hstep).1
      cases step with
      | tornTail reason => cases h
      | skipBlock c₂ =>
        have hc₂ := (nextLoop_bounds h).1
        have := hjump c₂ rfl
        rw [skip_take hn (by omega), areaEnd_take hn, if_neg (by omega),
          readFragment_take hn hstep (by omega) (fun _ hf => by cases hf) (fun _ hf => by cases hf)]
        exact ih h (by omega)
      | got frag =>
        obtain ⟨next, hnext, h⟩ := res_bind_eq_ok.mp h
        have hend : skipBlockPaddingIfNeeded file c + recordHeaderSize + frag.payload.length ≤ c' := by
          cases next with
          | more state => exact (nextLoop_bounds h).1.le
          | complete view =>
            cases h
            exact le_rfl
        rw [skip_take hn (by omega), areaEnd_take hn, if_neg (by omega),
          readFragment_take hn hstep (by omega) (by rintro _ ⟨⟩; omega) (fun _ hf => by cases hf)]
        show (assemble asm frag >>= _) = _
        rw [hnext]
        cases next with
        | more state => exact ih h (by omega)
        | complete view => exact h

end Cut

theorem nextRecord_take {file : Bytes} {n c c' : ℕ} {v : RecordView}
    (hn : segmentHeaderSize + n ≤ file.length)
    (h : nextRecord ⟨file, c⟩ = .ok (.record v, ⟨file, c'⟩)) (hc' : c' ≤ n) :
    nextRecord ⟨file.take (segmentHeaderSize + n), c⟩ =
      .ok (.record v, ⟨file.take (segmentHeaderSize + n), c'⟩) := by
  obtain ⟨⟨out, c₁⟩, hloop, hr⟩ := res_bind_eq_ok.mp h
  cases hr
  refine nextRecord_of_loop (nextLoop_take hn hloop hc' ?_)
  rw [List.length_take_of_le hn]
  omega

theorem Reads.repaired {file : Bytes} {c t : ℕ} {vs : List RecordView} {reason : String}
    (h : Reads file c vs (.tornTail t reason)) (hc : segmentHeaderSize + c ≤ file.length) :
    c ≤ t ∧ segmentHeaderSize + t ≤ file.length ∧
      Reads (file.take (segmentHeaderSize + t)) c vs .clean := by
  generalize hout : ReplayOutcome.tornTail t reason = out at h
  induction h with
  | @stop c out r hnext hs =>
    cases out with
    | record v => cases hs
    | endOfSegment => cases hout
    | tornTail t' reason' =>
      cases hout
      have ht : t = c := nextRecord_truncateTo hnext
      subst ht
      refine ⟨le_rfl, hc, reads_zeros (m := 0) ?_⟩
      exact List.drop_eq_nil_of_le (List.length_take_le _ _)
  | @more c c' v vs out hnext hlt hle rest ih =>
    obtain ⟨⟨out₁, c₁⟩, hloop, hr⟩ := res_bind_eq_ok.mp hnext
    cases hr
    obtain ⟨hct, hin, hrest⟩ := ih (nextLoop_bounds hloop).2 hout
    refine ⟨hlt.le.trans hct, hin, .more (nextRecord_take hin hnext hct) hlt ?_ hrest⟩
    rw [List.length_take_of_le hin]
    omega

theorem openFile_ok {file : Bytes} {r : SegmentReader} (h : openFile file = .ok r) :
    segmentHeaderSize ≤ file.length ∧ r = ⟨file, 0⟩ ∧
      ∀ file' : Bytes, segmentHeaderSize ≤ file'.length →
        readAt file' 0 segmentHeaderSize = readAt file 0 segmentHeaderSize →
        openFile file' = .ok ⟨file', 0⟩ := by
  unfold openFile at h
  split at h
  · cases h
  · rename_i hlong
    obtain ⟨buf, hread, h⟩ := res_bind_eq_ok.mp h
    dsimp only at h
    split at h
    · cases h
    rename_i hmagic
    split at h
    · cases h
    rename_i hversion
    split at h
    · cases h
    rename_i hvalid
    cases h
    refine ⟨not_lt.mp hlong, rfl, ?_⟩
    intro file' hlong' hread'
    unfold openFile
    rw [if_neg (not_lt.mpr hlong'), hread', hread]
    show (if _ then _ else _) = _
    rw [if_neg hmagic, if_neg hversion, if_neg hvalid]

end SegmentReader

instance decEqResult {ε σ α : Type} [DecidableEq ε] [DecidableEq σ] [DecidableEq α] :
    DecidableEq (EStateM.Result ε σ α)
  | .ok a s, .ok b t => decidable_of_iff (a = b ∧ s = t) (by simp)
  | .error e s, .error f t => decidable_of_iff (e = f ∧ s = t) (by simp)
  | .ok _ _, .error _ _ => isFalse (by intro h; cases h)
  | .error _ _, .ok _ _ => isFalse (by intro h; cases h)

/-- The handler that keeps what is delivered. -/
def deliver (v : RecordView) : Act (List RecordView) Unit := modify (· ++ [v])

/-- Whatever the bytes are, cutting a segment where a replay says its torn tail
begins leaves a clean segment with the records the replay delivered. -/
theorem replayFile_repaired {file : Bytes} {t : ℕ} {reason : String} {delivered : List RecordView}
    (h : replayFile file deliver [] = .ok (.tornTail t reason) delivered) :
    replayFile (file.take (segmentHeaderSize + t)) deliver [] = .ok .clean delivered := by
  obtain ⟨r, s, hlift, h⟩ := act_bind_eq_ok.mp h
  obtain ⟨hopen, rfl⟩ := act_lift_eq_ok.mp hlift
  obtain ⟨hlong, rfl, hopened⟩ := SegmentReader.openFile_ok hopen
  obtain ⟨vs, hreads, hvs⟩ := SegmentReader.replayLoop_ok h
  obtain ⟨-, hin, hcut⟩ := hreads.repaired hlong
  have hlen := List.length_take_of_le hin
  have hopen' := hopened (file.take (segmentHeaderSize + t)) (by omega)
    (SegmentReader.readAt_take hin (by omega))
  unfold replayFile
  rw [hopen', act_lift_ok_bind, hcut.replay deliver, act_bind_ok hvs]
  rfl

-- one record, then three bytes that are no record header
theorem replayFile_repaired_stray :
    replayFile (((SegmentHeader.newSigned 1 7).asBytes ++ (layout 0 [⟨7, [5]⟩] ++ [1, 2, 3])).take
      (segmentHeaderSize + 17)) deliver [] = .ok .clean [⟨7, [5]⟩] :=
  replayFile_repaired (show replayFile
    ((SegmentHeader.newSigned 1 7).asBytes ++ (layout 0 [⟨7, [5]⟩] ++ [1, 2, 3])) deliver [] =
      .ok (.tornTail 17 "stray bytes shorter than a record header at segment tail") [⟨7, [5]⟩] by
    decide +kernel)

end PaddockKV.Wal
