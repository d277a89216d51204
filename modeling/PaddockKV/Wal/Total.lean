import PaddockKV.Checked
import PaddockKV.Wal.Repair

/-!
# Replay of arbitrary bytes

The reader once more, with every subtraction, every `expect` and the range of
every `read_at` checked, and a tally of what it delivers and of the fragments it
takes. On any file it does what the model of the reader does, it ends without a
panic, and the tally is bounded by the size of the file.
-/

namespace PaddockKV.Wal

open Io

/-- The records delivered and the number of fragments taken. -/
structure Tally where
  delivered : List RecordView
  fragments : ℕ
  deriving Repr, DecidableEq

/-- The delivered payload and the headers of the fragments, in bytes. -/
def Tally.bytes (t : Tally) : ℕ :=
  (t.delivered.map fun v => v.payload.length).sum + recordHeaderSize * t.fragments

namespace Checked

/-- `read_at` of a range that has to lie inside the file. -/
def readAt (file : Bytes) (offset len : ℕ) : Res Bytes :=
  if file.length < offset + len then .error (.panicked "read_at outside the file")
  else .ok ((file.drop offset).take len)

def openFile (file : Bytes) : Res SegmentReader := do
  if file.length < segmentHeaderSize then
    .error (.err (.invalidFormat "wal segment" ("file too short: " ++ toString file.length ++
      " bytes (need at least " ++ toString segmentHeaderSize ++ ")")))
  else
    let buf ← readAt file 0 segmentHeaderSize
    let header := SegmentHeader.refFromBytes buf
    if header.magic ≠ segmentMagic then
      .error (.err (.invalidFormat "wal segment header" "bad magic"))
    else if header.version ≠ formatVersion then
      .error (.err (.invalidFormat "wal segment header" ("unsupported version " ++
        toString header.version ++ " (this build understands " ++ toString formatVersion ++ ")")))
    else if !header.isValid then
      .error (.err (.corruption "wal segment header" "checksum mismatch"))
    else .ok ⟨file, 0⟩

def skipBlockPaddingIfNeeded (recordsAreaEnd cursor : ℕ) : Res ℕ := do
  let blockRemaining ← subWord blockSize (cursor % blockSize)
  if blockRemaining < recordHeaderSize ∧ cursor + blockRemaining ≤ recordsAreaEnd then
    .ok (cursor + blockRemaining)
  else .ok cursor

def handleTail (file : Bytes) (recordsAreaEnd : ℕ) (assembled : Option RecordView)
    (recordStart cursor : ℕ) : Res ReadOutcome :=
  match assembled with
  | some _ => .ok (.tornTail recordStart "segment ended mid-fragment")
  | none => do
    -- `saturating_sub`
    let bytesRemaining := recordsAreaEnd - cursor
    if bytesRemaining = 0 then return .endOfSegment
    let tail ← readAt file (segmentHeaderSize + cursor) bytesRemaining
    if tail.all (· = 0) then return .endOfSegment
    return .tornTail recordStart "stray bytes shorter than a record header at segment tail"

def readFragment (file : Bytes) (cursor : ℕ) : Res FragmentStep := do
  let fileOffset := segmentHeaderSize + cursor
  let headerBytes ← readAt file fileOffset recordHeaderSize
  if headerBytes.all (· = 0) then
    return .skipBlock ((cursor / blockSize + 1) * blockSize)
  let header := RecordHeader.refFromBytes headerBytes
  let payloadLen := header.length
  if maxFragmentPayload < payloadLen then
    return .tornTail "fragment length exceeds block size"
  let payloadOffset := fileOffset + recordHeaderSize
  if file.length < payloadOffset + payloadLen then
    return .tornTail "fragment payload truncated by segment EOF"
  let payload ← readAt file payloadOffset payloadLen
  if header.expectedCrc payload ≠ header.payloadCrc32c then
    return .tornTail "fragment crc32c mismatch"
  match RecordType.fromByte header.recordType with
  | some t => return .got ⟨t, header.seqno, payload⟩
  | none => .error (.err (.invalidFormat "wal record header"
      ("invalid record_type byte " ++ hexByte header.recordType)))

/-- `slot.as_mut().expect(msg)`. -/
def expectSome {α : Type} (slot : Option α) (msg : String) : Res α :=
  match slot with
  | some a => .ok a
  | none => .error (.panicked msg)

/-- `assemble`, with the arms of its `match` in the order of the source. -/
def assemble (state : Option RecordView) (frag : Fragment) : Res AssemblyStep :=
  match frag.recordType, state with
  | .full, none => .ok (.complete ⟨frag.seqno, frag.payload⟩)
  | .full, some _ =>
    .error (.err (.corruption "wal segment" "FULL fragment encountered mid-record assembly"))
  | .first, none => .ok (.more ⟨frag.seqno, frag.payload⟩)
  | .first, some _ =>
    .error (.err (.corruption "wal segment" "FIRST fragment encountered mid-record assembly"))
  | .middle, none =>
    .error (.err (.corruption "wal segment"
      (RecordType.middle.name ++ " fragment encountered without a preceding FIRST")))
  | .last, none =>
    .error (.err (.corruption "wal segment"
      (RecordType.last.name ++ " fragment encountered without a preceding FIRST")))
  | .middle, some view =>
    if view.seqno ≠ frag.seqno then
      .error (.err (.corruption "wal segment" ("MIDDLE fragment seqno " ++ toString frag.seqno ++
        " does not match in-progress " ++ toString view.seqno)))
    else .ok (.more ⟨view.seqno, view.payload ++ frag.payload⟩)
  | .last, slot => do
    let view ← expectSome slot "matched Some above"
    if view.seqno ≠ frag.seqno then
      .error (.err (.corruption "wal segment" ("LAST fragment seqno " ++ toString frag.seqno ++
        " does not match in-progress " ++ toString view.seqno)))
    else
      let finished ← expectSome (some (⟨view.seqno, view.payload ++ frag.payload⟩ : RecordView))
        "matched Some above"
      .ok (.complete finished)

def nextLoop (file : Bytes) (recordsAreaEnd recordStart : ℕ) :
    ℕ → Option RecordView → ℕ → Act Tally (ReadOutcome × ℕ)
  | 0, _, _ => Act.panic "next_record: loop did not end"
  | fuel + 1, assembled, cursor => do
    let cursor ← Act.lift (skipBlockPaddingIfNeeded recordsAreaEnd cursor)
    if recordsAreaEnd < cursor + recordHeaderSize then
      let out ← Act.lift (handleTail file recordsAreaEnd assembled recordStart cursor)
      return (out, cursor)
    else
      match ← Act.lift (readFragment file cursor) with
      | .skipBlock cursor => nextLoop file recordsAreaEnd recordStart fuel assembled cursor
      | .tornTail reason => return (.tornTail recordStart reason, cursor)
      | .got frag =>
        modify fun t => { t with fragments := t.fragments + 1 }
        let cursor := cursor + recordHeaderSize + frag.payload.length
        match ← Act.lift (assemble assembled frag) with
        | .more state => nextLoop file recordsAreaEnd recordStart fuel (some state) cursor
        | .complete view => return (.record view, cursor)

def nextRecord (r : SegmentReader) : Act Tally (ReadOutcome × SegmentReader) := do
  let recordsAreaEnd ← Act.lift (subWord r.file.length segmentHeaderSize)
  let (out, cursor) ← nextLoop r.file recordsAreaEnd r.cursor (r.file.length + 2) none r.cursor
  return (out, { r with cursor := cursor })

/-- `replay` with a callback that keeps the record. -/
def replayLoop : ℕ → SegmentReader → Act Tally ReplayOutcome
  | 0, _ => Act.panic "replay: loop did not end"
  | fuel + 1, r => do
    let (out, r) ← nextRecord r
    match out with
    | .record view => do
      modify fun t => { t with delivered := t.delivered ++ [view] }
      replayLoop fuel r
    | .endOfSegment => return .clean
    | .tornTail truncateTo reason => return .tornTail truncateTo reason

def replayFile (file : Bytes) : Act Tally ReplayOutcome := do
  let r ← Act.lift (openFile file)
  replayLoop (r.file.length + 1) r

end Checked

/-! ### The checks never fire -/

theorem checked_readAt {file : Bytes} {offset len : ℕ} (h : offset + len ≤ file.length) :
    Checked.readAt file offset len = readAt file offset len := by
  unfold Checked.readAt readAt
  rw [if_neg (not_lt.mpr h), if_neg (not_lt.mpr h)]

theorem checked_openFile (file : Bytes) :
    Checked.openFile file = SegmentReader.openFile file := by
  unfold Checked.openFile SegmentReader.openFile
  split
  · rfl
  · rename_i hlong
    rw [checked_readAt (by omega)]

theorem checked_skip (file : Bytes) (cursor : ℕ) :
    Checked.skipBlockPaddingIfNeeded (SegmentReader.areaEnd file) cursor =
      .ok (SegmentReader.skipBlockPaddingIfNeeded file cursor) := by
  have hlt := Nat.mod_lt cursor (show 0 < blockSize by decide)
  unfold Checked.skipBlockPaddingIfNeeded SegmentReader.skipBlockPaddingIfNeeded
  rw [subWord_ok hlt.le, res_ok_bind]
  dsimp only
  split <;> rfl

theorem checked_assemble (state : Option RecordView) (frag : Fragment) :
    Checked.assemble state frag = assemble state frag := by
  unfold Checked.assemble assemble
  cases frag.recordType <;> cases state <;> rfl

theorem checked_handleTail (file : Bytes) (assembled : Option RecordView)
    (recordStart cursor : ℕ) :
    Checked.handleTail file (SegmentReader.areaEnd file) assembled recordStart cursor =
      SegmentReader.handleTail file assembled recordStart cursor := by
  unfold Checked.handleTail SegmentReader.handleTail
  cases assembled with
  | some view => rfl
  | none =>
    dsimp only
    split
    · rfl
    · rename_i hmore
      have hin : segmentHeaderSize + cursor + (SegmentReader.areaEnd file - cursor) ≤
          file.length := by
        unfold SegmentReader.areaEnd at *
        omega
      rw [checked_readAt hin]

theorem checked_readFragment {file : Bytes} {cursor : ℕ} (hlong : segmentHeaderSize ≤ file.length)
    (h : cursor + recordHeaderSize ≤ SegmentReader.areaEnd file) :
    Checked.readFragment file cursor = SegmentReader.readFragment file cursor := by
  have hheader : segmentHeaderSize + cursor + recordHeaderSize ≤ file.length := by
    unfold SegmentReader.areaEnd at h
    omega
  unfold Checked.readFragment SegmentReader.readFragment
  dsimp only
  rw [checked_readAt hheader]
  congr 1
  funext headerBytes
  split
  · rfl
  · split
    · rfl
    · split
      · rfl
      · rename_i hin
        exact congrArg (fun payload => payload >>= _) (checked_readAt (not_lt.mp hin))

/-! ### How the reader ends -/

theorem readFragment_plain {file : Bytes} {cursor : ℕ} {f : Fault}
    (hlong : segmentHeaderSize ≤ file.length)
    (h : cursor + recordHeaderSize ≤ SegmentReader.areaEnd file)
    (herr : SegmentReader.readFragment file cursor = .error f) : PlainError f := by
  have hread : ∀ offset len, offset + len ≤ file.length → ∃ bs, readAt file offset len = .ok bs :=
    fun offset len hin => ⟨_, if_neg (not_lt.mpr hin)⟩
  obtain ⟨headerBytes, hheader⟩ := hread (segmentHeaderSize + cursor) recordHeaderSize (by
    unfold SegmentReader.areaEnd at h
    omega)
  unfold SegmentReader.readFragment at herr
  dsimp only at herr
  rw [hheader, res_ok_bind] at herr
  split at herr
  · cases herr
  · split at herr
    · cases herr
    · split at herr
      · cases herr
      · rename_i hin
        obtain ⟨payload, hpayload⟩ := hread _ _ (not_lt.mp hin)
        rw [hpayload, res_ok_bind] at herr
        split at herr
        · cases herr
        · split at herr
          · cases herr
          · cases herr
            exact ⟨_, rfl, fun kind msg hio => by cases hio⟩

theorem handleTail_ok (file : Bytes) (assembled : Option RecordView) (recordStart cursor : ℕ) :
    ∃ out, SegmentReader.handleTail file assembled recordStart cursor = .ok out ∧
      SegmentReader.Stops out := by
  by_cases hc : segmentHeaderSize + cursor ≤ file.length
  · exact SegmentReader.handleTail_stops assembled recordStart hc
  · cases assembled with
    | some view => exact ⟨_, rfl, trivial⟩
    | none =>
      have hnone : SegmentReader.areaEnd file - cursor = 0 := by
        unfold SegmentReader.areaEnd
        omega
      unfold SegmentReader.handleTail
      dsimp only
      rw [hnone, if_pos rfl]
      exact ⟨_, rfl, trivial⟩

/-- The payload assembled so far. -/
def assembledLen (state : Option RecordView) : ℕ := (state.map fun v => v.payload.length).getD 0

theorem assemble_ends (state : Option RecordView) (frag : Fragment) :
    (∃ v, assemble state frag = .ok (.more v) ∧
        v.payload.length = assembledLen state + frag.payload.length) ∨
      (∃ v, assemble state frag = .ok (.complete v) ∧
        v.payload.length = assembledLen state + frag.payload.length) ∨
      ∃ f, assemble state frag = .error f ∧ PlainError f := by
  have hplain : ∀ context reason, PlainError (.err (.corruption context reason)) :=
    fun context reason => ⟨_, rfl, fun kind msg h => by cases h⟩
  unfold assemble
  cases frag.recordType with
  | full =>
    cases state with
    | none => exact .inr (.inl ⟨_, rfl, (Nat.zero_add _).symm⟩)
    | some v => exact .inr (.inr ⟨_, rfl, hplain _ _⟩)
  | first =>
    cases state with
    | none => exact .inl ⟨_, rfl, (Nat.zero_add _).symm⟩
    | some v => exact .inr (.inr ⟨_, rfl, hplain _ _⟩)
  | middle =>
    cases state with
    | none => exact .inr (.inr ⟨_, rfl, hplain _ _⟩)
    | some v =>
      dsimp only
      split
      · exact .inr (.inr ⟨_, rfl, hplain _ _⟩)
      · exact .inl ⟨_, rfl, List.length_append⟩
  | last =>
    cases state with
    | none => exact .inr (.inr ⟨_, rfl, hplain _ _⟩)
    | some v =>
      dsimp only
      split
      · exact .inr (.inr ⟨_, rfl, hplain _ _⟩)
      · exact .inr (.inl ⟨_, rfl, List.length_append⟩)

/-- What the tally holds of the file up to `cursor`, with the payload in hand. -/
structure Within (file : Bytes) (cursor inHand : ℕ) (t : Tally) : Prop where
  cursor : t.bytes + inHand ≤ cursor
  area : t.bytes + inHand ≤ SegmentReader.areaEnd file

theorem Within.mono {file : Bytes} {c c' n : ℕ} {t : Tally} (h : Within file c n t) (hc : c ≤ c') :
    Within file c' n t := ⟨h.cursor.trans hc, h.area⟩

theorem Within.fragment {file : Bytes} {c n len : ℕ} {t : Tally} (h : Within file c n t)
    (hin : c + recordHeaderSize + len ≤ SegmentReader.areaEnd file) :
    Within file (c + recordHeaderSize + len) (n + len) { t with fragments := t.fragments + 1 } := by
  have hcursor := h.cursor
  have hbytes : ({ t with fragments := t.fragments + 1 } : Tally).bytes =
      t.bytes + recordHeaderSize := by
    simp only [Tally.bytes]
    ring
  constructor
  · rw [hbytes]
    omega
  · rw [hbytes]
    omega

theorem Within.deliver {file : Bytes} {c : ℕ} {v : RecordView} {t : Tally}
    (h : Within file c v.payload.length t) :
    Within file c 0 { t with delivered := t.delivered ++ [v] } := by
  have hbytes : ({ t with delivered := t.delivered ++ [v] } : Tally).bytes =
      t.bytes + v.payload.length := by
    simp only [Tally.bytes, List.map_append, List.sum_append, List.map_cons, List.map_nil,
      List.sum_cons, List.sum_nil]
    omega
  constructor
  · rw [hbytes, Nat.add_zero]
    exact h.cursor
  · rw [hbytes, Nat.add_zero]
    exact h.area

/-- What is in hand when a record is returned. -/
def outcomeLen : ReadOutcome → ℕ
  | .record view => view.payload.length
  | _ => 0

/-- One record. The induction is on the fuel; every round but the last moves the
cursor, and the last one ends in the tail of the file. -/
theorem nextLoop_ends {file : Bytes} (hlong : segmentHeaderSize ≤ file.length) (start : ℕ)
    {fuel c : ℕ} {assembled : Option RecordView} {t : Tally} (hpos : 0 < fuel)
    (hfuel : SegmentReader.areaEnd file + 2 ≤ c + fuel)
    (hin : Within file c (assembledLen assembled) t) :
    Ends (Checked.nextLoop file (SegmentReader.areaEnd file) start fuel assembled c) t
      (fun p t' => SegmentReader.nextLoop file start fuel assembled c = .ok p ∧
        t'.delivered = t.delivered ∧ Within file p.2 (outcomeLen p.1) t')
      fun f t' => SegmentReader.nextLoop file start fuel assembled c = .error f ∧
        t'.delivered = t.delivered ∧ t'.bytes ≤ SegmentReader.areaEnd file ∧ PlainError f := by
  induction fuel generalizing c assembled t with
  | zero => omega
  | succ fuel ih =>
    have hskip := SegmentReader.skip_ge file c
    have hheader : 0 < recordHeaderSize := by decide
    have hin' := hin.mono hskip
    rw [Checked.nextLoop, SegmentReader.nextLoop, checked_skip, act_lift_ok_bind]
    dsimp only
    generalize hcur : SegmentReader.skipBlockPaddingIfNeeded file c = cur at *
    by_cases htail : SegmentReader.areaEnd file < cur + recordHeaderSize
    · obtain ⟨out, hout, hstops⟩ := handleTail_ok file assembled start cur
      rw [if_pos htail, if_pos htail, checked_handleTail, hout, act_lift_ok_bind, res_ok_bind]
      refine Ends.ret ⟨rfl, rfl, ?_⟩
      have hnone : outcomeLen out = 0 := by
        cases out with
        | record view => exact hstops.elim
        | endOfSegment => rfl
        | tornTail truncateTo reason => rfl
      rw [hnone]
      exact ⟨(Nat.le_add_right _ _).trans hin'.cursor, (Nat.le_add_right _ _).trans hin'.area⟩
    · rw [if_neg htail, if_neg htail, checked_readFragment hlong (not_lt.mp htail)]
      cases hstep : SegmentReader.readFragment file cur with
      | error f =>
        refine Ends.fail_bind ⟨rfl, rfl, (Nat.le_add_right _ _).trans hin'.area, ?_⟩
        exact readFragment_plain hlong (not_lt.mp htail) hstep
      | ok step =>
        obtain ⟨hblock, hgot⟩ := SegmentReader.readFragment_bounds hstep
        rw [act_lift_ok_bind, res_ok_bind]
        cases step with
        | skipBlock c₂ =>
          have hlt := SegmentReader.lt_next_block cur
          rw [← hblock c₂ rfl] at hlt
          exact ih (by omega) (by omega) (hin'.mono hlt.le)
        | tornTail reason =>
          refine Ends.ret ⟨rfl, rfl, ?_⟩
          exact ⟨(Nat.le_add_right _ _).trans hin'.cursor, (Nat.le_add_right _ _).trans hin'.area⟩
        | got frag =>
          have hroom : cur + recordHeaderSize + frag.payload.length ≤
              SegmentReader.areaEnd file := by
            have := hgot frag rfl
            unfold SegmentReader.areaEnd
            omega
          have htaken := hin'.fragment hroom
          dsimp only
          refine Ends.update_bind ?_
          rw [checked_assemble]
          rcases assemble_ends assembled frag with ⟨v, hv, hlen⟩ | ⟨v, hv, hlen⟩ | ⟨f, hf, hplain⟩
          · rw [hv, act_lift_ok_bind, res_ok_bind]
            dsimp only
            refine Ends.mono (ih (t := { t with fragments := t.fragments + 1 }) (by omega)
              (by omega) ?_) ?_ ?_
            · rw [assembledLen, Option.map_some, Option.getD_some, hlen]
              exact htaken
            · intro p t' h
              exact h
            · intro f t' h
              exact h
          · rw [hv, act_lift_ok_bind, res_ok_bind]
            refine Ends.ret ⟨rfl, rfl, ?_⟩
            rw [outcomeLen, hlen]
            exact htaken
          · rw [hf]
            exact Ends.fail_bind ⟨rfl, rfl, (Nat.le_add_right _ _).trans htaken.area, hplain⟩

theorem nextRecord_ends {file : Bytes} (hlong : segmentHeaderSize ≤ file.length) {c : ℕ}
    {t : Tally} (hin : Within file c 0 t) :
    Ends (Checked.nextRecord ⟨file, c⟩) t
      (fun p t' => SegmentReader.nextRecord ⟨file, c⟩ = .ok p ∧ t'.delivered = t.delivered ∧
        ∃ c', p.2 = ⟨file, c'⟩ ∧ Within file c' (outcomeLen p.1) t' ∧
          ∀ v, p.1 = .record v → c < c' ∧ c' ≤ SegmentReader.areaEnd file)
      fun f t' => SegmentReader.nextRecord ⟨file, c⟩ = .error f ∧ t'.delivered = t.delivered ∧
        t'.bytes ≤ SegmentReader.areaEnd file ∧ PlainError f := by
  have hfuel : SegmentReader.areaEnd file + 2 ≤ c + (file.length + 2) := by
    unfold SegmentReader.areaEnd
    omega
  have hloop := @nextLoop_ends file hlong c (file.length + 2) c none t (by omega) hfuel hin
  unfold Checked.nextRecord SegmentReader.nextRecord
  rw [subWord_ok hlong, act_lift_ok_bind]
  refine Ends.bind hloop ?_ ?_
  · rintro ⟨out, c'⟩ t' ⟨hrun, hdelivered, hwithin⟩
    refine Ends.ret ⟨by rw [hrun]; rfl, hdelivered, c', rfl, hwithin, ?_⟩
    rintro v rfl
    obtain ⟨hlt, hle⟩ := SegmentReader.nextLoop_bounds hrun
    unfold SegmentReader.areaEnd
    exact ⟨hlt, by omega⟩
  · rintro f t' ⟨hrun, hrest⟩
    exact ⟨by rw [hrun]; rfl, hrest⟩

theorem replayLoop_ends {file : Bytes} (hlong : segmentHeaderSize ≤ file.length) {fuel c : ℕ}
    {t : Tally} (hc : c ≤ SegmentReader.areaEnd file) (hfuel : SegmentReader.areaEnd file < c + fuel)
    (hin : Within file c 0 t) :
    Ends (Checked.replayLoop fuel ⟨file, c⟩) t
      (fun out t' => SegmentReader.replayLoop deliver fuel ⟨file, c⟩ t.delivered =
          .ok out t'.delivered ∧ t'.bytes ≤ SegmentReader.areaEnd file)
      fun f t' => SegmentReader.replayLoop deliver fuel ⟨file, c⟩ t.delivered =
          .error f t'.delivered ∧ t'.bytes ≤ SegmentReader.areaEnd file ∧ PlainError f := by
  induction fuel generalizing c t with
  | zero => omega
  | succ fuel ih =>
    rw [Checked.replayLoop, SegmentReader.replayLoop]
    refine Ends.bind (nextRecord_ends hlong hin) ?_ ?_
    · rintro ⟨out, r⟩ t' ⟨hrun, hdelivered, c', hr, hwithin, hrecord⟩
      subst hr
      rw [hrun, act_lift_ok_bind]
      cases out with
      | record view =>
        obtain ⟨hlt, hle⟩ := hrecord view rfl
        have hkeep : deliver view t.delivered = .ok ⟨⟩ (t'.delivered ++ [view]) := by
          rw [hdelivered]
          rfl
        dsimp only
        rw [act_bind_ok hkeep]
        exact Ends.update_bind (ih hle (by omega) hwithin.deliver)
      | endOfSegment => exact Ends.ret ⟨by rw [hdelivered]; rfl, hwithin.area⟩
      | tornTail truncateTo reason => exact Ends.ret ⟨by rw [hdelivered]; rfl, hwithin.area⟩
    · rintro f t' ⟨hrun, hdelivered, hbytes, hplain⟩
      exact ⟨by rw [hrun, hdelivered]; rfl, hbytes, hplain⟩

theorem openFile_plain {file : Bytes} {f : Fault} (h : SegmentReader.openFile file = .error f) :
    PlainError f := by
  have hformat : ∀ context reason, PlainError (.err (.invalidFormat context reason)) :=
    fun context reason => ⟨_, rfl, fun kind msg h => by cases h⟩
  unfold SegmentReader.openFile at h
  split at h
  · cases h
    exact hformat _ _
  · rename_i hlong
    have hread : readAt file 0 segmentHeaderSize = .ok ((file.drop 0).take segmentHeaderSize) :=
      if_neg (by omega)
    rw [hread, res_ok_bind] at h
    dsimp only at h
    split at h
    · cases h
      exact hformat _ _
    · split at h
      · cases h
        exact hformat _ _
      · split at h
        · cases h
          exact ⟨_, rfl, fun kind msg h => by cases h⟩
        · cases h

/-- Replay of any bytes at all ends, with an outcome or with an error that is
neither a panic nor a failed read; every check of the checked reader passes on
the way, so it reads inside the file only; and what it delivers, with the
headers of the fragments, fits into the file. -/
theorem replay_total (file : Bytes) :
    ∃ t : Tally, t.bytes ≤ file.length - segmentHeaderSize ∧
      ((∃ out, Checked.replayFile file ⟨[], 0⟩ = .ok out t ∧
          replayFile file deliver [] = .ok out t.delivered) ∨
        ∃ e, Checked.replayFile file ⟨[], 0⟩ = .error (.err e) t ∧
          replayFile file deliver [] = .error (.err e) t.delivered ∧
          ∀ kind msg, e ≠ .io kind msg) := by
  unfold Checked.replayFile replayFile
  rw [checked_openFile]
  cases hopen : SegmentReader.openFile file with
  | error f =>
    obtain ⟨e, rfl, hio⟩ := openFile_plain hopen
    exact ⟨⟨[], 0⟩, Nat.zero_le _, .inr ⟨e, rfl, rfl, hio⟩⟩
  | ok r =>
    obtain ⟨hlong, rfl, -⟩ := SegmentReader.openFile_ok hopen
    have hfuel : SegmentReader.areaEnd file < 0 + (file.length + 1) := by
      unfold SegmentReader.areaEnd
      omega
    have hends := replayLoop_ends hlong (Nat.zero_le _) hfuel
      (⟨Nat.le_refl 0, Nat.zero_le _⟩ : Within file 0 0 ⟨[], 0⟩)
    rw [act_lift_ok_bind, act_lift_ok_bind]
    cases hrun : Checked.replayLoop (file.length + 1) ⟨file, 0⟩ ⟨[], 0⟩ with
    | ok out t =>
      obtain ⟨hbase, hbytes⟩ := hends.of_ok hrun
      exact ⟨t, hbytes, .inl ⟨out, rfl, hbase⟩⟩
    | error f t =>
      obtain ⟨hbase, hbytes, e, rfl, hio⟩ := hends.of_error hrun
      exact ⟨t, hbytes, .inr ⟨e, rfl, hbase, hio⟩⟩

end PaddockKV.Wal
