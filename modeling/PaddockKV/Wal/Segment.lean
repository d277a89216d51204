import PaddockKV.Wal.RoundTrip

/-!
# A segment written and read back (`wal/writer.rs`, `wal/reader.rs`)

`writeSegment` makes a new segment and appends records to it. The file it
leaves is the header and the layout of the records, so `replayFile` gets the
records back: all of them, also with zeros behind the last one, and those that
are whole when the file is cut.
-/

namespace PaddockKV.Wal

open Io

/-- The writer's file holds the header and `rs`, and the writer's counters say so. -/
structure Holds (e : WalEnv) (header : SegmentHeader) (rs : List RecordView) : Prop where
  bytes : ∃ s, e.world.disk e.writer.file = some ⟨header.asBytes ++ layout 0 rs, s⟩
  offset_le : e.writer.blockOffset ≤ blockSize
  offset : e.writer.blockOffset % blockSize = (layout 0 rs).length % blockSize
  counted : e.writer.bytesWritten = (layout 0 rs).length

theorem layout_snoc (rs : List RecordView) (r : RecordView) :
    layout 0 (rs ++ [r]) =
      layout 0 rs ++ recordBytes ((layout 0 rs).length % blockSize) r.seqno r.payload := by
  rw [layout_append (by decide), Nat.zero_add]

namespace SegmentWriter

theorem appendRecord_holds {e : WalEnv} {header : SegmentHeader} {rs : List RecordView} (q : ℕ)
    (pl : Bytes) (h : Holds e header rs) (hf : e.world.faults = []) :
    Ends (appendRecord q pl) e
      (fun _ e' => Holds e' header (rs ++ [⟨q, pl⟩]) ∧ e'.writer.file = e.writer.file ∧
        e'.world.faults = [])
      fun _ _ => u64Size ≤ (layout 0 (rs ++ [⟨q, pl⟩])).length := by
  have hbytes : recordBytes ((layout 0 rs).length % blockSize) q pl =
      recordBytes e.writer.blockOffset q pl := by
    rw [← h.offset, recordBytes_mod h.offset_le]
  rw [layout_snoc, hbytes, List.length_append]
  refine Ends.mono (appendRecord_ends q pl e h.offset_le) ?_ ?_
  · intro _ e' ha
    obtain ⟨hfile, evs, happ, hlog⟩ := ha.wrote
    obtain ⟨s, hs⟩ := h.bytes
    obtain ⟨s', -, hd⟩ := diskOf_appends happ hs
    refine ⟨⟨⟨s', ?_⟩, ha.offset_le, ?_, ?_⟩, hfile, ha.faultless hf⟩
    · unfold World.disk
      rw [hfile, hlog, hd, Function.update_self, layout_snoc, hbytes, List.append_assoc]
    · rw [ha.offset, layout_snoc, hbytes, List.length_append, Nat.add_mod, h.offset, ← Nat.add_mod]
    · rw [ha.counted, h.counted, layout_snoc, hbytes, List.length_append]
  · rintro - e' ⟨p, hp⟩
    rcases hp.cause with hne | hover
    · exact absurd hf hne
    · rwa [h.counted] at hover

def appendRecords : List RecordView → Act WalEnv Unit
  | [] => return ()
  | r :: rs => do
    let _ ← appendRecord r.seqno r.payload
    appendRecords rs

theorem layout_length_mono (rs rs' : List RecordView) :
    (layout 0 rs).length ≤ (layout 0 (rs ++ rs')).length := by
  induction rs' generalizing rs with
  | nil => rw [List.append_nil]
  | cons r rs' ih =>
    have hone : (layout 0 rs).length ≤ (layout 0 (rs ++ [r])).length := by
      rw [layout_snoc, List.length_append]
      omega
    have hrest := ih (rs ++ [r])
    rw [List.append_assoc, List.singleton_append] at hrest
    omega

theorem appendRecords_holds {e : WalEnv} {header : SegmentHeader} {rs : List RecordView}
    (rs' : List RecordView) (h : Holds e header rs) (hf : e.world.faults = []) :
    Ends (appendRecords rs') e
      (fun _ e' => Holds e' header (rs ++ rs') ∧ e'.writer.file = e.writer.file)
      fun _ _ => u64Size ≤ (layout 0 (rs ++ rs')).length := by
  induction rs' generalizing e rs with
  | nil => exact Ends.ret ⟨by rwa [List.append_nil], rfl⟩
  | cons r rs' ih =>
    have hsplit : rs ++ r :: rs' = rs ++ [r] ++ rs' := by
      rw [List.append_assoc, List.singleton_append]
    rw [hsplit]
    refine Ends.bind (appendRecord_holds r.seqno r.payload h hf) ?_ ?_
    · rintro - e₁ ⟨h₁, hfile, hf₁⟩
      refine Ends.mono (ih h₁ hf₁) ?_ (fun _ _ hlen => hlen)
      rintro - e₂ ⟨h₂, hfile₂⟩
      exact ⟨h₂, hfile₂.trans hfile⟩
    · intro _ _ hlen
      exact hlen.trans (layout_length_mono _ _)

end SegmentWriter

/-- A new segment with the records `rs`. -/
def writeSegment (name : FileName) (segmentId firstSeqno : ℕ) (rs : List RecordView) :
    Act World Unit := do
  openWritable name
  let wr ← SegmentWriter.create name segmentId firstSeqno
  Act.zoom (fun w => ⟨wr, w⟩) (fun e _ => e.world) (SegmentWriter.appendRecords rs)

/-- `SegmentReader::open` and `replay`. -/
def replayFile {σ : Type} (file : Bytes) (onRecord : RecordView → Act σ Unit) :
    Act σ ReplayOutcome := do
  let r ← Act.lift (SegmentReader.openFile file)
  r.replay onRecord

theorem create_nil {w : World} (name : FileName) (segmentId firstSeqno : ℕ)
    (hf : w.faults = []) :
    SegmentWriter.create name segmentId firstSeqno w = .ok ⟨name, 0, 0⟩
      (w.call (.append name (SegmentHeader.newSigned segmentId firstSeqno).asBytes)) := by
  unfold SegmentWriter.create
  rw [act_bind_ok (append_nil name _ hf)]
  rfl

theorem holds_create {w : World} {name : FileName} (header : SegmentHeader)
    (hnew : w.disk name = none) :
    Holds ⟨⟨name, 0, 0⟩, (w.call (.openWritable name)).call (.append name header.asBytes)⟩
      header [] := by
  refine ⟨⟨false, ?_⟩, Nat.zero_le _, rfl, rfl⟩
  generalize header.asBytes = bytes
  show ((w.call (.openWritable name)).call (.append name bytes)).disk name = _
  rw [World.disk_call, World.disk_call, Disk.apply, Disk.apply, hnew, Function.update_self,
    Function.update_self, layout, List.append_nil]
  rfl

theorem writeSegment_ends {w : World} {name : FileName} (segmentId firstSeqno : ℕ)
    (rs : List RecordView) (hf : w.faults = []) (hnew : w.disk name = none) :
    Ends (writeSegment name segmentId firstSeqno rs) w
      (fun _ w' => w'.bytesOf name =
        (SegmentHeader.newSigned segmentId firstSeqno).asBytes ++ layout 0 rs)
      fun _ _ => u64Size ≤ (layout 0 rs).length := by
  have hheld := holds_create (SegmentHeader.newSigned segmentId firstSeqno) hnew
  refine Ends.ok_bind (openWritable_nil name hf) (Ends.ok_bind (create_nil name _ _ hf) ?_)
  have happ := SegmentWriter.appendRecords_holds rs hheld hf
  rw [List.nil_append] at happ
  refine Ends.mono (Ends.zoom happ) ?_ ?_
  · rintro - _ ⟨e, rfl, h, hfile⟩
    obtain ⟨s, hs⟩ := h.bytes
    rw [hfile] at hs
    unfold World.bytesOf
    rw [hs]
  · rintro - _ ⟨e, rfl, h⟩
    exact h

theorem replayFile_reads {segmentId firstSeqno : ℕ} (hid : segmentId < u64Size)
    (hfs : firstSeqno < u64Size) {area : Bytes} {vs : List RecordView} {out : ReplayOutcome}
    (h : SegmentReader.Reads
      ((SegmentHeader.newSigned segmentId firstSeqno).asBytes ++ area) 0 vs out)
    {σ : Type} (onRecord : RecordView → Act σ Unit) :
    replayFile ((SegmentHeader.newSigned segmentId firstSeqno).asBytes ++ area) onRecord = do
      vs.forM onRecord
      return out := by
  unfold replayFile
  rw [SegmentReader.openFile_header hid hfs, act_lift_ok_bind]
  exact h.replay onRecord

theorem drop_header (header : SegmentHeader) (area : Bytes) :
    (header.asBytes ++ area).drop (segmentHeaderSize + 0) = area := by
  rw [Nat.add_zero]
  exact List.drop_left' (segmentHeader_length header)

theorem reads_then_zeros (header : SegmentHeader) (rs : List RecordView) (n : ℕ)
    (hrs : ∀ r ∈ rs, r.seqno < u64Size) :
    SegmentReader.Reads (header.asBytes ++ (layout 0 rs ++ zeros n)) 0 rs .clean := by
  have hdrop := drop_header header (layout 0 rs ++ zeros n)
  have hend : (header.asBytes ++ (layout 0 rs ++ zeros n)).drop
      (segmentHeaderSize + (0 + (layout 0 rs).length)) = zeros n := by
    rw [← Nat.add_assoc, ← List.drop_drop, hdrop, List.drop_left]
  have hreads := SegmentReader.reads_layout_append hdrop hrs (SegmentReader.reads_zeros hend)
  rwa [List.append_nil] at hreads

/-- What was appended comes back, whatever number of zeros follows it. The byte
counter of the writer is the only limit. -/
theorem replay_writeSegment (name : FileName) {segmentId firstSeqno : ℕ} (rs : List RecordView)
    (n : ℕ) (w : World) (hid : segmentId < u64Size) (hfs : firstSeqno < u64Size)
    (hrs : ∀ r ∈ rs, r.seqno < u64Size) (hf : w.faults = []) (hnew : w.disk name = none) :
    Ends (writeSegment name segmentId firstSeqno rs) w
      (fun _ w' => ∀ (σ : Type) (onRecord : RecordView → Act σ Unit),
        replayFile (w'.bytesOf name ++ zeros n) onRecord = do
          rs.forM onRecord
          return .clean)
      fun _ _ => u64Size ≤ (layout 0 rs).length := by
  refine Ends.mono (writeSegment_ends segmentId firstSeqno rs hf hnew) ?_ (fun _ _ h => h)
  intro _ w' hbytes σ onRecord
  rw [hbytes, List.append_assoc]
  exact replayFile_reads hid hfs (reads_then_zeros _ rs n hrs) onRecord

-- an empty record and one of two bytes, with three zeros behind them
theorem replay_writeSegment_two :
    Ends (writeSegment (.wal 1) 1 7 [⟨7, []⟩, ⟨8, [5, 0]⟩]) ⟨[], []⟩
      (fun _ w' => ∀ (σ : Type) (onRecord : RecordView → Act σ Unit),
        replayFile (w'.bytesOf (.wal 1) ++ zeros 3) onRecord = do
          [⟨7, []⟩, ⟨8, [5, 0]⟩].forM onRecord
          return .clean)
      fun _ _ => u64Size ≤ (layout 0 [⟨7, []⟩, ⟨8, [5, 0]⟩]).length :=
  replay_writeSegment (.wal 1) [⟨7, []⟩, ⟨8, [5, 0]⟩] 3 ⟨[], []⟩ (by decide) (by decide) (by decide)
    rfl rfl

/-! ### A cut segment -/

/-- Where the first `i` records end, counted from the end of the segment header. -/
def recordsEnd (rs : List RecordView) (i : ℕ) : ℕ := (layout 0 (rs.take i)).length

theorem recordsEnd_mono (rs : List RecordView) {i j : ℕ} (h : i ≤ j) :
    recordsEnd rs i ≤ recordsEnd rs j := by
  obtain ⟨rest, hrest⟩ : rs.take i <+: rs.take j := List.take_prefix_take_left h
  unfold recordsEnd
  rw [← hrest]
  exact SegmentWriter.layout_length_mono _ _

theorem take_layout {o : ℕ} (ho : o < blockSize) (rs : List RecordView) (m : ℕ) :
    ∃ a b p, rs = a ++ b ∧ (layout o rs).take m = layout o a ++ p ∧
      (b = [] ∧ p = [] ∨ ∃ r b', b = r :: b' ∧
        p <+: recordBytes ((o + (layout o a).length) % blockSize) r.seqno r.payload ∧
        p.length < (recordBytes ((o + (layout o a).length) % blockSize) r.seqno r.payload).length ∧
        (layout o a ++ p).length = m) := by
  induction rs generalizing o m with
  | nil => exact ⟨[], [], [], rfl, by simp [layout], .inl ⟨rfl, rfl⟩⟩
  | cons r rs ih =>
    rw [layout]
    set bytes := recordBytes o r.seqno r.payload with hbytes
    by_cases hm : m < bytes.length
    · -- the cut is in the first record
      refine ⟨[], r :: rs, bytes.take m, rfl, ?_, .inr ⟨r, rs, rfl, ?_, ?_, ?_⟩⟩
      · rw [List.take_append_of_le_length hm.le, layout, List.nil_append]
      · rw [layout, List.length_nil, Nat.add_zero, Nat.mod_eq_of_lt ho]
        exact List.take_prefix _ _
      · rw [layout, List.length_nil, Nat.add_zero, Nat.mod_eq_of_lt ho, List.length_take]
        exact lt_of_le_of_lt (Nat.min_le_left _ _) hm
      · rw [layout, List.nil_append, List.length_take]
        omega
    · obtain ⟨a, b, p, rfl, htake, hcase⟩ := ih (Nat.mod_lt (o + bytes.length) (by decide))
        (m - bytes.length)
      have hoff : ((o + bytes.length) % blockSize +
          (layout ((o + bytes.length) % blockSize) a).length) % blockSize =
          (o + (layout o (r :: a)).length) % blockSize := by
        rw [layout, ← hbytes, List.length_append, Nat.mod_add_mod, Nat.add_assoc]
      refine ⟨r :: a, b, p, rfl, ?_, ?_⟩
      · rw [List.take_append, List.take_of_length_le (not_lt.mp hm), htake, layout,
          List.append_assoc]
      · refine hcase.imp_right ?_
        rintro ⟨r', b', rfl, hp, hlt, hlen⟩
        rw [hoff] at hp hlt
        refine ⟨r', b', rfl, hp, hlt, ?_⟩
        rw [layout, ← hbytes, List.append_assoc, List.length_append, hlen]
        omega

theorem reads_cut (header : SegmentHeader) (rs : List RecordView) (m : ℕ)
    (hrs : ∀ r ∈ rs, r.seqno < u64Size) :
    ∃ k out, k ≤ rs.length ∧ (∀ i ≤ rs.length, i ≤ k ↔ recordsEnd rs i ≤ m) ∧
      SegmentReader.TruncatesAt (recordsEnd rs k) out ∧
      SegmentReader.Reads (header.asBytes ++ (layout 0 rs).take m) 0 (rs.take k) out := by
  obtain ⟨a, b, p, rfl, htake, hcase⟩ := take_layout (show 0 < blockSize by decide) rs m
  have hka : (a ++ b).take a.length = a := List.take_left
  have hdrop := drop_header header (layout 0 a ++ p)
  have hlen : segmentHeaderSize + 0 ≤ (header.asBytes ++ (layout 0 a ++ p)).length := by
    rw [List.length_append, segmentHeader_length]
    omega
  have ha : ∀ r ∈ a, r.seqno < u64Size := fun r hr => hrs r (List.mem_append_left _ hr)
  rw [htake]
  rcases hcase with ⟨rfl, rfl⟩ | ⟨r, b', rfl, hp, hlt, hm⟩
  · -- nothing was cut off
    have hall : (layout 0 a).length ≤ m := by
      have := congrArg List.length htake
      rw [List.append_nil, List.append_nil, List.length_take] at this
      omega
    refine ⟨a.length, .clean, by simp, ?_, trivial, ?_⟩
    · intro i hi
      rw [List.append_nil] at hi ⊢
      have hmono := recordsEnd_mono a hi
      rw [recordsEnd, recordsEnd, List.take_length] at hmono
      exact iff_of_true hi (hmono.trans hall)
    · rw [hka]
      exact reads_then_zeros header a 0 ha
  · have hq := hrs r (by simp)
    rcases SegmentReader.reads_layout hdrop hlen ha hp hq with ⟨out, hout, ht⟩ | ⟨hfull, -⟩
    · refine ⟨a.length, out, by simp, ?_, ?_, by rwa [hka]⟩
      · intro i hi
        rw [List.length_append] at hm
        constructor
        · intro hik
          have hmono := recordsEnd_mono (a ++ r :: b') hik
          have hend : recordsEnd (a ++ r :: b') a.length = (layout 0 a).length := by
            rw [recordsEnd, hka]
          omega
        · intro him
          by_contra hik
          have hmono := recordsEnd_mono (a ++ r :: b') (show a.length + 1 ≤ i by omega)
          have hend : recordsEnd (a ++ r :: b') (a.length + 1) = (layout 0 (a ++ [r])).length := by
            rw [recordsEnd, List.take_length_add_append]
            rfl
          rw [layout_snoc, List.length_append] at hend
          rw [Nat.zero_add] at hlt
          omega
      · rw [recordsEnd, hka]
        rwa [Nat.zero_add] at ht
    · rw [hfull] at hlt
      exact absurd hlt (lt_irrefl _)

/-- Cutting a segment costs the records that do not end before the cut, and what
a torn tail is cut back to is the end of the last record that does. -/
theorem replay_writeSegment_take (name : FileName) {segmentId firstSeqno : ℕ}
    (rs : List RecordView) (n : ℕ) (w : World) (hid : segmentId < u64Size)
    (hfs : firstSeqno < u64Size) (hrs : ∀ r ∈ rs, r.seqno < u64Size) (hf : w.faults = [])
    (hnew : w.disk name = none) (hn : segmentHeaderSize ≤ n) :
    Ends (writeSegment name segmentId firstSeqno rs) w
      (fun _ w' => ∃ k out, k ≤ rs.length ∧
        (∀ i ≤ rs.length, i ≤ k ↔ segmentHeaderSize + recordsEnd rs i ≤ n) ∧
        SegmentReader.TruncatesAt (recordsEnd rs k) out ∧
        ∀ (σ : Type) (onRecord : RecordView → Act σ Unit),
          replayFile ((w'.bytesOf name).take n) onRecord = do
            (rs.take k).forM onRecord
            return out)
      fun _ _ => u64Size ≤ (layout 0 rs).length := by
  refine Ends.mono (writeSegment_ends segmentId firstSeqno rs hf hnew) ?_ (fun _ _ h => h)
  intro _ w' hbytes
  obtain ⟨k, out, hk, hends, htrunc, hreads⟩ :=
    reads_cut (SegmentHeader.newSigned segmentId firstSeqno) rs (n - segmentHeaderSize) hrs
  refine ⟨k, out, hk, ?_, htrunc, ?_⟩
  · intro i hi
    rw [hends i hi]
    omega
  · intro σ onRecord
    have hcut : (w'.bytesOf name).take n =
        (SegmentHeader.newSigned segmentId firstSeqno).asBytes ++
          (layout 0 rs).take (n - segmentHeaderSize) := by
      rw [hbytes, List.take_append, List.take_of_length_le (by rw [segmentHeader_length]; exact hn),
        segmentHeader_length]
    rw [hcut]
    exact replayFile_reads hid hfs hreads onRecord

-- a cut in the header of the second record
theorem replay_writeSegment_take_two :
    Ends (writeSegment (.wal 1) 1 7 [⟨7, []⟩, ⟨8, [5, 0]⟩]) ⟨[], []⟩
      (fun _ w' => ∃ k out, k ≤ 2 ∧
        (∀ i ≤ 2, i ≤ k ↔ segmentHeaderSize + recordsEnd [⟨7, []⟩, ⟨8, [5, 0]⟩] i ≤ 50) ∧
        SegmentReader.TruncatesAt (recordsEnd [⟨7, []⟩, ⟨8, [5, 0]⟩] k) out ∧
        ∀ (σ : Type) (onRecord : RecordView → Act σ Unit),
          replayFile ((w'.bytesOf (.wal 1)).take 50) onRecord = do
            ([⟨7, []⟩, ⟨8, [5, 0]⟩].take k).forM onRecord
            return out)
      fun _ _ => u64Size ≤ (layout 0 [⟨7, []⟩, ⟨8, [5, 0]⟩]).length :=
  replay_writeSegment_take (.wal 1) [⟨7, []⟩, ⟨8, [5, 0]⟩] 50 ⟨[], []⟩ (by decide) (by decide)
    (by decide) rfl rfl (by decide)

end PaddockKV.Wal
