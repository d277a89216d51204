import PaddockKV.Io.Vfs
import PaddockKV.Lib.Ends
import PaddockKV.Wal.Format

/-!
# The WAL segment writer (`wal/writer.rs`)

`appendRecord` is the loop of the source over the file layer, so an `append`
that fails stops it with some bytes written and the writer's counters where
they were. Beside it stands what a record looks like on file
(`recordBytes`); whatever fails, a call leaves a prefix of it.
-/

namespace PaddockKV.Wal

open Io

structure SegmentWriter where
  file : FileName
  blockOffset : ℕ
  bytesWritten : ℕ
  deriving Repr, DecidableEq

/-- The writer and the file system it writes to. -/
structure WalEnv where
  writer : SegmentWriter
  world : World

namespace SegmentWriter

def create (file : FileName) (segmentId firstSeqno : ℕ) : Act World SegmentWriter := do
  Io.append file (SegmentHeader.newSigned segmentId firstSeqno).asBytes
  return ⟨file, 0, 0⟩

def onWorld {α : Type} (x : Act World α) : Act WalEnv α :=
  Act.zoom WalEnv.world (fun w e => { e with world := w }) x

def fileAppend (data : Bytes) : Act WalEnv Unit := do
  let e ← get
  onWorld (Io.append e.writer.file data)

def overflowMsg : String := "WAL segment bytes_written overflow"

def padBlockIfHeaderWouldNotFit : Act WalEnv Unit := do
  let e ← get
  let blockRemaining := blockSize - e.writer.blockOffset
  if blockRemaining < recordHeaderSize then
    fileAppend (zeros blockRemaining)
    let total ← addU64 e.writer.bytesWritten blockRemaining overflowMsg
    modify fun e => { e with writer := { e.writer with bytesWritten := total, blockOffset := 0 } }

def writeFragment (recordType : RecordType) (seqno : ℕ) (payload : Bytes) : Act WalEnv Unit := do
  -- `payload.len() as u16`
  let header := (RecordHeader.new recordType seqno (payload.length % 65536)).sign payload
  fileAppend header.asBytes
  fileAppend payload
  let fragTotal := recordHeaderSize + payload.length
  modify fun e =>
    { e with writer := { e.writer with blockOffset := e.writer.blockOffset + fragTotal } }
  let e ← get
  let total ← addU64 e.writer.bytesWritten fragTotal overflowMsg
  modify fun e => { e with writer := { e.writer with bytesWritten := total } }

def recordTypeOf : Bool → Bool → RecordType
  | true, true => .full
  | true, false => .first
  | false, true => .last
  | false, false => .middle

/-- The loop of `append_record`. -/
def appendLoop : ℕ → Bool → ℕ → Bytes → Act WalEnv Unit
  | 0, _, _, _ => Act.panic "append_record: loop did not end"
  | fuel + 1, isFirstFragment, seqno, remaining => do
    let e ← get
    let blockRemaining := blockSize - e.writer.blockOffset
    let payloadRoom := blockRemaining - recordHeaderSize
    let fragmentLen := min remaining.length payloadRoom
    let isLast := decide (fragmentLen = remaining.length)
    writeFragment (recordTypeOf isFirstFragment isLast) seqno (remaining.take fragmentLen)
    let remaining := remaining.drop fragmentLen
    if remaining = [] then return ()
    modify fun e => { e with writer := { e.writer with blockOffset := 0 } }
    appendLoop fuel false seqno remaining

def appendRecord (seqno : ℕ) (payload : Bytes) : Act WalEnv ℕ := do
  let e ← get
  let recordStart := e.writer.bytesWritten
  padBlockIfHeaderWouldNotFit
  -- a fragment without payload is followed by one that is not empty
  appendLoop (payload.length + 2) true seqno payload
  return recordStart

def sync : Act WalEnv Unit := do
  let e ← get
  onWorld (Io.sync e.writer.file)

end SegmentWriter

/-! ### Records on file -/

def fragment (t : RecordType) (seqno : ℕ) (payload : Bytes) : Bytes :=
  ((RecordHeader.new t seqno payload.length).sign payload).asBytes ++ payload

/-- The fragments of a record after the first, from the start of a block. -/
def restFragments (seqno : ℕ) (payload : Bytes) : Bytes :=
  if payload.length ≤ maxFragmentPayload then fragment .last seqno payload
  else fragment .middle seqno (payload.take maxFragmentPayload) ++
    restFragments seqno (payload.drop maxFragmentPayload)
termination_by payload.length
decreasing_by
  rw [List.length_drop]
  have : 0 < maxFragmentPayload := by decide
  omega

/-- The fragments of a record, or of its rest, with `room` bytes of payload left
in the block. -/
def fragmentsFrom (isFirst : Bool) (seqno room : ℕ) (payload : Bytes) : Bytes :=
  if payload.length ≤ room then
    fragment (SegmentWriter.recordTypeOf isFirst true) seqno payload
  else
    fragment (SegmentWriter.recordTypeOf isFirst false) seqno (payload.take room) ++
      restFragments seqno (payload.drop room)

/-- Padding in front of a record at offset `o` of a block. -/
def padLen (o : ℕ) : ℕ := if blockSize - o < recordHeaderSize then blockSize - o else 0

/-- Where the fragments of a record at offset `o` start. -/
def startOf (o : ℕ) : ℕ := if blockSize - o < recordHeaderSize then 0 else o

def recordBytes (o seqno : ℕ) (payload : Bytes) : Bytes :=
  zeros (padLen o) ++ fragmentsFrom true seqno (blockSize - startOf o - recordHeaderSize) payload

theorem fragment_length (t : RecordType) (seqno : ℕ) (payload : Bytes) :
    (fragment t seqno payload).length = recordHeaderSize + payload.length := by
  simp [fragment, asBytes_length]

theorem restFragments_eq (seqno : ℕ) (payload : Bytes) :
    restFragments seqno payload = fragmentsFrom false seqno maxFragmentPayload payload := by
  rw [restFragments]
  rfl

theorem le_restFragments_length (seqno : ℕ) (payload : Bytes) :
    payload.length ≤ (restFragments seqno payload).length := by
  fun_induction restFragments seqno payload with
  | case1 payload h =>
    rw [fragment_length]
    omega
  | case2 payload h ih =>
    rw [List.length_append, fragment_length, List.length_take]
    rw [List.length_drop] at ih
    omega

theorem le_fragmentsFrom_length (isFirst : Bool) (seqno room : ℕ) (payload : Bytes) :
    payload.length ≤ (fragmentsFrom isFirst seqno room payload).length := by
  unfold fragmentsFrom
  split
  · rw [fragment_length]
    omega
  · have hrest := le_restFragments_length seqno (payload.drop room)
    rw [List.length_append, fragment_length, List.length_take]
    rw [List.length_drop] at hrest
    omega

theorem restFragments_length_le (seqno : ℕ) (payload : Bytes) :
    (restFragments seqno payload).length ≤ 17 * payload.length + recordHeaderSize := by
  fun_induction restFragments seqno payload with
  | case1 payload h =>
    rw [fragment_length]
    omega
  | case2 payload h ih =>
    have hroom : 0 < maxFragmentPayload := by decide
    have hheader : recordHeaderSize = 16 := rfl
    rw [List.length_append, fragment_length, List.length_take]
    rw [List.length_drop] at ih
    omega

theorem recordBytes_length_le (o seqno : ℕ) (payload : Bytes) :
    (recordBytes o seqno payload).length ≤ 17 * payload.length + 3 * recordHeaderSize := by
  have hpad : padLen o ≤ recordHeaderSize := by
    unfold padLen
    split <;> omega
  unfold recordBytes fragmentsFrom
  rw [List.length_append, zeros, List.length_replicate]
  split
  · rw [fragment_length]
    omega
  · have hrest := restFragments_length_le seqno
      (payload.drop (blockSize - startOf o - recordHeaderSize))
    rw [List.length_append, fragment_length, List.length_take]
    rw [List.length_drop] at hrest
    omega

theorem startOf_le {o : ℕ} (h : o ≤ blockSize) : startOf o + recordHeaderSize ≤ blockSize := by
  unfold startOf blockSize recordHeaderSize at *
  split <;> omega

theorem padLen_mod {o : ℕ} (h : o ≤ blockSize) : (o + padLen o) % blockSize = startOf o % blockSize := by
  unfold padLen startOf
  split
  · rw [Nat.add_sub_cancel' h]
    simp
  · rfl

theorem recordBytes_mod {o : ℕ} (h : o ≤ blockSize) (seqno : ℕ) (payload : Bytes) :
    recordBytes (o % blockSize) seqno payload = recordBytes o seqno payload := by
  rcases h.lt_or_eq with h | rfl
  · rw [Nat.mod_eq_of_lt h]
  · rfl

/-! ### What a call writes -/

/-- `bs` was appended to the writer's file. -/
def Wrote (e e' : WalEnv) (bs : Bytes) : Prop :=
  e'.writer.file = e.writer.file ∧ Io.Wrote e.writer.file e.world e'.world bs

theorem Wrote.refl (e : WalEnv) : Wrote e e [] := ⟨rfl, Io.Wrote.refl _ _⟩

theorem Wrote.trans {e e₁ e₂ : WalEnv} {bs bs' : Bytes} (h : Wrote e e₁ bs) (h' : Wrote e₁ e₂ bs') :
    Wrote e e₂ (bs ++ bs') := by
  refine ⟨h'.1.trans h.1, h.2.trans ?_⟩
  rw [← h.1]
  exact h'.2

/-- The call appended `bs` and counted it. -/
structure Appended (e e' : WalEnv) (bs : Bytes) : Prop where
  wrote : Wrote e e' bs
  offset_le : e'.writer.blockOffset ≤ blockSize
  offset : e'.writer.blockOffset % blockSize = (e.writer.blockOffset + bs.length) % blockSize
  counted : e'.writer.bytesWritten = e.writer.bytesWritten + bs.length
  faultless : e.world.faults = [] → e'.world.faults = []

/-- The call appended a part of `bs`; less than a header leaves the counters as
they were. -/
structure Stopped (e e' : WalEnv) (bs : Bytes) : Prop where
  wrote : ∃ p, p <+: bs ∧ Wrote e e' p ∧ (p.length < recordHeaderSize → e'.writer = e.writer)
  cause : e.world.faults ≠ [] ∨ u64Size ≤ e.writer.bytesWritten + bs.length

namespace SegmentWriter

theorem fileAppend_ends (data : Bytes) (e : WalEnv) :
    Ends (fileAppend data) e
      (fun _ e' => Wrote e e' data ∧ e'.writer = e.writer ∧
        (e.world.faults = [] → e'.world.faults = []))
      fun _ e' => e.world.faults ≠ [] ∧ e'.writer = e.writer ∧ ∃ n, Wrote e e' (data.take n) := by
  unfold fileAppend onWorld
  refine Ends.read_bind (Ends.mono (Ends.zoom (append_ends e.writer.file data e.world)) ?_ ?_)
  · rintro - _ ⟨w, rfl, hw, hf⟩
    exact ⟨⟨rfl, hw⟩, rfl, hf⟩
  · rintro - _ ⟨w, rfl, hne, n, hw⟩
    exact ⟨hne, rfl, n, rfl, hw⟩

theorem writeFragment_ends (t : RecordType) (seqno : ℕ) {payload : Bytes}
    (hlen : payload.length < 65536) (e : WalEnv) :
    Ends (writeFragment t seqno payload) e
      (fun _ e' => Wrote e e' (fragment t seqno payload) ∧
        e'.writer = ⟨e.writer.file, e.writer.blockOffset + (recordHeaderSize + payload.length),
          e.writer.bytesWritten + (recordHeaderSize + payload.length)⟩ ∧
        (e.world.faults = [] → e'.world.faults = []))
      fun _ e' => Stopped e e' (fragment t seqno payload) := by
  unfold writeFragment
  rw [Nat.mod_eq_of_lt hlen]
  have hhead : ((RecordHeader.new t seqno payload.length).sign payload).asBytes.length =
      recordHeaderSize := asBytes_length _
  refine Ends.bind (fileAppend_ends _ e) ?_ ?_
  · rintro - e₁ ⟨hw₁, hwr₁, hf₁⟩
    refine Ends.bind (fileAppend_ends _ e₁) ?_ ?_
    · rintro - e₂ ⟨hw₂, hwr₂, hf₂⟩
      refine Ends.update_bind (Ends.read_bind (Ends.addU64_bind ?_ ?_))
      · intro _
        refine Ends.update ⟨hw₁.trans hw₂, ?_, fun h => hf₂ (hf₁ h)⟩
        simp [hwr₂, hwr₁]
      · intro hover
        refine ⟨⟨_, List.prefix_rfl, hw₁.trans hw₂, ?_⟩, .inr ?_⟩
        · intro hlt
          rw [fragment_length] at hlt
          omega
        · rw [fragment_length, ← hwr₁, ← hwr₂]
          exact hover
    · rintro f e₂ ⟨hne, hwr₂, n, hw₂⟩
      refine ⟨⟨_, List.prefix_append_right_inj _ |>.mpr (List.take_prefix n _), hw₁.trans hw₂, ?_⟩,
        .inl fun h => hne (hf₁ h)⟩
      intro hlt
      simp only [List.length_append, hhead] at hlt
      omega
  · rintro f e₁ ⟨hne, hwr, n, hw⟩
    refine ⟨⟨_, ?_, hw, fun _ => hwr⟩, .inl hne⟩
    exact (List.take_prefix n _).trans (List.prefix_append _ _)

theorem padBlock_ends (e : WalEnv) (ho : e.writer.blockOffset ≤ blockSize) :
    Ends padBlockIfHeaderWouldNotFit e
      (fun _ e' => Appended e e' (zeros (padLen e.writer.blockOffset)) ∧
        e'.writer.blockOffset = startOf e.writer.blockOffset)
      fun _ e' => Stopped e e' (zeros (padLen e.writer.blockOffset)) ∧ e'.writer = e.writer := by
  unfold padBlockIfHeaderWouldNotFit padLen startOf
  refine Ends.read_bind ?_
  dsimp only
  split
  · refine Ends.bind (fileAppend_ends _ e) ?_ ?_
    · rintro - e₁ ⟨hw, hwr, hf⟩
      refine Ends.addU64_bind ?_ ?_
      · intro _
        refine Ends.update ⟨⟨hw, Nat.zero_le _, ?_, ?_, hf⟩, rfl⟩
        · simp only [zeros_length]
          rw [Nat.add_sub_cancel' ho]
          simp
        · simp
      · intro hover
        refine ⟨⟨⟨_, List.prefix_rfl, hw, fun _ => hwr⟩, .inr ?_⟩, hwr⟩
        rw [zeros_length]
        exact hover
    · rintro f e₁ ⟨hne, hwr, n, hw⟩
      exact ⟨⟨⟨_, List.take_prefix n _, hw, fun _ => hwr⟩, .inl hne⟩, hwr⟩
  · refine Ends.ret ⟨⟨Wrote.refl e, ho, rfl, rfl, id⟩, rfl⟩

theorem appendLoop_round {P : Unit → WalEnv → Prop} {Q : Fault → WalEnv → Prop} {fuel seqno : ℕ}
    {isFirst : Bool} {payload : Bytes} {e : WalEnv} {room : ℕ}
    (hroom : e.writer.blockOffset + recordHeaderSize + room = blockSize)
    (hlast : payload.length ≤ room →
      Ends (writeFragment (recordTypeOf isFirst true) seqno payload) e P Q)
    (hmore : room < payload.length →
      Ends (do
        writeFragment (recordTypeOf isFirst false) seqno (payload.take room)
        modify fun e => { e with writer := { e.writer with blockOffset := 0 } }
        appendLoop fuel false seqno (payload.drop room)) e P Q) :
    Ends (appendLoop (fuel + 1) isFirst seqno payload) e P Q := by
  have hr : blockSize - e.writer.blockOffset - recordHeaderSize = room := by omega
  rw [appendLoop]
  refine Ends.read_bind ?_
  dsimp only
  rw [hr]
  rcases Nat.lt_or_ge room payload.length with hlen | hlen
  · have hdec : decide (room = payload.length) = false := decide_eq_false hlen.ne
    have hne : payload.drop room ≠ [] := by
      rw [Ne, List.drop_eq_nil_iff]
      exact not_le.mpr hlen
    rw [min_eq_right hlen.le, hdec, if_neg hne]
    exact hmore hlen
  · rw [min_eq_left hlen, List.take_length, List.drop_length]
    simp only [decide_true, if_true]
    exact Ends.bind (hlast hlen) (fun _ _ h => Ends.ret h) (fun _ _ h => h)

theorem appendLoop_ends (seqno : ℕ) {fuel : ℕ} {isFirst : Bool} {payload : Bytes} {e : WalEnv}
    {room : ℕ} (hroom : e.writer.blockOffset + recordHeaderSize + room = blockSize)
    (hfuel : payload.length + (if room = 0 then 2 else 1) ≤ fuel) :
    Ends (appendLoop fuel isFirst seqno payload) e
      (fun _ e' => Appended e e' (fragmentsFrom isFirst seqno room payload))
      fun _ e' => Stopped e e' (fragmentsFrom isFirst seqno room payload) := by
  induction fuel generalizing isFirst payload e room with
  | zero =>
    split at hfuel <;> omega
  | succ fuel ih =>
    have hroom' : room < 65536 := by
      unfold blockSize at hroom
      omega
    refine appendLoop_round hroom ?_ ?_
    · -- the rest fits into the block
      intro hlen
      rw [fragmentsFrom, if_pos hlen]
      refine Ends.mono (writeFragment_ends _ seqno (hlen.trans_lt hroom') e) ?_ (fun _ _ h => h)
      rintro - e₁ ⟨hw, hwr, hf⟩
      refine ⟨hw, ?_, ?_, ?_, hf⟩
      · rw [hwr]
        dsimp only
        omega
      · rw [hwr, fragment_length]
      · rw [hwr, fragment_length]
    · -- a fragment fills the block
      intro hlen
      have htake : (payload.take room).length = room := by
        rw [List.length_take, min_eq_left hlen.le]
      rw [fragmentsFrom, if_neg (not_le.mpr hlen), restFragments_eq]
      refine Ends.bind (writeFragment_ends _ seqno (htake.trans_lt hroom') e) ?_ ?_
      · rintro - e₁ ⟨hw, hwr, hf⟩
        refine Ends.update_bind ?_
        -- the next fragment starts a block
        set e₂ : WalEnv := { e₁ with writer := { e₁.writer with blockOffset := 0 } } with he₂
        have hw₂ : Wrote e e₂ (fragment (recordTypeOf isFirst false) seqno (payload.take room)) := hw
        have hfull : e.writer.blockOffset + (recordHeaderSize + (payload.take room).length) =
            blockSize := by
          rw [htake]
          omega
        have hcount : e₂.writer.bytesWritten =
            e.writer.bytesWritten + (recordHeaderSize + (payload.take room).length) := by
          rw [he₂]
          exact congrArg SegmentWriter.bytesWritten hwr
        have hnext : (payload.drop room).length + (if maxFragmentPayload = 0 then 2 else 1) ≤ fuel := by
          rw [if_neg (by decide), List.length_drop]
          split at hfuel <;> omega
        have hstart : 0 + recordHeaderSize + maxFragmentPayload = blockSize := by decide
        refine Ends.mono (ih hstart hnext) ?_ ?_
        · intro _ e₃ h₃
          refine ⟨hw₂.trans h₃.wrote, h₃.offset_le, ?_, ?_, fun h => h₃.faultless (hf h)⟩
          · rw [h₃.offset, List.length_append, fragment_length, ← Nat.add_assoc, hfull,
              Nat.add_mod_left]
            show (0 + _) % _ = _
            rw [Nat.zero_add]
          · rw [h₃.counted, hcount, List.length_append, fragment_length, Nat.add_assoc]
        · intro _ e₃ h₃
          obtain ⟨⟨p, hp, hw₃, -⟩, hcause⟩ := h₃
          refine ⟨⟨_, (List.prefix_append_right_inj _).mpr hp, hw₂.trans hw₃, ?_⟩, ?_⟩
          · intro hlt
            rw [List.length_append, fragment_length] at hlt
            omega
          · rcases hcause with hne | hover
            · exact .inl fun h => hne (hf h)
            · refine .inr ?_
              rw [List.length_append, fragment_length, ← Nat.add_assoc, ← hcount]
              exact hover
      · intro _ e₁ h₁
        obtain ⟨⟨p, hp, hw, hsmall⟩, hcause⟩ := h₁
        refine ⟨⟨p, hp.trans (List.prefix_append _ _), hw, hsmall⟩, ?_⟩
        refine hcause.imp_right fun h => h.trans ?_
        rw [List.length_append]
        omega

/-- The call failed with a part of the record written. When that is nothing but
padding the writer counted, the next record starts in the right place. -/
structure RecordStopped (e e' : WalEnv) (p bs : Bytes) : Prop where
  part : p <+: bs
  wrote : Wrote e e' p
  cause : e.world.faults ≠ [] ∨ u64Size ≤ e.writer.bytesWritten + bs.length
  aligned : p = zeros (e'.writer.bytesWritten - e.writer.bytesWritten) →
    e'.writer.blockOffset ≤ blockSize ∧
    e'.writer.blockOffset % blockSize = (e.writer.blockOffset + p.length) % blockSize ∧
    (p = [] ∨ p = zeros (padLen e.writer.blockOffset))

theorem header_prefix_fragmentsFrom (isFirst : Bool) (seqno room : ℕ) (payload : Bytes) :
    ∃ h : RecordHeader, h.recordType ≠ 0 ∧ h.asBytes <+: fragmentsFrom isFirst seqno room payload := by
  unfold fragmentsFrom
  split
  · exact ⟨_, asByte_ne_zero _, List.prefix_append _ _⟩
  · refine ⟨_, asByte_ne_zero _, (List.prefix_append _ _).trans (List.prefix_append _ _)⟩

theorem zeros_prefix_lt {isFirst : Bool} {seqno room : ℕ} {payload p : Bytes}
    (hp : p <+: fragmentsFrom isFirst seqno room payload) (hz : ∀ b ∈ p, b = 0) :
    p.length < recordHeaderSize := by
  obtain ⟨h, ht, hh⟩ := header_prefix_fragmentsFrom isFirst seqno room payload
  by_contra hlt
  have hhp : h.asBytes <+: p := by
    refine List.prefix_of_prefix_length_le hh hp ?_
    rw [asBytes_length]
    omega
  exact asBytes_ne_zeros h ht fun b hb => hz b (hhp.subset hb)

theorem appendRecord_ends (seqno : ℕ) (payload : Bytes) (e : WalEnv)
    (ho : e.writer.blockOffset ≤ blockSize) :
    Ends (appendRecord seqno payload) e
      (fun _ e' => Appended e e' (recordBytes e.writer.blockOffset seqno payload))
      fun _ e' => ∃ p, RecordStopped e e' p (recordBytes e.writer.blockOffset seqno payload) := by
  unfold appendRecord recordBytes
  refine Ends.read_bind (Ends.bind (padBlock_ends e ho) ?_ ?_)
  · rintro - e₁ ⟨hpad, hstart⟩
    have hroom : e₁.writer.blockOffset + recordHeaderSize +
        (blockSize - startOf e.writer.blockOffset - recordHeaderSize) = blockSize := by
      have := startOf_le ho
      omega
    refine Ends.bind (appendLoop_ends seqno hroom ?_) ?_ ?_
    · split <;> omega
    · rintro - e₂ h₂
      refine Ends.ret ⟨hpad.wrote.trans h₂.wrote, h₂.offset_le, ?_, ?_,
        fun h => h₂.faultless (hpad.faultless h)⟩
      · rw [h₂.offset, Nat.add_mod, hpad.offset, ← Nat.add_mod, List.length_append,
          Nat.add_assoc]
      · rw [h₂.counted, hpad.counted, List.length_append, Nat.add_assoc]
    · rintro - e₂ ⟨⟨p, hp, hw, hsmall⟩, hcause⟩
      refine ⟨_, (List.prefix_append_right_inj _).mpr hp, hpad.wrote.trans hw, ?_, ?_⟩
      · rcases hcause with hne | hover
        · exact .inl fun h => hne (hpad.faultless h)
        · refine .inr ?_
          rw [List.length_append, ← Nat.add_assoc, ← hpad.counted]
          exact hover
      · intro hz
        have hzero : ∀ b ∈ p, b = 0 := by
          intro b hb
          have hmem : b ∈ zeros (e₂.writer.bytesWritten - e.writer.bytesWritten) := by
            rw [← hz]
            exact List.mem_append_right _ hb
          exact List.eq_of_mem_replicate hmem
        have hwr : e₂.writer = e₁.writer := hsmall (zeros_prefix_lt hp hzero)
        have hnil : p = [] := by
          have hlen := congrArg List.length hz
          rw [hwr, hpad.counted, List.length_append, zeros_length, zeros_length] at hlen
          exact List.eq_nil_of_length_eq_zero (by omega)
        rw [hwr, hnil, List.append_nil]
        exact ⟨hpad.offset_le, hpad.offset, .inr rfl⟩
  · rintro - e₁ ⟨⟨⟨p, hp, hw, -⟩, hcause⟩, hwr⟩
    refine ⟨p, hp.trans (List.prefix_append _ _), hw, ?_, ?_⟩
    · refine hcause.imp_right fun h => h.trans ?_
      rw [List.length_append]
      omega
    · intro hz
      have hnil : p = [] := by
        rw [hwr, Nat.sub_self] at hz
        exact hz
      rw [hwr, hnil]
      exact ⟨ho, rfl, .inl rfl⟩

end SegmentWriter

end PaddockKV.Wal
