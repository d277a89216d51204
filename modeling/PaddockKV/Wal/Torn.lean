import PaddockKV.Wal.Segment

/-!
# Appends that fail (`wal/writer.rs`)

An append that fails leaves a part of its bytes on file. What the reader makes of
the segment then depends on the next record: it comes out as long as it is put where
the last whole record and its padding end.
-/

namespace PaddockKV.Wal

open Io

/-- The file holds the header and whole records, behind them nothing but the padding
that the writer counted. -/
def Tidy (e : WalEnv) (header : SegmentHeader) (rs : List RecordView) : Prop :=
  ∃ pad sync, (pad = 0 ∨ pad = padLen ((layout 0 rs).length % blockSize)) ∧
    e.world.disk e.writer.file = some ⟨header.asBytes ++ (layout 0 rs ++ zeros pad), sync⟩ ∧
    e.writer.blockOffset ≤ blockSize ∧
    e.writer.blockOffset % blockSize = ((layout 0 rs).length + pad) % blockSize

/-- The file holds the header, whole records and then `p`. -/
def Leaves (e : WalEnv) (header : SegmentHeader) (rs : List RecordView) (p : Bytes) : Prop :=
  ∃ sync, e.world.disk e.writer.file = some ⟨header.asBytes ++ (layout 0 rs ++ p), sync⟩

section

variable {e : WalEnv} {header : SegmentHeader} {rs : List RecordView}

theorem Holds.tidy (h : Holds e header rs) : Tidy e header rs := by
  obtain ⟨s, hs⟩ := h.bytes
  refine ⟨0, s, .inl rfl, ?_, h.offset_le, ?_⟩
  · rw [hs, zeros, List.replicate_zero, List.append_nil]
  · rw [h.offset, Nat.add_zero]

theorem recordBytes_padded {o o' pad : ℕ} (ho' : o' ≤ blockSize)
    (hpad : pad = 0 ∨ pad = padLen (o % blockSize)) (h : o' % blockSize = (o + pad) % blockSize)
    (q : ℕ) (pl : Bytes) :
    recordBytes (o % blockSize) q pl = zeros pad ++ recordBytes o' q pl := by
  rw [← recordBytes_mod ho', h]
  have hcase : pad = 0 ∨ blockSize - o % blockSize < recordHeaderSize ∧
      pad = blockSize - o % blockSize := by
    rcases hpad with h0 | hp
    · exact .inl h0
    · unfold padLen at hp
      split at hp
      · rename_i hlt
        exact .inr ⟨hlt, hp⟩
      · exact .inl hp
  rcases hcase with rfl | ⟨hlt, rfl⟩
  · rw [Nat.add_zero]
    rfl
  · -- the padding fills the block
    have hmod : o % blockSize < blockSize := Nat.mod_lt _ (by decide)
    have hfull : (o + (blockSize - o % blockSize)) % blockSize = 0 := by
      rw [Nat.add_mod, ← Nat.mod_add_mod, Nat.mod_mod]
      have hsum : (o % blockSize + (blockSize - o % blockSize)) % blockSize = 0 := by
        rw [Nat.add_sub_cancel' hmod.le, Nat.mod_self]
      rwa [Nat.add_mod, Nat.mod_mod] at hsum
    rw [hfull]
    unfold recordBytes padLen startOf
    rw [if_pos hlt, if_pos hlt]
    rfl

namespace SegmentWriter

theorem appendRecord_tidy (h : Tidy e header rs) (q : ℕ) (pl : Bytes) :
    Ends (appendRecord q pl) e
      (fun _ e' => Tidy e' header (rs ++ [⟨q, pl⟩]) ∧ e'.writer.file = e.writer.file)
      fun _ e' => e'.writer.file = e.writer.file ∧
        ∃ p, p <+: recordBytes ((layout 0 rs).length % blockSize) q pl ∧ Leaves e' header rs p := by
  obtain ⟨pad, sync, hpad, hdisk, hle, hoff⟩ := h
  have hbytes := recordBytes_padded hle hpad hoff q pl
  refine Ends.mono (appendRecord_ends q pl e hle) ?_ ?_
  · intro _ e' ha
    obtain ⟨hfile, evs, happ, hlog⟩ := ha.wrote
    obtain ⟨s', -, hd⟩ := diskOf_appends happ hdisk
    refine ⟨⟨0, s', .inl rfl, ?_, ha.offset_le, ?_⟩, hfile⟩
    · unfold World.disk
      rw [hfile, hlog, hd, Function.update_self, layout_snoc, hbytes]
      simp [zeros, List.append_assoc]
    · rw [ha.offset, Nat.add_mod, hoff, ← Nat.add_mod, layout_snoc, hbytes, List.length_append,
        List.length_append, zeros, List.length_replicate, Nat.add_zero, Nat.add_assoc]
  · rintro _ e' ⟨p, hp⟩
    obtain ⟨hfile, evs, happ, hlog⟩ := hp.wrote
    obtain ⟨s', -, hd⟩ := diskOf_appends happ hdisk
    refine ⟨hfile, zeros pad ++ p, ?_, s', ?_⟩
    · rw [hbytes]
      exact (List.prefix_append_right_inj _).mpr hp.part
    · unfold World.disk
      rw [hfile, hlog, hd, Function.update_self]
      simp only [List.append_assoc]

end SegmentWriter

theorem reads_leaves (header : SegmentHeader) {q : ℕ} {pl p : Bytes}
    (hp : p <+: recordBytes ((layout 0 rs).length % blockSize) q pl)
    (hrs : ∀ r ∈ rs, r.seqno < u64Size) (hq : q < u64Size) :
    ∃ vs out, (vs = rs ∨ p = recordBytes ((layout 0 rs).length % blockSize) q pl ∧
        vs = rs ++ [⟨q, pl⟩]) ∧
      SegmentReader.Reads (header.asBytes ++ (layout 0 rs ++ p)) 0 vs out := by
  have hdrop := drop_header header (layout 0 rs ++ p)
  have hlen : segmentHeaderSize + 0 ≤ (header.asBytes ++ (layout 0 rs ++ p)).length := by
    rw [List.length_append, segmentHeader_length]
    omega
  have hp' : p <+: recordBytes ((0 + (layout (0 % blockSize) rs).length) % blockSize) q pl := by
    rw [Nat.zero_add]
    exact hp
  rcases SegmentReader.reads_layout hdrop hlen hrs hp' hq with ⟨out, hout, -⟩ | ⟨hfull, hout⟩
  · exact ⟨rs, out, .inl rfl, hout⟩
  · rw [Nat.zero_add] at hfull
    exact ⟨_, .clean, .inr ⟨hfull, rfl⟩, hout⟩

end

/-! ### Outcomes -/

/-- What reaches a file of the chunks that are appended one after the other. -/
def reaching : List Outcome → List Bytes → Bytes
  | _, [] => []
  | [], c :: cs => c ++ reaching [] cs
  | .done :: os, c :: cs => c ++ reaching os cs
  | .failed n :: _, c :: _ => c.take n

theorem reaching_prefix (faults : List Outcome) (cs : List Bytes) :
    reaching faults cs <+: cs.flatten := by
  induction cs generalizing faults with
  | nil => simp [reaching]
  | cons c cs ih =>
    rw [List.flatten_cons]
    cases faults with
    | nil => exact (List.prefix_append_right_inj c).mpr (ih [])
    | cons o faults =>
      cases o with
      | done => exact (List.prefix_append_right_inj c).mpr (ih faults)
      | failed n => exact (List.take_prefix n c).trans (List.prefix_append _ _)

def fragmentAppends (t : RecordType) (seqno : ℕ) (payload : Bytes) : List Bytes :=
  [((RecordHeader.new t seqno payload.length).sign payload).asBytes, payload]

def restAppends (seqno : ℕ) (payload : Bytes) : List Bytes :=
  if payload.length ≤ maxFragmentPayload then fragmentAppends .last seqno payload
  else fragmentAppends .middle seqno (payload.take maxFragmentPayload) ++
    restAppends seqno (payload.drop maxFragmentPayload)
termination_by payload.length
decreasing_by
  rw [List.length_drop]
  have : 0 < maxFragmentPayload := by decide
  omega

def appendsFrom (isFirst : Bool) (seqno room : ℕ) (payload : Bytes) : List Bytes :=
  if payload.length ≤ room then
    fragmentAppends (SegmentWriter.recordTypeOf isFirst true) seqno payload
  else
    fragmentAppends (SegmentWriter.recordTypeOf isFirst false) seqno (payload.take room) ++
      restAppends seqno (payload.drop room)

def padAppends (o : ℕ) : List Bytes :=
  if blockSize - o < recordHeaderSize then [zeros (blockSize - o)] else []

/-- The appends of a record at offset `o` of a block: its padding, and the header and
the payload of each fragment. -/
def recordAppends (o seqno : ℕ) (payload : Bytes) : List Bytes :=
  padAppends o ++ appendsFrom true seqno (blockSize - startOf o - recordHeaderSize) payload

theorem restAppends_eq (seqno : ℕ) (payload : Bytes) :
    restAppends seqno payload = appendsFrom false seqno maxFragmentPayload payload := by
  rw [restAppends]
  rfl

theorem fragmentAppends_flatten (t : RecordType) (seqno : ℕ) (payload : Bytes) :
    (fragmentAppends t seqno payload).flatten = fragment t seqno payload := by
  simp [fragmentAppends, fragment]

theorem restAppends_flatten (seqno : ℕ) (payload : Bytes) :
    (restAppends seqno payload).flatten = restFragments seqno payload := by
  fun_induction restAppends seqno payload with
  | case1 payload h => rw [restFragments, if_pos h, fragmentAppends_flatten]
  | case2 payload h ih =>
    rw [restFragments, if_neg h, List.flatten_append, fragmentAppends_flatten, ih]

theorem recordAppends_flatten (o seqno : ℕ) (payload : Bytes) :
    (recordAppends o seqno payload).flatten = recordBytes o seqno payload := by
  have hpad : (padAppends o).flatten = zeros (padLen o) := by
    unfold padAppends padLen
    split <;> simp [zeros]
  rw [recordAppends, List.flatten_append, hpad, recordBytes, appendsFrom, fragmentsFrom]
  split
  · rw [fragmentAppends_flatten]
  · rw [List.flatten_append, fragmentAppends_flatten, restAppends_flatten]

/-- The call made the appends `cs`; those to come find the outcomes that are left. -/
structure Did (e e' : WalEnv) (cs : List Bytes) : Prop where
  wrote : Wrote e e' cs.flatten
  left : ∀ ds, reaching e.world.faults (cs ++ ds) = cs.flatten ++ reaching e'.world.faults ds

/-- One of the appends `cs` failed, and none was made after it. -/
def Broke (f : Fault) (e e' : WalEnv) (cs : List Bytes) : Prop :=
  (∃ msg, f = .panicked msg) ∨ ∀ ds, Wrote e e' (reaching e.world.faults (cs ++ ds))

section

variable {e e₁ e₂ : WalEnv} {cs ds : List Bytes} {f : Fault}

theorem Did.refl (e : WalEnv) : Did e e [] := ⟨Wrote.refl e, fun _ => rfl⟩

theorem Did.trans (h : Did e e₁ cs) (h' : Did e₁ e₂ ds) : Did e e₂ (cs ++ ds) := by
  refine ⟨?_, ?_⟩
  · rw [List.flatten_append]
    exact h.wrote.trans h'.wrote
  · intro rest
    rw [List.append_assoc, h.left, h'.left, List.flatten_append, List.append_assoc]

theorem Did.counted {w : SegmentWriter} (h : Did e e₁ cs) (hfile : w.file = e₁.writer.file) :
    Did e { e₁ with writer := w } cs :=
  ⟨⟨hfile.trans h.wrote.1, h.wrote.2⟩, h.left⟩

theorem Did.broke (h : Did e e₁ cs) (h' : Broke f e₁ e₂ ds) : Broke f e e₂ (cs ++ ds) := by
  rcases h' with hpanic | hwrote
  · exact .inl hpanic
  · refine .inr fun rest => ?_
    rw [List.append_assoc, h.left]
    exact h.wrote.trans (hwrote rest)

theorem Broke.before (h : Broke f e e₁ cs) (ds : List Bytes) : Broke f e e₁ (cs ++ ds) := by
  refine h.imp_right fun hwrote rest => ?_
  rw [List.append_assoc]
  exact hwrote _

end

namespace SegmentWriter

theorem fileAppend_did (data : Bytes) (e : WalEnv) :
    Ends (fileAppend data) e (fun _ e' => Did e e' [data]) fun f e' => Broke f e e' [data] := by
  obtain ⟨writer, log, faults⟩ := e
  have hwrote : ∀ bs faults', Wrote ⟨writer, log, faults⟩
      ⟨writer, .append writer.file bs :: log, faults'⟩ bs :=
    fun bs _ => ⟨rfl, _, Appends.nil.append bs, rfl⟩
  unfold Ends
  cases faults with
  | nil =>
    refine ⟨?_, ?_⟩
    · rw [List.flatten_singleton]
      exact hwrote data []
    · intro ds
      rw [List.flatten_singleton]
      rfl
  | cons o faults =>
    cases o with
    | done =>
      refine ⟨?_, ?_⟩
      · rw [List.flatten_singleton]
        exact hwrote data faults
      · intro ds
        rw [List.flatten_singleton]
        rfl
    | failed n => exact .inr fun ds => hwrote (data.take n) faults

theorem writeFragment_did (t : RecordType) (seqno : ℕ) {payload : Bytes}
    (hlen : payload.length < 65536) (e : WalEnv) :
    Ends (writeFragment t seqno payload) e
      (fun _ e' => Did e e' (fragmentAppends t seqno payload))
      fun f e' => Broke f e e' (fragmentAppends t seqno payload) := by
  unfold writeFragment
  rw [Nat.mod_eq_of_lt hlen]
  refine Ends.bind (fileAppend_did _ e) ?_ (fun _ _ hbroke => hbroke.before [payload])
  intro _ e₁ h₁
  refine Ends.bind (fileAppend_did _ e₁) ?_ (fun _ _ hbroke => h₁.broke hbroke)
  intro _ e₂ h₂
  refine Ends.update_bind (Ends.read_bind (Ends.addU64_bind ?_ ?_))
  · intro _
    exact Ends.update ((h₁.trans h₂).counted rfl)
  · intro _
    exact .inl ⟨_, rfl⟩

theorem padBlock_did (e : WalEnv) :
    Ends padBlockIfHeaderWouldNotFit e
      (fun _ e' => Did e e' (padAppends e.writer.blockOffset))
      fun f e' => Broke f e e' (padAppends e.writer.blockOffset) := by
  unfold padBlockIfHeaderWouldNotFit padAppends
  refine Ends.read_bind ?_
  dsimp only
  split
  · refine Ends.bind (fileAppend_did _ e) ?_ (fun _ _ hbroke => hbroke)
    intro _ e₁ h₁
    refine Ends.addU64_bind ?_ ?_
    · intro _
      exact Ends.update (h₁.counted rfl)
    · intro _
      exact .inl ⟨_, rfl⟩
  · exact Ends.ret (Did.refl e)

theorem appendLoop_did (seqno : ℕ) {fuel : ℕ} {isFirst : Bool} {payload : Bytes} {e : WalEnv}
    {room : ℕ} (hroom : e.writer.blockOffset + recordHeaderSize + room = blockSize)
    (hfuel : payload.length + (if room = 0 then 2 else 1) ≤ fuel) :
    Ends (appendLoop fuel isFirst seqno payload) e
      (fun _ e' => Did e e' (appendsFrom isFirst seqno room payload))
      fun f e' => Broke f e e' (appendsFrom isFirst seqno room payload) := by
  induction fuel generalizing isFirst payload e room with
  | zero =>
    split at hfuel <;> omega
  | succ fuel ih =>
    have hroom' : room < 65536 := by
      unfold blockSize at hroom
      omega
    refine appendLoop_round hroom ?_ ?_
    · intro hlen
      rw [appendsFrom, if_pos hlen]
      exact writeFragment_did _ seqno (hlen.trans_lt hroom') e
    · intro hlen
      have htake : (payload.take room).length < 65536 :=
        (List.length_take_le _ _).trans_lt hroom'
      rw [appendsFrom, if_neg (not_le.mpr hlen), restAppends_eq]
      refine Ends.bind (writeFragment_did _ seqno htake e) ?_ (fun _ _ hbroke => hbroke.before _)
      intro _ e₁ h₁
      refine Ends.update_bind ?_
      have hnext : (payload.drop room).length + (if maxFragmentPayload = 0 then 2 else 1) ≤ fuel := by
        rw [if_neg (by decide), List.length_drop]
        split at hfuel <;> omega
      have hstart : 0 + recordHeaderSize + maxFragmentPayload = blockSize := by decide
      have hreset : Did e { e₁ with writer := { e₁.writer with blockOffset := 0 } } _ :=
        h₁.counted rfl
      refine Ends.mono (ih hstart hnext) ?_ ?_
      · intro _ e₂ h₂
        exact hreset.trans h₂
      · intro _ e₂ h₂
        exact hreset.broke h₂

theorem appendRecord_reaching (seqno : ℕ) (payload : Bytes) (e : WalEnv)
    (ho : e.writer.blockOffset ≤ blockSize) :
    Ends (appendRecord seqno payload) e
      (fun _ _ => reaching e.world.faults (recordAppends e.writer.blockOffset seqno payload) =
        recordBytes e.writer.blockOffset seqno payload)
      fun f e' => (∃ msg, f = .panicked msg) ∨ Wrote e e'
        (reaching e.world.faults (recordAppends e.writer.blockOffset seqno payload)) := by
  have hdid : Ends (appendRecord seqno payload) e
      (fun _ e' => Did e e' (recordAppends e.writer.blockOffset seqno payload))
      fun f e' => Broke f e e' (recordAppends e.writer.blockOffset seqno payload) := by
    unfold appendRecord recordAppends
    refine Ends.read_bind (Ends.bind (Ends.and (padBlock_did e) (padBlock_ends e ho)) ?_ ?_)
    · rintro _ e₁ ⟨hpad, -, hstart⟩
      have hroom : e₁.writer.blockOffset + recordHeaderSize +
          (blockSize - startOf e.writer.blockOffset - recordHeaderSize) = blockSize := by
        have := startOf_le ho
        omega
      refine Ends.bind (appendLoop_did seqno hroom ?_) ?_ (fun _ _ hbroke => hpad.broke hbroke)
      · split <;> omega
      · intro _ e₂ h₂
        exact Ends.ret (hpad.trans h₂)
    · rintro _ e₁ ⟨hbroke, -⟩
      exact hbroke.before _
  refine Ends.mono hdid ?_ ?_
  · intro _ e' h
    have hall := h.left []
    rw [List.append_nil, recordAppends_flatten] at hall
    rw [hall]
    simp [reaching]
  · intro f e' hbroke
    refine hbroke.imp_right fun hwrote => ?_
    have hall := hwrote []
    rwa [List.append_nil] at hall

end SegmentWriter

end PaddockKV.Wal
