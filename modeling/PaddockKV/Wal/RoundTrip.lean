import PaddockKV.Wal.Reader

/-!
# Reading a segment back

The records area of a segment is a sequence of whole records (`layout`) and
then `p`, a prefix of one more record: what a crash or a failed append leaves.
The reader returns the whole records in order and then stops without an error;
the last one too, if `p` is all of it.
-/

namespace PaddockKV.Wal

open Io

/-- Whole records from offset `o` of a block on. -/
def layout (o : ℕ) : List RecordView → Bytes
  | [] => []
  | r :: rs =>
    recordBytes o r.seqno r.payload ++
      layout ((o + (recordBytes o r.seqno r.payload).length) % blockSize) rs

theorem layout_append {o : ℕ} (ho : o < blockSize) (rs : List RecordView) (r : RecordView) :
    layout o (rs ++ [r]) = layout o rs ++
      recordBytes ((o + (layout o rs).length) % blockSize) r.seqno r.payload := by
  induction rs generalizing o with
  | nil => simp [layout, Nat.mod_eq_of_lt ho]
  | cons x rs ih =>
    rw [List.cons_append, layout, layout, ih (Nat.mod_lt _ (by decide)), List.append_assoc,
      List.length_append]
    congr 3
    rw [Nat.mod_add_mod, Nat.add_assoc]

namespace SegmentReader

/-- The header a fragment carries. -/
def headerOf (t : RecordType) (seqno : ℕ) (payload : Bytes) : RecordHeader :=
  (RecordHeader.new t seqno payload.length).sign payload

theorem fragment_eq (t : RecordType) (seqno : ℕ) (payload : Bytes) :
    fragment t seqno payload = (headerOf t seqno payload).asBytes ++ payload := rfl

theorem maxFragmentPayload_lt : maxFragmentPayload < 65536 := by decide

theorem readHeader {file : Bytes} {c : ℕ} {t : RecordType} {q : ℕ} {pl : Bytes}
    (h : At file (segmentHeaderSize + c) (headerOf t q pl).asBytes)
    (hlen : pl.length ≤ maxFragmentPayload) (hq : q < u64Size) :
    ∃ b, readAt file (segmentHeaderSize + c) recordHeaderSize = .ok b ∧ b.all (· = 0) = false ∧
      RecordHeader.refFromBytes b = headerOf t q pl := by
  have hne : (headerOf t q pl).asBytes ≠ [] := by
    intro hnil
    have := asBytes_length (headerOf t q pl)
    rw [hnil] at this
    cases this
  have hbound := h.bound hne
  have hread := h.readAt (by omega)
  rw [asBytes_length] at hread
  refine ⟨_, hread, ?_, ?_⟩
  · rw [← Bool.not_eq_true, List.all_eq_true]
    intro hz
    refine asBytes_ne_zeros (headerOf t q pl) (asByte_ne_zero t) ?_
    intro b hb
    simpa using hz b hb
  · exact refFromBytes_asBytes (expectedCrc_lt _ _) (hlen.trans_lt maxFragmentPayload_lt) hq

theorem readFragment_got {file : Bytes} {c : ℕ} {t : RecordType} {q : ℕ} {pl : Bytes}
    (h : At file (segmentHeaderSize + c) (fragment t q pl))
    (hlen : pl.length ≤ maxFragmentPayload) (hq : q < u64Size) :
    readFragment file c = .ok (.got ⟨t, q, pl⟩) := by
  obtain ⟨b, hread, hall, hhead⟩ := readHeader h.left hlen hq
  have hbound : segmentHeaderSize + c + (recordHeaderSize + pl.length) ≤ file.length := by
    have := h.bound (by
      intro hnil
      have := fragment_length t q pl
      rw [hnil, List.length_nil] at this
      have : 0 < recordHeaderSize := by decide
      omega)
    rwa [fragment_length] at this
  have hpay := h.right
  rw [asBytes_length] at hpay
  have hreadp := hpay.readAt (by omega)
  have hl : (headerOf t q pl).length = pl.length := rfl
  have hcrc : (headerOf t q pl).expectedCrc pl = (headerOf t q pl).payloadCrc32c := rfl
  have htype : RecordType.fromByte (headerOf t q pl).recordType = some t := fromByte_asByte t
  have hsmall : ¬ maxFragmentPayload < pl.length := not_lt.mpr hlen
  have hin : ¬ file.length < segmentHeaderSize + c + recordHeaderSize + pl.length := by omega
  simp only [readFragment, hread, hall, hhead, bind, Except.bind, Bool.false_eq_true, if_false,
    if_neg hsmall, hl, if_neg hin, hreadp, hcrc, htype, ne_eq, not_true_eq_false]
  rfl

theorem readFragment_short {file : Bytes} {c : ℕ} {t : RecordType} {q : ℕ} {pl : Bytes}
    (h : At file (segmentHeaderSize + c) (headerOf t q pl).asBytes)
    (hlen : pl.length ≤ maxFragmentPayload) (hq : q < u64Size)
    (hshort : file.length < segmentHeaderSize + c + recordHeaderSize + pl.length) :
    readFragment file c = .ok (.tornTail "fragment payload truncated by segment EOF") := by
  obtain ⟨b, hread, hall, hhead⟩ := readHeader h hlen hq
  have hl : (headerOf t q pl).length = pl.length := rfl
  have hsmall : ¬ maxFragmentPayload < pl.length := not_lt.mpr hlen
  simp only [readFragment, hread, hall, hhead, bind, Except.bind, Bool.false_eq_true, if_false,
    if_neg hsmall, hl, if_pos hshort]
  rfl

/-! ### One record -/

theorem skip_of_room {c : ℕ} (file : Bytes) (h : c % blockSize + recordHeaderSize ≤ blockSize) :
    skipBlockPaddingIfNeeded file c = c := by
  unfold skipBlockPaddingIfNeeded
  dsimp only
  rw [if_neg]
  omega

/-- The assembly state before a fragment of a record at `q`, of which `acc` was read. -/
def started (isFirst : Bool) (q : ℕ) (acc : Bytes) : Option RecordView :=
  if isFirst then none else some ⟨q, acc⟩

theorem assemble_last {isFirst : Bool} {acc : Bytes} (h : isFirst = true → acc = []) (q : ℕ)
    (pl : Bytes) : assemble (started isFirst q acc)
      ⟨SegmentWriter.recordTypeOf isFirst true, q, pl⟩ = .ok (.complete ⟨q, acc ++ pl⟩) := by
  cases isFirst with
  | true =>
    rw [h rfl]
    rfl
  | false => simp [started, assemble, SegmentWriter.recordTypeOf]

theorem assemble_more {isFirst : Bool} {acc : Bytes} (h : isFirst = true → acc = []) (q : ℕ)
    (pl : Bytes) : assemble (started isFirst q acc)
      ⟨SegmentWriter.recordTypeOf isFirst false, q, pl⟩ = .ok (.more ⟨q, acc ++ pl⟩) := by
  cases isFirst with
  | true =>
    rw [h rfl]
    rfl
  | false => simp [started, assemble, SegmentWriter.recordTypeOf]

theorem nextLoop_got {file : Bytes} {start fuel c : ℕ} {asm : Option RecordView} {t : RecordType}
    {q : ℕ} {pl : Bytes} (hroom : c % blockSize + recordHeaderSize ≤ blockSize)
    (hat : At file (segmentHeaderSize + c) (fragment t q pl))
    (hlen : pl.length ≤ maxFragmentPayload) (hq : q < u64Size) :
    nextLoop file start (fuel + 1) asm c = do
      match ← assemble asm ⟨t, q, pl⟩ with
      | .more state =>
        nextLoop file start fuel (some state) (c + recordHeaderSize + pl.length)
      | .complete view => return (.record view, c + recordHeaderSize + pl.length) := by
  have hbound : segmentHeaderSize + c + (recordHeaderSize + pl.length) ≤ file.length := by
    have hne : fragment t q pl ≠ [] := by
      intro hnil
      have hlen := fragment_length t q pl
      rw [hnil, List.length_nil, recordHeaderSize] at hlen
      omega
    have := hat.bound hne
    rwa [fragment_length] at this
  have hin : ¬ areaEnd file < c + recordHeaderSize := by
    unfold areaEnd
    omega
  rw [nextLoop]
  simp only [skip_of_room file hroom, if_neg hin, readFragment_got hat hlen hq]
  rfl

theorem next_block {c room : ℕ} (h : c % blockSize + recordHeaderSize + room = blockSize) :
    (c + recordHeaderSize + room) % blockSize = 0 := by
  have hsum : c + recordHeaderSize + room = blockSize * (c / blockSize) + blockSize := by
    have := Nat.div_add_mod c blockSize
    omega
  rw [hsum, ← Nat.mul_succ, Nat.mul_mod_right]

theorem nextLoop_fragments {file : Bytes} {start fuel c : ℕ} {isFirst : Bool} {q room : ℕ}
    {acc pl : Bytes} (hacc : isFirst = true → acc = [])
    (hroom : c % blockSize + recordHeaderSize + room = blockSize)
    (hat : At file (segmentHeaderSize + c) (fragmentsFrom isFirst q room pl)) (hq : q < u64Size)
    (hfuel : pl.length + (if room = 0 then 2 else 1) ≤ fuel) :
    nextLoop file start fuel (started isFirst q acc) c =
      .ok (.record ⟨q, acc ++ pl⟩, c + (fragmentsFrom isFirst q room pl).length) := by
  induction fuel generalizing isFirst acc pl c room with
  | zero =>
    split at hfuel <;> omega
  | succ fuel ih =>
    have hmax : room ≤ maxFragmentPayload := by
      unfold maxFragmentPayload
      omega
    by_cases hlen : pl.length ≤ room
    · rw [fragmentsFrom, if_pos hlen] at hat ⊢
      rw [nextLoop_got (by omega) hat (hlen.trans hmax) hq, assemble_last hacc, fragment_length,
        Nat.add_assoc]
      rfl
    · rw [fragmentsFrom, if_neg hlen] at hat ⊢
      have htake : (pl.take room).length = room := by
        rw [List.length_take]
        omega
      have hnext := next_block hroom
      have hpos : segmentHeaderSize + c + (recordHeaderSize + room) =
          segmentHeaderSize + (c + recordHeaderSize + room) := by omega
      have hat' := hat.right
      rw [fragment_length, htake, restFragments_eq, hpos] at hat'
      have hrec : nextLoop file start fuel (started false q (acc ++ pl.take room))
          (c + recordHeaderSize + room) = .ok (.record ⟨q, acc ++ pl.take room ++ pl.drop room⟩,
            c + recordHeaderSize + room +
              (fragmentsFrom false q maxFragmentPayload (pl.drop room)).length) := by
        refine ih (fun h => by cases h) ?_ hat' ?_
        · rw [hnext]
          decide
        · rw [if_neg (by decide), List.length_drop]
          split at hfuel <;> omega
      rw [nextLoop_got (by omega) hat.left (by rw [htake]; exact hmax) hq, assemble_more hacc, htake]
      refine hrec.trans ?_
      rw [List.append_assoc, List.take_append_drop, List.length_append, fragment_length, htake,
        restFragments_eq, ← Nat.add_assoc, ← Nat.add_assoc]

theorem nextLoop_skip {file : Bytes} {start fuel c c' : ℕ} {asm : Option RecordView}
    (h : skipBlockPaddingIfNeeded file c = c')
    (hroom : c' % blockSize + recordHeaderSize ≤ blockSize) :
    nextLoop file start (fuel + 1) asm c = nextLoop file start (fuel + 1) asm c' := by
  rw [nextLoop, nextLoop, h, skip_of_room file hroom]

theorem mod_add_padLen (c : ℕ) :
    (c + padLen (c % blockSize)) % blockSize = startOf (c % blockSize) := by
  have hlt : c % blockSize < blockSize := Nat.mod_lt _ (by decide)
  have hstart : startOf (c % blockSize) < blockSize := by
    have := startOf_le hlt.le
    unfold recordHeaderSize at this
    omega
  rw [Nat.add_mod, ← Nat.mod_mod c, ← Nat.add_mod, Nat.mod_mod, padLen_mod hlt.le,
    Nat.mod_eq_of_lt hstart]

theorem skip_padding {file : Bytes} {c : ℕ} (h : c + padLen (c % blockSize) ≤ areaEnd file) :
    skipBlockPaddingIfNeeded file c = c + padLen (c % blockSize) := by
  unfold skipBlockPaddingIfNeeded padLen at *
  dsimp only
  split at h
  · rename_i hpad
    rw [if_pos ⟨hpad, h⟩, if_pos hpad]
  · rename_i hpad
    rw [if_neg (fun hc => hpad hc.1), if_neg hpad, Nat.add_zero]

theorem fragmentsFrom_ne_nil (isFirst : Bool) (q room : ℕ) (pl : Bytes) :
    fragmentsFrom isFirst q room pl ≠ [] := by
  obtain ⟨h, -, hh⟩ := SegmentWriter.header_prefix_fragmentsFrom isFirst q room pl
  intro hnil
  rw [hnil, List.prefix_nil] at hh
  have := asBytes_length h
  rw [hh] at this
  cases this

theorem nextLoop_record {file : Bytes} {start c o room q : ℕ} {pl : Bytes}
    (ho : c % blockSize = o) (hroom : startOf o + recordHeaderSize + room = blockSize)
    (hat : At file (segmentHeaderSize + c) (zeros (padLen o) ++ fragmentsFrom true q room pl))
    (hq : q < u64Size) : nextLoop file start (file.length + 2) none c =
      .ok (.record ⟨q, pl⟩, c + padLen o + (fragmentsFrom true q room pl).length) := by
  have hmod := mod_add_padLen c
  rw [ho] at hmod
  have hfrag := hat.right
  rw [zeros_length, Nat.add_assoc] at hfrag
  have hbound := hfrag.bound (fragmentsFrom_ne_nil true q room pl)
  have hlen := le_fragmentsFrom_length true q room pl
  have hskip : skipBlockPaddingIfNeeded file c = c + padLen o := by
    rw [← ho]
    refine skip_padding ?_
    unfold areaEnd
    rw [ho]
    omega
  have hfuel : pl.length + (if room = 0 then 2 else 1) ≤ file.length + 2 := by
    split <;> omega
  rw [nextLoop_skip hskip (by omega)]
  exact nextLoop_fragments (fun _ => rfl) (by rw [hmod]; exact hroom) hfrag hq hfuel

theorem nextRecord_record {file : Bytes} {c q : ℕ} {pl : Bytes}
    (hat : At file (segmentHeaderSize + c) (recordBytes (c % blockSize) q pl)) (hq : q < u64Size) :
    nextRecord ⟨file, c⟩ = .ok (.record ⟨q, pl⟩,
      ⟨file, c + (recordBytes (c % blockSize) q pl).length⟩) := by
  have hlt : c % blockSize ≤ blockSize := (Nat.mod_lt _ (by decide)).le
  have hstart := startOf_le hlt
  have hloop := @nextLoop_record file c c _ _ q pl rfl (by omega) hat hq
  unfold nextRecord
  rw [hloop]
  simp only [recordBytes, List.length_append, zeros_length, ← Nat.add_assoc]
  rfl

/-! ### A part of a record -/

/-- The reader stops without an error. -/
def Stops : ReadOutcome → Prop
  | .record _ => False
  | _ => True

theorem handleTail_stops {file : Bytes} {c : ℕ} (asm : Option RecordView) (start : ℕ)
    (hc : segmentHeaderSize + c ≤ file.length) :
    ∃ out, handleTail file asm start c = .ok out ∧ Stops out := by
  cases asm with
  | some view => exact ⟨_, rfl, trivial⟩
  | none =>
    have hin : ¬ file.length < segmentHeaderSize + c + (areaEnd file - c) := by
      unfold areaEnd
      omega
    simp only [handleTail, readAt, if_neg hin, bind, Except.bind]
    split
    · exact ⟨_, rfl, trivial⟩
    · split <;> exact ⟨_, rfl, trivial⟩

theorem nextLoop_tail {file : Bytes} {c : ℕ} (start fuel : ℕ) (asm : Option RecordView)
    (hc : segmentHeaderSize + c ≤ file.length)
    (hskip : skipBlockPaddingIfNeeded file c = c) (hshort : areaEnd file < c + recordHeaderSize) :
    ∃ out c', nextLoop file start (fuel + 1) asm c = .ok (out, c') ∧ Stops out := by
  obtain ⟨out, hout, hstops⟩ := handleTail_stops asm start hc
  refine ⟨out, c, ?_, hstops⟩
  rw [nextLoop]
  simp only [hskip, if_pos hshort, hout]
  rfl

theorem nextLoop_short {file : Bytes} {c : ℕ} (start fuel : ℕ) (asm : Option RecordView)
    {t : RecordType} {q : ℕ} {pl : Bytes} (hroom : c % blockSize + recordHeaderSize ≤ blockSize)
    (hat : At file (segmentHeaderSize + c) (headerOf t q pl).asBytes)
    (hlen : pl.length ≤ maxFragmentPayload) (hq : q < u64Size)
    (hin : c + recordHeaderSize ≤ areaEnd file)
    (hshort : file.length < segmentHeaderSize + c + recordHeaderSize + pl.length) :
    ∃ out c', nextLoop file start (fuel + 1) asm c = .ok (out, c') ∧ Stops out := by
  refine ⟨.tornTail start "fragment payload truncated by segment EOF", c, ?_, trivial⟩
  rw [nextLoop]
  simp only [skip_of_room file hroom, if_neg (not_lt.mpr hin),
    readFragment_short hat hlen hq hshort]
  rfl

theorem prefix_fragment {t : RecordType} {q : ℕ} {pl p : Bytes} (rest : Bytes)
    (hp : p <+: fragment t q pl ++ rest) (hlen : recordHeaderSize ≤ p.length) :
    (headerOf t q pl).asBytes <+: p ∧ (p.length < recordHeaderSize + pl.length ∨
      ∃ p', p = fragment t q pl ++ p' ∧ p' <+: rest) := by
  constructor
  · refine List.prefix_of_prefix_length_le ((List.prefix_append _ pl).trans
      (List.prefix_append _ rest)) hp ?_
    rw [asBytes_length]
    exact hlen
  · by_cases hfull : p.length < recordHeaderSize + pl.length
    · exact .inl hfull
    · right
      have hpre : fragment t q pl <+: p := by
        refine List.prefix_of_prefix_length_le (List.prefix_append _ rest) hp ?_
        rw [fragment_length]
        omega
      obtain ⟨p', rfl⟩ := hpre
      exact ⟨p', rfl, (List.prefix_append_right_inj _).mp hp⟩

theorem nextLoop_part {file : Bytes} {start fuel c : ℕ} {isFirst : Bool} {q room : ℕ}
    {acc pl p : Bytes} (hacc : isFirst = true → acc = [])
    (hroom : c % blockSize + recordHeaderSize + room = blockSize)
    (hfile : file.drop (segmentHeaderSize + c) = p) (hc : segmentHeaderSize + c ≤ file.length)
    (hp : p <+: fragmentsFrom isFirst q room pl) (hq : q < u64Size)
    (hfuel : p.length < fuel) :
    ∃ out c', nextLoop file start fuel (started isFirst q acc) c = .ok (out, c') ∧
      (Stops out ∨ p = fragmentsFrom isFirst q room pl ∧ out = .record ⟨q, acc ++ pl⟩ ∧
        c' = c + p.length) := by
  induction fuel generalizing isFirst acc pl c room p with
  | zero => omega
  | succ fuel ih =>
    have hplen : file.length = segmentHeaderSize + c + p.length := by
      rw [← hfile, List.length_drop]
      omega
    have hend : areaEnd file = c + p.length := by
      unfold areaEnd
      omega
    have hskip := skip_of_room file (show c % blockSize + recordHeaderSize ≤ blockSize by omega)
    have hmax : room ≤ maxFragmentPayload := by
      unfold maxFragmentPayload
      omega
    by_cases hhead : p.length < recordHeaderSize
    · obtain ⟨out, c', hout, hstops⟩ := nextLoop_tail start fuel (started isFirst q acc) hc hskip
        (by omega)
      exact ⟨out, c', hout, .inl hstops⟩
    have hat : ∀ {bs}, bs <+: p → At file (segmentHeaderSize + c) bs := by
      intro bs hbs
      unfold At
      rw [hfile]
      exact hbs
    by_cases hlen : pl.length ≤ room
    · rw [fragmentsFrom, if_pos hlen] at hp ⊢
      obtain ⟨hh, hshort | ⟨p', rfl, hp'⟩⟩ := prefix_fragment []
        (by rwa [List.append_nil]) (not_lt.mp hhead)
      · obtain ⟨out, c', hout, hstops⟩ := nextLoop_short start fuel (started isFirst q acc)
          (by omega) (hat hh) (hlen.trans hmax) hq (by omega) (by omega)
        exact ⟨out, c', hout, .inl hstops⟩
      · obtain rfl : p' = [] := List.prefix_nil.mp hp'
        rw [List.append_nil] at hat ⊢
        refine ⟨_, _, ?_, .inr ⟨rfl, rfl, rfl⟩⟩
        rw [nextLoop_got (by omega) (hat List.prefix_rfl) (hlen.trans hmax) hq,
          assemble_last hacc, fragment_length, Nat.add_assoc]
        rfl
    · rw [fragmentsFrom, if_neg hlen] at hp ⊢
      have htake : (pl.take room).length = room := by
        rw [List.length_take]
        omega
      obtain ⟨hh, hshort | ⟨p', rfl, hp'⟩⟩ := prefix_fragment _ hp (not_lt.mp hhead)
      · obtain ⟨out, c', hout, hstops⟩ := nextLoop_short start fuel (started isFirst q acc)
          (by omega) (hat hh) (by rw [htake]; exact hmax) hq (by omega) (by omega)
        exact ⟨out, c', hout, .inl hstops⟩
      · have hflen : (fragment (SegmentWriter.recordTypeOf isFirst false) q (pl.take room)).length =
            recordHeaderSize + room := by
          rw [fragment_length, htake]
        rw [List.length_append, hflen] at hplen
        rw [restFragments_eq] at hp' ⊢
        have hpos : segmentHeaderSize + c + (recordHeaderSize + room) =
            segmentHeaderSize + (c + recordHeaderSize + room) := by omega
        have hdrop : file.drop (segmentHeaderSize + (c + recordHeaderSize + room)) = p' := by
          rw [← hpos, ← List.drop_drop, hfile, ← hflen, List.drop_left]
        rw [List.length_append, hflen] at hfuel
        have hstart : (c + recordHeaderSize + room) % blockSize + recordHeaderSize +
            maxFragmentPayload = blockSize := by
          rw [next_block hroom]
          decide
        obtain ⟨out, c', hout, hres⟩ := @ih (c + recordHeaderSize + room) false maxFragmentPayload
          (acc ++ pl.take room) (pl.drop room) p' (fun h => by cases h) hstart hdrop (by omega) hp'
          (by unfold recordHeaderSize at hfuel; omega)
        refine ⟨out, c', ?_, ?_⟩
        · rw [nextLoop_got (by omega) (hat (List.prefix_append _ _)) (by rw [htake]; exact hmax) hq,
            assemble_more hacc, htake]
          exact hout
        · refine hres.imp_right ?_
          rintro ⟨rfl, rfl, rfl⟩
          refine ⟨rfl, ?_, ?_⟩
          · rw [List.append_assoc, List.take_append_drop]
          · rw [List.length_append, hflen, ← Nat.add_assoc, ← Nat.add_assoc]

theorem nextRecord_part {file : Bytes} {c q : ℕ} {pl p : Bytes}
    (hfile : file.drop (segmentHeaderSize + c) = p) (hc : segmentHeaderSize + c ≤ file.length)
    (hp : p <+: recordBytes (c % blockSize) q pl) (hq : q < u64Size) :
    ∃ out r, nextRecord ⟨file, c⟩ = .ok (out, r) ∧
      (Stops out ∨ p = recordBytes (c % blockSize) q pl ∧ out = .record ⟨q, pl⟩ ∧
        r = ⟨file, c + p.length⟩) := by
  have hlt : c % blockSize ≤ blockSize := (Nat.mod_lt _ (by decide)).le
  have hmod := mod_add_padLen c
  have hstart := startOf_le hlt
  have hpad : padLen (c % blockSize) < recordHeaderSize := by
    unfold padLen
    split
    · assumption
    · decide
  have hend : areaEnd file = c + p.length := by
    rw [← hfile, List.length_drop]
    unfold areaEnd
    omega
  have hfin : ∀ {out c'}, nextLoop file c (file.length + 2) none c = .ok (out, c') →
      nextRecord ⟨file, c⟩ = .ok (out, ⟨file, c'⟩) := by
    intro out c' hloop
    unfold nextRecord
    rw [hloop]
    rfl
  by_cases hshort : p.length < padLen (c % blockSize)
  · -- the padding itself is cut
    have hskip : skipBlockPaddingIfNeeded file c = c := by
      unfold skipBlockPaddingIfNeeded
      dsimp only
      rw [if_neg]
      rintro ⟨hrem, hle⟩
      rw [padLen, if_pos hrem] at hshort
      omega
    obtain ⟨out, c', hout, hstops⟩ := nextLoop_tail c (file.length + 1) none hc hskip (by omega)
    exact ⟨out, _, hfin hout, .inl hstops⟩
  · have hskip : skipBlockPaddingIfNeeded file c = c + padLen (c % blockSize) :=
      skip_padding (by omega)
    obtain ⟨p', rfl⟩ : zeros (padLen (c % blockSize)) <+: p := by
      refine List.prefix_of_prefix_length_le (List.prefix_append _ _) hp ?_
      rw [zeros_length]
      omega
    have hp' := (List.prefix_append_right_inj _).mp hp
    have hplen : file.length = segmentHeaderSize + c + (padLen (c % blockSize) + p'.length) := by
      have := congrArg List.length hfile
      rw [List.length_drop, List.length_append, zeros_length] at this
      omega
    have hdrop : file.drop (segmentHeaderSize + (c + padLen (c % blockSize))) = p' := by
      rw [← Nat.add_assoc, ← List.drop_drop, hfile]
      exact List.drop_left' (zeros_length _)
    obtain ⟨out, c', hout, hres⟩ := @nextLoop_part file c (file.length + 2)
      (c + padLen (c % blockSize)) true q _ [] pl p' (fun _ => rfl) (by rw [hmod]; omega) hdrop
      (by omega) hp' hq (by omega)
    rw [← nextLoop_skip hskip (by rw [hmod]; exact hstart)] at hout
    refine ⟨out, _, hfin hout, hres.imp_right ?_⟩
    rintro ⟨rfl, rfl, rfl⟩
    refine ⟨rfl, rfl, ?_⟩
    rw [List.length_append, zeros_length, Nat.add_assoc]

/-! ### Zeros after the records -/

theorem nextRecord_of_loop {file : Bytes} {c c' : ℕ} {out : ReadOutcome}
    (h : nextLoop file c (file.length + 2) none c = .ok (out, c')) :
    nextRecord ⟨file, c⟩ = .ok (out, ⟨file, c'⟩) := by
  unfold nextRecord
  rw [h]
  rfl

theorem readAt_zeros {file : Bytes} {pos m len : ℕ} (h : file.drop pos = zeros m) (hlen : len ≤ m)
    (hpos : pos ≤ file.length) : readAt file pos len = .ok (zeros len) := by
  have hat : At file pos (zeros len) := by
    unfold At
    rw [h]
    exact zeros_prefix_zeros hlen
  simpa only [zeros_length] using hat.readAt hpos

theorem zeros_all (n : ℕ) : (zeros n).all (· = 0) = true := by
  rw [List.all_eq_true]
  intro b hb
  exact decide_eq_true (List.eq_of_mem_replicate hb)

theorem zeros_drop {file : Bytes} {c c' m : ℕ} (h : file.drop c = zeros m) (hle : c ≤ c') :
    file.drop c' = zeros (m - (c' - c)) := by
  obtain ⟨d, rfl⟩ := Nat.exists_eq_add_of_le hle
  rw [← List.drop_drop, h, zeros, List.drop_replicate, Nat.add_sub_cancel_left]
  rfl

theorem skip_ge (file : Bytes) (c : ℕ) : c ≤ skipBlockPaddingIfNeeded file c := by
  unfold skipBlockPaddingIfNeeded
  dsimp only
  split <;> omega

theorem handleTail_zeros {file : Bytes} {c m : ℕ} (start : ℕ)
    (h : file.drop (segmentHeaderSize + c) = zeros m) :
    handleTail file none start c = .ok .endOfSegment := by
  have hm := congrArg List.length h
  rw [List.length_drop, zeros_length] at hm
  unfold handleTail areaEnd
  dsimp only
  by_cases hzero : file.length - segmentHeaderSize - c = 0
  · rw [if_pos hzero]
    rfl
  · rw [if_neg hzero, readAt_zeros h (by omega) (by omega)]
    show (if (zeros _).all (· = 0) = true then _ else _) = _
    rw [if_pos (zeros_all _)]
    rfl

/-- The reader takes zeros for free space, block after block, to the end of the
file; its last jump may lead past it. -/
theorem nextLoop_zeros {file : Bytes} {start fuel c m : ℕ}
    (h : file.drop (segmentHeaderSize + c) = zeros m) (hfuel : file.length < c + fuel) :
    ∃ c', nextLoop file start (fuel + 1) none c = .ok (.endOfSegment, c') := by
  induction fuel generalizing c m with
  | zero =>
    have hskip := skip_ge file c
    have hshort : areaEnd file < skipBlockPaddingIfNeeded file c + recordHeaderSize := by
      unfold areaEnd
      omega
    have hrest := zeros_drop h (Nat.add_le_add_left hskip segmentHeaderSize)
    refine ⟨skipBlockPaddingIfNeeded file c, ?_⟩
    rw [nextLoop]
    simp only [if_pos hshort, handleTail_zeros start hrest]
    rfl
  | succ fuel ih =>
    have hskip := skip_ge file c
    have hrest := zeros_drop h (Nat.add_le_add_left hskip segmentHeaderSize)
    rw [nextLoop]
    generalize skipBlockPaddingIfNeeded file c = c₁ at hskip hrest
    dsimp only
    by_cases hshort : areaEnd file < c₁ + recordHeaderSize
    · refine ⟨c₁, ?_⟩
      rw [if_pos hshort, handleTail_zeros start hrest]
      rfl
    · have hlen := congrArg List.length hrest
      rw [List.length_drop, zeros_length] at hlen
      have hin : segmentHeaderSize + c₁ + recordHeaderSize ≤ file.length := by
        unfold areaEnd segmentHeaderSize recordHeaderSize at *
        omega
      have hfrag : readFragment file c₁ = .ok (.skipBlock ((c₁ / blockSize + 1) * blockSize)) := by
        simp only [readFragment, readAt_zeros hrest (show recordHeaderSize ≤ _ by omega)
          (show segmentHeaderSize + c₁ ≤ file.length by omega), bind, Except.bind, zeros_all, if_true]
        rfl
      have hnext : c₁ < (c₁ / blockSize + 1) * blockSize := by
        have := Nat.div_add_mod c₁ blockSize
        have := Nat.mod_lt c₁ (show 0 < blockSize by decide)
        rw [Nat.succ_mul, Nat.mul_comm]
        omega
      obtain ⟨c', hc'⟩ := ih (zeros_drop hrest (Nat.add_le_add_left hnext.le segmentHeaderSize))
        (by omega)
      refine ⟨c', ?_⟩
      rw [if_neg hshort, hfrag]
      exact hc'

/-! ### A whole segment -/

def outcomeOf : ReadOutcome → ReplayOutcome
  | .tornTail truncateTo reason => .tornTail truncateTo reason
  | _ => .clean

/-- From cursor `c` on the reader returns `vs` and then stops with `out`. -/
inductive Reads (file : Bytes) : ℕ → List RecordView → ReplayOutcome → Prop where
  | stop {c : ℕ} {out : ReadOutcome} {r : SegmentReader}
      (h : nextRecord ⟨file, c⟩ = .ok (out, r)) (hs : Stops out) : Reads file c [] (outcomeOf out)
  | more {c c' : ℕ} {v : RecordView} {vs : List RecordView} {out : ReplayOutcome}
      (h : nextRecord ⟨file, c⟩ = .ok (.record v, ⟨file, c'⟩)) (hlt : c < c')
      (hle : c' ≤ file.length) (rest : Reads file c' vs out) : Reads file c (v :: vs) out

theorem Reads.length_le {file : Bytes} {c : ℕ} {vs : List RecordView} {out : ReplayOutcome}
    (h : Reads file c vs out) (hc : c ≤ file.length) : c + vs.length ≤ file.length := by
  induction h with
  | stop => simpa using hc
  | more _ hlt hle _ ih =>
    have := ih hle
    rw [List.length_cons]
    omega

theorem Reads.replayLoop {σ : Type} {file : Bytes} {c : ℕ} {vs : List RecordView}
    {out : ReplayOutcome} (h : Reads file c vs out) (onRecord : RecordView → Act σ Unit) {fuel : ℕ}
    (hfuel : vs.length < fuel) :
    SegmentReader.replayLoop onRecord fuel ⟨file, c⟩ = do
      vs.forM onRecord
      return out := by
  induction h generalizing fuel with
  | @stop c out r h hs =>
    obtain ⟨fuel, rfl⟩ : ∃ n, fuel = n + 1 := ⟨fuel - 1, by omega⟩
    rw [SegmentReader.replayLoop, h]
    cases out with
    | record v => cases hs
    | _ => rfl
  | @more c c' v vs out h hlt hle rest ih =>
    rw [List.length_cons] at hfuel
    obtain ⟨fuel, rfl⟩ : ∃ n, fuel = n + 1 := ⟨fuel - 1, by omega⟩
    rw [SegmentReader.replayLoop, h]
    show (onRecord v >>= fun _ => SegmentReader.replayLoop onRecord fuel ⟨file, c'⟩) =
      (onRecord v >>= fun _ => vs.forM onRecord) >>= fun _ => pure out
    rw [ih (show vs.length < fuel by omega), bind_assoc]

theorem Reads.replay {σ : Type} {file : Bytes} {vs : List RecordView} {out : ReplayOutcome}
    (h : Reads file 0 vs out) (onRecord : RecordView → Act σ Unit) :
    SegmentReader.replay ⟨file, 0⟩ onRecord = do
      vs.forM onRecord
      return out := by
  have hlen := h.length_le (Nat.zero_le _)
  exact h.replayLoop onRecord (show vs.length < file.length + 1 by omega)

theorem readAt_ok {file bs : Bytes} {pos len : ℕ} (h : readAt file pos len = .ok bs) :
    pos + len ≤ file.length ∧ bs.length = len := by
  unfold readAt at h
  split at h
  · cases h
  · rename_i hlong
    cases h
    rw [List.length_take, List.length_drop]
    omega

theorem lt_next_block (c : ℕ) : c < (c / blockSize + 1) * blockSize := by
  have hmod := Nat.div_add_mod c blockSize
  have hlt := Nat.mod_lt c (show 0 < blockSize by decide)
  rw [Nat.add_mul, Nat.mul_comm]
  omega

theorem readFragment_bounds {file : Bytes} {c : ℕ} {step : FragmentStep}
    (h : readFragment file c = .ok step) :
    (∀ c', step = .skipBlock c' → c' = (c / blockSize + 1) * blockSize) ∧
      ∀ frag, step = .got frag →
        segmentHeaderSize + c + recordHeaderSize + frag.payload.length ≤ file.length := by
  unfold readFragment at h
  obtain ⟨headerBytes, hheader, h⟩ := res_bind_eq_ok.mp h
  dsimp only at h
  split at h
  · cases h
    refine ⟨?_, fun frag hf => (by cases hf)⟩
    rintro c' ⟨⟩
    rfl
  · split at h
    · cases h
      exact ⟨fun c' hc => (by cases hc), fun frag hf => (by cases hf)⟩
    · split at h
      · cases h
        exact ⟨fun c' hc => (by cases hc), fun frag hf => (by cases hf)⟩
      · obtain ⟨payload, hpayload, h⟩ := res_bind_eq_ok.mp h
        obtain ⟨hin, hlen⟩ := readAt_ok hpayload
        split at h
        · cases h
          exact ⟨fun c' hc => (by cases hc), fun frag hf => (by cases hf)⟩
        · split at h
          · cases h
            refine ⟨fun c' hc => (by cases hc), ?_⟩
            rintro frag ⟨⟩
            rw [hlen]
            exact hin
          · cases h

theorem handleTail_stop {file : Bytes} {asm : Option RecordView} {start c : ℕ} {out : ReadOutcome}
    (h : handleTail file asm start c = .ok out) : Stops out := by
  unfold handleTail at h
  cases asm with
  | some v =>
    cases h
    trivial
  | none =>
    dsimp only at h
    split at h
    · cases h
      trivial
    · obtain ⟨tail, -, h⟩ := res_bind_eq_ok.mp h
      split at h
      · cases h
        trivial
      · cases h
        trivial

theorem nextLoop_bounds {file : Bytes} {start fuel c c' : ℕ} {asm : Option RecordView}
    {v : RecordView} (h : nextLoop file start fuel asm c = .ok (.record v, c')) :
    c < c' ∧ segmentHeaderSize + c' ≤ file.length := by
  induction fuel generalizing asm c with
  | zero => cases h
  | succ fuel ih =>
    have hskip := skip_ge file c
    have hpos : 0 < recordHeaderSize := by decide
    rw [nextLoop] at h
    dsimp only at h
    split at h
    · obtain ⟨out, hout, h⟩ := res_bind_eq_ok.mp h
      cases h
      exact (handleTail_stop hout).elim
    · obtain ⟨step, hstep, h⟩ := res_bind_eq_ok.mp h
      obtain ⟨hblock, hgot⟩ := readFragment_bounds hstep
      cases step with
      | skipBlock c₂ =>
        have hnew := hblock c₂ rfl
        have hlt := lt_next_block (skipBlockPaddingIfNeeded file c)
        have := ih h
        omega
      | tornTail reason => cases h
      | got frag =>
        have hin := hgot frag rfl
        obtain ⟨next, -, h⟩ := res_bind_eq_ok.mp h
        cases next with
        | more state =>
          have := ih h
          omega
        | complete view =>
          cases h
          omega

theorem replayLoop_ok {σ : Type} {onRecord : RecordView → Act σ Unit} {fuel : ℕ} {file : Bytes}
    {c : ℕ} {s s' : σ} {out : ReplayOutcome}
    (h : SegmentReader.replayLoop onRecord fuel ⟨file, c⟩ s = .ok out s') :
    ∃ vs, Reads file c vs out ∧ vs.forM onRecord s = .ok ⟨⟩ s' := by
  induction fuel generalizing c s with
  | zero => cases h
  | succ fuel ih =>
    rw [SegmentReader.replayLoop] at h
    obtain ⟨⟨ro, r⟩, s₁, hlift, h⟩ := act_bind_eq_ok.mp h
    obtain ⟨hnext, rfl⟩ := act_lift_eq_ok.mp hlift
    cases ro with
    | record v =>
      obtain ⟨_, s₂, hrec, h⟩ := act_bind_eq_ok.mp h
      obtain ⟨⟨out₀, c'⟩, hloop, hr⟩ := res_bind_eq_ok.mp hnext
      cases hr
      obtain ⟨hlt, hle⟩ := nextLoop_bounds hloop
      obtain ⟨vs, hreads, hvs⟩ := ih h
      refine ⟨v :: vs, .more hnext hlt ((Nat.le_add_left _ _).trans hle) hreads, ?_⟩
      show (onRecord v >>= fun _ => vs.forM onRecord) s₁ = _
      rw [act_bind_ok hrec]
      exact hvs
    | endOfSegment =>
      cases h
      exact ⟨[], .stop hnext trivial, rfl⟩
    | tornTail t reason =>
      cases h
      exact ⟨[], .stop hnext trivial, rfl⟩

theorem recordBytes_pos (o q : ℕ) (pl : Bytes) : 0 < (recordBytes o q pl).length := by
  have hpos := List.length_pos_of_ne_nil
    (fragmentsFrom_ne_nil true q (blockSize - startOf o - recordHeaderSize) pl)
  rw [recordBytes, List.length_append]
  omega

theorem reads_zeros {file : Bytes} {c m : ℕ} (h : file.drop (segmentHeaderSize + c) = zeros m) :
    Reads file c [] .clean := by
  obtain ⟨c', hc'⟩ := @nextLoop_zeros file c (file.length + 1) c m h (by omega)
  exact .stop (nextRecord_of_loop hc') trivial

theorem handleTail_truncateTo {file : Bytes} {asm : Option RecordView} {start c t : ℕ}
    {reason : String} (h : handleTail file asm start c = .ok (.tornTail t reason)) : t = start := by
  cases asm with
  | some view =>
    cases h
    rfl
  | none =>
    simp only [handleTail] at h
    split at h
    · cases h
    · obtain ⟨tail, -, h⟩ := res_bind_eq_ok.mp h
      split at h
      · cases h
      · cases h
        rfl

theorem nextLoop_truncateTo {file : Bytes} {start fuel c c' t : ℕ} {asm : Option RecordView}
    {reason : String} (h : nextLoop file start fuel asm c = .ok (.tornTail t reason, c')) :
    t = start := by
  induction fuel generalizing asm c with
  | zero => cases h
  | succ fuel ih =>
    rw [nextLoop] at h
    dsimp only at h
    split at h
    · obtain ⟨out, hout, h⟩ := res_bind_eq_ok.mp h
      cases h
      exact handleTail_truncateTo hout
    · obtain ⟨step, -, h⟩ := res_bind_eq_ok.mp h
      cases step with
      | skipBlock cursor => exact ih h
      | tornTail reason' =>
        cases h
        rfl
      | got frag =>
        obtain ⟨asmStep, -, h⟩ := res_bind_eq_ok.mp h
        cases asmStep with
        | more state => exact ih h
        | complete view => cases h

theorem nextRecord_truncateTo {r r' : SegmentReader} {t : ℕ} {reason : String}
    (h : nextRecord r = .ok (.tornTail t reason, r')) : t = r.cursor := by
  unfold nextRecord at h
  obtain ⟨⟨out, cursor⟩, hloop, h⟩ := res_bind_eq_ok.mp h
  cases h
  exact nextLoop_truncateTo hloop

/-- Where a reader that stops with `out` says a torn tail begins, if it says so. -/
def TruncatesAt (n : ℕ) : ReplayOutcome → Prop
  | .clean => True
  | .tornTail truncateTo _ => truncateTo = n

theorem truncatesAt_stop {file : Bytes} {c : ℕ} {out : ReadOutcome} {r : SegmentReader}
    (h : nextRecord ⟨file, c⟩ = .ok (out, r)) : TruncatesAt c (outcomeOf out) := by
  cases out with
  | tornTail t reason => exact nextRecord_truncateTo h
  | _ => trivial

theorem Reads.record {file tail : Bytes} {c : ℕ} {r : RecordView} {vs : List RecordView}
    {out : ReplayOutcome}
    (hfile : file.drop (segmentHeaderSize + c) =
      recordBytes (c % blockSize) r.seqno r.payload ++ tail)
    (hq : r.seqno < u64Size)
    (hrest : Reads file (c + (recordBytes (c % blockSize) r.seqno r.payload).length) vs out) :
    Reads file c (r :: vs) out := by
  have hat : At file (segmentHeaderSize + c) (recordBytes (c % blockSize) r.seqno r.payload) := by
    unfold At
    rw [hfile]
    exact List.prefix_append _ _
  have hpos := recordBytes_pos (c % blockSize) r.seqno r.payload
  have hbound := hat.bound (List.ne_nil_of_length_pos hpos)
  exact .more (nextRecord_record hat hq) (by omega) (by omega) hrest

theorem reads_layout_append {file tail : Bytes} {c : ℕ} {rs vs : List RecordView}
    {out : ReplayOutcome}
    (hfile : file.drop (segmentHeaderSize + c) = layout (c % blockSize) rs ++ tail)
    (hrs : ∀ r ∈ rs, r.seqno < u64Size)
    (htail : Reads file (c + (layout (c % blockSize) rs).length) vs out) :
    Reads file c (rs ++ vs) out := by
  induction rs generalizing c with
  | nil => exact htail
  | cons r rs ih =>
    rw [layout, List.append_assoc] at hfile
    have hmod : (c + (recordBytes (c % blockSize) r.seqno r.payload).length) % blockSize =
        (c % blockSize + (recordBytes (c % blockSize) r.seqno r.payload).length) % blockSize := by
      rw [Nat.mod_add_mod]
    have hdrop : file.drop (segmentHeaderSize +
        (c + (recordBytes (c % blockSize) r.seqno r.payload).length)) =
        layout ((c + (recordBytes (c % blockSize) r.seqno r.payload).length) % blockSize) rs ++
          tail := by
      rw [← Nat.add_assoc, ← List.drop_drop, hfile, List.drop_left, hmod]
    rw [layout, List.length_append, ← hmod, ← Nat.add_assoc] at htail
    exact .record hfile (hrs r List.mem_cons_self)
      (ih hdrop (fun x hx => hrs x (List.mem_cons_of_mem r hx)) htail)

theorem reads_part {file : Bytes} {c q : ℕ} {pl p : Bytes}
    (hfile : file.drop (segmentHeaderSize + c) = p) (hc : segmentHeaderSize + c ≤ file.length)
    (hp : p <+: recordBytes (c % blockSize) q pl) (hq : q < u64Size) :
    (∃ out, Reads file c [] out ∧ TruncatesAt c out) ∨
      p = recordBytes (c % blockSize) q pl ∧ Reads file c [⟨q, pl⟩] .clean := by
  obtain ⟨out, r, hout, hstops | ⟨hfull, rfl, rfl⟩⟩ := nextRecord_part hfile hc hp hq
  · exact .inl ⟨_, .stop hout hstops, truncatesAt_stop hout⟩
  · have hrest : file.drop (segmentHeaderSize + (c + (recordBytes (c % blockSize) q pl).length)) =
        zeros 0 := by
      rw [← hfull, ← Nat.add_assoc, ← List.drop_drop, hfile, List.drop_length]
      rfl
    have hone : file.drop (segmentHeaderSize + c) = recordBytes (c % blockSize) q pl ++ [] := by
      rw [hfile, List.append_nil, hfull]
    exact .inr ⟨hfull, .record hone hq (reads_zeros hrest)⟩

theorem reads_layout {file : Bytes} {c q : ℕ} {rs : List RecordView} {pl p : Bytes}
    (hfile : file.drop (segmentHeaderSize + c) = layout (c % blockSize) rs ++ p)
    (hc : segmentHeaderSize + c ≤ file.length) (hrs : ∀ r ∈ rs, r.seqno < u64Size)
    (hp : p <+: recordBytes ((c + (layout (c % blockSize) rs).length) % blockSize) q pl)
    (hq : q < u64Size) :
    (∃ out, Reads file c rs out ∧ TruncatesAt (c + (layout (c % blockSize) rs).length) out) ∨
      p = recordBytes ((c + (layout (c % blockSize) rs).length) % blockSize) q pl ∧
      Reads file c (rs ++ [⟨q, pl⟩]) .clean := by
  have hdrop : file.drop (segmentHeaderSize + (c + (layout (c % blockSize) rs).length)) = p := by
    rw [← Nat.add_assoc, ← List.drop_drop, hfile, List.drop_left]
  have hlen := congrArg List.length hfile
  rw [List.length_drop, List.length_append] at hlen
  rcases reads_part hdrop (by omega) hp hq with ⟨out, hout, ht⟩ | ⟨hfull, hout⟩
  · left
    refine ⟨out, ?_, ht⟩
    have := reads_layout_append hfile hrs hout
    rwa [List.append_nil] at this
  · exact .inr ⟨hfull, reads_layout_append hfile hrs hout⟩

theorem openFile_header {segmentId firstSeqno : ℕ} (hi : segmentId < u64Size)
    (hs : firstSeqno < u64Size) (area : Bytes) :
    openFile ((SegmentHeader.newSigned segmentId firstSeqno).asBytes ++ area) =
      .ok ⟨(SegmentHeader.newSigned segmentId firstSeqno).asBytes ++ area, 0⟩ := by
  have hlen := segmentHeader_length (SegmentHeader.newSigned segmentId firstSeqno)
  have href := newSigned_refFromBytes hi hs
  have hvalid := newSigned_isValid segmentId firstSeqno
  have hm : (SegmentHeader.newSigned segmentId firstSeqno).magic = segmentMagic := rfl
  have hv : (SegmentHeader.newSigned segmentId firstSeqno).version = formatVersion := rfl
  generalize SegmentHeader.newSigned segmentId firstSeqno = h at *
  have hshort : ¬ (h.asBytes ++ area).length < segmentHeaderSize := by
    rw [List.length_append, hlen]
    omega
  have hat : At (h.asBytes ++ area) 0 h.asBytes := List.prefix_append _ _
  have hread := hat.readAt (Nat.zero_le _)
  rw [hlen] at hread
  simp only [openFile, if_neg hshort, hread, bind, Except.bind, href, hm, hv, hvalid, ne_eq,
    not_true_eq_false, if_false, Bool.not_true, Bool.false_eq_true]

end SegmentReader

end PaddockKV.Wal
