import PaddockKV.Checked
import PaddockKV.Sstable.BlockRead

/-!
# Reading an arbitrary block

The varints and the reader of a block with every subtraction, index and slice
checked, the sums with lengths from the block taken in 64 bits, and loops that
unwind when their fuel is used up. The bytes of the block may be anything, and
with them the lengths of its entries and the offsets of its restarts.
-/

namespace PaddockKV.Varint

namespace Checked

def decodeLoop (maxBytes maxLast len : ℕ) : ℕ → ℕ → Bytes → Res (ℕ × ℕ)
  | _, _, [] =>
    if len < maxBytes then do
      let needed ← subWord maxBytes len
      .error (.err (.decode (.unexpectedEof needed)))
    else .error (.err (.decode (.varintOverflow maxBytes)))
  | i, result, b :: rest =>
    if maxBytes ≤ i then .error (.err (.decode (.varintOverflow maxBytes)))
    else
      let payload := b.val &&& 0x7F
      if i = maxBytes - 1 ∧ maxLast < payload then
        .error (.err (.decode (.varintOverflow maxBytes)))
      else
        let result := result ||| payload <<< (7 * i)
        if b.val &&& 0x80 = 0 then .ok (result, i + 1)
        else decodeLoop maxBytes maxLast len (i + 1) result rest

def decodeU32 (input : Bytes) : Res (ℕ × ℕ) := decodeLoop maxU32Bytes 0x0F input.length 0 0 input

end Checked

theorem checked_decodeLoop (maxBytes maxLast len i result : ℕ) (bs : Bytes) :
    Checked.decodeLoop maxBytes maxLast len i result bs =
      decodeLoop maxBytes maxLast len i result bs := by
  induction bs generalizing i result with
  | nil =>
    unfold Checked.decodeLoop decodeLoop
    split
    · rename_i hshort
      rw [subWord_ok hshort.le, res_ok_bind]
    · rfl
  | cons b bs ih =>
    rw [Checked.decodeLoop, decodeLoop]
    dsimp only
    rw [ih]

theorem checked_decodeU32 (input : Bytes) : Checked.decodeU32 input = decodeU32 input :=
  checked_decodeLoop ..

theorem decodeLoop_returns (maxBytes maxLast len i result : ℕ) (bs : Bytes) :
    Returns (decodeLoop maxBytes maxLast len i result bs) := by
  induction bs generalizing i result with
  | nil =>
    unfold decodeLoop
    split <;> exact Returns.err _
  | cons b bs ih =>
    rw [decodeLoop]
    split
    · exact Returns.err _
    · dsimp only
      split
      · exact Returns.err _
      · split
        · exact Returns.ok _
        · exact ih _ _

theorem decodeU32_returns (input : Bytes) : Returns (decodeU32 input) :=
  decodeLoop_returns _ _ _ _ _ _

end PaddockKV.Varint

namespace PaddockKV.Sstable

open Varint Checksum Io

namespace Checked

def nextEntry (records : Bytes) (cursor : ℕ) (lastKey : Key) : Res (Option (Rec × ℕ)) :=
  if records.length ≤ cursor then .ok none
  else do
    let rest ← sliceFrom records cursor
    okOr (Varint.Checked.decodeU32 rest) fun (shared, c₁) => do
    let rest₁ ← sliceFrom rest c₁
    okOr (Varint.Checked.decodeU32 rest₁) fun (unshared, c₂) => do
    let rest₂ ← sliceFrom rest (c₁ + c₂)
    okOr (Varint.Checked.decodeU32 rest₂) fun (valueLen, c₃) => do
    let pre := c₁ + c₂ + c₃
    let headerTotal := pre + 8 + 1
    if rest.length < headerTotal then .ok none
    else
      let seqno ← slice rest pre (pre + 8)
      let opByte ← byteAt rest (pre + 8)
      match RecordOp.fromByte opByte with
      | none => .ok none
      | some op =>
        let keyStart ← addWord cursor headerTotal
        let keyEnd ← addWord keyStart unshared
        let valEnd ← addWord keyEnd valueLen
        if records.length < valEnd then .ok none
        else
          let keySuffix ← slice records keyStart keyEnd
          let value ← slice records keyEnd valEnd
          .ok (some (⟨lastKey.take shared ++ keySuffix, leVal seqno, op, value⟩, valEnd))

def iterFrom (records : Bytes) : ℕ → ℕ → Key → Res (List Rec)
  | 0, _, _ => .error (.panicked "BlockIter did not end")
  | fuel + 1, cursor, lastKey => do
    match ← nextEntry records cursor lastKey with
    | none => return []
    | some (r, cursor) =>
      let rs ← iterFrom records fuel cursor r.key
      return r :: rs

def keyAtRestart (records : Bytes) (off : ℕ) : Res (Option Key) :=
  if records.length ≤ off then .ok none
  else do
    let rest ← sliceFrom records off
    okOr (Varint.Checked.decodeU32 rest) fun (shared, c₁) => do
    if shared ≠ 0 then .ok none
    else
      let rest₁ ← sliceFrom rest c₁
      okOr (Varint.Checked.decodeU32 rest₁) fun (unshared, c₂) => do
      let rest₂ ← sliceFrom rest (c₁ + c₂)
      okOr (Varint.Checked.decodeU32 rest₂) fun (_, c₃) => do
      let keyStart := c₁ + c₂ + c₃ + 8 + 1
      let keyEnd ← addWord keyStart unshared
      if rest.length < keyEnd then .ok none
      else
        let key ← slice rest keyStart keyEnd
        .ok (some key)

def searchRestart (keyAt : ℕ → Res (Option Key)) (target : Key) : ℕ → ℕ → ℕ → Res (Option ℕ)
  | 0, _, _ => .error (.panicked "seek: loop did not end")
  | fuel + 1, lo, hi =>
    if lo + 1 < hi then do
      let width ← subWord hi lo
      let mid := lo + width / 2
      match ← keyAt mid with
      | none => .ok none
      | some k =>
        match cmpKey k target with
        | .lt => searchRestart keyAt target fuel mid hi
        | .eq => searchRestart keyAt target fuel mid (mid + 1)
        | .gt => searchRestart keyAt target fuel lo mid
    else .ok (some lo)

def openBlock (bytes : Bytes) : Res BlockReader :=
  if bytes.length < blockTrailerSize then
    .error (.err (.invalidFormat "sstable data block" "shorter than block trailer"))
  else do
    let crcAt ← subWord bytes.length 4
    let storedCrc ← u32At bytes crcAt bytes.length
    let crcInput ← slice bytes 0 crcAt
    let computedCrc := crc32c crcInput
    if storedCrc ≠ computedCrc then
      .error (.err (.checksumMismatch "sstable data block" storedCrc computedCrc))
    else
      let restartsAt ← subWord bytes.length 8
      let numRestarts ← u32At bytes restartsAt crcAt
      let restartBytesLen := numRestarts * 4
      -- `checked_mul`
      if u64Size ≤ restartBytesLen then
        .error (.err (.invalidFormat "sstable data block" "restart overflow"))
      else
        let needed ← addWord restartBytesLen blockTrailerSize
        if bytes.length < needed then
          .error (.err (.invalidFormat "sstable data block" "restart array overflows block"))
        else
          let body ← subWord bytes.length blockTrailerSize
          let recordsEnd ← subWord body restartBytesLen
          let records ← slice bytes 0 recordsEnd
          let restartBytes ← slice bytes recordsEnd body
          .ok ⟨records, restartBytes⟩

def restartOffset (r : BlockReader) (i : ℕ) : Res ℕ := u32At r.restartBytes (i * 4) (i * 4 + 4)

def iter (r : BlockReader) : Res (List Rec) := iterFrom r.records (r.records.length + 1) 0 []

def seek (r : BlockReader) (target : Key) : Res (Option Rec) := do
  let n := r.numRestarts
  if n = 0 then .ok none
  else
    let keyAt := fun i => do
      let off ← restartOffset r i
      keyAtRestart r.records off
    match ← searchRestart keyAt target n 0 n with
    | none => .ok none
    | some lo =>
      let startOff ← restartOffset r lo
      let recs ← iterFrom r.records (r.records.length + 1) startOff []
      .ok (recs.find? fun rec => target ≤ rec.key)

end Checked

/-! ### The checks never fire -/

theorem checked_keyAtRestart (records : Bytes) (off : ℕ) :
    Checked.keyAtRestart records off = .ok (keyAtRestart records off) := by
  unfold Checked.keyAtRestart keyAtRestart
  split
  · rfl
  · rename_i hoff
    simp only [checked_decodeU32]
    rw [sliceFrom_ok (by omega), res_ok_bind]
    refine okOr_eq (decodeU32_returns _) ?_
    rintro ⟨shared, c₁⟩ h₁
    have hc₁ := decodeU32_consumed h₁
    dsimp only
    split
    · rfl
    · rw [sliceFrom_ok hc₁.1, res_ok_bind]
      refine okOr_eq (decodeU32_returns _) ?_
      rintro ⟨unshared, c₂⟩ h₂
      have hc₂ := decodeU32_consumed h₂
      have hunshared := decodeU32_lt h₂
      rw [List.length_drop] at hc₂
      dsimp only
      rw [sliceFrom_ok (by omega), res_ok_bind]
      refine okOr_eq (decodeU32_returns _) ?_
      rintro ⟨valueLen, c₃⟩ h₃
      have hc₃ := decodeU32_consumed h₃
      unfold maxU32Bytes at hc₁ hc₂ hc₃
      unfold u32Size at hunshared
      dsimp only
      rw [addWord_ok (by unfold u64Size; omega), res_ok_bind]
      split
      · rfl
      · rename_i hend
        rw [slice_ok (by omega) (by omega), res_ok_bind, Nat.add_sub_cancel_left]
        rfl

theorem nextEntry_advances {records : Bytes} {cursor cursor' : ℕ} {lastKey : Key} {r : Rec}
    (h : nextEntry records cursor lastKey = some (r, cursor')) :
    cursor < cursor' ∧ cursor' ≤ records.length := by
  unfold nextEntry at h
  split at h
  · cases h
  · obtain ⟨⟨shared, c₁⟩, -, h⟩ := Option.bind_eq_some_iff.mp h
    obtain ⟨⟨unshared, c₂⟩, -, h⟩ := Option.bind_eq_some_iff.mp h
    obtain ⟨⟨valueLen, c₃⟩, -, h⟩ := Option.bind_eq_some_iff.mp h
    dsimp only at h
    split at h
    · cases h
    · obtain ⟨op, -, h⟩ := Option.bind_eq_some_iff.mp h
      split at h
      · cases h
      · rename_i hend
        cases h
        omega

section

variable {records : Bytes} (hsize : records.length < u32Size)

include hsize

theorem checked_nextEntry (cursor : ℕ) (lastKey : Key) :
    Checked.nextEntry records cursor lastKey = .ok (nextEntry records cursor lastKey) := by
  unfold Checked.nextEntry nextEntry
  split
  · rfl
  · rename_i hcursor
    simp only [checked_decodeU32]
    rw [sliceFrom_ok (by omega), res_ok_bind]
    refine okOr_eq (decodeU32_returns _) ?_
    rintro ⟨shared, c₁⟩ h₁
    have hc₁ := decodeU32_consumed h₁
    dsimp only
    rw [sliceFrom_ok hc₁.1, res_ok_bind]
    refine okOr_eq (decodeU32_returns _) ?_
    rintro ⟨unshared, c₂⟩ h₂
    have hc₂ := decodeU32_consumed h₂
    have hunshared := decodeU32_lt h₂
    rw [List.length_drop] at hc₂
    dsimp only
    rw [sliceFrom_ok (by omega), res_ok_bind]
    refine okOr_eq (decodeU32_returns _) ?_
    rintro ⟨valueLen, c₃⟩ h₃
    have hc₃ := decodeU32_consumed h₃
    have hvalue := decodeU32_lt h₃
    dsimp only
    split
    · rfl
    · rename_i hheader
      rw [not_lt] at hheader
      rw [slice_ok (by omega) (by omega), res_ok_bind, byteAt_ok (by omega), res_ok_bind,
        Nat.add_sub_cancel_left]
      cases hop : RecordOp.fromByte (((records.drop cursor).drop (c₁ + c₂ + c₃ + 8)).headD 0) with
      | none => rfl
      | some op =>
        have hrest := hheader.trans_eq List.length_drop
        unfold maxU32Bytes at hc₁ hc₂ hc₃
        unfold u32Size at hunshared hvalue hsize
        dsimp only
        rw [addWord_ok (by unfold u64Size; omega), res_ok_bind,
          addWord_ok (by unfold u64Size; omega), res_ok_bind,
          addWord_ok (by unfold u64Size; omega), res_ok_bind]
        show (if _ then _ else _) = Except.ok (if _ then _ else _)
        split
        · rfl
        · rename_i hend
          rw [slice_ok (by omega) (by omega), res_ok_bind, slice_ok (by omega) (by omega),
            res_ok_bind, Nat.add_sub_cancel_left, Nat.add_sub_cancel_left]
          rfl

theorem checked_iterFrom {fuel cursor : ℕ} {lastKey : Key} (hpos : 0 < fuel)
    (hfuel : records.length < cursor + fuel) :
    Checked.iterFrom records fuel cursor lastKey = .ok (iterFrom records fuel cursor lastKey) := by
  induction fuel generalizing cursor lastKey with
  | zero => omega
  | succ fuel ih =>
    rw [Checked.iterFrom, iterFrom, checked_nextEntry hsize, res_ok_bind]
    cases hnext : nextEntry records cursor lastKey with
    | none => rfl
    | some p =>
      obtain ⟨r, cursor'⟩ := p
      have hmove := nextEntry_advances hnext
      dsimp only
      rw [ih (by omega) (by omega), res_ok_bind]
      rfl

end

theorem checked_searchRestart {checkedKey : ℕ → Res (Option Key)} {keyAt : ℕ → Option Key} {n : ℕ}
    (hkey : ∀ i < n, checkedKey i = .ok (keyAt i)) {target : Key} {fuel lo hi : ℕ} (hhi : hi ≤ n)
    (hpos : 0 < fuel) (hfuel : hi ≤ lo + fuel) :
    Checked.searchRestart checkedKey target fuel lo hi =
      .ok (searchRestart keyAt target fuel lo hi) := by
  induction fuel generalizing lo hi with
  | zero => omega
  | succ fuel ih =>
    rw [Checked.searchRestart, searchRestart]
    split
    · rename_i hwide
      rw [subWord_ok (by omega), res_ok_bind]
      dsimp only
      rw [hkey _ (by omega), res_ok_bind]
      cases keyAt (lo + (hi - lo) / 2) with
      | none => rfl
      | some k =>
        dsimp only
        cases cmpKey k target with
        | lt => exact ih hhi (by omega) (by omega)
        | eq => exact ih (by omega) (by omega) (by omega)
        | gt => exact ih (by omega) (by omega) (by omega)
    · rfl

theorem checked_restartOffset {r : BlockReader} {i : ℕ} (hi : i < r.numRestarts) :
    Checked.restartOffset r i = .ok (r.restartOffset i) := by
  unfold BlockReader.numRestarts at hi
  exact u32At_ok rfl (by omega)

theorem checked_iter {r : BlockReader} (hsize : r.records.length < u32Size) :
    Checked.iter r = .ok r.iter := checked_iterFrom hsize (Nat.succ_pos _) (by omega)

theorem checked_seek {r : BlockReader} (hsize : r.records.length < u32Size) (target : Key) :
    Checked.seek r target = .ok (r.seek target) := by
  unfold Checked.seek BlockReader.seek
  dsimp only
  split
  · rfl
  · rename_i hn
    have hkey : ∀ i < r.numRestarts,
        (do let off ← Checked.restartOffset r i; Checked.keyAtRestart r.records off) =
          .ok (keyAtRestart r.records (r.restartOffset i)) := by
      intro i hi
      rw [checked_restartOffset hi, res_ok_bind, checked_keyAtRestart]
    rw [checked_searchRestart hkey le_rfl (Nat.pos_of_ne_zero hn) (by omega), res_ok_bind]
    cases hlo : searchRestart (fun i => keyAtRestart r.records (r.restartOffset i)) target
        r.numRestarts 0 r.numRestarts with
    | none => rfl
    | some lo =>
      have hlt := searchRestart_lt (Nat.pos_of_ne_zero hn) hlo
      dsimp only
      rw [checked_restartOffset hlt, res_ok_bind,
        checked_iterFrom hsize (Nat.succ_pos _) (by omega), res_ok_bind]
      rfl

theorem checked_openBlock (bytes : Bytes) :
    Checked.openBlock bytes = BlockReader.openBlock bytes := by
  unfold Checked.openBlock BlockReader.openBlock
  split
  · rfl
  · rename_i hlong
    have hlen : 8 ≤ bytes.length := not_lt.mp hlong
    have hnum : leVal ((bytes.drop (bytes.length - 8)).take 4) < 256 ^ 4 :=
      (leVal_lt _).trans_le (Nat.pow_le_pow_right (by decide) (List.length_take_le _ _))
    have hall : (bytes.drop (bytes.length - 4)).take 4 = bytes.drop (bytes.length - 4) := by
      refine List.take_of_length_le ?_
      rw [List.length_drop]
      omega
    rw [subWord_ok (by omega), res_ok_bind, u32At_ok (by omega) le_rfl, res_ok_bind,
      slice_ok (Nat.zero_le _) (Nat.sub_le _ _), res_ok_bind, List.drop_zero, Nat.sub_zero, hall]
    dsimp only
    split
    · rfl
    · rw [subWord_ok hlen, res_ok_bind, u32At_ok (by omega) (Nat.sub_le _ _), res_ok_bind,
        if_neg (by unfold u64Size; omega),
        addWord_ok (by unfold u64Size blockTrailerSize; omega), res_ok_bind]
      split
      · rfl
      · rename_i hroom
        rw [subWord_ok (not_lt.mp hlong), res_ok_bind, subWord_ok (by omega), res_ok_bind,
          slice_ok (Nat.zero_le _) (by omega), res_ok_bind, slice_ok (by omega) (Nat.sub_le _ _),
          res_ok_bind, List.drop_zero, Nat.sub_zero, Nat.sub_sub_self (by omega)]

theorem openBlock_returns (bytes : Bytes) : Returns (BlockReader.openBlock bytes) := by
  unfold BlockReader.openBlock
  dsimp only
  repeat' split
  all_goals first | exact Returns.err _ | exact Returns.ok _

theorem openBlock_records {bytes : Bytes} {r : BlockReader}
    (h : BlockReader.openBlock bytes = .ok r) : r.records.length ≤ bytes.length := by
  unfold BlockReader.openBlock at h
  dsimp only at h
  repeat' split at h
  all_goals cases h
  exact List.length_take_le' _ _

end PaddockKV.Sstable
