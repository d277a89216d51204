import PaddockKV.Checksum
import PaddockKV.Encoding.Varint
import PaddockKV.Io.Vfs
import PaddockKV.Records

/-!
# SSTable blocks (`sstable/block.rs`)

A block lists its records with the keys prefix-compressed; every sixteenth
record is a restart, stored with its full key, and the offsets of the restarts
follow the records. Data blocks and the index block share this layout.
-/

namespace PaddockKV.Sstable

open Varint Checksum Io

def restartInterval : ℕ := 16
def blockTrailerSize : ℕ := 8

/-! ### Builder -/

def sharedPrefixLen : Key → Key → ℕ
  | a :: as, b :: bs => if a = b then sharedPrefixLen as bs + 1 else 0
  | _, _ => 0

-- the lengths are cast with `as u32`
def entryBytes (shared : ℕ) (r : Rec) : Bytes :=
  varint (shared % u32Size) ++ (varint ((r.key.length - shared) % u32Size) ++
    (varint (r.value.length % u32Size) ++ (leBytes 8 r.seqno ++ ([r.op.toByte] ++
      (r.key.drop shared ++ r.value)))))

structure BlockBuilder where
  buffer : Bytes
  restarts : List ℕ
  lastKey : Key
  counter : ℕ
  deriving Repr, DecidableEq

namespace BlockBuilder

def new : BlockBuilder := ⟨[], [], [], restartInterval⟩

def estimatedSize (b : BlockBuilder) : ℕ :=
  b.buffer.length + b.restarts.length * 4 + blockTrailerSize

def add (b : BlockBuilder) (r : Rec) : BlockBuilder :=
  if b.counter < restartInterval then
    ⟨b.buffer ++ entryBytes (sharedPrefixLen b.lastKey r.key) r, b.restarts, r.key, b.counter + 1⟩
  else
    ⟨b.buffer ++ entryBytes 0 r, b.restarts ++ [b.buffer.length % u32Size], r.key, 1⟩

/-- `finish`, with the builder it leaves. -/
def finish (b : BlockBuilder) : Res (Bytes × BlockBuilder) := do
  let numRestarts ← expectU32 b.restarts.length "restart array length always fits in u32"
  let out := b.buffer ++ (b.restarts.flatMap (leBytes 4) ++ leBytes 4 numRestarts)
  return (out ++ leBytes 4 (crc32c out), new)

end BlockBuilder

/-! ### Reader -/

structure BlockReader where
  records : Bytes
  restartBytes : Bytes
  deriving Repr, DecidableEq

/-- `BlockIter::next`: the record at `cursor` and the cursor behind it. -/
def nextEntry (records : Bytes) (cursor : ℕ) (lastKey : Key) : Option (Rec × ℕ) :=
  if records.length ≤ cursor then none
  else do
    let rest := records.drop cursor
    let (shared, c₁) ← (decodeU32 rest).toOption
    let (unshared, c₂) ← (decodeU32 (rest.drop c₁)).toOption
    let (valueLen, c₃) ← (decodeU32 (rest.drop (c₁ + c₂))).toOption
    let pre := c₁ + c₂ + c₃
    let headerTotal := pre + 8 + 1
    if rest.length < headerTotal then none
    else
      let seqno := leVal ((rest.drop pre).take 8)
      let op ← RecordOp.fromByte ((rest.drop (pre + 8)).headD 0)
      let keyStart := cursor + headerTotal
      let keyEnd := keyStart + unshared
      let valEnd := keyEnd + valueLen
      if records.length < valEnd then none
      else
        let key := lastKey.take shared ++ (records.drop keyStart).take unshared
        return (⟨key, seqno, op, (records.drop keyEnd).take valueLen⟩, valEnd)

/-- `BlockIter` run to its end. -/
def iterFrom (records : Bytes) : ℕ → ℕ → Key → List Rec
  | 0, _, _ => []
  | fuel + 1, cursor, lastKey =>
    match nextEntry records cursor lastKey with
    | none => []
    | some (r, cursor) => r :: iterFrom records fuel cursor r.key

def keyAtRestart (records : Bytes) (off : ℕ) : Option Key :=
  if records.length ≤ off then none
  else do
    let rest := records.drop off
    let (shared, c₁) ← (decodeU32 rest).toOption
    if shared ≠ 0 then none
    else
      let (unshared, c₂) ← (decodeU32 (rest.drop c₁)).toOption
      let (_, c₃) ← (decodeU32 (rest.drop (c₁ + c₂))).toOption
      let keyStart := c₁ + c₂ + c₃ + 8 + 1
      if rest.length < keyStart + unshared then none
      else return (rest.drop keyStart).take unshared

/-- The loop of `seek` over the restarts, whose keys `keyAt` reads. -/
def searchRestart (keyAt : ℕ → Option Key) (target : Key) : ℕ → ℕ → ℕ → Option ℕ
  | 0, _, _ => none
  | fuel + 1, lo, hi =>
    if lo + 1 < hi then
      let mid := lo + (hi - lo) / 2
      match keyAt mid with
      | none => none
      | some k =>
        match cmpKey k target with
        | .lt => searchRestart keyAt target fuel mid hi
        -- the search stops at the restart it has hit
        | .eq => searchRestart keyAt target fuel mid (mid + 1)
        | .gt => searchRestart keyAt target fuel lo mid
    else some lo

namespace BlockReader

def openBlock (bytes : Bytes) : Res BlockReader :=
  if bytes.length < blockTrailerSize then
    .error (.err (.invalidFormat "sstable data block" "shorter than block trailer"))
  else
    let storedCrc := leVal (bytes.drop (bytes.length - 4))
    let computedCrc := crc32c (bytes.take (bytes.length - 4))
    if storedCrc ≠ computedCrc then
      .error (.err (.checksumMismatch "sstable data block" storedCrc computedCrc))
    else
      let numRestarts := leVal ((bytes.drop (bytes.length - 8)).take 4)
      let restartBytesLen := numRestarts * 4
      if bytes.length < restartBytesLen + blockTrailerSize then
        .error (.err (.invalidFormat "sstable data block" "restart array overflows block"))
      else
        let recordsEnd := bytes.length - blockTrailerSize - restartBytesLen
        .ok ⟨bytes.take recordsEnd, (bytes.drop recordsEnd).take restartBytesLen⟩

def numRestarts (r : BlockReader) : ℕ := r.restartBytes.length / 4

def restartOffset (r : BlockReader) (i : ℕ) : ℕ := leVal ((r.restartBytes.drop (i * 4)).take 4)

def iter (r : BlockReader) : List Rec := iterFrom r.records (r.records.length + 1) 0 []

def seek (r : BlockReader) (target : Key) : Option Rec :=
  let n := r.numRestarts
  if n = 0 then none
  else do
    let lo ← searchRestart (fun i => keyAtRestart r.records (r.restartOffset i)) target n 0 n
    let recs := iterFrom r.records (r.records.length + 1) (r.restartOffset lo) []
    recs.find? fun rec => target ≤ rec.key

end BlockReader

/-! ### What a builder holds -/

/-- The lengths fit their varints and the sequence number its word. -/
structure Fits (r : Rec) : Prop where
  key : r.key.length < u32Size
  value : r.value.length < u32Size
  seqno : r.seqno < u64Size

/-- Bytes of the key that record number `n` of a block takes from the one before. -/
def sharedAt (n : ℕ) (last key : Key) : ℕ :=
  if n % restartInterval = 0 then 0 else sharedPrefixLen last key

/-- The records from number `n` on. -/
def entries : ℕ → Key → List Rec → Bytes
  | _, _, [] => []
  | n, last, r :: rs => entryBytes (sharedAt n last r.key) r ++ entries (n + 1) r.key rs

def lastKeyOf (last : Key) (rs : List Rec) : Key := (rs.getLast?.map Rec.key).getD last

/-- The offset of restart `i`. -/
def restartAt (rs : List Rec) (i : ℕ) : ℕ := (entries 0 [] (rs.take (restartInterval * i))).length

/-- The number of restarts among `n` records. -/
def restartCount (n : ℕ) : ℕ := (n + (restartInterval - 1)) / restartInterval

def numRestartsOf (rs : List Rec) : ℕ := restartCount rs.length

structure Built (b : BlockBuilder) (rs : List Rec) : Prop where
  buffer : b.buffer = entries 0 [] rs
  restarts : b.restarts = (List.range (numRestartsOf rs)).map fun i => restartAt rs i % u32Size
  lastKey : b.lastKey = lastKeyOf [] rs
  counter : b.counter =
    if rs.length % restartInterval = 0 then restartInterval else rs.length % restartInterval

theorem sharedPrefixLen_le (a b : Key) : sharedPrefixLen a b ≤ b.length := by
  fun_induction sharedPrefixLen a b with
  | case1 as b bs ih =>
    rw [List.length_cons]
    omega
  | case2 => exact Nat.zero_le _
  | case3 => exact Nat.zero_le _

theorem sharedPrefixLen_le_left (a b : Key) : sharedPrefixLen a b ≤ a.length := by
  fun_induction sharedPrefixLen a b with
  | case1 as b bs ih =>
    rw [List.length_cons]
    omega
  | case2 => exact Nat.zero_le _
  | case3 => exact Nat.zero_le _

theorem take_sharedPrefixLen (a b : Key) :
    a.take (sharedPrefixLen a b) = b.take (sharedPrefixLen a b) := by
  fun_induction sharedPrefixLen a b with
  | case1 as b bs ih => rw [List.take_succ_cons, List.take_succ_cons, ih]
  | case2 => simp
  | case3 => simp

theorem sharedAt_le (n : ℕ) (last key : Key) : sharedAt n last key ≤ key.length := by
  unfold sharedAt
  split
  · exact Nat.zero_le _
  · exact sharedPrefixLen_le last key

@[simp] theorem lastKeyOf_nil (last : Key) : lastKeyOf last [] = last := rfl

theorem lastKeyOf_cons (last : Key) (r : Rec) (rs : List Rec) :
    lastKeyOf last (r :: rs) = lastKeyOf r.key rs := by
  unfold lastKeyOf
  rw [List.getLast?_cons]
  cases rs.getLast? <;> rfl

theorem entries_append (n : ℕ) (last : Key) (rs rs' : List Rec) :
    entries n last (rs ++ rs') =
      entries n last rs ++ entries (n + rs.length) (lastKeyOf last rs) rs' := by
  induction rs generalizing n last with
  | nil => rfl
  | cons r rs ih =>
    rw [List.cons_append, entries, ih, entries, List.append_assoc, lastKeyOf_cons,
      List.length_cons, Nat.add_right_comm, Nat.add_assoc]

theorem built_new : Built .new [] := ⟨rfl, rfl, rfl, rfl⟩

theorem restartAt_append {rs : List Rec} (rs' : List Rec) {i : ℕ}
    (h : restartInterval * i ≤ rs.length) : restartAt (rs ++ rs') i = restartAt rs i := by
  unfold restartAt
  rw [List.take_append_of_le_length h]

theorem Built.add {b : BlockBuilder} {rs : List Rec} (h : Built b rs) (r : Rec) :
    Built (b.add r) (rs ++ [r]) := by
  obtain ⟨hbuf, hres, hlast, hcount⟩ := h
  have hentries : entries 0 [] (rs ++ [r]) =
      entries 0 [] rs ++ entryBytes (sharedAt rs.length (lastKeyOf [] rs) r.key) r := by
    rw [entries_append, Nat.zero_add]
    simp [entries]
  have hkept : ∀ n, n ≤ numRestartsOf rs →
      ((List.range n).map fun i => restartAt (rs ++ [r]) i % u32Size) =
        (List.range n).map fun i => restartAt rs i % u32Size := by
    intro n hn
    refine List.map_congr_left ?_
    intro i hi
    rw [restartAt_append]
    have hi := List.mem_range.mp hi
    unfold numRestartsOf restartCount restartInterval at *
    omega
  have hlastKey : r.key = lastKeyOf [] (rs ++ [r]) := by simp [lastKeyOf]
  unfold BlockBuilder.add
  by_cases hmod : rs.length % restartInterval = 0
  · -- a restart
    rw [if_pos hmod] at hcount
    have hn : numRestartsOf (rs ++ [r]) = numRestartsOf rs + 1 := by
      unfold numRestartsOf restartCount restartInterval at *
      rw [List.length_append, List.length_singleton]
      omega
    have hend : restartInterval * numRestartsOf rs = rs.length := by
      unfold numRestartsOf restartCount restartInterval at *
      omega
    rw [if_neg (by rw [hcount]; omega)]
    refine ⟨?_, ?_, hlastKey, ?_⟩
    · rw [hentries, hbuf, sharedAt, if_pos hmod]
    · have hat : restartAt (rs ++ [r]) (numRestartsOf rs) = b.buffer.length := by
        rw [restartAt_append [r] hend.le, restartAt, hend, List.take_length, hbuf]
      rw [hn, List.range_succ, List.map_append, hkept _ le_rfl, hres]
      simp [hat]
    · unfold restartInterval at *
      simp only [List.length_append, List.length_singleton]
      rw [if_neg (by omega)]
      omega
  · rw [if_neg hmod] at hcount
    have hlt : b.counter < restartInterval := by
      rw [hcount]
      exact Nat.mod_lt _ (by decide)
    have hn : numRestartsOf (rs ++ [r]) = numRestartsOf rs := by
      unfold numRestartsOf restartCount restartInterval at *
      rw [List.length_append, List.length_singleton]
      omega
    rw [if_pos hlt]
    refine ⟨?_, ?_, hlastKey, ?_⟩
    · rw [hentries, hbuf, sharedAt, if_neg hmod, hlast]
    · rw [hn, hkept _ le_rfl, hres]
    · unfold restartInterval at *
      simp only [List.length_append, List.length_singleton, hcount]
      split <;> omega

theorem built_foldl {b : BlockBuilder} {rs : List Rec} (h : Built b rs) (rs' : List Rec) :
    Built (rs'.foldl .add b) (rs ++ rs') := by
  induction rs' generalizing b rs with
  | nil => simpa using h
  | cons r rs' ih =>
    have hsplit : rs ++ r :: rs' = rs ++ [r] ++ rs' := by simp
    rw [List.foldl_cons, hsplit]
    exact ih (h.add r)

/-! ### Sizes -/

/-- The length of a key is at most that of the bytes up to its end: what it
shares with the key before it stands there too. -/
theorem key_length_le_entries {n : ℕ} {last : Key} {rs : List Rec} {b : ℕ} (hlast : last.length ≤ b) :
    ∀ r ∈ rs, r.key.length ≤ b + (entries n last rs).length ∧
      r.value.length ≤ (entries n last rs).length := by
  induction rs generalizing n last b with
  | nil => simp
  | cons x rs ih =>
    have hshared : sharedAt n last x.key ≤ last.length := by
      unfold sharedAt
      split
      · exact Nat.zero_le _
      · exact sharedPrefixLen_le_left last x.key
    have hkey : x.key.length ≤ b + (entryBytes (sharedAt n last x.key) x).length ∧
        x.value.length ≤ (entryBytes (sharedAt n last x.key) x).length := by
      simp only [entryBytes, List.length_append, List.length_drop]
      omega
    intro r hr
    rw [entries, List.length_append]
    rcases List.mem_cons.mp hr with rfl | hr
    · omega
    · have := ih (n := n + 1) hkey.1 r hr
      omega

theorem fits_of_entries {rs : List Rec} (hlen : (entries 0 [] rs).length < u32Size)
    (hseq : ∀ r ∈ rs, r.seqno < u64Size) : ∀ r ∈ rs, Fits r := by
  intro r hr
  have := @key_length_le_entries 0 [] rs 0 le_rfl r hr
  exact ⟨by omega, by omega, hseq r hr⟩

end PaddockKV.Sstable
