import Mathlib.Data.Nat.Bitwise
import PaddockKV.Basic

/-!
# The Bloom filter of an SSTable (`filter/blocked_bloom.rs`)

All bits of a key lie in one block of 64 bytes. The hash function is a
parameter; a key that was inserted is found again whatever it is.
-/

namespace PaddockKV.Filter

def filterMagic : ℕ := 0xB1000F11
def filterVersion : Byte := 1
def headerSize : ℕ := 16
def blockBytes : ℕ := 64
def blockBits : ℕ := 512

structure BloomParams where
  numHashes : Byte
  bitsPerKey : Byte
  deriving Repr, DecidableEq

structure BlockedBloom where
  blocks : Bytes
  numBlocks : ℕ
  numKeys : ℕ
  params : BloomParams
  deriving Repr, DecidableEq

def pickBlock (hash : UInt64) (numBlocks : ℕ) : ℕ :=
  hash.toNat % u32Size * numBlocks / u32Size

def positionsFrom (hB : UInt32) : ℕ → UInt32 → List ℕ
  | 0, _ => []
  | k + 1, hA => (hA &&& 511).toNat :: positionsFrom hB k (hA + hB)

def bitPositions (hash : UInt64) (k : ℕ) : List ℕ :=
  let hHigh := (hash >>> 32).toUInt32
  let hB := hHigh * 0x9E3779B9
  let hB := hB ^^^ (hB >>> 16)
  positionsFrom (hB * 0x85EBCA6B) k hHigh

-- `block[pos / 8] |= 1 << (pos % 8)` in the block that starts at `start`
def setBit (start : ℕ) (blocks : Bytes) (pos : ℕ) : Bytes :=
  blocks.modify (start + pos / 8) fun b => Fin.ofNat 256 (b.val ||| 1 <<< (pos % 8))

def bitIsSet (start : ℕ) (blocks : Bytes) (pos : ℕ) : Bool :=
  (blocks.getD (start + pos / 8) 0).val &&& 1 <<< (pos % 8) ≠ 0

def probeScalar (blocks : Bytes) (start : ℕ) (hash : UInt64) (k : ℕ) : Bool :=
  (bitPositions hash k).all (bitIsSet start blocks)

namespace BlockedBloom

def new (expectedKeys : ℕ) (params : BloomParams) : Res BlockedBloom :=
  if ¬ (1 ≤ params.numHashes.val ∧ params.numHashes.val ≤ 16) then
    .error (.panicked "BloomParams::num_hashes must lie in 1..=16")
  else
    let totalBits := max expectedKeys 1 * params.bitsPerKey.val
    if u64Size ≤ totalBits then .error (.panicked "attempt to multiply with overflow")
    else
      let wanted := (totalBits + (blockBits - 1)) / blockBits
      let numBlocks := max (if wanted < u32Size then wanted else u32Size - 1) 1
      .ok ⟨zeros (numBlocks * blockBytes), numBlocks, 0, params⟩

def insert (xxh3 : Bytes → UInt64) (f : BlockedBloom) (key : Key) : BlockedBloom :=
  let hash := xxh3 key
  let start := pickBlock hash f.numBlocks * blockBytes
  { f with
    blocks := (bitPositions hash f.params.numHashes.val).foldl (setBit start) f.blocks
    numKeys := min (f.numKeys + 1) (u32Size - 1) }

def contains (xxh3 : Bytes → UInt64) (f : BlockedBloom) (key : Key) : Bool :=
  let hash := xxh3 key
  let start := pickBlock hash f.numBlocks * blockBytes
  probeScalar f.blocks start hash f.params.numHashes.val

def encode (f : BlockedBloom) : Bytes :=
  leBytes 4 filterMagic ++ ([filterVersion, f.params.numHashes, f.params.bitsPerKey, 0] ++
    (leBytes 4 f.numBlocks ++ (leBytes 4 f.numKeys ++ f.blocks.take (f.numBlocks * blockBytes))))

def decode (bytes : Bytes) : Res BlockedBloom :=
  if bytes.length < headerSize then
    .error (.err (.invalidFormat "bloom filter" "shorter than header"))
  else if leVal (bytes.take 4) ≠ filterMagic then
    .error (.err (.invalidFormat "bloom filter" "wrong magic"))
  else
    let version := (bytes.drop 4).headD 0
    if version ≠ filterVersion then
      .error (.err (.invalidFormat "bloom filter" ("unsupported version " ++ toString version.val)))
    else
      let numHashes := (bytes.drop 5).headD 0
      let bitsPerKey := (bytes.drop 6).headD 0
      let numBlocks := leVal ((bytes.drop 8).take 4)
      let numKeys := leVal ((bytes.drop 12).take 4)
      if numHashes.val = 0 ∨ 16 < numHashes.val then
        .error (.err (.invalidFormat "bloom filter"
          ("num_hashes out of range: " ++ toString numHashes.val)))
      else if numBlocks = 0 then
        .error (.err (.invalidFormat "bloom filter" "num_blocks must be >= 1"))
      else
        let expectedPayload := numBlocks * blockBytes
        if bytes.length ≠ headerSize + expectedPayload then
          .error (.err (.invalidFormat "bloom filter" ("payload length " ++
            toString (bytes.length - headerSize) ++ " does not match num_blocks=" ++
            toString numBlocks ++ " (expected " ++ toString expectedPayload ++ ")")))
        else .ok ⟨bytes.drop headerSize, numBlocks, numKeys, ⟨numHashes, bitsPerKey⟩⟩

end BlockedBloom

/-! ### Bits -/

theorem bitIsSet_iff (start : ℕ) (blocks : Bytes) (pos : ℕ) :
    bitIsSet start blocks pos = true ↔
      (blocks.getD (start + pos / 8) 0).val.testBit (pos % 8) = true := by
  unfold bitIsSet
  rw [Nat.one_shiftLeft, Nat.and_two_pow]
  cases (blocks.getD (start + pos / 8) 0).val.testBit (pos % 8) <;> simp

theorem setBit_length (start : ℕ) (blocks : Bytes) (pos : ℕ) :
    (setBit start blocks pos).length = blocks.length := List.length_modify ..

theorem setBit_val (b : Byte) {j : ℕ} (hj : j < 8) :
    (Fin.ofNat 256 (b.val ||| 1 <<< j)).val = b.val ||| 2 ^ j := by
  rw [Nat.one_shiftLeft]
  refine Nat.mod_eq_of_lt ?_
  exact @Nat.or_lt_two_pow b.val (2 ^ j) 8 b.isLt (Nat.pow_lt_pow_right (by decide) hj)

theorem bitIsSet_setBit {start : ℕ} {blocks : Bytes} {pos pos' start' : ℕ}
    (h : bitIsSet start blocks pos = true) : bitIsSet start (setBit start' blocks pos') pos = true := by
  rw [bitIsSet_iff] at h ⊢
  unfold setBit
  rw [List.getD_eq_getElem?_getD] at h ⊢
  rw [List.getElem?_modify]
  cases hget : blocks[start + pos / 8]? with
  | none =>
    rw [hget] at h
    simp at h
  | some b =>
    rw [hget, Option.getD_some] at h
    split
    · rw [Option.map_eq_map, Option.map_some, Option.getD_some,
        setBit_val b (Nat.mod_lt _ (by decide)), Nat.testBit_or, h, Bool.true_or]
    · simpa using h

theorem setBit_bitIsSet {start : ℕ} {blocks : Bytes} {pos : ℕ}
    (hlt : start + pos / 8 < blocks.length) : bitIsSet start (setBit start blocks pos) pos = true := by
  rw [bitIsSet_iff]
  unfold setBit
  rw [List.getD_eq_getElem?_getD, List.getElem?_modify_eq, List.getElem?_eq_getElem hlt,
    Option.map_eq_map, Option.map_some, Option.getD_some, setBit_val _ (Nat.mod_lt _ (by decide)), Nat.testBit_or,
    Nat.testBit_two_pow_self, Bool.or_true]

theorem foldl_setBit_length (start : ℕ) (ps : List ℕ) (blocks : Bytes) :
    (ps.foldl (setBit start) blocks).length = blocks.length := by
  induction ps generalizing blocks with
  | nil => rfl
  | cons p ps ih => rw [List.foldl_cons, ih, setBit_length]

theorem bitIsSet_foldl {start start' : ℕ} {pos : ℕ} (ps : List ℕ) {blocks : Bytes}
    (h : bitIsSet start blocks pos = true) :
    bitIsSet start (ps.foldl (setBit start') blocks) pos = true := by
  induction ps generalizing blocks with
  | nil => exact h
  | cons p ps ih => exact ih (bitIsSet_setBit h)

theorem foldl_setBit_all {start : ℕ} {ps : List ℕ} {blocks : Bytes}
    (hlt : ∀ p ∈ ps, start + p / 8 < blocks.length) :
    ∀ p ∈ ps, bitIsSet start (ps.foldl (setBit start) blocks) p = true := by
  induction ps generalizing blocks with
  | nil => simp
  | cons p ps ih =>
    intro q hq
    rw [List.foldl_cons]
    rcases List.mem_cons.mp hq with rfl | hq
    · exact bitIsSet_foldl ps (setBit_bitIsSet (hlt q List.mem_cons_self))
    · refine ih ?_ q hq
      intro x hx
      rw [setBit_length]
      exact hlt x (List.mem_cons_of_mem p hx)

/-! ### No false negatives -/

theorem positionsFrom_lt {hB hA : UInt32} {k pos : ℕ} (h : pos ∈ positionsFrom hB k hA) :
    pos < blockBits := by
  induction k generalizing hA with
  | zero => cases h
  | succ k ih =>
    rcases List.mem_cons.mp h with rfl | h
    · have hand : (hA &&& 511).toNat ≤ 511 := by
        rw [UInt32.toNat_and]
        exact Nat.and_le_right
      unfold blockBits
      omega
    · exact ih h

theorem pickBlock_lt {hash : UInt64} {n : ℕ} (hn : 0 < n) : pickBlock hash n < n := by
  unfold pickBlock
  rw [Nat.div_lt_iff_lt_mul (by decide), Nat.mul_comm n]
  exact Nat.mul_lt_mul_of_pos_right (Nat.mod_lt _ (by decide)) hn

/-- What `new` sets up and `insert` keeps. -/
structure Valid (f : BlockedBloom) : Prop where
  hashes : 1 ≤ f.params.numHashes.val ∧ f.params.numHashes.val ≤ 16
  pos : 0 < f.numBlocks
  numBlocks : f.numBlocks < u32Size
  length : f.blocks.length = f.numBlocks * blockBytes
  numKeys : f.numKeys < u32Size

theorem valid_new {n : ℕ} {params : BloomParams} {f : BlockedBloom}
    (h : BlockedBloom.new n params = .ok f) : Valid f := by
  unfold BlockedBloom.new at h
  split at h
  · cases h
  · rename_i hhash
    dsimp only at h
    split at h
    · cases h
    · cases h
      have h32 : 1 < u32Size := by decide
      refine ⟨not_not.mp hhash, by positivity, ?_, by simp, Nat.zero_lt_of_lt h32⟩
      dsimp only
      split <;> omega

section

variable (xxh3 : Bytes → UInt64)

theorem Valid.insert {f : BlockedBloom} (h : Valid f) (key : Key) : Valid (f.insert xxh3 key) := by
  refine ⟨h.hashes, h.pos, h.numBlocks, ?_, ?_⟩
  · exact (foldl_setBit_length ..).trans h.length
  · have h32 : 0 < u32Size := by decide
    unfold BlockedBloom.insert
    dsimp only
    omega

theorem contains_insert {f : BlockedBloom} (h : Valid f) (key : Key) :
    (f.insert xxh3 key).contains xxh3 key = true := by
  unfold BlockedBloom.contains probeScalar
  rw [List.all_eq_true]
  refine foldl_setBit_all ?_
  intro pos hpos
  have hp := positionsFrom_lt hpos
  have hb : pickBlock (xxh3 key) f.numBlocks + 1 ≤ f.numBlocks := pickBlock_lt h.pos
  have hmul := Nat.mul_le_mul_right blockBytes hb
  show pickBlock (xxh3 key) f.numBlocks * blockBytes + pos / 8 < f.blocks.length
  rw [h.length]
  unfold blockBits blockBytes at *
  omega

theorem contains_insert_of_contains {f : BlockedBloom} {key : Key}
    (h : f.contains xxh3 key = true) (key' : Key) :
    (f.insert xxh3 key').contains xxh3 key = true := by
  unfold BlockedBloom.contains probeScalar at h ⊢
  rw [List.all_eq_true] at h ⊢
  intro pos hpos
  exact bitIsSet_foldl _ (h pos hpos)

theorem valid_foldl {f : BlockedBloom} (h : Valid f) (keys : List Key) :
    Valid (keys.foldl (.insert xxh3) f) := by
  induction keys generalizing f with
  | nil => exact h
  | cons k keys ih => exact ih (h.insert xxh3 k)

theorem contains_foldl_of_contains {f : BlockedBloom} {key : Key} (keys : List Key)
    (h : f.contains xxh3 key = true) : (keys.foldl (.insert xxh3) f).contains xxh3 key = true := by
  induction keys generalizing f with
  | nil => exact h
  | cons k keys ih => exact ih (contains_insert_of_contains xxh3 h k)

theorem contains_foldl {f : BlockedBloom} (h : Valid f) {keys : List Key} {key : Key}
    (hkey : key ∈ keys) : (keys.foldl (.insert xxh3) f).contains xxh3 key = true := by
  induction keys generalizing f with
  | nil => cases hkey
  | cons k keys ih =>
    rcases List.mem_cons.mp hkey with rfl | hkey
    · exact contains_foldl_of_contains xxh3 keys (contains_insert xxh3 h key)
    · exact ih (h.insert xxh3 k) hkey

end

/-! ### On disk -/

theorem encode_length {f : BlockedBloom} (h : Valid f) :
    f.encode.length = headerSize + f.numBlocks * blockBytes := by
  rw [BlockedBloom.encode, List.take_of_length_le h.length.le]
  simp only [List.length_append, leBytes_length, List.length_cons, List.length_nil, h.length]
  unfold headerSize
  omega

theorem decode_encode {f : BlockedBloom} (h : Valid f) : BlockedBloom.decode f.encode = .ok f := by
  have hlen := encode_length h
  have hmagic : leVal (leBytes 4 filterMagic) = filterMagic := leVal_u32 (by decide)
  have hhash : ¬ (f.params.numHashes.val = 0 ∨ 16 < f.params.numHashes.val) := by
    have := h.hashes
    omega
  have hpos : f.numBlocks ≠ 0 := h.pos.ne'
  have hbytes : f.encode = leBytes 4 filterMagic ++ ([filterVersion, f.params.numHashes,
      f.params.bitsPerKey, 0] ++ (leBytes 4 f.numBlocks ++ (leBytes 4 f.numKeys ++ f.blocks))) := by
    rw [BlockedBloom.encode, List.take_of_length_le h.length.le]
  have h₀ : f.encode.take 4 = leBytes 4 filterMagic := by
    rw [hbytes, List.take_left' (leBytes_length _ _)]
  have h₄ : f.encode.drop 4 = filterVersion :: f.params.numHashes :: f.params.bitsPerKey :: 0 ::
      (leBytes 4 f.numBlocks ++ (leBytes 4 f.numKeys ++ f.blocks)) := by
    rw [hbytes, List.drop_left' (leBytes_length _ _)]
    rfl
  have h₅ : f.encode.drop 5 = (f.encode.drop 4).drop 1 := by rw [List.drop_drop]
  have h₆ : f.encode.drop 6 = (f.encode.drop 4).drop 2 := by rw [List.drop_drop]
  have h₈ : f.encode.drop 8 = (f.encode.drop 4).drop 4 := by rw [List.drop_drop]
  have h₁₂ : f.encode.drop 12 = leBytes 4 f.numKeys ++ f.blocks := by
    have : f.encode.drop 12 = (f.encode.drop 8).drop 4 := by rw [List.drop_drop]
    rw [this, h₈, h₄]
    exact List.drop_left' (leBytes_length _ _)
  have h₁₆ : f.encode.drop 16 = f.blocks := by
    have : f.encode.drop 16 = (f.encode.drop 12).drop 4 := by rw [List.drop_drop]
    rw [this, h₁₂, List.drop_left' (leBytes_length _ _)]
  have hnb : leVal ((f.encode.drop 8).take 4) = f.numBlocks := by
    rw [h₈, h₄]
    show leVal ((leBytes 4 f.numBlocks ++ _).take 4) = _
    rw [List.take_left' (leBytes_length _ _), leVal_u32 h.numBlocks]
  have hnk : leVal ((f.encode.drop 12).take 4) = f.numKeys := by
    rw [h₁₂, List.take_left' (leBytes_length _ _), leVal_u32 h.numKeys]
  have hshort : ¬ headerSize + f.numBlocks * blockBytes < headerSize := by omega
  have hv : (f.encode.drop 4).headD 0 = filterVersion := by
    rw [h₄]
    rfl
  have hk : (f.encode.drop 5).headD 0 = f.params.numHashes := by
    rw [h₅, h₄]
    rfl
  have hb : (f.encode.drop 6).headD 0 = f.params.bitsPerKey := by
    rw [h₆, h₄]
    rfl
  have hrest : f.encode.drop headerSize = f.blocks := h₁₆
  simp only [BlockedBloom.decode, if_neg hshort, h₀, hmagic, hv, hk, hb, hnb, hnk, if_neg hhash,
    if_neg hpos, hlen, hrest, ne_eq, not_true_eq_false, if_false]

end PaddockKV.Filter
