import PaddockKV.Checked
import PaddockKV.Filter.Probe

/-!
# The filter of an arbitrary table

`decode` and `contains` with every product, index and slice checked, on either
backend. The bytes may be anything: the filter that `decode` accepts has as many
blocks as it says.
-/

namespace PaddockKV.Filter

namespace Checked

def pickBlock (hash : UInt64) (numBlocks : ℕ) : Res ℕ := do
  let product ← mulWord (hash.toNat % u32Size) numBlocks
  return product / u32Size

def bitIsSet (block : Bytes) (pos : ℕ) : Res Bool := do
  let byte ← byteAt block (pos / 8)
  return byte.val &&& 1 <<< (pos % 8) ≠ 0

def probeScalar (block : Bytes) (hash : UInt64) (k : ℕ) : Res Bool :=
  (bitPositions hash k).allM (bitIsSet block)

def addPosition (m : Masks) (pos : ℕ) : Res Masks := do
  let word := pos / 64
  let bit := pos % 64
  if word < 4 then
    let low ← updateAt m.low word (orBit bit)
    return { m with low := low }
  else
    let word ← subWord word 4
    let high ← updateAt m.high word (orBit bit)
    return { m with high := high }

def probeAvx2 (block : Bytes) (hash : UInt64) (k : ℕ) : Res Bool := do
  let masks ← (bitPositions hash k).foldlM addPosition Masks.zero
  let blkLo ← slice block 0 32
  let blkHi ← slice block 32 64
  return testc256 (load256 blkLo) (load256 (wordBytes masks.low)) &&
    testc256 (load256 blkHi) (load256 (wordBytes masks.high))

def dispatchProbe (backend : ProbeBackend) (block : Bytes) (hash : UInt64) (k : ℕ) : Res Bool :=
  match backend with
  | .scalar => probeScalar block hash k
  | .avx2 => probeAvx2 block hash k

/-- `contains`; the range that `block` reads without a check is checked here. -/
def contains (xxh3 : Bytes → UInt64) (backend : ProbeBackend) (f : BlockedBloom) (key : Key) :
    Res Bool := do
  let hash := xxh3 key
  let blockIdx ← pickBlock hash f.numBlocks
  let start ← mulWord blockIdx blockBytes
  let block ← slice f.blocks start (start + blockBytes)
  dispatchProbe backend block hash f.params.numHashes.val

def decode (bytes : Bytes) : Res BlockedBloom :=
  if bytes.length < headerSize then
    .error (.err (.invalidFormat "bloom filter" "shorter than header"))
  else do
    let magic ← u32At bytes 0 4
    if magic ≠ filterMagic then
      .error (.err (.invalidFormat "bloom filter" "wrong magic"))
    else
      let version ← byteAt bytes 4
      if version ≠ filterVersion then
        .error (.err (.invalidFormat "bloom filter"
          ("unsupported version " ++ toString version.val)))
      else
        let numHashes ← byteAt bytes 5
        let bitsPerKey ← byteAt bytes 6
        let numBlocks ← u32At bytes 8 12
        let numKeys ← u32At bytes 12 16
        if numHashes.val = 0 ∨ 16 < numHashes.val then
          .error (.err (.invalidFormat "bloom filter"
            ("num_hashes out of range: " ++ toString numHashes.val)))
        else if numBlocks = 0 then
          .error (.err (.invalidFormat "bloom filter" "num_blocks must be >= 1"))
        else
          let expectedPayload ← mulWord numBlocks blockBytes
          if bytes.length ≠ headerSize + expectedPayload then
            let payload ← subWord bytes.length headerSize
            .error (.err (.invalidFormat "bloom filter" ("payload length " ++
              toString payload ++ " does not match num_blocks=" ++
              toString numBlocks ++ " (expected " ++ toString expectedPayload ++ ")")))
          else
            let payload ← sliceFrom bytes headerSize
            if payload.length ≠ expectedPayload then
              .error (.panicked "copy_from_slice: source and destination lengths differ")
            else .ok ⟨payload, numBlocks, numKeys, ⟨numHashes, bitsPerKey⟩⟩

end Checked

theorem checked_bitIsSet {blocks : Bytes} {start pos : ℕ}
    (hroom : start + blockBytes ≤ blocks.length) (hpos : pos < blockBits) :
    Checked.bitIsSet ((blocks.drop start).take blockBytes) pos = .ok (bitIsSet start blocks pos) := by
  have hbyte : pos / 8 < blockBytes := by
    unfold blockBytes blockBits at *
    omega
  have hin : pos / 8 < ((blocks.drop start).take blockBytes).length := by
    rw [List.length_take, List.length_drop]
    omega
  unfold Checked.bitIsSet bitIsSet
  rw [byteAt_ok hin, res_ok_bind, headD_drop, block_getD _ _ hbyte]
  rfl

theorem checked_addPosition {m : Masks} (h : m.Sized) {pos : ℕ} (hpos : pos < blockBits) :
    Checked.addPosition m pos = .ok (addPosition m pos) := by
  unfold blockBits at hpos
  unfold Checked.addPosition addPosition
  dsimp only
  split
  · rename_i hlow
    rw [updateAt_ok (hlow.trans_eq h.low.symm), res_ok_bind]
    rfl
  · rename_i hhigh
    have hin : pos / 64 - 4 < m.high.length := by
      rw [h.high]
      omega
    rw [subWord_ok (not_lt.mp hhigh), res_ok_bind, updateAt_ok hin, res_ok_bind]
    rfl

theorem load256_take (bytes : Bytes) : load256 (bytes.take 32) = load256 bytes := by
  rw [load256, load256, List.take_take, Nat.min_self]

theorem checked_dispatchProbe {blocks : Bytes} {start : ℕ}
    (hroom : start + blockBytes ≤ blocks.length) (backend : ProbeBackend) (hash : UInt64) (k : ℕ) :
    Checked.dispatchProbe backend ((blocks.drop start).take blockBytes) hash k =
      .ok (dispatchProbe backend blocks start hash k) := by
  have hlt : ∀ p ∈ bitPositions hash k, p < blockBits := fun p hp => positionsFrom_lt hp
  have hlen : ((blocks.drop start).take blockBytes).length = 64 := by
    rw [List.length_take, List.length_drop]
    unfold blockBytes at *
    omega
  cases backend with
  | scalar => exact allM_ok fun p hp => checked_bitIsSet hroom (hlt p hp)
  | avx2 =>
    have hmasks : (bitPositions hash k).foldlM Checked.addPosition Masks.zero =
        .ok ((bitPositions hash k).foldl addPosition Masks.zero) := by
      refine foldlM_ok (I := Masks.Sized) ?_ ⟨rfl, rfl⟩
      intro m hm p hp
      exact ⟨checked_addPosition hm (hlt p hp), addPosition_sized hm p⟩
    show Checked.probeAvx2 _ hash k = .ok (probeAvx2 blocks start hash k)
    unfold Checked.probeAvx2 probeAvx2
    rw [hmasks, res_ok_bind, slice_ok (by decide) (by omega), res_ok_bind,
      slice_ok (by decide) hlen.ge, res_ok_bind, List.drop_zero, load256_take, load256_take]
    rfl

theorem checked_pickBlock (hash : UInt64) {n : ℕ} (hn : n < u32Size) :
    Checked.pickBlock hash n = .ok (pickBlock hash n) := by
  have hlow : hash.toNat % u32Size < u32Size := Nat.mod_lt _ (by decide)
  have hproduct : hash.toNat % u32Size * n < u64Size :=
    (Nat.mul_lt_mul'' hlow hn).trans_eq rfl
  unfold Checked.pickBlock
  rw [mulWord_ok hproduct, res_ok_bind]
  rfl

theorem checked_contains {f : BlockedBloom} (h : Valid f) (xxh3 : Bytes → UInt64)
    (backend : ProbeBackend) (key : Key) :
    Checked.contains xxh3 backend f key = .ok (f.contains xxh3 key) := by
  have hpick := @pickBlock_lt (xxh3 key) f.numBlocks h.pos
  have hnum := h.numBlocks
  have hstart : pickBlock (xxh3 key) f.numBlocks * blockBytes < u64Size := by
    unfold blockBytes u64Size u32Size at *
    omega
  have hroom : pickBlock (xxh3 key) f.numBlocks * blockBytes + blockBytes ≤ f.blocks.length := by
    rw [h.length, ← Nat.succ_mul]
    exact Nat.mul_le_mul_right _ hpick
  unfold Checked.contains
  dsimp only
  rw [checked_pickBlock _ hnum, res_ok_bind, mulWord_ok hstart, res_ok_bind,
    slice_ok (Nat.le_add_right _ _) hroom, res_ok_bind, Nat.add_sub_cancel_left,
    checked_dispatchProbe hroom, dispatchProbe_eq]
  rfl

theorem checked_decode (bytes : Bytes) : Checked.decode bytes = BlockedBloom.decode bytes := by
  unfold Checked.decode BlockedBloom.decode
  split
  · rfl
  · rename_i hlong
    have hlen : 16 ≤ bytes.length := not_lt.mp hlong
    rw [u32At_ok (by decide) (by omega), res_ok_bind, List.drop_zero]
    split
    · rfl
    · rw [byteAt_ok (by omega), res_ok_bind]
      dsimp only
      split
      · rfl
      · rw [byteAt_ok (by omega), res_ok_bind, byteAt_ok (by omega), res_ok_bind,
          u32At_ok (by decide) (by omega), res_ok_bind, u32At_ok (by decide) (by omega),
          res_ok_bind]
        split
        · rfl
        · split
          · rfl
          · have hnum : leVal ((bytes.drop 8).take 4) < 256 ^ 4 :=
              (leVal_lt _).trans_le (Nat.pow_le_pow_right (by decide) (List.length_take_le _ _))
            rw [mulWord_ok (by unfold blockBytes u64Size; omega), res_ok_bind]
            split
            · rw [subWord_ok (not_lt.mp hlong), res_ok_bind]
            · rename_i hpayload
              have hsize : (bytes.drop headerSize).length =
                  leVal ((bytes.drop 8).take 4) * blockBytes := by
                rw [List.length_drop]
                omega
              rw [sliceFrom_ok (not_lt.mp hlong), res_ok_bind, if_neg (not_not.mpr hsize)]

theorem decode_returns (bytes : Bytes) : Returns (BlockedBloom.decode bytes) := by
  unfold BlockedBloom.decode
  dsimp only
  repeat' split
  all_goals first | exact Returns.err _ | exact Returns.ok _

theorem valid_decode {bytes : Bytes} {f : BlockedBloom} (h : BlockedBloom.decode bytes = .ok f) :
    Valid f := by
  have hword : ∀ i, leVal ((bytes.drop i).take 4) < u32Size := fun i =>
    (leVal_lt _).trans_le (Nat.pow_le_pow_right (by decide) (List.length_take_le _ _))
  unfold BlockedBloom.decode at h
  dsimp only at h
  repeat' split at h
  all_goals cases h
  rename_i hhashes hpos hlen
  refine ⟨by dsimp only; omega, Nat.pos_of_ne_zero hpos, hword 8, ?_, hword 12⟩
  show (bytes.drop headerSize).length = _
  rw [List.length_drop, not_not.mp hlen, Nat.add_sub_cancel_left]

end PaddockKV.Filter
