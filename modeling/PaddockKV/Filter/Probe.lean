import PaddockKV.Filter.BlockedBloom

/-!
# The two probes of a block (`filter/blocked_bloom.rs`, `dispatch_probe`)

`probe_avx2` gathers the bit positions of a key into two masks of four `u64`
words and compares each with one half of the block; `probe_scalar` looks at the
positions one at a time. They give the same answer, so what holds of a filter
does not depend on the processor that queries it.
-/

namespace PaddockKV.Filter

/-! ### Vectors of 256 bits -/

/-- A load of 32 bytes (`_mm256_load_si256`, `_mm256_loadu_si256`). -/
def load256 (bytes : Bytes) : BitVec 256 := BitVec.ofNat 256 (leVal (bytes.take 32))

/-- `_mm256_testc_si256(a, b) == 1`. -/
def testc256 (a b : BitVec 256) : Bool := ~~~a &&& b = 0#256

/-- `mask_low` and `mask_high`, four words each. -/
structure Masks where
  low : List UInt64
  high : List UInt64
  deriving Repr, DecidableEq

def Masks.zero : Masks := ⟨List.replicate 4 0, List.replicate 4 0⟩

def orBit (bit : ℕ) (word : UInt64) : UInt64 := word ||| UInt64.ofNat (1 <<< bit)

def addPosition (m : Masks) (pos : ℕ) : Masks :=
  let word := pos / 64
  let bit := pos % 64
  if word < 4 then { m with low := m.low.modify word (orBit bit) }
  else { m with high := m.high.modify (word - 4) (orBit bit) }

/-- The bytes of an array of `u64` in memory. -/
def wordBytes (words : List UInt64) : Bytes := words.flatMap fun w => leBytes 8 w.toNat

def probeAvx2 (blocks : Bytes) (start : ℕ) (hash : UInt64) (k : ℕ) : Bool :=
  let block := (blocks.drop start).take blockBytes
  let masks := (bitPositions hash k).foldl addPosition Masks.zero
  testc256 (load256 block) (load256 (wordBytes masks.low)) &&
    testc256 (load256 (block.drop 32)) (load256 (wordBytes masks.high))

/-- What `select_probe_backend` chooses from. -/
inductive ProbeBackend where
  | scalar
  | avx2
  deriving Repr, DecidableEq

def dispatchProbe (backend : ProbeBackend) (blocks : Bytes) (start : ℕ) (hash : UInt64)
    (k : ℕ) : Bool :=
  match backend with
  | .scalar => probeScalar blocks start hash k
  | .avx2 => probeAvx2 blocks start hash k

/-- `BlockedBloom::contains` on a processor with the given backend. -/
def BlockedBloom.containsOn (xxh3 : Bytes → UInt64) (backend : ProbeBackend) (f : BlockedBloom)
    (key : Key) : Bool :=
  let hash := xxh3 key
  let start := pickBlock hash f.numBlocks * blockBytes
  dispatchProbe backend f.blocks start hash f.params.numHashes.val

/-! ### Bits in memory -/

theorem leVal_append (a b : Bytes) : leVal (a ++ b) = leVal a + 256 ^ a.length * leVal b := by
  induction a with
  | nil => simp [leVal]
  | cons x a ih =>
    rw [List.cons_append, leVal, ih, leVal, List.length_cons, Nat.pow_succ]
    ring

theorem wordBytes_testBit (words : List UInt64) (i : ℕ) :
    (leVal (wordBytes words)).testBit i = (words.getD (i / 64) 0).toNat.testBit (i % 64) := by
  induction words generalizing i with
  | nil => simp [wordBytes, leVal]
  | cons w words ih =>
    have hval : leVal (wordBytes (w :: words)) = 2 ^ 64 * leVal (wordBytes words) + w.toNat := by
      show leVal (leBytes 8 w.toNat ++ wordBytes words) = _
      rw [leVal_append, leVal_u64 w.toNat_lt, leBytes_length]
      omega
    rw [hval, Nat.testBit_two_pow_mul_add _ w.toNat_lt]
    split
    · rename_i hi
      rw [Nat.div_eq_of_lt hi, Nat.mod_eq_of_lt hi, List.getD_cons_zero]
    · rename_i hi
      have hdiv : i / 64 = (i - 64) / 64 + 1 := by omega
      have hmod : i % 64 = (i - 64) % 64 := by omega
      rw [ih, hdiv, hmod, List.getD_cons_succ]

theorem wordBytes_length (words : List UInt64) : (wordBytes words).length = words.length * 8 := by
  induction words with
  | nil => rfl
  | cons w words ih =>
    show (leBytes 8 w.toNat ++ wordBytes words).length = _
    rw [List.length_append, leBytes_length, ih, List.length_cons]
    omega

theorem load256_getLsbD (bytes : Bytes) {i : ℕ} (hi : i < 256) :
    (load256 bytes).getLsbD i = (bytes.getD (i / 8) 0).val.testBit (i % 8) := by
  have hbyte : i / 8 < 32 := by omega
  rw [load256, BitVec.getLsbD_ofNat, leVal_testBit]
  simp only [hi, decide_true, Bool.true_and]
  rw [List.getD_eq_getElem?_getD, List.getElem?_take_of_lt hbyte, ← List.getD_eq_getElem?_getD]

theorem load256_words {words : List UInt64} (hlen : words.length = 4) {i : ℕ} (hi : i < 256) :
    (load256 (wordBytes words)).getLsbD i = (words.getD (i / 64) 0).toNat.testBit (i % 64) := by
  have hall : (wordBytes words).length ≤ 32 := by rw [wordBytes_length, hlen]
  rw [load256, List.take_of_length_le hall, BitVec.getLsbD_ofNat, wordBytes_testBit]
  simp only [hi, decide_true, Bool.true_and]

theorem testc256_iff (a b : BitVec 256) :
    testc256 a b = true ↔ ∀ i < 256, b.getLsbD i = true → a.getLsbD i = true := by
  have hand : ∀ i < 256, (~~~a &&& b).getLsbD i = (!a.getLsbD i && b.getLsbD i) := by
    intro i hi
    simp [hi]
  unfold testc256
  rw [decide_eq_true_iff]
  constructor
  · intro h i hi hb
    have hbit := hand i hi
    rw [h, hb, Bool.and_true, BitVec.getLsbD_zero] at hbit
    simpa using hbit.symm
  · intro h
    apply BitVec.eq_of_getLsbD_eq
    intro i hi
    rw [hand i hi, BitVec.getLsbD_zero]
    cases hb : b.getLsbD i with
    | false => rw [Bool.and_false]
    | true => rw [h i hi hb]; rfl

/-! ### The masks hold the positions -/

/-- Bit `i` of the eight words, `mask_low` first. -/
def Masks.bit (m : Masks) (i : ℕ) : Bool := ((m.low ++ m.high).getD (i / 64) 0).toNat.testBit (i % 64)

structure Masks.Sized (m : Masks) : Prop where
  low : m.low.length = 4
  high : m.high.length = 4

theorem addPosition_sized {m : Masks} (h : m.Sized) (pos : ℕ) : (addPosition m pos).Sized := by
  unfold addPosition
  dsimp only
  split
  · exact ⟨by rw [List.length_modify, h.low], h.high⟩
  · exact ⟨h.low, by rw [List.length_modify, h.high]⟩

theorem addPosition_words {m : Masks} (h : m.Sized) (pos : ℕ) :
    (addPosition m pos).low ++ (addPosition m pos).high =
      (m.low ++ m.high).modify (pos / 64) (orBit (pos % 64)) := by
  apply List.ext_getElem?
  intro j
  unfold addPosition
  dsimp only
  split
  · rename_i hlow
    rw [List.getElem?_append, List.length_modify, List.getElem?_modify, List.getElem?_modify,
      List.getElem?_append, h.low]
    split
    · rfl
    · have hne : pos / 64 ≠ j := by omega
      simp [hne]
  · rename_i hhigh
    rw [List.getElem?_append, List.getElem?_modify, List.getElem?_modify,
      List.getElem?_append, h.low]
    split
    · have hne : pos / 64 ≠ j := by omega
      simp [hne]
    · have hiff : pos / 64 - 4 = j - 4 ↔ pos / 64 = j := by omega
      simp only [hiff]

theorem orBit_testBit (word : UInt64) {bit : ℕ} (hbit : bit < 64) (j : ℕ) :
    (orBit bit word).toNat.testBit j = (word.toNat.testBit j || decide (bit = j)) := by
  have hpow : (UInt64.ofNat (1 <<< bit)).toNat = 2 ^ bit := by
    rw [Nat.one_shiftLeft]
    exact UInt64.toNat_ofNat_of_lt' (Nat.pow_lt_pow_right (by decide) hbit)
  rw [orBit, UInt64.toNat_or, hpow, Nat.testBit_or, Nat.testBit_two_pow]

theorem addPosition_bit {m : Masks} (h : m.Sized) {pos : ℕ} (hpos : pos < blockBits) (i : ℕ) :
    (addPosition m pos).bit i = (m.bit i || decide (pos = i)) := by
  have hlen : pos / 64 < (m.low ++ m.high).length := by
    rw [List.length_append, h.low, h.high]
    unfold blockBits at hpos
    omega
  unfold Masks.bit
  rw [addPosition_words h, List.getD_eq_getElem?_getD, List.getElem?_modify,
    List.getD_eq_getElem?_getD]
  split
  · rename_i hword
    have hsame : decide (pos % 64 = i % 64) = decide (pos = i) := by
      apply decide_eq_decide.mpr
      omega
    rw [← hword, List.getElem?_eq_getElem hlen, Option.map_eq_map, Option.map_some,
      Option.getD_some, Option.getD_some, orBit_testBit _ (Nat.mod_lt _ (by decide)), hsame]
  · rename_i hword
    have hother : decide (pos = i) = false := by
      apply decide_eq_false
      rintro rfl
      exact hword rfl
    rw [hother, Bool.or_false]
    simp

theorem foldl_addPosition {ps : List ℕ} (hps : ∀ p ∈ ps, p < blockBits) {m : Masks} (h : m.Sized) :
    (ps.foldl addPosition m).Sized ∧
      ∀ i, (ps.foldl addPosition m).bit i = (m.bit i || decide (i ∈ ps)) := by
  induction ps generalizing m with
  | nil => exact ⟨h, fun i => by simp⟩
  | cons p ps ih =>
    have hp := hps p List.mem_cons_self
    obtain ⟨hsized, hbits⟩ := ih (fun q hq => hps q (List.mem_cons_of_mem p hq))
      (addPosition_sized h p)
    refine ⟨hsized, ?_⟩
    intro i
    rw [List.foldl_cons, hbits, addPosition_bit h hp, Bool.or_assoc]
    congr 1
    simp only [List.mem_cons, eq_comm (a := p), Bool.decide_or]

theorem masks_bit (hash : UInt64) (k i : ℕ) :
    ((bitPositions hash k).foldl addPosition Masks.zero).bit i =
      decide (i ∈ bitPositions hash k) := by
  have hzero : Masks.zero.bit i = false := by
    have hword : (Masks.zero.low ++ Masks.zero.high).getD (i / 64) 0 = 0 := by
      show (List.replicate 8 (0 : UInt64)).getD (i / 64) 0 = 0
      rw [List.getD_eq_getElem?_getD, List.getElem?_replicate]
      split <;> rfl
    rw [Masks.bit, hword]
    exact Nat.zero_testBit _
  have hall := (@foldl_addPosition (bitPositions hash k) (fun p hp => positionsFrom_lt hp)
    Masks.zero ⟨rfl, rfl⟩).2 i
  rw [hall, hzero, Bool.false_or]

theorem masks_low {m : Masks} (h : m.Sized) {i : ℕ} (hi : i < 256) :
    (load256 (wordBytes m.low)).getLsbD i = m.bit i := by
  have hword : i / 64 < m.low.length := by
    rw [h.low]
    omega
  rw [load256_words h.low hi, Masks.bit, List.getD_append _ _ _ _ hword]

theorem masks_high {m : Masks} (h : m.Sized) {i : ℕ} (hi : i < 256) :
    (load256 (wordBytes m.high)).getLsbD i = m.bit (256 + i) := by
  have hdiv : (256 + i) / 64 = m.low.length + i / 64 := by
    rw [h.low]
    omega
  have hmod : (256 + i) % 64 = i % 64 := by omega
  rw [load256_words h.high hi, Masks.bit, hdiv, hmod,
    List.getD_append_right _ _ _ _ (Nat.le_add_right _ _), Nat.add_sub_cancel_left]

/-! ### The probes agree -/

theorem block_getD (blocks : Bytes) (start : ℕ) {j : ℕ} (hj : j < blockBytes) :
    ((blocks.drop start).take blockBytes).getD j 0 = blocks.getD (start + j) 0 := by
  rw [List.getD_eq_getElem?_getD, List.getElem?_take_of_lt hj, List.getElem?_drop,
    ← List.getD_eq_getElem?_getD]

theorem load256_low (blocks : Bytes) (start : ℕ) {i : ℕ} (hi : i < 256) :
    (load256 ((blocks.drop start).take blockBytes)).getLsbD i = true ↔
      bitIsSet start blocks i = true := by
  have hj : i / 8 < blockBytes := by
    unfold blockBytes
    omega
  rw [load256_getLsbD _ hi, block_getD _ _ hj, bitIsSet_iff]

theorem load256_high (blocks : Bytes) (start : ℕ) {i : ℕ} (hi : i < 256) :
    (load256 (((blocks.drop start).take blockBytes).drop 32)).getLsbD i = true ↔
      bitIsSet start blocks (256 + i) = true := by
  have hj : 32 + i / 8 < blockBytes := by
    unfold blockBytes
    omega
  have hdiv : (256 + i) / 8 = 32 + i / 8 := by omega
  have hmod : (256 + i) % 8 = i % 8 := by omega
  rw [load256_getLsbD _ hi, List.getD_eq_getElem?_getD, List.getElem?_drop,
    ← List.getD_eq_getElem?_getD, block_getD _ _ hj, bitIsSet_iff, hdiv, hmod]

theorem probe_eq (blocks : Bytes) (start : ℕ) (hash : UInt64) (k : ℕ) :
    probeAvx2 blocks start hash k = probeScalar blocks start hash k := by
  have hsized : ((bitPositions hash k).foldl addPosition Masks.zero).Sized :=
    (foldl_addPosition (fun p hp => positionsFrom_lt hp) ⟨rfl, rfl⟩).1
  rw [Bool.eq_iff_iff]
  unfold probeAvx2 probeScalar
  rw [Bool.and_eq_true, testc256_iff, testc256_iff, List.all_eq_true]
  constructor
  · rintro ⟨hlow, hhigh⟩ pos hpos
    have hlt : pos < 512 := positionsFrom_lt hpos
    have hmask := (masks_bit hash k pos).trans (decide_eq_true hpos)
    -- the position lies in one of the two halves
    by_cases hhalf : pos < 256
    · exact (load256_low blocks start hhalf).mp
        (hlow pos hhalf ((masks_low hsized hhalf).trans hmask))
    · obtain ⟨i, rfl⟩ := Nat.exists_eq_add_of_le (not_lt.mp hhalf)
      have hi : i < 256 := by omega
      exact (load256_high blocks start hi).mp (hhigh i hi ((masks_high hsized hi).trans hmask))
  · intro hall
    constructor
    · intro i hi hmask
      rw [masks_low hsized hi, masks_bit, decide_eq_true_iff] at hmask
      exact (load256_low blocks start hi).mpr (hall i hmask)
    · intro i hi hmask
      rw [masks_high hsized hi, masks_bit, decide_eq_true_iff] at hmask
      exact (load256_high blocks start hi).mpr (hall (256 + i) hmask)

/-- The vector probe and the scalar one answer alike, whatever the block, the
hash and the number of positions. -/
theorem probeAvx2_eq_probeScalar (block : Bytes) (hash : UInt64) (k : ℕ) :
    probeAvx2 block 0 hash k = probeScalar block 0 hash k := probe_eq block 0 hash k

theorem dispatchProbe_eq (backend : ProbeBackend) (blocks : Bytes) (start : ℕ) (hash : UInt64)
    (k : ℕ) : dispatchProbe backend blocks start hash k = probeScalar blocks start hash k := by
  cases backend with
  | scalar => rfl
  | avx2 => exact probe_eq blocks start hash k

/-! ### No key is lost -/

theorem containsOn_eq (xxh3 : Bytes → UInt64) (backend : ProbeBackend) (f : BlockedBloom)
    (key : Key) : f.containsOn xxh3 backend key = f.contains xxh3 key := dispatchProbe_eq ..

theorem new_ok {n : ℕ} {params : BloomParams}
    (hk : 1 ≤ params.numHashes.val ∧ params.numHashes.val ≤ 16)
    (hbits : n * params.bitsPerKey.val < u64Size) : ∃ f, BlockedBloom.new n params = .ok f := by
  have hmax : ¬ u64Size ≤ max n 1 * params.bitsPerKey.val := by
    have hbyte := params.bitsPerKey.isLt
    rcases Nat.eq_zero_or_pos n with rfl | hn
    · rw [Nat.max_eq_right (Nat.zero_le 1), Nat.one_mul]
      unfold u64Size
      omega
    · rw [Nat.max_eq_left hn]
      exact not_le.mpr hbits
  unfold BlockedBloom.new
  rw [if_neg (not_not.mpr hk)]
  dsimp only
  rw [if_neg hmax]
  exact ⟨_, rfl⟩

theorem block_in_range {f : BlockedBloom} (h : Valid f) (hash : UInt64) :
    pickBlock hash f.numBlocks * blockBytes + blockBytes ≤ f.blocks.length := by
  have hb : pickBlock hash f.numBlocks + 1 ≤ f.numBlocks := pickBlock_lt h.pos
  have hmul := Nat.mul_le_mul_right blockBytes hb
  rw [h.length]
  rwa [Nat.add_mul, Nat.one_mul] at hmul

/-- A filter of any size, filled with any keys, is read back from its bytes,
finds every key it was given on every backend, and never looks outside its
blocks. -/
theorem inserted_keys_found (xxh3 : Bytes → UInt64) (backend : ProbeBackend) (expectedKeys : ℕ)
    (params : BloomParams) (hk : 1 ≤ params.numHashes.val ∧ params.numHashes.val ≤ 16)
    (hbits : expectedKeys * params.bitsPerKey.val < u64Size) (keys : List Key) :
    ∃ empty f decoded, BlockedBloom.new expectedKeys params = .ok empty ∧
      keys.foldl (.insert xxh3) empty = f ∧ BlockedBloom.decode f.encode = .ok decoded ∧
      decoded = f ∧
      (∀ key ∈ keys, f.containsOn xxh3 backend key = true ∧
        decoded.containsOn xxh3 backend key = true) ∧
      ∀ hash, pickBlock hash f.numBlocks < f.numBlocks ∧
        pickBlock hash f.numBlocks * blockBytes + blockBytes ≤ f.blocks.length := by
  obtain ⟨empty, hempty⟩ := new_ok hk hbits
  have hvalid := valid_foldl xxh3 (valid_new hempty) keys
  have hfound : ∀ key ∈ keys, (keys.foldl (.insert xxh3) empty).containsOn xxh3 backend key = true := by
    intro key hkey
    rw [containsOn_eq]
    exact contains_foldl xxh3 (valid_new hempty) hkey
  refine ⟨empty, _, _, hempty, rfl, decode_encode hvalid, rfl, ?_, ?_⟩
  · intro key hkey
    exact ⟨hfound key hkey, hfound key hkey⟩
  · intro hash
    exact ⟨pickBlock_lt hvalid.pos, block_in_range hvalid hash⟩

/-- Three keys in a filter meant for one, without a bit budget. -/
theorem inserted_keys_found_overfull :
    ∃ empty f decoded, BlockedBloom.new 1 ⟨16, 0⟩ = .ok empty ∧
      [[1], [2], [1, 2]].foldl (.insert fun _ => 7) empty = f ∧
      BlockedBloom.decode f.encode = .ok decoded ∧ decoded = f ∧
      (∀ key ∈ ([[1], [2], [1, 2]] : List Key), f.containsOn (fun _ => 7) .avx2 key = true ∧
        decoded.containsOn (fun _ => 7) .avx2 key = true) ∧
      ∀ hash, pickBlock hash f.numBlocks < f.numBlocks ∧
        pickBlock hash f.numBlocks * blockBytes + blockBytes ≤ f.blocks.length :=
  inserted_keys_found (fun _ => 7) .avx2 1 ⟨16, 0⟩ (by decide) (by decide) [[1], [2], [1, 2]]

end PaddockKV.Filter
