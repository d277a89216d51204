import Mathlib.Data.Nat.Bitwise
import PaddockKV.Basic

/-!
# CRC32C (`checksum/crc32c.rs`)

The Castagnoli polynomial, reflected. `crc32cAppend` continues a running
digest, as `Hasher::update` does. Each step of the digest is injective, so two
messages that differ in one byte have different digests.
-/

namespace PaddockKV.Checksum

def crcBit (x : UInt32) : UInt32 :=
  if x &&& 1 = 1 then (x >>> 1) ^^^ 0x82F63B78 else x >>> 1

def crcByte (crc : UInt32) (b : Byte) : UInt32 :=
  Nat.iterate crcBit 8 (crc ^^^ UInt32.ofNat b.val)

def crc32cAppend (crc : UInt32) (data : Bytes) : UInt32 :=
  ~~~(data.foldl crcByte (~~~crc))

/-- `crc32c::hash`. -/
def crc32c (data : Bytes) : ℕ := (crc32cAppend 0 data).toNat

theorem crc32c_lt (data : Bytes) : crc32c data < u32Size := UInt32.toNat_lt _

-- the check string of the catalogue of CRC algorithms
example : crc32c [0x31, 0x32, 0x33, 0x34, 0x35, 0x36, 0x37, 0x38, 0x39] = 0xE3069283 := by
  decide +kernel

theorem crc32cAppend_append (crc : UInt32) (a b : Bytes) :
    crc32cAppend (crc32cAppend crc a) b = crc32cAppend crc (a ++ b) := by
  simp only [crc32cAppend, UInt32.not_not, List.foldl_append]

/-! ### One byte changed -/

theorem crcBit_toNat (x : UInt32) :
    (crcBit x).toNat = if x.toNat % 2 = 1 then x.toNat / 2 ^^^ 0x82F63B78 else x.toNat / 2 := by
  have hodd : x &&& 1 = 1 ↔ x.toNat % 2 = 1 := by
    rw [← UInt32.toNat_inj, UInt32.toNat_and]
    exact Iff.of_eq (congrArg (· = 1) (Nat.and_one_is_mod x.toNat))
  have hshift : (x >>> 1).toNat = x.toNat / 2 := by
    rw [UInt32.toNat_shiftRight]
    exact Nat.shiftRight_one x.toNat
  unfold crcBit
  by_cases h : x.toNat % 2 = 1
  · rw [if_pos (hodd.mpr h), if_pos h, UInt32.toNat_xor, hshift]
    rfl
  · rw [if_neg (hodd.not.mpr h), if_neg h, hshift]

/-- The polynomial has the top bit set, a shifted word has not: the bit that was
shifted out can be read off the result. -/
theorem crcBit_injective : Function.Injective crcBit := by
  have htop : ∀ x : UInt32, (x.toNat / 2).testBit 31 = false := by
    intro x
    apply Nat.testBit_lt_two_pow
    have := x.toNat_lt
    omega
  have hpoly : ∀ x y : UInt32, x.toNat / 2 ^^^ 0x82F63B78 ≠ y.toNat / 2 := by
    intro x y h
    have hbit := congrArg (Nat.testBit · 31) h
    simp only [Nat.testBit_xor, htop] at hbit
    exact absurd hbit (by decide)
  intro x y h
  have hnat := congrArg UInt32.toNat h
  rw [crcBit_toNat, crcBit_toNat] at hnat
  apply UInt32.toNat_inj.mp
  split at hnat <;> split at hnat
  · have := Nat.xor_left_inj.mp hnat
    omega
  · exact absurd hnat (hpoly x y)
  · exact absurd hnat.symm (hpoly y x)
  · omega

theorem crcByte_left_injective (b : Byte) : Function.Injective fun crc => crcByte crc b := by
  intro x y h
  exact UInt32.xor_left_inj _ |>.mp (crcBit_injective.iterate 8 h)

theorem crcByte_right_injective (crc : UInt32) : Function.Injective (crcByte crc) := by
  intro a b h
  have hword := (UInt32.xor_right_inj _).mp (crcBit_injective.iterate 8 h)
  have hsize : ∀ x : Byte, x.val < UInt32.size := fun x => x.isLt.trans (by decide)
  have hnat := congrArg UInt32.toNat hword
  rw [UInt32.toNat_ofNat_of_lt' (hsize a), UInt32.toNat_ofNat_of_lt' (hsize b)] at hnat
  exact Fin.ext hnat

theorem foldl_crcByte_injective (data : Bytes) :
    Function.Injective fun crc => data.foldl crcByte crc := by
  induction data with
  | nil => exact Function.injective_id
  | cons b data ih => exact ih.comp (crcByte_left_injective b)

theorem crc32cAppend_ne {a b : Byte} (h : a ≠ b) (crc : UInt32) (pre post : Bytes) :
    crc32cAppend crc (pre ++ a :: post) ≠ crc32cAppend crc (pre ++ b :: post) := by
  intro hcrc
  unfold crc32cAppend at hcrc
  have hfold := congrArg (~~~ ·) hcrc
  simp only [UInt32.not_not, List.foldl_append, List.foldl_cons] at hfold
  exact h (crcByte_right_injective _ (foldl_crcByte_injective post hfold))

/-! ### One bit flipped -/

def flipBit (bytes : Bytes) (i : ℕ) : Bytes :=
  bytes.modify (i / 8) fun b => Fin.ofNat 256 (b.val ^^^ 1 <<< (i % 8))

theorem flipBit_length (bytes : Bytes) (i : ℕ) : (flipBit bytes i).length = bytes.length :=
  List.length_modify ..

theorem flipBit_take_of_le {bytes : Bytes} {n i : ℕ} (h : n ≤ i / 8) :
    (flipBit bytes i).take n = bytes.take n := by
  rw [flipBit, List.take_modify]
  apply List.modify_eq_self
  rw [List.length_take]
  omega

theorem flipBit_drop_of_lt {bytes : Bytes} {n i : ℕ} (h : i / 8 < n) :
    (flipBit bytes i).drop n = bytes.drop n := List.drop_modify_of_lt _ _ _ _ h

theorem flipBit_drop_of_ge {bytes : Bytes} {n i : ℕ} (h : n ≤ i / 8) :
    (flipBit bytes i).drop n = flipBit (bytes.drop n) (i - 8 * n) := by
  have hdiv : (i - 8 * n) / 8 = i / 8 - n := by omega
  have hmod : (i - 8 * n) % 8 = i % 8 := by omega
  rw [flipBit, flipBit, hdiv, hmod, List.drop_modify_of_ge _ _ _ _ h]

theorem flip_byte_ne (b : Byte) (i : ℕ) : Fin.ofNat 256 (b.val ^^^ 1 <<< (i % 8)) ≠ b := by
  intro h
  have hbit : 1 <<< (i % 8) < 2 ^ 8 := by
    rw [Nat.one_shiftLeft]
    exact Nat.pow_lt_pow_right (by decide) (Nat.mod_lt _ (by decide))
  have hval := congrArg Fin.val h
  rw [Fin.val_ofNat, Nat.mod_eq_of_lt (Nat.xor_lt_two_pow b.isLt hbit)] at hval
  have hzero : 1 <<< (i % 8) = 0 := by
    exact Nat.xor_right_inj.mp (hval.trans (Nat.xor_zero b.val).symm)
  rw [Nat.one_shiftLeft] at hzero
  exact absurd hzero (Nat.two_pow_pos _).ne'

theorem leVal_flipBit {bytes : Bytes} {i : ℕ} (hi : i / 8 < bytes.length) :
    leVal (flipBit bytes i) = leVal bytes ^^^ 2 ^ i := by
  apply Nat.eq_of_testBit_eq
  intro j
  rw [Nat.testBit_xor, leVal_testBit, leVal_testBit, Nat.testBit_two_pow, flipBit,
    List.getD_eq_getElem?_getD, List.getElem?_modify, List.getD_eq_getElem?_getD]
  split
  · rename_i hbyte
    have hpow : 1 <<< (i % 8) < 2 ^ 8 := by
      rw [Nat.one_shiftLeft]
      exact Nat.pow_lt_pow_right (by decide) (Nat.mod_lt _ (by decide))
    have hbit : decide (i % 8 = j % 8) = decide (i = j) := by
      apply decide_eq_decide.mpr
      omega
    rw [← hbyte, List.getElem?_eq_getElem hi, Option.map_eq_map, Option.map_some,
      Option.getD_some, Option.getD_some, Fin.val_ofNat,
      Nat.mod_eq_of_lt (Nat.xor_lt_two_pow (Fin.isLt _) hpow), Nat.testBit_xor, Nat.one_shiftLeft,
      Nat.testBit_two_pow, hbit]
  · rename_i hbyte
    have hother : decide (i = j) = false := by
      apply decide_eq_false
      rintro rfl
      exact hbyte rfl
    rw [hother, Bool.xor_false]
    simp

theorem flipBit_split {bytes : Bytes} {i : ℕ} (hi : i / 8 < bytes.length) :
    ∃ pre a b post, bytes = pre ++ a :: post ∧ flipBit bytes i = pre ++ b :: post ∧ a ≠ b ∧
      pre.length = i / 8 := by
  refine ⟨bytes.take (i / 8), bytes[i / 8], _, bytes.drop (i / 8 + 1), ?_, ?_,
    (flip_byte_ne _ i).symm, ?_⟩
  · rw [← List.drop_eq_getElem_cons hi, List.take_append_drop]
  · exact List.modify_eq_take_cons_drop hi
  · exact List.length_take_of_le hi.le

theorem crc32c_flipBit {bytes : Bytes} {i : ℕ} (hi : i / 8 < bytes.length) :
    crc32c (flipBit bytes i) ≠ crc32c bytes := by
  obtain ⟨pre, a, b, post, hbytes, hflip, hne, -⟩ := flipBit_split hi
  rw [hflip, hbytes]
  intro h
  exact crc32cAppend_ne hne.symm 0 pre post (UInt32.toNat_inj.mp h)

/-! ### Signed regions -/

/-- The checksum of the first `n` bytes stands in the four bytes after them, and
whatever follows is zero. -/
structure Sealed (n : ℕ) (bytes : Bytes) : Prop where
  crc : leVal ((bytes.drop n).take 4) = crc32c (bytes.take n)
  rest : ∀ x ∈ bytes.drop (n + 4), x = 0

theorem leVal_inj {a b : Bytes} (hlen : a.length = b.length) (h : leVal a = leVal b) : a = b := by
  rw [← leBytes_leVal a, ← leBytes_leVal b, hlen, h]

theorem not_sealed_flipBit {n i : ℕ} {bytes : Bytes} (h : Sealed n bytes)
    (hi : i / 8 < bytes.length) : ¬ Sealed n (flipBit bytes i) := by
  intro h'
  by_cases hsigned : i / 8 < n
  · -- a signed byte: its digest changes, the stored one does not
    have htake : (flipBit bytes i).take n = flipBit (bytes.take n) i := List.take_modify ..
    have hcrc := h'.crc
    rw [htake, flipBit_drop_of_lt hsigned, h.crc] at hcrc
    refine crc32c_flipBit ?_ hcrc.symm
    rw [List.length_take]
    omega
  · obtain ⟨pre, a, b, post, hbytes, hflip, hne, hpre⟩ := flipBit_split hi
    have htake : ∀ x, (pre ++ x :: post).take n = pre.take n := by
      intro x
      exact List.take_append_of_le_length (by omega)
    by_cases hstored : i / 8 < n + 4
    · -- a byte of the stored digest
      have hdrop : ∀ x, ((pre ++ x :: post).drop n).take 4 =
          pre.drop n ++ (x :: post).take (n + 4 - pre.length) := by
        intro x
        rw [List.drop_append_of_le_length (by omega), List.take_append, List.length_drop,
          List.take_of_length_le (by rw [List.length_drop]; omega)]
        congr 2
        omega
      have hcrc := h.crc
      have hcrc' := h'.crc
      rw [hbytes, htake, hdrop] at hcrc
      rw [hflip, htake, hdrop, ← hcrc] at hcrc'
      have hsame := leVal_inj (by simp) hcrc'
      obtain ⟨k, hk⟩ : ∃ k, n + 4 - pre.length = k + 1 := ⟨n + 3 - pre.length, by omega⟩
      rw [List.append_cancel_left_eq, hk, List.take_succ_cons, List.take_succ_cons] at hsame
      exact hne (List.cons.inj hsame).1.symm
    · -- padding: the byte was zero and is no longer
      have hmem : ∀ x, x ∈ (pre ++ x :: post).drop (n + 4) := by
        intro x
        rw [List.drop_append_of_le_length (by omega)]
        exact List.mem_append_right _ List.mem_cons_self
      have ha := h.rest a (hbytes ▸ hmem a)
      have hb := h'.rest b (hflip ▸ hmem b)
      exact hne (ha.trans hb.symm)

end PaddockKV.Checksum
