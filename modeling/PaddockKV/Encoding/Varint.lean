import PaddockKV.Basic

/-!
# LEB128 varints (`encoding/varint.rs`)

Seven payload bits a byte, low groups first, the top bit set on every byte but
the last. The decoder bounds the number of bytes and, on the last admissible
byte, the payload.
-/

namespace PaddockKV.Varint

def maxU32Bytes : ℕ := 5
def maxU64Bytes : ℕ := 10

/-- `encode_u64` into a buffer of `cap` bytes. -/
def encodeU64 (v : ℕ) : ℕ → Option Bytes
  | 0 => none
  | cap + 1 =>
    if 0x80 ≤ v then
      (encodeU64 (v / 128) cap).map (Fin.ofNat 256 (v % 256 ||| 0x80) :: ·)
    else some [Fin.ofNat 256 v]

def encodeU32 (v cap : ℕ) : Option Bytes := encodeU64 v cap

/-- The loop of `decode_u32` and `decode_u64`: `i` bytes are read, `len` is the
length of the whole input. -/
def decodeLoop (maxBytes maxLast len : ℕ) : ℕ → ℕ → Bytes → Res (ℕ × ℕ)
  | _, _, [] =>
    if len < maxBytes then .error (.err (.decode (.unexpectedEof (maxBytes - len))))
    else .error (.err (.decode (.varintOverflow maxBytes)))
  | i, result, b :: rest =>
    if maxBytes ≤ i then .error (.err (.decode (.varintOverflow maxBytes)))
    else
      let payload := b.val &&& 0x7F
      if i = maxBytes - 1 ∧ maxLast < payload then
        .error (.err (.decode (.varintOverflow maxBytes)))
      else
        let result := result ||| payload <<< (7 * i)
        if b.val &&& 0x80 = 0 then .ok (result, i + 1)
        else decodeLoop maxBytes maxLast len (i + 1) result rest

def decodeU32 (input : Bytes) : Res (ℕ × ℕ) := decodeLoop maxU32Bytes 0x0F input.length 0 0 input
def decodeU64 (input : Bytes) : Res (ℕ × ℕ) := decodeLoop maxU64Bytes 0x01 input.length 0 0 input

/-! ### Bytes -/

theorem and_low (n : ℕ) : n &&& 0x7F = n % 128 := Nat.and_two_pow_sub_one_eq_mod n 7

theorem and_top_lt : ∀ n < 128, n &&& 0x80 = 0 := by decide

theorem or_top : ∀ n < 256, n ||| 0x80 = n % 128 + 128 := by decide +kernel

theorem and_top_ge : ∀ n < 128, (n + 128) &&& 0x80 ≠ 0 := by decide

theorem and_top_iff : ∀ n < 256, n &&& 0x80 = 0 ↔ n < 128 := by decide +kernel

theorem or_shift {r k p : ℕ} (hr : r < 2 ^ k) : r ||| p <<< k = r + p * 2 ^ k := by
  rw [Nat.shiftLeft_eq, Nat.or_comm, Nat.mul_comm, ← Nat.two_pow_add_eq_or_of_lt hr]
  ring

/-! ### Encodings -/

theorem encodeU64_lt {v cap : ℕ} (hv : v < 128) : encodeU64 v (cap + 1) = some [Fin.ofNat 256 v] := by
  rw [encodeU64, if_neg (by omega)]

theorem encodeU64_ge {v cap : ℕ} (hv : 128 ≤ v) :
    encodeU64 v (cap + 1) =
      (encodeU64 (v / 128) cap).map (Fin.ofNat 256 (v % 128 + 128) :: ·) := by
  rw [encodeU64, if_pos (by omega), or_top _ (Nat.mod_lt _ (by decide))]
  have : v % 256 % 128 = v % 128 := by omega
  rw [this]

theorem encodeU64_isSome {v cap : ℕ} (hv : v < 128 ^ cap) (hcap : 0 < cap) :
    ∃ bs, encodeU64 v cap = some bs ∧ bs ≠ [] := by
  induction cap generalizing v with
  | zero => omega
  | succ cap ih =>
    rcases Nat.lt_or_ge v 128 with h | h
    · exact ⟨_, encodeU64_lt h, by simp⟩
    · have hdiv : v / 128 < 128 ^ cap := by
        rw [pow_succ] at hv
        exact Nat.div_lt_of_lt_mul (by omega)
      have hpos : 0 < cap := by
        rcases Nat.eq_zero_or_pos cap with rfl | hc
        · simp at hdiv
          omega
        · exact hc
      obtain ⟨bs, hbs, -⟩ := ih hdiv hpos
      exact ⟨_, by rw [encodeU64_ge h, hbs]; rfl, by simp⟩

theorem encodeU64_length_le {v cap : ℕ} {bs : Bytes} (h : encodeU64 v cap = some bs) :
    bs.length ≤ cap := by
  induction cap generalizing v bs with
  | zero => cases h
  | succ cap ih =>
    rcases Nat.lt_or_ge v 128 with hv | hv
    · rw [encodeU64_lt hv] at h
      cases h
      simp
    · rw [encodeU64_ge hv] at h
      obtain ⟨bs', hbs', rfl⟩ := Option.map_eq_some_iff.mp h
      have := ih hbs'
      simpa using this

/-! ### Decoding an encoding -/

/-- From byte `i` on, the decoder adds the value that the rest of the encoding
holds. The bound on `v` keeps the last admissible byte in range. -/
theorem decodeLoop_encode {maxBytes maxLast len v cap i r : ℕ} {bs rest : Bytes}
    (hcap : i + cap = maxBytes) (hv : v < (maxLast + 1) * 128 ^ (cap - 1)) (hr : r < 2 ^ (7 * i))
    (hbs : encodeU64 v cap = some bs) :
    decodeLoop maxBytes maxLast len i r (bs ++ rest) =
      .ok (r + v * 2 ^ (7 * i), i + bs.length) := by
  induction cap generalizing v i r bs with
  | zero => cases hbs
  | succ cap ih =>
    have hi : ¬ maxBytes ≤ i := by omega
    rcases Nat.lt_or_ge v 128 with h | h
    · rw [encodeU64_lt h] at hbs
      cases hbs
      have hval : (Fin.ofNat 256 v).val = v := Nat.mod_eq_of_lt (by omega)
      have hlow : v &&& 0x7F = v := by rw [and_low]; omega
      have hlast : ¬ (i = maxBytes - 1 ∧ maxLast < v) := by
        rintro ⟨hi', hlt⟩
        obtain rfl : cap = 0 := by omega
        simp at hv
        omega
      simp only [List.cons_append, List.nil_append, decodeLoop, if_neg hi, hval, hlow,
        if_neg hlast, and_top_lt v h, if_true, or_shift hr, List.length_singleton]
    · rw [encodeU64_ge h] at hbs
      obtain ⟨bs', hbs', rfl⟩ := Option.map_eq_some_iff.mp hbs
      have hmod : v % 128 < 128 := Nat.mod_lt _ (by decide)
      have hval : (Fin.ofNat 256 (v % 128 + 128)).val = v % 128 + 128 :=
        Nat.mod_eq_of_lt (by omega)
      have hlow : (v % 128 + 128) &&& 0x7F = v % 128 := by rw [and_low]; omega
      have hcap' : cap ≠ 0 := by
        rintro rfl
        cases hbs'
      have hlast : ¬ (i = maxBytes - 1 ∧ maxLast < v % 128) := by omega
      obtain ⟨c, rfl⟩ : ∃ c, cap = c + 1 := ⟨cap - 1, by omega⟩
      have hr' : r + v % 128 * 2 ^ (7 * i) < 2 ^ (7 * (i + 1)) := by
        have h2 : 2 ^ (7 * (i + 1)) = 128 * 2 ^ (7 * i) := by
          rw [Nat.mul_add, pow_add]
          ring
        have hle : v % 128 * 2 ^ (7 * i) ≤ 127 * 2 ^ (7 * i) := Nat.mul_le_mul_right _ (by omega)
        omega
      have hv' : v / 128 < (maxLast + 1) * 128 ^ (c + 1 - 1) := by
        simp only [Nat.add_sub_cancel] at hv ⊢
        rw [pow_succ, ← Nat.mul_assoc] at hv
        exact Nat.div_lt_of_lt_mul (by omega)
      have hrec := ih (i := i + 1) (by omega) hv' hr' hbs'
      simp only [List.cons_append, decodeLoop, if_neg hi, hval, hlow, if_neg hlast,
        if_neg (and_top_ge _ hmod), or_shift hr]
      rw [hrec]
      congr 2
      · have h2 : 2 ^ (7 * (i + 1)) = 128 * 2 ^ (7 * i) := by
          rw [Nat.mul_add, pow_add]
          ring
        have hdm : v = 128 * (v / 128) + v % 128 := (Nat.div_add_mod v 128).symm
        rw [h2]
        nth_rewrite 3 [hdm]
        ring
      · simp only [List.length_cons]
        omega

/-- The bytes the writers obtain from `encode_u32` with a buffer of five bytes,
where the source expects success. -/
def varint (v : ℕ) : Bytes := (encodeU32 v maxU32Bytes).getD []

theorem encodeU32_eq {v : ℕ} (hv : v < u32Size) : encodeU32 v maxU32Bytes = some (varint v) := by
  have hv' : v < 128 ^ maxU32Bytes := hv.trans (by decide)
  obtain ⟨bs, hbs, -⟩ := encodeU64_isSome hv' (by decide)
  simp only [varint, encodeU32, hbs, Option.getD_some]

theorem varint_length_le {v : ℕ} (hv : v < u32Size) : (varint v).length ≤ maxU32Bytes :=
  encodeU64_length_le (encodeU32_eq hv)

theorem decodeU32_varint {v : ℕ} (hv : v < u32Size) (rest : Bytes) :
    decodeU32 (varint v ++ rest) = .ok (v, (varint v).length) := by
  have h : decodeLoop maxU32Bytes 0x0F (varint v ++ rest).length 0 0 (varint v ++ rest) = _ :=
    decodeLoop_encode (Nat.zero_add maxU32Bytes)
      (show v < (0x0F + 1) * 128 ^ (maxU32Bytes - 1) from hv) (by decide) (encodeU32_eq hv)
  simpa [decodeU32] using h

theorem or_group_lt {r i p : ℕ} (hr : r < 2 ^ (7 * i)) (hp : p < 128) :
    r ||| p <<< (7 * i) < 2 ^ (7 * (i + 1)) := by
  have hpow : 2 ^ (7 * (i + 1)) = 128 * 2 ^ (7 * i) := by
    rw [Nat.mul_succ, Nat.pow_add, Nat.mul_comm]
  have hmul : p * 2 ^ (7 * i) ≤ 127 * 2 ^ (7 * i) := Nat.mul_le_mul_right _ (by omega)
  rw [or_shift hr, hpow]
  omega

/-- What a byte does when the loop returns: it is in range, and it either ends
the number or leaves the rest to the next round. -/
theorem decodeLoop_cons_ok {maxBytes maxLast len i r v c : ℕ} {b : Byte} {bs : Bytes}
    (h : decodeLoop maxBytes maxLast len i r (b :: bs) = .ok (v, c)) :
    i < maxBytes ∧ ¬ (i = maxBytes - 1 ∧ maxLast < b.val % 128) ∧
      (b.val < 128 ∧ v = r ||| (b.val % 128) <<< (7 * i) ∧ c = i + 1 ∨
        128 ≤ b.val ∧
          decodeLoop maxBytes maxLast len (i + 1) (r ||| (b.val % 128) <<< (7 * i)) bs = .ok (v, c)) := by
  rw [decodeLoop, and_low] at h
  split at h
  · cases h
  · rename_i hi
    dsimp only at h
    split at h
    · cases h
    · rename_i hlast
      have htop := and_top_iff b.val b.isLt
      split at h
      · rename_i hstop
        cases h
        exact ⟨by omega, hlast, .inl ⟨htop.mp hstop, rfl, rfl⟩⟩
      · rename_i hmore
        exact ⟨by omega, hlast, .inr ⟨Nat.le_of_not_lt (fun hb => hmore (htop.mpr hb)), h⟩⟩

theorem decodeLoop_cons {maxBytes maxLast len i r : ℕ} {b : Byte} {bs : Bytes}
    (hi : i < maxBytes) (hlast : ¬ (i = maxBytes - 1 ∧ maxLast < b.val % 128)) :
    decodeLoop maxBytes maxLast len i r (b :: bs) =
      if b.val < 128 then .ok (r ||| (b.val % 128) <<< (7 * i), i + 1)
      else decodeLoop maxBytes maxLast len (i + 1) (r ||| (b.val % 128) <<< (7 * i)) bs := by
  simp only [decodeLoop, and_low, if_neg (Nat.not_le.mpr hi), if_neg hlast,
    and_top_iff b.val b.isLt]

theorem decodeLoop_lt {len i result v c : ℕ} {bs : Bytes}
    (h : decodeLoop maxU32Bytes 0x0F len i result bs = .ok (v, c)) (hr : result < 2 ^ (7 * i)) :
    v < u32Size := by
  induction bs generalizing i result with
  | nil =>
    rw [decodeLoop] at h
    split at h <;> cases h
  | cons b bs ih =>
    have hp : b.val % 128 < 128 := Nat.mod_lt _ (by decide)
    obtain ⟨hi, hlast, ⟨-, rfl, -⟩ | ⟨-, h⟩⟩ := decodeLoop_cons_ok h
    · unfold maxU32Bytes at hi hlast
      unfold u32Size
      by_cases hfour : i = 4
      · subst hfour
        have hle : b.val % 128 ≤ 0x0F := by omega
        rw [or_shift hr]
        omega
      · refine (or_group_lt hr hp).trans_le (Nat.pow_le_pow_right (by decide) ?_)
        omega
    · exact ih h (or_group_lt hr hp)

theorem decodeU32_lt {input : Bytes} {v c : ℕ} (h : decodeU32 input = .ok (v, c)) : v < u32Size :=
  decodeLoop_lt h (by decide)

/-! ### The bytes a decoder uses -/

theorem decodeLoop_used {maxBytes maxLast len i r v c : ℕ} {bs : Bytes}
    (h : decodeLoop maxBytes maxLast len i r bs = .ok (v, c)) (hr : r < 2 ^ (7 * i)) :
    ∃ used rest, bs = used ++ rest ∧ c = i + used.length ∧ i < c ∧ c ≤ maxBytes ∧ v < 2 ^ (7 * c) ∧
      ∀ len' rest', decodeLoop maxBytes maxLast len' i r (used ++ rest') = .ok (v, c) := by
  induction bs generalizing i r with
  | nil =>
    rw [decodeLoop] at h
    split at h <;> cases h
  | cons b bs ih =>
    have hp : b.val % 128 < 128 := Nat.mod_lt _ (by decide)
    obtain ⟨hi, hlast, ⟨hb, rfl, rfl⟩ | ⟨hb, h⟩⟩ := decodeLoop_cons_ok h
    · refine ⟨[b], bs, rfl, rfl, Nat.lt_succ_self i, hi, or_group_lt hr hp, ?_⟩
      intro len' rest'
      rw [List.cons_append, decodeLoop_cons hi hlast, if_pos hb]
    · obtain ⟨used, rest, rfl, hc, hlt, hle, hv, hall⟩ := ih h (or_group_lt hr hp)
      refine ⟨b :: used, rest, rfl, ?_, by omega, hle, hv, ?_⟩
      · rw [hc, List.length_cons]
        omega
      · intro len' rest'
        rw [List.cons_append, decodeLoop_cons hi hlast, if_neg (Nat.not_lt.mpr hb)]
        exact hall len' rest'

theorem encodeU64_mono {v cap cap' : ℕ} {bs : Bytes} (hcap : cap ≤ cap')
    (h : encodeU64 v cap = some bs) : encodeU64 v cap' = some bs := by
  induction cap generalizing v cap' bs with
  | zero => cases h
  | succ cap ih =>
    obtain ⟨room, rfl⟩ : ∃ room, cap' = room + 1 := ⟨cap' - 1, by omega⟩
    rcases Nat.lt_or_ge v 128 with hv | hv
    · rw [encodeU64_lt hv] at h ⊢
      exact h
    · rw [encodeU64_ge hv] at h ⊢
      obtain ⟨bs', hbs', rfl⟩ := Option.map_eq_some_iff.mp h
      rw [ih (by omega) hbs', Option.map_some]

theorem varint_length_le_groups {v c : ℕ} (hv : v < 2 ^ (7 * c)) (hpos : 0 < c)
    (hc : c ≤ maxU32Bytes) : (varint v).length ≤ c := by
  rw [Nat.pow_mul] at hv
  obtain ⟨bs, hbs, -⟩ := encodeU64_isSome hv hpos
  rw [varint, encodeU32, encodeU64_mono hc hbs, Option.getD_some]
  exact encodeU64_length_le hbs

theorem decodeU32_used {s : Bytes} {v c : ℕ} (h : decodeU32 s = .ok (v, c)) :
    ∃ used rest, s = used ++ rest ∧ used.length = c ∧ (varint v).length ≤ c ∧
      ∀ rest', decodeU32 (used ++ rest') = .ok (v, c) := by
  obtain ⟨used, rest, hs, hc, hpos, hmax, hv, hall⟩ := decodeLoop_used h (by decide)
  refine ⟨used, rest, hs, by omega, varint_length_le_groups hv hpos hmax, ?_⟩
  intro rest'
  exact hall _ rest'

theorem decodeU32_consumed {input : Bytes} {v c : ℕ} (h : decodeU32 input = .ok (v, c)) :
    c ≤ input.length ∧ c ≤ maxU32Bytes := by
  obtain ⟨used, rest, rfl, hc, -, hmax, -⟩ := decodeLoop_used h (by decide)
  rw [List.length_append]
  omega

end PaddockKV.Varint
