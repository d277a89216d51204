import Mathlib.Data.Nat.Size
import PaddockKV.Encoding.Varint

/-!
# Canonical varints (`encoding/varint.rs`)

`decode_u64_canonical` refuses a number that ends in a zero byte. What is left
is exactly what `encode_u64` writes, and `varint_u64_len` predicts its length.
-/

namespace PaddockKV.Varint

/-- `u64::leading_zeros`. -/
def leadingZeros (v : ℕ) : ℕ := 64 - v.size

def varintU64Len (v : ℕ) : ℕ :=
  let bits := 64 - leadingZeros v
  if bits = 0 then 1 else (bits + 6) / 7

def decodeU64Canonical (input : Bytes) : Res (ℕ × ℕ) := do
  let (value, consumed) ← decodeU64 input
  if 1 < consumed ∧ input[consumed - 1]? = some 0 then
    .error (.err (.decode .nonCanonicalVarint))
  else .ok (value, consumed)

/-! ### The predicted length -/

theorem encodeU64_isSome_iff {v m : ℕ} :
    (encodeU64 v m).isSome ↔ 0 < m ∧ v < 128 ^ m := by
  constructor
  · intro h
    induction m generalizing v with
    | zero => simp [encodeU64] at h
    | succ m ih =>
      apply And.intro (Nat.succ_pos m)
      rcases Nat.lt_or_ge v 128 with hv | hv
      · exact hv.trans_le (Nat.le_self_pow (Nat.succ_ne_zero m) 128)
      · rw [encodeU64_ge hv, Option.isSome_map] at h
        have hdiv := (ih h).2
        rw [pow_succ]
        omega
  · intro h
    obtain ⟨bs, hbs, -⟩ := encodeU64_isSome h.2 h.1
    simp [hbs]

theorem varintU64Len_le_iff {v m : ℕ} (hv : v < u64Size) :
    varintU64Len v ≤ m ↔ 0 < m ∧ v < 128 ^ m := by
  have hsize : v.size ≤ 64 := Nat.size_le.mpr hv
  have hbits : 64 - leadingZeros v = v.size := by
    unfold leadingZeros
    omega
  have hpow : v < 128 ^ m ↔ v.size ≤ 7 * m := by
    rw [Nat.size_le, Nat.pow_mul]
  rw [varintU64Len, hbits, hpow]
  split <;> omega

theorem encodeU64_fits {v m : ℕ} {bs : Bytes} (h : encodeU64 v m = some bs) :
    encodeU64 v bs.length = some bs := by
  induction m generalizing v bs with
  | zero => cases h
  | succ m ih =>
    rcases Nat.lt_or_ge v 128 with hv | hv
    · rw [encodeU64_lt hv] at h
      cases h
      exact encodeU64_lt hv
    · rw [encodeU64_ge hv] at h
      obtain ⟨tail, htail, rfl⟩ := Option.map_eq_some_iff.mp h
      rw [List.length_cons, encodeU64_ge hv, ih htail, Option.map_some]

theorem encodeU64_length {v m : ℕ} {bs : Bytes} (hv : v < u64Size)
    (h : encodeU64 v m = some bs) : bs.length = varintU64Len v := by
  have hsome : (encodeU64 v bs.length).isSome := by simp [encodeU64_fits h]
  have hge : varintU64Len v ≤ bs.length :=
    (varintU64Len_le_iff hv).mpr (encodeU64_isSome_iff.mp hsome)
  -- with exactly the predicted room the encoder writes the same bytes
  obtain ⟨hpos, hlt⟩ := (varintU64Len_le_iff hv).mp (Nat.le_refl (varintU64Len v))
  obtain ⟨bs', hbs', -⟩ := encodeU64_isSome hlt hpos
  have hsame : bs' = bs := by
    have h' := encodeU64_mono hge hbs'
    rw [encodeU64_fits h] at h'
    exact (Option.some.inj h').symm
  have hle := encodeU64_length_le hbs'
  rw [hsame] at hle
  omega

/-! ### What the canonical decoder accepts -/

theorem encodeU64_getLast {v m : ℕ} {bs : Bytes} (h : encodeU64 v m = some bs)
    (hlen : 1 < bs.length) : bs.getLast? ≠ some 0 := by
  induction m generalizing v bs with
  | zero => cases h
  | succ m ih =>
    rcases Nat.lt_or_ge v 128 with hv | hv
    · rw [encodeU64_lt hv] at h
      cases h
      simp at hlen
    · rw [encodeU64_ge hv] at h
      obtain ⟨tail, htail, rfl⟩ := Option.map_eq_some_iff.mp h
      match tail, htail with
      | [], htail =>
        have := encodeU64_fits htail
        cases this
      | [b], htail =>
        -- the last group of `v` is `v / 128`, which is not zero
        have hone : encodeU64 (v / 128) 1 = some [b] := encodeU64_fits htail
        have hlt : v / 128 < 128 := by
          have := (encodeU64_isSome_iff (v := v / 128) (m := 1)).mp (by simp [hone])
          omega
        rw [encodeU64_lt hlt] at hone
        have hb : b = Fin.ofNat 256 (v / 128) := by simpa using hone.symm
        have hval : b.val = v / 128 := by
          rw [hb]
          exact Nat.mod_eq_of_lt (by omega)
        intro hz
        have : b = 0 := by simpa using hz
        rw [this] at hval
        simp at hval
        omega
      | b :: b' :: more, htail =>
        have := ih htail (by simp)
        simpa using this

/-- What the loop returns, in terms of the bytes it used: without a superfluous
last byte they are the encoding of what it added. -/
theorem decodeLoop_canonical {maxBytes maxLast len i r v c : ℕ} {bs : Bytes}
    (h : decodeLoop maxBytes maxLast len i r bs = .ok (v, c)) (hr : r < 2 ^ (7 * i)) :
    ∃ w used rest, bs = used ++ rest ∧ c = i + used.length ∧ v = r + w * 2 ^ (7 * i) ∧
      used ≠ [] ∧
      ((1 < used.length → used.getLast? ≠ some 0) → encodeU64 w used.length = some used) := by
  induction bs generalizing i r with
  | nil =>
    rw [decodeLoop] at h
    split at h <;> cases h
  | cons b bs ih =>
    have hp : b.val % 128 < 128 := Nat.mod_lt _ (by decide)
    obtain ⟨-, -, ⟨hb, rfl, rfl⟩ | ⟨hb, h⟩⟩ := decodeLoop_cons_ok h
    · refine ⟨b.val, [b], bs, rfl, rfl, ?_, by simp, ?_⟩
      · rw [or_shift hr, Nat.mod_eq_of_lt hb]
      · intro _
        rw [List.length_singleton, encodeU64_lt hb]
        simp
    · obtain ⟨w, used, rest, rfl, hc, hv, hne, henc⟩ := ih h (or_group_lt hr hp)
      refine ⟨b.val % 128 + 128 * w, b :: used, rest, rfl, ?_, ?_, by simp, ?_⟩
      · rw [hc, List.length_cons]
        omega
      · rw [hv, or_shift hr, Nat.mul_succ, Nat.pow_add]
        ring
      · intro hlast
        have hlast' : used.getLast? ≠ some 0 := by
          obtain ⟨b', tail, rfl⟩ := List.exists_cons_of_ne_nil hne
          simpa using hlast
        have htail := henc (fun _ => hlast')
        have hw : w ≠ 0 := by
          rintro rfl
          obtain ⟨b', tail, rfl⟩ := List.exists_cons_of_ne_nil hne
          rw [List.length_cons, encodeU64_lt (by decide)] at htail
          have hzero : b' :: tail = [0] := by simpa using htail.symm
          rw [hzero] at hlast'
          simp at hlast'
        have hge : 128 ≤ b.val % 128 + 128 * w := by omega
        have hdiv : (b.val % 128 + 128 * w) / 128 = w := by omega
        have hbyte : (b.val % 128 + 128 * w) % 128 + 128 = b.val := by
          have := b.isLt
          omega
        rw [List.length_cons, encodeU64_ge hge, hdiv, htail, Option.map_some, hbyte]
        simp

theorem decodeU64_encode {v : ℕ} {bs : Bytes} (rest : Bytes) (hv : v < u64Size)
    (h : encodeU64 v maxU64Bytes = some bs) :
    decodeU64 (bs ++ rest) = .ok (v, bs.length) := by
  have hloop : decodeLoop maxU64Bytes 0x01 (bs ++ rest).length 0 0 (bs ++ rest) = _ :=
    decodeLoop_encode (Nat.zero_add maxU64Bytes)
      (show v < (0x01 + 1) * 128 ^ (maxU64Bytes - 1) from hv) (by decide) h
  simpa [decodeU64] using hloop

theorem decodeU64_canonical {input : Bytes} {v n : ℕ} (h : decodeU64 input = .ok (v, n))
    (hlast : ¬ (1 < n ∧ input[n - 1]? = some 0)) :
    n ≤ input.length ∧ encodeU64 v maxU64Bytes = some (input.take n) := by
  obtain ⟨used, rest, rfl, hn, -, hmax, -⟩ := decodeLoop_used h (by decide)
  obtain ⟨w, used', rest', hsplit, hn', hv, -, henc⟩ := decodeLoop_canonical h (by decide)
  obtain ⟨rfl, rfl⟩ : used = used' ∧ rest = rest' :=
    List.append_inj hsplit (by omega)
  obtain rfl : n = used.length := by omega
  obtain rfl : v = w := by simpa using hv
  have hgetLast : 1 < used.length → used.getLast? ≠ some 0 := by
    intro hlen hz
    apply hlast
    rw [List.getElem?_append_left (by omega), ← List.getLast?_eq_getElem?]
    exact ⟨hlen, hz⟩
  constructor
  · simp
  · rw [List.take_left]
    exact encodeU64_mono hmax (henc hgetLast)

theorem decodeU64Canonical_ok_iff {input : Bytes} {v n : ℕ} :
    decodeU64Canonical input = .ok (v, n) ↔
      decodeU64 input = .ok (v, n) ∧ ¬ (1 < n ∧ input[n - 1]? = some 0) := by
  unfold decodeU64Canonical
  cases hd : decodeU64 input with
  | error e => simp [bind, Except.bind]
  | ok p =>
    obtain ⟨value, consumed⟩ := p
    simp only [bind, Except.bind]
    split
    · rename_i hz
      simp only [reduceCtorEq, Except.ok.injEq, Prod.mk.injEq, false_iff]
      rintro ⟨⟨rfl, rfl⟩, hlast⟩
      exact hlast hz
    · rename_i hz
      simp only [Except.ok.injEq, Prod.mk.injEq]
      constructor
      · rintro ⟨rfl, rfl⟩
        exact ⟨⟨rfl, rfl⟩, hz⟩
      · exact And.left

theorem decodeLoop_wider {maxBytes maxBytes' maxLast maxLast' len len' i r v c : ℕ} {bs : Bytes}
    (hmax : maxBytes < maxBytes') (h : decodeLoop maxBytes maxLast len i r bs = .ok (v, c)) :
    decodeLoop maxBytes' maxLast' len' i r bs = .ok (v, c) := by
  induction bs generalizing i r with
  | nil =>
    rw [decodeLoop] at h
    split at h <;> cases h
  | cons b bs ih =>
    obtain ⟨hi, -, hb⟩ := decodeLoop_cons_ok h
    rw [decodeLoop_cons (by omega) (by omega)]
    rcases hb with ⟨hb, rfl, rfl⟩ | ⟨hb, h⟩
    · rw [if_pos hb]
    · rw [if_neg (Nat.not_lt.mpr hb)]
      exact ih h

/-- The canonical decoder accepts exactly the encoder's image, the encoder needs
exactly the predicted room, and the two decoders agree. -/
theorem canonical_varints {v : ℕ} (hv : v < u64Size) :
    (∀ input n, decodeU64Canonical input = .ok (v, n) ↔
      n ≤ input.length ∧ encodeU64 v maxU64Bytes = some (input.take n)) ∧
    (∀ m, ((encodeU64 v m).isSome ↔ varintU64Len v ≤ m) ∧
      ∀ bs, encodeU64 v m = some bs → bs.length = varintU64Len v) ∧
    (∀ input w n, decodeU32 input = .ok (w, n) → decodeU64 input = .ok (w, n)) := by
  refine ⟨?_, ?_, ?_⟩
  · intro input n
    rw [decodeU64Canonical_ok_iff]
    constructor
    · rintro ⟨hd, hlast⟩
      exact decodeU64_canonical hd hlast
    · rintro ⟨hn, henc⟩
      have hlen : (input.take n).length = n := List.length_take_of_le hn
      have hd := decodeU64_encode (input.drop n) hv henc
      rw [List.take_append_drop, hlen] at hd
      apply And.intro hd
      rintro ⟨hlt, hz⟩
      apply encodeU64_getLast henc (by omega)
      rw [List.getLast?_eq_getElem?, hlen, List.getElem?_take_of_lt (by omega)]
      exact hz
  · intro m
    constructor
    · rw [encodeU64_isSome_iff, varintU64Len_le_iff hv]
    · intro bs
      exact encodeU64_length hv
  · intro input w n
    exact decodeLoop_wider (by decide)

theorem canonical_varints_300 :
    300 < u64Size ∧ decodeU64Canonical [172, 2, 7] = .ok (300, 2) ∧ varintU64Len 300 = 2 := by
  have hv : 300 < u64Size := by decide
  have henc : encodeU64 300 maxU64Bytes = some [172, 2] := by decide
  obtain ⟨hiff, hlen, -⟩ := canonical_varints hv
  refine ⟨hv, ?_, ?_⟩
  · exact (hiff [172, 2, 7] 2).mpr ⟨by decide, henc⟩
  · exact ((hlen maxU64Bytes).2 [172, 2] henc).symm

end PaddockKV.Varint
