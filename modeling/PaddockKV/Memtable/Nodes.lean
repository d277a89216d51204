import Mathlib.Data.FinEnum
import Mathlib.Data.Set.Card
import PaddockKV.Memtable.SkipList

/-!
# The heights of nodes

`random_height` decides the height of a node by repeated draws from one word of
the generator; a multiplication by an odd constant separates the draws.
-/

namespace PaddockKV.Memtable

/-- `random_height` when `rng_state` is `r`. -/
def drawnHeight (r : UInt32) : ℕ := randomHeight (xorshift r)

/-- The non-zero states of the generator that give at least height `h`. -/
def statesFrom (h : ℕ) : Set UInt32 := {r | r ≠ 0 ∧ h ≤ drawnHeight r}

/-- Level `h` is left by some nodes and kept by at most half of them. -/
def Thins (h : ℕ) : Prop :=
  (∃ r ∈ statesFrom h, drawnHeight r = h) ∧
    2 * (statesFrom (h + 1)).ncard ≤ (statesFrom h).ncard

theorem mul_mod_branch {s : UInt32} (h : s % branch = 0) : s * 0x9E3779B9 % branch = 0 := by
  have h' := congrArg UInt32.toNat h
  apply UInt32.toNat_inj.mp
  simp [branch] at h' ⊢
  omega

theorem promote_of_multiple {fuel h : ℕ} {s : UInt32} (hs : s % branch = 0)
    (hh : h ≤ maxLevels) (hfuel : maxLevels ≤ h + fuel) : promote fuel h s = maxLevels := by
  induction fuel generalizing h s with
  | zero =>
    rw [promote]
    omega
  | succ fuel ih =>
    rw [promote]
    by_cases hlt : h < maxLevels
    · rw [if_pos ⟨hlt, hs⟩]
      exact ih (mul_mod_branch hs) hlt (by omega)
    · rw [if_neg (fun hc => hlt hc.1)]
      omega

theorem randomHeight_eq (s : UInt32) :
    randomHeight s = if s % branch = 0 then maxLevels else 1 := by
  split
  · rename_i hs
    exact promote_of_multiple hs (by decide) (by decide)
  · rename_i hs
    rw [randomHeight, maxLevels, promote, if_neg (fun hc => hs hc.2)]

theorem two_le_drawnHeight {r : UInt32} : 2 ≤ drawnHeight r ↔ xorshift r % branch = 0 := by
  rw [drawnHeight, randomHeight_eq]
  split
  · rename_i h
    simp [h, maxLevels]
  · rename_i h
    simp [h]

/-! ### The generator is a permutation -/

/-- A word is determined by its sum with a shifted copy: the difference of two
words with the same sum is a fixed point of the shift. -/
theorem xor_self_injective {f : UInt32 → UInt32} (hxor : ∀ s t, f (s ^^^ t) = f s ^^^ f t)
    (hfix : ∀ d, d = f d → d = 0) : Function.Injective fun s => s ^^^ f s := by
  intro s t h
  have hd : s ^^^ t = f (s ^^^ t) :=
    calc s ^^^ t = s ^^^ f s ^^^ (f s ^^^ t) := by
          rw [UInt32.xor_assoc, ← UInt32.xor_assoc (f s), UInt32.xor_self, UInt32.zero_xor]
      _ = t ^^^ f t ^^^ (f s ^^^ t) := congrArg (· ^^^ (f s ^^^ t)) h
      _ = f s ^^^ f t ^^^ (t ^^^ t) := by ac_rfl
      _ = f (s ^^^ t) := by rw [UInt32.xor_self, UInt32.xor_zero, hxor]
  exact UInt32.xor_eq_zero_iff.mp (hfix _ hd)

theorem eq_zero_of_shiftLeft {d k : UInt32} (hk : k.toNat % 32 ≠ 0) (hd : d = d <<< k) : d = 0 := by
  have hmod : d.toNat * 1 ≡ d.toNat * 2 ^ (k.toNat % 32) [MOD 2 ^ 32] := by
    have hval := congrArg UInt32.toNat hd
    rw [UInt32.toNat_shiftLeft, Nat.shiftLeft_eq] at hval
    rw [Nat.mul_one]
    exact (Nat.mod_eq_of_lt d.toNat_lt).trans hval
  have hpow : 1 ≤ 2 ^ (k.toNat % 32) := Nat.one_le_two_pow
  have hdvd : 2 ^ 32 ∣ d.toNat * (2 ^ (k.toNat % 32) - 1) := by
    rw [Nat.mul_sub]
    exact (Nat.modEq_iff_dvd' (Nat.mul_le_mul_left _ hpow)).mp hmod
  have hodd : Nat.Coprime (2 ^ 32) (2 ^ (k.toNat % 32) - 1) := by
    apply Nat.Coprime.pow_left
    rw [Nat.coprime_two_left]
    exact Nat.Even.sub_odd hpow (Nat.even_pow.mpr ⟨even_two, hk⟩) odd_one
  exact UInt32.toNat_inj.mp
    (Nat.eq_zero_of_dvd_of_lt (hodd.dvd_of_dvd_mul_right hdvd) d.toNat_lt)

theorem xor_shiftLeft_injective {k : UInt32} (hk : k.toNat % 32 ≠ 0) :
    Function.Injective fun s : UInt32 => s ^^^ (s <<< k) := by
  apply xor_self_injective
  · intro s t
    exact UInt32.shiftLeft_xor
  · intro d hd
    exact eq_zero_of_shiftLeft hk hd

theorem xorshift_injective : Function.Injective xorshift := by
  have hleft : Function.Injective fun s : UInt32 => s ^^^ (s <<< 13) :=
    xor_shiftLeft_injective (by decide)
  have hright : Function.Injective fun s : UInt32 => s ^^^ (s >>> 17) := by
    apply xor_self_injective
    · intro s t
      exact UInt32.shiftRight_xor
    · intro d hd
      have hd' := congrArg UInt32.toNat hd
      apply UInt32.toNat_inj.mp
      simp [Nat.shiftRight_eq_div_pow] at hd' ⊢
      omega
  have hleft' : Function.Injective fun s : UInt32 => s ^^^ (s <<< 5) :=
    xor_shiftLeft_injective (by decide)
  exact hleft'.comp (hright.comp hleft)

theorem xorshift_surjective : Function.Surjective xorshift :=
  Finite.injective_iff_surjective.mp xorshift_injective

/-! ### Counting states -/

theorem succ_mod_branch {s : UInt32} (h : s % branch = 0) : ¬ (s + 1) % branch = 0 := by
  intro hsucc
  have h' := congrArg UInt32.toNat h
  have hsucc' := congrArg UInt32.toNat hsucc
  simp [branch] at h' hsucc'
  omega

theorem ncard_statesFrom_two : (statesFrom 2).ncard ≤ (statesFrom 1 \ statesFrom 2).ncard := by
  apply Set.ncard_le_ncard_of_injOn
    (fun r => Function.surjInv xorshift_surjective (xorshift r + 1))
  · intro r hr
    have hmod := two_le_drawnHeight.mp hr.2
    have hnext := Function.surjInv_eq xorshift_surjective (xorshift r + 1)
    have hodd := succ_mod_branch hmod
    refine ⟨⟨?_, (randomHeight_bounds _).1⟩, ?_⟩
    · intro hzero
      rw [hzero] at hnext
      apply hodd
      rw [← hnext]
      decide
    · intro hmem
      apply hodd
      rw [← hnext]
      exact two_le_drawnHeight.mp hmem.2
  · intro r _ r' _ heq
    have hsame := Function.injective_surjInv xorshift_surjective heq
    exact xorshift_injective (by simpa using hsame)

theorem thins_one : Thins 1 := by
  constructor
  · exact ⟨1, ⟨by decide, by decide⟩, by decide⟩
  · have hsub : statesFrom 2 ⊆ statesFrom 1 := fun r hr => ⟨hr.1, by have := hr.2; omega⟩
    have hsplit := Set.ncard_sdiff_add_ncard_of_subset hsub
    have hhalf := ncard_statesFrom_two
    rw [show 1 + 1 = 2 from rfl]
    omega

theorem drawnHeight_of_two_le {r : UInt32} (h : 2 ≤ drawnHeight r) : drawnHeight r = maxLevels := by
  rw [drawnHeight, randomHeight_eq, if_pos (two_le_drawnHeight.mp h)]

/-- Only the first level thins out: a node of height two has all levels. -/
theorem thins_iff {h : ℕ} (hpos : 1 ≤ h) (hlt : h < maxLevels) : Thins h ↔ h = 1 := by
  constructor
  · rintro ⟨⟨r, -, hr⟩, -⟩
    by_contra hne
    have hmax := drawnHeight_of_two_le (r := r) (by omega)
    omega
  · rintro rfl
    exact thins_one

theorem thins_iff_two : 1 ≤ 2 ∧ 2 < maxLevels ∧ ¬ Thins 2 := by
  have hlt : 2 < maxLevels := by decide
  refine ⟨by decide, hlt, ?_⟩
  intro hthins
  exact absurd ((thins_iff (by decide) hlt).mp hthins) (by decide)

/-- State 4 gives height 12, and no state gives height 2. -/
theorem no_node_of_height_two :
    4 ∈ statesFrom 2 ∧ drawnHeight 4 = 12 ∧ ¬ ∃ r ∈ statesFrom 2, drawnHeight r = 2 := by
  refine ⟨⟨by decide, by decide⟩, by decide, ?_⟩
  rintro ⟨r, hr, htwo⟩
  have hmax := drawnHeight_of_two_le hr.2
  rw [htwo] at hmax
  exact absurd hmax (by decide)

end PaddockKV.Memtable
