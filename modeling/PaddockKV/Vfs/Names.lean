import PaddockKV.Engine.FileNumbers

/-!
# File names (`engine.rs`, `wal_segment_path`, `sst_path` and the parsers of listed names)

The engine numbers its files and writes the number into the path with at least
eight digits; on opening it lists the directory and reads the numbers back. A
`str` is the list of its characters.
-/

namespace PaddockKV.Vfs

open Io

abbrev Str := List Char

/-! ### Numbers -/

/-- `{id:08}`. -/
def pad8 (id : ℕ) : Str := (Nat.toDigits 10 id).leftpad 8 '0'

def decimalValue : ℕ → Str → Option ℕ
  | acc, [] => some acc
  | acc, c :: s =>
    if c.isDigit then
      if 10 * acc + (c.toNat - '0'.toNat) < u64Size then
        decimalValue (10 * acc + (c.toNat - '0'.toNat)) s
      else none
    else none

/-- `s.parse::<u64>().ok()`; like `from_str_radix` it takes a sign. -/
def parseU64 : Str → Option ℕ
  | [] => none
  | c :: digits =>
    if (c = '+' ∨ c = '-') ∧ digits = [] then none
    else if c = '+' then decimalValue 0 digits
    else decimalValue 0 (c :: digits)

/-! ### Paths -/

def walName (id : ℕ) : Str := ['w', 'a', 'l', '-'] ++ pad8 id ++ ['.', 'l', 'o', 'g']

def sstName (id : ℕ) : Str := pad8 id ++ ['.', 's', 's', 't']

/-- `format!("{dir}/wal-{id:08}.log")`. -/
def walSegmentPath (dir : Str) (id : ℕ) : Str := dir ++ '/' :: walName id

/-- `format!("{dir}/{id:08}.sst")`. -/
def sstPath (dir : Str) (id : ℕ) : Str := dir ++ '/' :: sstName id

def parseWalSegmentName (name : Str) : Option ℕ := do
  let rest ← name.dropPrefix? ['w', 'a', 'l', '-']
  let digits ← rest.dropSuffix? ['.', 'l', 'o', 'g']
  parseU64 digits

def parseSstName (name : Str) : Option ℕ := do
  let digits ← name.dropSuffix? ['.', 's', 's', 't']
  parseU64 digits

/-- The last component of a file's path. -/
def baseName : FileName → Str
  | .wal id => walName id
  | .sst id => sstName id

def pathOf (dir : Str) : FileName → Str
  | .wal id => walSegmentPath dir id
  | .sst id => sstPath dir id

theorem pathOf_eq (dir : Str) (name : FileName) : pathOf dir name = dir ++ '/' :: baseName name := by
  cases name <;> rfl

/-! ### Reading numbers -/

theorem le_ofDigitChars (s : Str) (acc : ℕ) : acc ≤ Nat.ofDigitChars 10 s acc := by
  induction s generalizing acc with
  | nil => exact le_rfl
  | cons c s ih =>
    rw [Nat.ofDigitChars_cons]
    have hrest := ih (10 * acc + (c.toNat - '0'.toNat))
    omega

theorem decimalValue_eq_some {s : Str} {acc v : ℕ} (hacc : acc < u64Size) :
    decimalValue acc s = some v ↔
      (∀ c ∈ s, c.isDigit) ∧ Nat.ofDigitChars 10 s acc = v ∧ v < u64Size := by
  induction s generalizing acc with
  | nil =>
    simp only [decimalValue, Option.some.injEq]
    constructor
    · intro h
      subst h
      exact ⟨fun c hc => absurd hc List.not_mem_nil, rfl, hacc⟩
    · intro h
      exact h.2.1
  | cons c s ih =>
    rw [decimalValue, Nat.ofDigitChars_cons]
    by_cases hc : c.isDigit = true
    · by_cases hlt : 10 * acc + (c.toNat - '0'.toNat) < u64Size
      · rw [if_pos hc, if_pos hlt, ih hlt, List.forall_mem_cons]
        simp only [hc, true_and]
      · -- once over the bound a number stays over it
        rw [if_pos hc, if_neg hlt]
        have hle := le_ofDigitChars s (10 * acc + (c.toNat - '0'.toNat))
        simp only [reduceCtorEq, false_iff, not_and]
        intro _ hv
        omega
    · rw [if_neg hc]
      simp [hc]

theorem not_isDigit_plus : '+'.isDigit = false := by decide

theorem not_isDigit_minus : '-'.isDigit = false := by decide

theorem parseU64_eq_some {s : Str} {v : ℕ} :
    parseU64 s = some v ↔ ∃ t, (s = t ∨ s = '+' :: t) ∧ t ≠ [] ∧ (∀ c ∈ t, c.isDigit) ∧
      Nat.ofDigitChars 10 t 0 = v ∧ v < u64Size := by
  have hzero : 0 < u64Size := by decide
  cases s with
  | nil => simp [parseU64]
  | cons c digits =>
    rw [parseU64]
    constructor
    · intro h
      split at h
      · cases h
      · rename_i hsign
        split at h
        · rename_i hplus
          rw [decimalValue_eq_some hzero] at h
          refine ⟨digits, .inr (by rw [hplus]), ?_, h⟩
          intro hnil
          exact hsign ⟨.inl hplus, hnil⟩
        · rw [decimalValue_eq_some hzero] at h
          exact ⟨c :: digits, .inl rfl, List.cons_ne_nil _ _, h⟩
    · rintro ⟨t, ht | ht, hne, hdigits, hv⟩
      · subst ht
        have hc := hdigits c List.mem_cons_self
        have hplus : c ≠ '+' := by
          intro heq
          rw [heq, not_isDigit_plus] at hc
          cases hc
        have hminus : c ≠ '-' := by
          intro heq
          rw [heq, not_isDigit_minus] at hc
          cases hc
        rw [if_neg (by simp [hplus, hminus]), if_neg hplus, decimalValue_eq_some hzero]
        exact ⟨hdigits, hv⟩
      · obtain ⟨rfl, rfl⟩ := List.cons.inj ht
        rw [if_neg (fun h => hne h.2), if_pos rfl, decimalValue_eq_some hzero]
        exact ⟨hdigits, hv⟩

theorem ofDigitChars_pad8 (id : ℕ) : Nat.ofDigitChars 10 (pad8 id) 0 = id := by
  rw [pad8, List.leftpad, Nat.ofDigitChars_append, Nat.ofDigitChars_replicate_zero, Nat.mul_zero]
  exact Nat.ofDigitChars_ten_toDigits

theorem pad8_digits (id : ℕ) : ∀ c ∈ pad8 id, c.isDigit := by
  intro c hc
  rw [pad8, List.leftpad, List.mem_append] at hc
  rcases hc with hc | hc
  · rw [List.eq_of_mem_replicate hc]
    rfl
  · exact Nat.isDigit_of_mem_toDigits (by decide) (by decide) hc

theorem pad8_ne_nil (id : ℕ) : pad8 id ≠ [] := by
  intro h
  have hlen : (pad8 id).length = max 8 _ := List.length_leftpad
  rw [h, List.length_nil] at hlen
  omega

theorem parseU64_pad8 {id : ℕ} (h : id < u64Size) : parseU64 (pad8 id) = some id :=
  parseU64_eq_some.mpr ⟨pad8 id, .inl rfl, pad8_ne_nil id, pad8_digits id, ofDigitChars_pad8 id, h⟩

/-! ### Reading names -/

theorem parseWalSegmentName_eq {name : Str} {id : ℕ} :
    parseWalSegmentName name = some id ↔
      ∃ digits, name = ['w', 'a', 'l', '-'] ++ digits ++ ['.', 'l', 'o', 'g'] ∧
        parseU64 digits = some id := by
  unfold parseWalSegmentName
  simp only [Option.bind_eq_bind, Option.bind_eq_some_iff, List.dropPrefix?_eq_some_iff,
    List.dropSuffix?_eq_some_iff, beq_iff_eq]
  constructor
  · rintro ⟨rest, ⟨p, rfl, rfl⟩, digits, ⟨q, rfl, rfl⟩, h⟩
    exact ⟨digits, (List.append_assoc _ _ _).symm, h⟩
  · rintro ⟨digits, rfl, h⟩
    exact ⟨_, ⟨_, List.append_assoc _ _ _, rfl⟩, digits, ⟨_, rfl, rfl⟩, h⟩

theorem parseSstName_eq {name : Str} {id : ℕ} :
    parseSstName name = some id ↔
      ∃ digits, name = digits ++ ['.', 's', 's', 't'] ∧ parseU64 digits = some id := by
  unfold parseSstName
  simp only [Option.bind_eq_bind, Option.bind_eq_some_iff, List.dropSuffix?_eq_some_iff, beq_iff_eq]
  constructor
  · rintro ⟨digits, ⟨q, rfl, rfl⟩, h⟩
    exact ⟨digits, rfl, h⟩
  · rintro ⟨digits, rfl, h⟩
    exact ⟨digits, ⟨_, rfl, rfl⟩, h⟩

theorem getLast_walName (id : ℕ) : (walName id).getLast? = some 'g' := by
  rw [walName, List.getLast?_append_of_ne_nil _ (by decide)]
  rfl

theorem getLast_sstName (id : ℕ) : (sstName id).getLast? = some 't' := by
  rw [sstName, List.getLast?_append_of_ne_nil _ (by decide)]
  rfl

theorem parseWalSegmentName_baseName {name : FileName} (h : Engine.number name < u64Size) :
    parseWalSegmentName (baseName name) = Engine.parseWalSegmentName name := by
  cases name with
  | wal id => exact parseWalSegmentName_eq.mpr ⟨pad8 id, rfl, parseU64_pad8 h⟩
  | sst id =>
    rw [Engine.parseWalSegmentName, Option.eq_none_iff_forall_ne_some]
    intro v hv
    obtain ⟨digits, heq, -⟩ := parseWalSegmentName_eq.mp hv
    have hlast := getLast_sstName id
    rw [show sstName id = _ from heq, List.getLast?_append_of_ne_nil _ (by decide)] at hlast
    cases hlast

theorem parseSstName_baseName {name : FileName} (h : Engine.number name < u64Size) :
    parseSstName (baseName name) = Engine.parseSstName name := by
  cases name with
  | sst id => exact parseSstName_eq.mpr ⟨pad8 id, rfl, parseU64_pad8 h⟩
  | wal id =>
    rw [Engine.parseSstName, Option.eq_none_iff_forall_ne_some]
    intro v hv
    obtain ⟨digits, heq, -⟩ := parseSstName_eq.mp hv
    have hlast := getLast_walName id
    rw [show walName id = _ from heq, List.getLast?_append_of_ne_nil _ (by decide)] at hlast
    cases hlast

theorem baseName_injective : Function.Injective baseName := by
  intro a b h
  cases a with
  | wal i =>
    cases b with
    | wal j =>
      have hpad : pad8 i = pad8 j := List.append_cancel_left (List.append_cancel_right h)
      rw [← ofDigitChars_pad8 i, hpad, ofDigitChars_pad8]
    | sst j =>
      have hlast := getLast_walName i
      rw [show walName i = sstName j from h, getLast_sstName] at hlast
      cases hlast
  | sst i =>
    cases b with
    | wal j =>
      have hlast := getLast_walName j
      rw [show walName j = sstName i from h.symm, getLast_sstName] at hlast
      cases hlast
    | sst j =>
      have hpad : pad8 i = pad8 j := List.append_cancel_right h
      rw [← ofDigitChars_pad8 i, hpad, ofDigitChars_pad8]

theorem slash_notMem_baseName (name : FileName) : '/' ∉ baseName name := by
  have hpad : ∀ id, '/' ∉ pad8 id := by
    intro id h
    exact absurd (pad8_digits id _ h) (by decide)
  cases name with
  | wal id => simp [baseName, walName, hpad]
  | sst id => simp [baseName, sstName, hpad]

end PaddockKV.Vfs
