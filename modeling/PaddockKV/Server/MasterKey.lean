import PaddockKV.Basic

/-!
# The master key of the server (`paddock-server/src/main.rs`, `decode_hex_32`)

The parser checks the length in bytes, cuts the string every two bytes and
hands each piece to `u8::from_str_radix`. A cut inside a character unwinds, and
`from_str_radix` also takes a sign and one digit. A `str` is the list of its
characters.
-/

namespace PaddockKV.Server

/-! ### Strings -/

/-- `str::len`. -/
def utf8Len (s : List Char) : ℕ := (s.map Char.utf8Size).sum

/-- The string before and after byte `n`, which has to be a character boundary. -/
def splitAtByte : ℕ → List Char → Option (List Char × List Char)
  | 0, s => some ([], s)
  | _ + 1, [] => none
  | n + 1, c :: s =>
    if n + 1 < c.utf8Size then none
    else (splitAtByte (n + 1 - c.utf8Size) s).map fun p => (c :: p.1, p.2)

def boundaryMsg : String := "byte index is not a char boundary"

/-- `&s[start..stop]`. -/
def strSlice (s : List Char) (start stop : ℕ) : Res (List Char) :=
  match splitAtByte start s with
  | none => .error (.panicked boundaryMsg)
  | some (_, rest) =>
    match splitAtByte (stop - start) rest with
    | none => .error (.panicked boundaryMsg)
    | some (piece, _) => .ok piece

/-! ### Digits -/

/-- `char::to_digit(16)`. -/
def toDigit (c : Char) : Option ℕ :=
  if '0' ≤ c ∧ c ≤ '9' then some (c.toNat - '0'.toNat)
  else if 'a' ≤ c ∧ c ≤ 'f' then some (c.toNat - 'a'.toNat + 10)
  else if 'A' ≤ c ∧ c ≤ 'F' then some (c.toNat - 'A'.toNat + 10)
  else none

def digitsValue : ℕ → List Char → Option ℕ
  | acc, [] => some acc
  | acc, c :: s =>
    match toDigit c with
    | none => none
    | some d => if acc * 16 + d < 256 then digitsValue (acc * 16 + d) s else none

/-- `u8::from_str_radix(s, 16).ok()`. -/
def fromStrRadix (s : List Char) : Option ℕ :=
  match s with
  | [] => none
  | c :: digits =>
    if (c = '+' ∨ c = '-') ∧ digits = [] then none
    else if c = '+' then digitsValue 0 digits
    else digitsValue 0 (c :: digits)

/-! ### The parser -/

/-- The loop from index `i` on, with `n` rounds left. -/
def decodeRounds (hex : List Char) : ℕ → ℕ → Res (Option Bytes)
  | 0, _ => .ok (some [])
  | n + 1, i => do
    let pair ← strSlice hex (i * 2) (i * 2 + 2)
    match fromStrRadix pair with
    | none => return none
    | some v => do
      let rest ← decodeRounds hex n (i + 1)
      return rest.map (Fin.ofNat 256 v :: ·)

def decodeHex32 (hex : List Char) : Res (Option Bytes) :=
  if utf8Len hex ≠ 64 then .ok none else decodeRounds hex 32 0

/-! ### What it should accept -/

/-- `bytes` are the values of the pairs of digits of `s`. -/
def IsKey (n : ℕ) (s : List Char) (bytes : Bytes) : Prop :=
  s.length = 2 * n ∧ bytes.length = n ∧ ∀ i < n, ∃ hi lo, (s[2 * i]?).bind toDigit = some hi ∧
    (s[2 * i + 1]?).bind toDigit = some lo ∧ (bytes[i]?).map Fin.val = some (16 * hi + lo)

/-- The parser returns, and it returns a key exactly for 64 digits. -/
structure ParsesKeys (s : List Char) : Prop where
  returns : ∃ out, decodeHex32 s = .ok out
  keys : ∀ bytes, decodeHex32 s = .ok (some bytes) ↔ IsKey 32 s bytes

/-- A pair that `from_str_radix` takes. -/
def PairOk (a b : Char) : Prop := (a = '+' ∨ (toDigit a).isSome) ∧ (toDigit b).isSome

instance (a b : Char) : Decidable (PairOk a b) := inferInstanceAs (Decidable (_ ∧ _))

/-- A string of such pairs. -/
def WellPaired : List Char → Prop
  | [] => True
  | [_] => False
  | a :: b :: s => PairOk a b ∧ WellPaired s

/-- Byte `n` of `s` starts a character or is the end. -/
def Boundary (s : List Char) (n : ℕ) : Prop := ∃ k, utf8Len (s.take k) = n

/-- No cut falls inside a character before the first pair that is rejected, and
no pair that is taken starts with a sign. -/
structure Clean (s : List Char) : Prop where
  cuts : ∀ i < 32, WellPaired (s.take (2 * i)) → Boundary s (2 * i + 2)
  signs : WellPaired s → '+' ∉ s

/-! ### Characters and bytes -/

@[simp] theorem utf8Len_nil : utf8Len [] = 0 := rfl

@[simp] theorem utf8Len_cons (c : Char) (s : List Char) :
    utf8Len (c :: s) = c.utf8Size + utf8Len s := rfl

theorem utf8Len_append (s t : List Char) : utf8Len (s ++ t) = utf8Len s + utf8Len t := by
  simp [utf8Len]

theorem splitAtByte_append (s t : List Char) : splitAtByte (utf8Len s) (s ++ t) = some (s, t) := by
  induction s with
  | nil =>
    cases t <;> rfl
  | cons c s ih =>
    have hpos := c.utf8Size_pos
    obtain ⟨n, hn⟩ : ∃ n, utf8Len (c :: s) = n + 1 := ⟨utf8Len (c :: s) - 1, by simp; omega⟩
    have hrest : n + 1 - c.utf8Size = utf8Len s := by
      rw [← hn, utf8Len_cons, Nat.add_sub_cancel_left]
    have hlong : ¬ n + 1 < c.utf8Size := by
      rw [← hn, utf8Len_cons]
      omega
    rw [hn, List.cons_append, splitAtByte, if_neg hlong, hrest, ih]
    rfl

theorem splitAtByte_some {n : ℕ} {s a b : List Char} (h : splitAtByte n s = some (a, b)) :
    s = a ++ b ∧ utf8Len a = n := by
  induction s generalizing n a b with
  | nil =>
    cases n with
    | zero =>
      cases h
      exact ⟨rfl, rfl⟩
    | succ n => cases h
  | cons c s ih =>
    cases n with
    | zero =>
      cases h
      exact ⟨rfl, rfl⟩
    | succ n =>
      rw [splitAtByte] at h
      split at h
      · cases h
      · rename_i hlong
        obtain ⟨⟨a', b'⟩, hsplit, hp⟩ := Option.map_eq_some_iff.mp h
        cases hp
        obtain ⟨rfl, hlen⟩ := ih hsplit
        refine ⟨rfl, ?_⟩
        show c.utf8Size + utf8Len a' = n + 1
        omega

theorem splitAtByte_isSome_iff {n : ℕ} {s : List Char} :
    (splitAtByte n s).isSome ↔ Boundary s n := by
  constructor
  · intro h
    obtain ⟨⟨a, b⟩, hsplit⟩ := Option.isSome_iff_exists.mp h
    obtain ⟨rfl, hlen⟩ := splitAtByte_some hsplit
    exact ⟨a.length, by rw [List.take_left, hlen]⟩
  · rintro ⟨k, rfl⟩
    have h := splitAtByte_append (s.take k) (s.drop k)
    rw [List.take_append_drop] at h
    rw [h]
    rfl

theorem toDigit_bounds {c : Char} {d : ℕ} (h : toDigit c = some d) : c.toNat < 128 ∧ d < 16 := by
  have hle : ∀ x y : Char, x ≤ y → x.toNat ≤ y.toNat := fun x y hxy => hxy
  unfold toDigit at h
  split at h
  · rename_i hc
    cases h
    have h9 : c.toNat ≤ 57 := hle _ _ hc.2
    exact ⟨by omega, show c.toNat - 48 < 16 by omega⟩
  · split at h
    · rename_i hc
      cases h
      have hf : c.toNat ≤ 102 := hle _ _ hc.2
      exact ⟨by omega, show c.toNat - 97 + 10 < 16 by omega⟩
    · split at h
      · rename_i hc
        cases h
        have hf : c.toNat ≤ 70 := hle _ _ hc.2
        exact ⟨by omega, show c.toNat - 65 + 10 < 16 by omega⟩
      · cases h

theorem utf8Size_of_lt {c : Char} (h : c.toNat < 128) : c.utf8Size = 1 := by
  rw [Char.utf8Size_eq_one_iff, UInt32.le_iff_toNat_le]
  exact Nat.le_of_lt_succ h

theorem PairOk.sizes {a b : Char} (h : PairOk a b) : a.utf8Size = 1 ∧ b.utf8Size = 1 := by
  obtain ⟨ha, hb⟩ := h
  obtain ⟨y, hy⟩ := Option.isSome_iff_exists.mp hb
  refine ⟨?_, utf8Size_of_lt (toDigit_bounds hy).1⟩
  rcases ha with rfl | ha
  · rfl
  · obtain ⟨x, hx⟩ := Option.isSome_iff_exists.mp ha
    exact utf8Size_of_lt (toDigit_bounds hx).1

/-! ### One pair -/

/-- The value `from_str_radix` gives a pair it takes. -/
def pairValue (a b : Char) : ℕ :=
  if a = '+' then (toDigit b).getD 0 else 16 * (toDigit a).getD 0 + (toDigit b).getD 0

theorem toDigit_sign : toDigit '+' = none ∧ toDigit '-' = none := by decide

theorem fromStrRadix_pair (a b : Char) :
    fromStrRadix [a, b] = if PairOk a b then some (pairValue a b) else none := by
  have hlone : ¬ ((a = '+' ∨ a = '-') ∧ [b] = []) := by simp
  unfold fromStrRadix
  dsimp only
  rw [if_neg hlone]
  by_cases hplus : a = '+'
  · rw [if_pos hplus]
    cases hb : toDigit b with
    | none =>
      rw [if_neg (by rw [PairOk, hb]; simp)]
      simp only [digitsValue, hb]
    | some y =>
      have hy := (toDigit_bounds hb).2
      rw [if_pos ⟨.inl hplus, by rw [hb]; rfl⟩, pairValue, if_pos hplus]
      simp only [digitsValue, hb, Nat.zero_mul, Nat.zero_add, if_pos (show y < 256 by omega),
        Option.getD_some]
  · rw [if_neg hplus]
    cases ha : toDigit a with
    | none =>
      rw [if_neg (by rw [PairOk, ha]; simp [hplus])]
      simp only [digitsValue, ha]
    | some x =>
      have hx := (toDigit_bounds ha).2
      cases hb : toDigit b with
      | none =>
        rw [if_neg (by rw [PairOk, hb]; simp)]
        simp only [digitsValue, ha, hb, Nat.zero_mul, Nat.zero_add,
          if_pos (show x < 256 by omega)]
      | some y =>
        have hy := (toDigit_bounds hb).2
        rw [if_pos ⟨.inr (by rw [ha]; rfl), by rw [hb]; rfl⟩, pairValue, if_neg hplus]
        simp only [digitsValue, ha, hb, Nat.zero_mul, Nat.zero_add,
          if_pos (show x < 256 by omega), if_pos (show x * 16 + y < 256 by omega),
          Option.getD_some, Nat.mul_comm 16]

theorem fromStrRadix_one {c : Char} (h : c.utf8Size ≠ 1) : fromStrRadix [c] = none := by
  have hsign : c ≠ '+' := by
    rintro rfl
    exact h rfl
  have hdigit : toDigit c = none := by
    rw [Option.eq_none_iff_forall_not_mem]
    intro d hd
    exact h (utf8Size_of_lt (toDigit_bounds hd).1)
  unfold fromStrRadix
  dsimp only
  rw [if_neg hsign]
  split
  · rfl
  · simp only [digitsValue, hdigit]

/-! ### The loop, from what is left of the string -/

/-- The loop on the rest of the string. -/
def decodeFrom : ℕ → List Char → Res (Option Bytes)
  | 0, _ => .ok (some [])
  | n + 1, s =>
    match splitAtByte 2 s with
    | none => .error (.panicked boundaryMsg)
    | some (pair, s) =>
      match fromStrRadix pair with
      | none => .ok none
      | some v => (decodeFrom n s).map (Option.map (Fin.ofNat 256 v :: ·))

theorem decodeRounds_eq {pre s : List Char} {n i : ℕ} (hpre : utf8Len pre = i * 2) :
    decodeRounds (pre ++ s) n i = decodeFrom n s := by
  induction n generalizing pre s i with
  | zero => rfl
  | succ n ih =>
    have hstart := splitAtByte_append pre s
    rw [hpre] at hstart
    unfold decodeRounds decodeFrom strSlice
    rw [hstart]
    dsimp only
    rw [Nat.add_sub_cancel_left]
    cases hsplit : splitAtByte 2 s with
    | none => rfl
    | some p =>
      obtain ⟨pair, rest⟩ := p
      obtain ⟨rfl, hlen⟩ := splitAtByte_some hsplit
      have hnext : utf8Len (pre ++ pair) = (i + 1) * 2 := by
        rw [utf8Len_append, hpre, hlen]
        omega
      rw [res_ok_bind]
      dsimp only
      cases fromStrRadix pair with
      | none => rfl
      | some v =>
        dsimp only
        rw [← List.append_assoc, ih hnext]
        cases decodeFrom n rest <;> rfl

/-! ### Accepted strings -/

/-- The bytes of a string of pairs. -/
def pairBytes : List Char → Bytes
  | a :: b :: s => Fin.ofNat 256 (pairValue a b) :: pairBytes s
  | _ => []

theorem WellPaired.head {c : Char} {s : List Char} (h : WellPaired (c :: s)) : c.utf8Size = 1 := by
  cases s with
  | nil => exact h.elim
  | cons b s => exact h.1.sizes.1

theorem WellPaired.utf8Len {s : List Char} (h : WellPaired s) : utf8Len s = s.length := by
  induction s using WellPaired.induct with
  | case1 => rfl
  | case2 c => exact h.elim
  | case3 a b s ih =>
    have hsizes := h.1.sizes
    rw [utf8Len_cons, utf8Len_cons, ih h.2, hsizes.1, hsizes.2, List.length_cons, List.length_cons]
    omega

theorem boundary_pair {a b : Char} (ha : a.utf8Size = 1) (hb : b.utf8Size = 1) (s : List Char)
    (n : ℕ) : Boundary (a :: b :: s) (n + 2) ↔ Boundary s n := by
  constructor
  · rintro ⟨k, hk⟩
    obtain ⟨j, rfl⟩ : ∃ j, k = j + 2 := by
      refine ⟨k - 2, ?_⟩
      rcases k with _ | _ | k
      · simp at hk
      · simp [ha] at hk
      · omega
    refine ⟨j, ?_⟩
    rw [List.take_succ_cons, List.take_succ_cons, utf8Len_cons, utf8Len_cons, ha, hb] at hk
    omega
  · rintro ⟨k, hk⟩
    refine ⟨k + 2, ?_⟩
    rw [List.take_succ_cons, List.take_succ_cons, utf8Len_cons, utf8Len_cons, ha, hb, hk]
    omega

theorem boundary_zero (s : List Char) : Boundary s 0 := ⟨0, rfl⟩

theorem first_two {n : ℕ} {s : List Char} (hlen : utf8Len s = 2 * (n + 1)) :
    (∃ a b rest, s = a :: b :: rest ∧ a.utf8Size = 1 ∧ b.utf8Size = 1 ∧ utf8Len rest = 2 * n) ∨
      (∃ c rest, s = c :: rest ∧ c.utf8Size = 2) ∨ ¬ Boundary s 2 := by
  cases s with
  | nil =>
    rw [utf8Len_nil] at hlen
    omega
  | cons c s =>
    rw [utf8Len_cons] at hlen
    rcases Nat.lt_trichotomy c.utf8Size 2 with hone | htwo | hmore
    · have hc : c.utf8Size = 1 := by
        have := c.utf8Size_pos
        omega
      cases s with
      | nil =>
        rw [utf8Len_nil] at hlen
        omega
      | cons d s =>
        rw [utf8Len_cons] at hlen
        have hpos := d.utf8Size_pos
        by_cases hd : d.utf8Size = 1
        · exact .inl ⟨c, d, s, rfl, hc, hd, by omega⟩
        · refine .inr (.inr ?_)
          rintro ⟨k, hk⟩
          rcases k with _ | _ | k
          · simp at hk
          · simp [hc] at hk
          · rw [List.take_succ_cons, List.take_succ_cons, utf8Len_cons, utf8Len_cons] at hk
            omega
    · exact .inr (.inl ⟨c, s, rfl, htwo⟩)
    · refine .inr (.inr ?_)
      rintro ⟨k, hk⟩
      rcases k with _ | k
      · simp at hk
      · rw [List.take_succ_cons, utf8Len_cons] at hk
        omega

/-! ### What the loop returns -/

theorem decodeFrom_pair {a b : Char} (ha : a.utf8Size = 1) (hb : b.utf8Size = 1) (n : ℕ)
    (s : List Char) : decodeFrom (n + 1) (a :: b :: s) =
      if PairOk a b then (decodeFrom n s).map (Option.map (Fin.ofNat 256 (pairValue a b) :: ·))
      else .ok none := by
  have hsplit := splitAtByte_append [a, b] s
  rw [utf8Len_cons, utf8Len_cons, utf8Len_nil, ha, hb] at hsplit
  rw [decodeFrom]
  simp only [List.cons_append, List.nil_append] at hsplit
  rw [hsplit]
  dsimp only
  rw [fromStrRadix_pair]
  by_cases hok : PairOk a b
  · rw [if_pos hok, if_pos hok]
  · rw [if_neg hok, if_neg hok]

theorem decodeFrom_two {c : Char} (hc : c.utf8Size = 2) (n : ℕ) (s : List Char) :
    decodeFrom (n + 1) (c :: s) = .ok none := by
  have hsplit := splitAtByte_append [c] s
  rw [utf8Len_cons, utf8Len_nil, hc] at hsplit
  rw [decodeFrom]
  simp only [List.cons_append, List.nil_append] at hsplit
  rw [hsplit]
  dsimp only
  rw [fromStrRadix_one (by omega)]

theorem decodeFrom_cut {s : List Char} (h : ¬ Boundary s 2) (n : ℕ) :
    decodeFrom (n + 1) s = .error (.panicked boundaryMsg) := by
  rw [← splitAtByte_isSome_iff, Bool.not_eq_true, Option.isSome_eq_false_iff,
    Option.isNone_iff_eq_none] at h
  rw [decodeFrom, h]

theorem decodeFrom_some_iff {n : ℕ} {s : List Char} (hlen : utf8Len s = 2 * n) (bytes : Bytes) :
    decodeFrom n s = .ok (some bytes) ↔ WellPaired s ∧ bytes = pairBytes s := by
  induction n generalizing s bytes with
  | zero =>
    have hnil : s = [] := by
      cases s with
      | nil => rfl
      | cons c s =>
        have := c.utf8Size_pos
        rw [utf8Len_cons] at hlen
        omega
    subst hnil
    simp [decodeFrom, WellPaired, pairBytes, eq_comm]
  | succ n ih =>
    rcases first_two hlen with ⟨a, b, rest, rfl, ha, hb, hrest⟩ | ⟨c, rest, rfl, hc⟩ | hcut
    · rw [decodeFrom_pair ha hb]
      by_cases hok : PairOk a b
      · rw [if_pos hok]
        have hpaired : WellPaired rest → decodeFrom n rest = .ok (some (pairBytes rest)) :=
          fun hw => (ih hrest (pairBytes rest)).mpr ⟨hw, rfl⟩
        cases hdec : decodeFrom n rest with
        | error f =>
          have hno : ¬ WellPaired rest := fun hw => by cases hdec.symm.trans (hpaired hw)
          simp [Except.map, WellPaired, hno]
        | ok out =>
          cases out with
          | none =>
            have hno : ¬ WellPaired rest := fun hw => by cases hdec.symm.trans (hpaired hw)
            simp [Except.map, WellPaired, hno]
          | some tail =>
            obtain ⟨hw, rfl⟩ := (ih hrest tail).mp hdec
            simp [Except.map, WellPaired, pairBytes, hok, hw, eq_comm]
      · rw [if_neg hok]
        simp [WellPaired, hok]
    · rw [decodeFrom_two hc]
      have hno : ¬ WellPaired (c :: rest) := by
        intro hw
        rw [hw.head] at hc
        omega
      simp [hno]
    · rw [decodeFrom_cut hcut]
      have hno : ¬ WellPaired s := by
        intro hw
        match s, hw with
        | [], _ =>
          rw [utf8Len_nil] at hlen
          omega
        | a :: b :: rest, hw =>
          have hsizes := hw.1.sizes
          exact hcut ((boundary_pair hsizes.1 hsizes.2 rest 0).mpr (boundary_zero rest))
      simp [hno]

theorem decodeFrom_error_iff {n : ℕ} {s : List Char} (hlen : utf8Len s = 2 * n) :
    (∃ f, decodeFrom n s = .error f) ↔
      ∃ i < n, WellPaired (s.take (2 * i)) ∧ ¬ Boundary s (2 * i + 2) := by
  induction n generalizing s with
  | zero => simp [decodeFrom]
  | succ n ih =>
    rcases first_two hlen with ⟨a, b, rest, rfl, ha, hb, hrest⟩ | ⟨c, rest, rfl, hc⟩ | hcut
    · have hshift : (∃ i < n + 1, WellPaired ((a :: b :: rest).take (2 * i)) ∧
          ¬ Boundary (a :: b :: rest) (2 * i + 2)) ↔
            PairOk a b ∧ ∃ i < n, WellPaired (rest.take (2 * i)) ∧ ¬ Boundary rest (2 * i + 2) := by
        constructor
        · rintro ⟨i, hi, hw, hb'⟩
          rw [boundary_pair ha hb] at hb'
          cases i with
          | zero => exact absurd (boundary_zero rest) hb'
          | succ i =>
            have htake : 2 * (i + 1) = 2 * i + 2 := by omega
            rw [htake, List.take_succ_cons, List.take_succ_cons] at hw
            rw [htake] at hb'
            exact ⟨hw.1, i, by omega, hw.2, hb'⟩
        · rintro ⟨hok, i, hi, hw, hb'⟩
          have htake : 2 * (i + 1) = 2 * i + 2 := by omega
          refine ⟨i + 1, by omega, ?_, ?_⟩
          · rw [htake, List.take_succ_cons, List.take_succ_cons]
            exact ⟨hok, hw⟩
          · rw [boundary_pair ha hb, htake]
            exact hb'
      rw [hshift, decodeFrom_pair ha hb, ← ih hrest]
      by_cases hok : PairOk a b
      · rw [if_pos hok]
        cases decodeFrom n rest with
        | error f => simp [Except.map, hok]
        | ok out => simp [Except.map]
      · simp [hok]
    · rw [decodeFrom_two hc]
      refine iff_of_false (by simp) ?_
      rintro ⟨i, -, hw, hb'⟩
      cases i with
      | zero =>
        refine hb' ⟨1, ?_⟩
        simp [hc]
      | succ i =>
        have htake : 2 * (i + 1) = 2 * i + 1 + 1 := by omega
        rw [htake, List.take_succ_cons] at hw
        rw [hw.head] at hc
        omega
    · rw [decodeFrom_cut hcut]
      exact iff_of_true ⟨_, rfl⟩ ⟨0, by omega, trivial, hcut⟩

/-! ### The grammar -/

theorem isKey_cons {n : ℕ} {a b : Char} {s : List Char} {v : Byte} {bytes : Bytes} :
    IsKey (n + 1) (a :: b :: s) (v :: bytes) ↔ IsKey n s bytes ∧
      ∃ hi lo, toDigit a = some hi ∧ toDigit b = some lo ∧ v.val = 16 * hi + lo := by
  unfold IsKey
  constructor
  · rintro ⟨hs, hbytes, hall⟩
    refine ⟨⟨by simp at hs; omega, by simpa using hbytes, ?_⟩, ?_⟩
    · intro i hi
      have h := hall (i + 1) (by omega)
      have htwo : 2 * (i + 1) = 2 * i + 1 + 1 := by omega
      simpa [htwo] using h
    · simpa using hall 0 (by omega)
  · rintro ⟨⟨hs, hbytes, hall⟩, hhead⟩
    refine ⟨by simp; omega, by simp [hbytes], ?_⟩
    intro i hi
    cases i with
    | zero => simpa using hhead
    | succ i =>
      have htwo : 2 * (i + 1) = 2 * i + 1 + 1 := by omega
      simpa [htwo] using hall i (by omega)

theorem isKey_iff {n : ℕ} {s : List Char} {bytes : Bytes} :
    IsKey n s bytes ↔ s.length = 2 * n ∧ WellPaired s ∧ '+' ∉ s ∧ bytes = pairBytes s := by
  induction n generalizing s bytes with
  | zero =>
    unfold IsKey
    cases s with
    | nil => simp [WellPaired, pairBytes]
    | cons c s => simp
  | succ n ih =>
    match s, bytes with
    | [], _ => simp [IsKey]
    | [c], _ =>
      simp [IsKey]
      omega
    | a :: b :: s, [] => simp [IsKey, pairBytes]
    | a :: b :: s, v :: bytes =>
      rw [isKey_cons, ih]
      have hlen : (a :: b :: s).length = 2 * (n + 1) ↔ s.length = 2 * n := by
        simp
        omega
      rw [hlen]
      constructor
      · rintro ⟨⟨hs, hw, hplus, rfl⟩, x, y, ha, hb, hv⟩
        have hna : '+' ≠ a := by
          rintro rfl
          rw [toDigit_sign.1] at ha
          cases ha
        have hnb : '+' ≠ b := by
          rintro rfl
          rw [toDigit_sign.1] at hb
          cases hb
        have hval : pairValue a b = v.val := by
          rw [pairValue, if_neg (Ne.symm hna), ha, hb, hv]
          rfl
        refine ⟨hs, ⟨⟨.inr (by rw [ha]; rfl), by rw [hb]; rfl⟩, hw⟩, ?_, ?_⟩
        · simp [hna, hnb, hplus]
        · rw [pairBytes, hval]
          congr 1
          exact Fin.ext (Nat.mod_eq_of_lt v.isLt).symm
      · rintro ⟨hs, ⟨⟨ha, hb⟩, hw⟩, hplus, hbytes⟩
        simp only [List.mem_cons, not_or] at hplus
        obtain ⟨x, hx⟩ := Option.isSome_iff_exists.mp (ha.resolve_left (Ne.symm hplus.1))
        obtain ⟨y, hy⟩ := Option.isSome_iff_exists.mp hb
        rw [pairBytes, List.cons.injEq] at hbytes
        have hx16 := (toDigit_bounds hx).2
        have hy16 := (toDigit_bounds hy).2
        refine ⟨⟨hs, hw, hplus.2.2, hbytes.2⟩, x, y, hx, hy, ?_⟩
        rw [hbytes.1, pairValue, if_neg (Ne.symm hplus.1), hx, hy]
        exact Nat.mod_eq_of_lt (by simp only [Option.getD_some]; omega)

/-! ### The parser against its grammar -/

/-- The parser returns for a string, and returns a key exactly when it is 64
digits, if and only if the string is not 64 bytes long or is `Clean`. -/
theorem parsesKeys_iff (s : List Char) : ParsesKeys s ↔ (utf8Len s = 64 → Clean s) := by
  by_cases hlen : utf8Len s = 64
  · have hrounds : decodeHex32 s = decodeFrom 32 s := by
      rw [decodeHex32, if_neg (not_not.mpr hlen)]
      exact @decodeRounds_eq [] s 32 0 rfl
    have hsome := decodeFrom_some_iff (n := 32) hlen
    have herror := decodeFrom_error_iff (n := 32) hlen
    rw [← hrounds] at herror
    constructor
    · rintro ⟨⟨out, hout⟩, hexact⟩ -
      refine ⟨?_, ?_⟩
      · intro i hi hw
        by_contra hcut
        obtain ⟨f, hf⟩ := herror.mpr ⟨i, hi, hw, hcut⟩
        rw [hout] at hf
        cases hf
      · intro hw
        have hdec := (hsome (pairBytes s)).mpr ⟨hw, rfl⟩
        rw [← hrounds, hexact] at hdec
        exact (isKey_iff.mp hdec).2.2.1
    · intro hclean
      obtain ⟨hcuts, hsigns⟩ := hclean hlen
      refine ⟨?_, ?_⟩
      · cases hdec : decodeHex32 s with
        | ok out => exact ⟨out, rfl⟩
        | error f =>
          obtain ⟨i, hi, hw, hcut⟩ := herror.mp ⟨f, hdec⟩
          exact absurd (hcuts i hi hw) hcut
      · intro bytes
        rw [hrounds, hsome, isKey_iff]
        constructor
        · rintro ⟨hw, rfl⟩
          exact ⟨by rw [← hw.utf8Len, hlen], hw, hsigns hw, rfl⟩
        · rintro ⟨-, hw, -, rfl⟩
          exact ⟨hw, rfl⟩
  · have hnone : decodeHex32 s = .ok none := if_pos hlen
    refine iff_of_true ⟨⟨none, hnone⟩, ?_⟩ (fun h => absurd h hlen)
    intro bytes
    rw [hnone, isKey_iff]
    refine iff_of_false (by simp) ?_
    rintro ⟨hs, hw, -⟩
    exact hlen (hw.utf8Len.trans hs)

-- a cut inside the two-byte character at byte 1, and a sign in front of a digit
theorem parser_panics_or_takes_sign :
    decodeHex32 ('a' :: 'é' :: List.replicate 61 '0') = .error (.panicked boundaryMsg) ∧
      decodeHex32 ('+' :: List.replicate 63 '0') = .ok (some (zeros 32)) := by
  decide +kernel

end PaddockKV.Server
