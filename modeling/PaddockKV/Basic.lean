import Mathlib.Data.List.Lex
import Mathlib.Tactic
import PaddockKV.Lib.Ends

/-!
# Bytes, little-endian words and the engine's failures (`error.rs`)

Byte strings are lists of `Fin 256`. `Vec<u8>` and `&[u8]` compare
lexicographically in the source, which is the order `Mathlib` puts on lists.
Machine words are natural numbers; `leBytes` is `to_le_bytes` and takes its
value modulo `256 ^ n`, `leVal` is `from_le_bytes`.

A fallible function of the source returns `Result<T, Error>`; a failed
`expect`, `assert!` or checked addition unwinds instead. Both ends of a call
are a `Fault` here, and only `Fault.err` is an `Err` of the source.
-/

namespace PaddockKV

abbrev Byte := Fin 256

instance byteSize_neZero : NeZero 256 := ⟨by decide⟩

abbrev Bytes := List Byte
abbrev Key := Bytes
abbrev Value := Bytes

/-- `u64::MAX + 1` and `u32::MAX + 1`. -/
def u64Size : ℕ := 2 ^ 64
def u32Size : ℕ := 2 ^ 32

/-! ### Failures -/

/-- `DecodeError`. -/
inductive DecodeError where
  | unexpectedEof (needed : ℕ)
  | varintOverflow (maxBytes : ℕ)
  | nonCanonicalVarint
  deriving Repr, DecidableEq

/-- The `io::ErrorKind`s the VFS layer raises. -/
inductive IoKind where
  | notFound
  | unexpectedEof
  | invalidInput
  | other
  deriving Repr, DecidableEq

/-- `Error`, with the context and reason texts of the source. -/
inductive Error where
  | io (kind : IoKind) (msg : String)
  | decode (e : DecodeError)
  | checksumMismatch (context : String) (expected found : ℕ)
  | invalidFormat (context reason : String)
  | corruption (context reason : String)
  deriving Repr, DecidableEq

inductive Fault where
  | err (e : Error)
  | panicked (msg : String)
  deriving Repr, DecidableEq

def Panicked (f : Fault) : Prop := ∃ msg, f = .panicked msg

/-- Pure fallible code. -/
abbrev Res (α : Type) := Except Fault α

/-- Fallible code over a state. The state a failing call leaves behind is
kept, since a `?` in the source returns with the changes made so far. -/
abbrev Act (σ α : Type) := EStateM Fault σ α

def Act.fail {σ α : Type} (e : Error) : Act σ α := throw (.err e)
def Act.panic {σ α : Type} (msg : String) : Act σ α := throw (.panicked msg)

/-- A pure result inside stateful code. -/
def Act.lift {σ α : Type} : Res α → Act σ α
  | .ok a => pure a
  | .error f => throw f

/-- A call on a part of the state. -/
def Act.zoom {σ τ α : Type} (view : σ → τ) (put : τ → σ → σ) (x : Act τ α) : Act σ α := fun s =>
  match x (view s) with
  | .ok a t => .ok a (put t s)
  | .error f t => .error f (put t s)

/-- A call whose `Err` is replaced by `a` (`unwrap_or_default`, or `let _ =`). -/
def Act.orDefault {σ α : Type} (x : Act σ α) (a : α) : Act σ α := fun s =>
  match x s with
  | .error (.err _) t => .ok a t
  | r => r

/-- `u32::try_from(n).expect(msg)`. -/
def expectU32 (n : ℕ) (msg : String) : Res ℕ :=
  if n < u32Size then .ok n else .error (.panicked msg)

/-- `u64` addition that unwinds on overflow: `checked_add(..).expect(msg)`, or a
plain sum under the overflow checks of the development profile. -/
def addU64 {σ : Type} (a b : ℕ) (msg : String) : Act σ ℕ :=
  if a + b < u64Size then pure (a + b) else Act.panic msg

def overflowMsg : String := "attempt to add with overflow"

/-- `debug_assert!(p, msg)`, which the development profile checks. -/
def debugAssert {σ : Type} (p : Prop) [Decidable p] (msg : String) : Act σ Unit :=
  if p then pure () else Act.panic msg

section Outcomes
variable {σ α β : Type}

@[simp] theorem act_pure (a : α) (s : σ) : (pure a : Act σ α) s = .ok a s := rfl

@[simp] theorem act_get (s : σ) : (get : Act σ σ) s = .ok s s := rfl
@[simp] theorem act_set (t s : σ) : (set t : Act σ PUnit) s = .ok ⟨⟩ t := rfl
@[simp] theorem act_modify (f : σ → σ) (s : σ) : (modify f : Act σ PUnit) s = .ok ⟨⟩ (f s) := rfl
@[simp] theorem act_throw (e : Fault) (s : σ) : (throw e : Act σ α) s = .error e s := rfl
@[simp] theorem act_lift_ok (a : α) (s : σ) : (Act.lift (.ok a) : Act σ α) s = .ok a s := rfl
@[simp] theorem act_lift_error (e : Fault) (s : σ) :
    (Act.lift (.error e) : Act σ α) s = .error e s := rfl

theorem act_bind (x : Act σ α) (f : α → Act σ β) (s : σ) :
    (x >>= f) s = match x s with
      | .ok a s' => f a s'
      | .error e s' => .error e s' := by
  show EStateM.bind x f s = _
  unfold EStateM.bind
  cases x s <;> rfl

theorem act_map (f : α → β) (x : Act σ α) (s : σ) :
    (f <$> x) s = match x s with
      | .ok a s' => .ok (f a) s'
      | .error e s' => .error e s' := by
  show EStateM.map f x s = _
  unfold EStateM.map
  cases x s <;> rfl

theorem act_bind_ok {x : Act σ α} {f : α → Act σ β} {s s' : σ} {a : α}
    (h : x s = .ok a s') : (x >>= f) s = f a s' := by
  rw [act_bind, h]

theorem act_bind_error {x : Act σ α} {f : α → Act σ β} {s s' : σ} {e : Fault}
    (h : x s = .error e s') : (x >>= f) s = .error e s' := by
  rw [act_bind, h]

theorem res_ok_bind (a : α) (f : α → Res β) : ((.ok a : Res α) >>= f) = f a := rfl

theorem act_lift_ok_bind (a : α) (f : α → Act σ β) : (Act.lift (.ok a) >>= f) = f a := rfl

theorem act_zoom_ok {τ : Type} {view : σ → τ} {put : τ → σ → σ} {x : Act τ α} {s : σ} {a : α}
    {t : τ} (h : x (view s) = .ok a t) : Act.zoom view put x s = .ok a (put t s) := by
  simp only [Act.zoom, h]

theorem Ends.zoom {τ : Type} {view : σ → τ} {put : τ → σ → σ} {x : Act τ α} {s : σ}
    {P : α → τ → Prop} {Q : Fault → τ → Prop} (h : Ends x (view s) P Q) :
    Ends (Act.zoom view put x) s (fun a s' => ∃ t, s' = put t s ∧ P a t)
      fun f s' => ∃ t, s' = put t s ∧ Q f t := by
  unfold Ends Act.zoom at *
  cases hx : x (view s) with
  | ok a t =>
    rw [hx] at h
    exact ⟨t, rfl, h⟩
  | error f t =>
    rw [hx] at h
    exact ⟨t, rfl, h⟩

theorem Ends.orDefault {x : Act σ α} {a : α} {s : σ} {P P' : α → σ → Prop}
    {Q Q' : Fault → σ → Prop} (h : Ends x s P Q) (hP : ∀ b t, P b t → P' b t)
    (herr : ∀ e t, Q (.err e) t → P' a t) (hpanic : ∀ msg t, Q (.panicked msg) t → Q' (.panicked msg) t) :
    Ends (x.orDefault a) s P' Q' := by
  unfold Ends Act.orDefault at *
  cases hx : x s with
  | ok b t =>
    rw [hx] at h
    exact hP b t h
  | error f t =>
    rw [hx] at h
    cases f with
    | err e => exact herr e t h
    | panicked msg => exact hpanic msg t h

theorem act_bind_eq_ok {x : Act σ α} {f : α → Act σ β} {s t : σ} {b : β} :
    (x >>= f) s = .ok b t ↔ ∃ a s', x s = .ok a s' ∧ f a s' = .ok b t := by
  rw [act_bind]
  cases h : x s with
  | ok a s' => simp
  | error e s' => simp

theorem act_lift_eq_ok {x : Res α} {a : α} {s t : σ} :
    (Act.lift x : Act σ α) s = .ok a t ↔ x = .ok a ∧ t = s := by
  cases x with
  | ok b =>
    simp only [act_lift_ok, EStateM.Result.ok.injEq, Except.ok.injEq]
    exact and_congr_right fun _ => eq_comm
  | error e => simp

theorem res_bind_eq_ok {x : Res α} {f : α → Res β} {b : β} :
    (x >>= f) = .ok b ↔ ∃ a, x = .ok a ∧ f a = .ok b := by
  cases x with
  | ok a => simp [bind, Except.bind]
  | error e => simp [bind, Except.bind]

@[simp] theorem expectU32_ok {n : ℕ} {msg : String} {m : ℕ} :
    expectU32 n msg = .ok m ↔ n < u32Size ∧ n = m := by
  unfold expectU32
  split
  · rename_i h
    simp [h]
  · rename_i h
    simp [h]

theorem expectU32_error {n : ℕ} {msg : String} {f : Fault} (h : expectU32 n msg = .error f) :
    f = .panicked msg := by
  unfold expectU32 at h
  split at h
  · cases h
  · cases h
    rfl

theorem mem_of_mapM {α β : Type} {f : α → Res β} {xs : List α} {ys : List β}
    (h : xs.mapM f = .ok ys) {y : β} (hy : y ∈ ys) : ∃ x ∈ xs, f x = .ok y := by
  induction xs generalizing ys with
  | nil =>
    cases h
    cases hy
  | cons x xs ih =>
    rw [List.mapM_cons] at h
    obtain ⟨y', hx, h⟩ := res_bind_eq_ok.mp h
    obtain ⟨ys', hxs, h⟩ := res_bind_eq_ok.mp h
    cases h
    rcases List.mem_cons.mp hy with rfl | hy
    · exact ⟨x, List.mem_cons_self, hx⟩
    · obtain ⟨z, hz, hfz⟩ := ih hxs hy
      exact ⟨z, List.mem_cons_of_mem x hz, hfz⟩

theorem res_bind_eq_error {x : Res α} {g : α → Res β} {f : Fault}
    (h : (x >>= g) = .error f) : x = .error f ∨ ∃ a, x = .ok a ∧ g a = .error f := by
  cases x with
  | ok a => exact .inr ⟨a, rfl, h⟩
  | error e =>
    cases h
    exact .inl rfl

@[simp] theorem addU64_ok {a b : ℕ} {msg : String} {s t : σ} {m : ℕ} :
    (addU64 a b msg : Act σ ℕ) s = .ok m t ↔ a + b < u64Size ∧ m = a + b ∧ t = s := by
  unfold addU64
  split
  · rename_i h
    simp only [act_pure, EStateM.Result.ok.injEq, h, true_and]
    exact ⟨fun ⟨a, b⟩ => ⟨a.symm, b.symm⟩, fun ⟨a, b⟩ => ⟨a.symm, b.symm⟩⟩
  · rename_i h
    simp [h, Act.panic]

theorem Ends.addU64_bind {a b : ℕ} {msg : String} {f : ℕ → Act σ β} {s : σ} {R : β → σ → Prop}
    {Q : Fault → σ → Prop} (hok : a + b < u64Size → Ends (f (a + b)) s R Q)
    (hover : u64Size ≤ a + b → Q (.panicked msg) s) : Ends (addU64 a b msg >>= f) s R Q := by
  unfold addU64
  split
  · rename_i h
    exact Ends.ret_bind (hok h)
  · rename_i h
    exact Ends.fail_bind (hover (not_lt.mp h))

@[simp] theorem debugAssert_ok {p : Prop} [Decidable p] {msg : String} {s t : σ} :
    (debugAssert p msg : Act σ Unit) s = .ok () t ↔ p ∧ t = s := by
  unfold debugAssert
  split
  · rename_i h
    simp only [act_pure, EStateM.Result.ok.injEq, h, true_and]
    exact eq_comm
  · rename_i h
    simp [h, Act.panic]

theorem Ends.debugAssert_bind {p : Prop} [Decidable p] {msg : String} {f : Unit → Act σ β} {s : σ}
    {R : β → σ → Prop} {Q : Fault → σ → Prop} (hok : p → Ends (f ()) s R Q)
    (hno : ¬ p → Q (.panicked msg) s) : Ends (debugAssert p msg >>= f) s R Q := by
  unfold debugAssert
  split
  · rename_i h
    exact Ends.ret_bind (hok h)
  · rename_i h
    exact Ends.fail_bind (hno h)

theorem Ends.lift_bind {x : Res α} {f : α → Act σ β} {s : σ} {R : β → σ → Prop}
    {Q : Fault → σ → Prop} (hok : ∀ a, x = .ok a → Ends (f a) s R Q)
    (herr : ∀ e, x = .error e → Q e s) : Ends (Act.lift x >>= f) s R Q := by
  cases x with
  | ok a => exact Ends.ret_bind (hok a rfl)
  | error e => exact Ends.fail_bind (herr e rfl)

theorem Keeps.lift {I : σ → Prop} {Q : Fault → σ → Prop} {x : Res α}
    (hx : ∀ e, x = .error e → ∀ s, I s → Q e s) : Keeps I Q (Act.lift x : Act σ α) := by
  cases x with
  | ok a => exact Keeps.ret a
  | error e => exact Keeps.fail (hx e rfl)

theorem Keeps.addU64 {I : σ → Prop} {Q : Fault → σ → Prop} {a b : ℕ} {msg : String}
    (h : ∀ s, I s → Q (.panicked msg) s) : Keeps I Q (PaddockKV.addU64 a b msg : Act σ ℕ) := by
  unfold PaddockKV.addU64
  split
  · exact Keeps.ret _
  · exact Keeps.fail h

theorem Keeps.zoom {τ : Type} {I : σ → Prop} {J : τ → Prop} {Q : Fault → σ → Prop}
    {R : Fault → τ → Prop} {view : σ → τ} {put : τ → σ → σ} {x : Act τ α} (hx : Keeps J R x)
    (hview : ∀ s, I s → J (view s)) (hput : ∀ s t, I s → J t → I (put t s))
    (hfail : ∀ s t f, I s → R f t → Q f (put t s)) : Keeps I Q (Act.zoom view put x) := by
  intro s hs
  refine Ends.mono (Ends.zoom (hx (view s) (hview s hs))) ?_ ?_
  · rintro _ _ ⟨t, rfl, ht⟩
    exact hput s t hs ht
  · rintro f _ ⟨t, rfl, ht⟩
    exact hfail s t f hs ht

theorem Ends.expectU32_bind {n : ℕ} {msg : String} {f : ℕ → Act σ β} {s : σ} {R : β → σ → Prop}
    {Q : Fault → σ → Prop} (hok : n < u32Size → Ends (f n) s R Q)
    (hover : u32Size ≤ n → Q (.panicked msg) s) :
    Ends (Act.lift (expectU32 n msg) >>= f) s R Q := by
  unfold expectU32
  split
  · rename_i h
    exact Ends.ret_bind (hok h)
  · rename_i h
    exact Ends.fail_bind (hover (not_lt.mp h))

end Outcomes

/-! ### Little-endian words -/

/-- The `n` little-endian bytes of `v`. -/
def leBytes : ℕ → ℕ → Bytes
  | 0, _ => []
  | n + 1, v => Fin.ofNat 256 v :: leBytes n (v / 256)

/-- The value of a little-endian byte string. -/
def leVal : Bytes → ℕ
  | [] => 0
  | b :: bs => b.val + 256 * leVal bs

@[simp] theorem leBytes_length (n v : ℕ) : (leBytes n v).length = n := by
  induction n generalizing v with
  | zero => rfl
  | succ n ih => simp [leBytes, ih]

theorem leVal_lt (bs : Bytes) : leVal bs < 256 ^ bs.length := by
  induction bs with
  | nil => decide
  | cons b bs ih =>
    have := b.isLt
    rw [leVal, List.length_cons, Nat.pow_succ]
    omega

theorem leVal_leBytes (n v : ℕ) : leVal (leBytes n v) = v % 256 ^ n := by
  induction n generalizing v with
  | zero => simp [leBytes, leVal, Nat.mod_one]
  | succ n ih =>
    simp only [leBytes, leVal, ih, Fin.val_ofNat]
    rw [Nat.pow_succ', Nat.mod_mul]

theorem leVal_leBytes_of_lt {n v : ℕ} (h : v < 256 ^ n) : leVal (leBytes n v) = v := by
  rw [leVal_leBytes, Nat.mod_eq_of_lt h]

theorem leBytes_leVal (bs : Bytes) : leBytes bs.length (leVal bs) = bs := by
  induction bs with
  | nil => rfl
  | cons b bs ih =>
    have hb := b.isLt
    have hdiv : (b.val + 256 * leVal bs) / 256 = leVal bs := by omega
    have hmod : Fin.ofNat 256 (b.val + 256 * leVal bs) = b := by
      apply Fin.ext
      rw [Fin.val_ofNat]
      omega
    rw [List.length_cons, leVal, leBytes, hdiv, hmod, ih]

theorem leVal_u32 {v : ℕ} (h : v < u32Size) : leVal (leBytes 4 v) = v :=
  leVal_leBytes_of_lt (by simpa [u32Size] using h)

theorem leVal_u64 {v : ℕ} (h : v < u64Size) : leVal (leBytes 8 v) = v :=
  leVal_leBytes_of_lt (by simpa [u64Size] using h)

theorem leVal_testBit (bytes : Bytes) (i : ℕ) :
    (leVal bytes).testBit i = (bytes.getD (i / 8) 0).val.testBit (i % 8) := by
  induction bytes generalizing i with
  | nil => simp [leVal]
  | cons b bytes ih =>
    have hval : leVal (b :: bytes) = 2 ^ 8 * leVal bytes + b.val := by
      rw [leVal]
      omega
    rw [hval, Nat.testBit_two_pow_mul_add _ b.isLt]
    split
    · rename_i hi
      rw [Nat.div_eq_of_lt hi, Nat.mod_eq_of_lt hi, List.getD_cons_zero]
    · rename_i hi
      have hdiv : i / 8 = (i - 8) / 8 + 1 := by omega
      have hmod : i % 8 = (i - 8) % 8 := by omega
      rw [ih, hdiv, hmod, List.getD_cons_succ]

/-! ### Packed words -/

/-- Little-endian words of given widths, one after the other (a `repr(C, packed)`
struct of them). -/
def packWords (words : List (ℕ × ℕ)) : Bytes := words.flatMap fun w => leBytes w.1 w.2

def readWords : List ℕ → Bytes → List ℕ
  | [], _ => []
  | w :: ws, b => leVal (b.take w) :: readWords ws (b.drop w)

theorem packWords_length (words : List (ℕ × ℕ)) :
    (packWords words).length = (words.map Prod.fst).sum := by
  induction words with
  | nil => rfl
  | cons w words ih =>
    show (leBytes w.1 w.2 ++ packWords words).length = _
    rw [List.length_append, leBytes_length, ih, List.map_cons, List.sum_cons]

theorem packWords_append (ws ws' : List (ℕ × ℕ)) :
    packWords (ws ++ ws') = packWords ws ++ packWords ws' := List.flatMap_append

theorem readWords_packWords {words : List (ℕ × ℕ)} (h : ∀ w ∈ words, w.2 < 256 ^ w.1)
    (rest : Bytes) : readWords (words.map Prod.fst) (packWords words ++ rest) =
      words.map Prod.snd := by
  induction words with
  | nil => rfl
  | cons w words ih =>
    have hcons : packWords (w :: words) ++ rest = leBytes w.1 w.2 ++ (packWords words ++ rest) := by
      rw [← List.append_assoc]
      rfl
    rw [List.map_cons, readWords, hcons, List.take_left' (leBytes_length _ _),
      List.drop_left' (leBytes_length _ _), leVal_leBytes_of_lt (h w List.mem_cons_self),
      ih fun x hx => h x (List.mem_cons_of_mem w hx), List.map_cons]

/-- A run of zero bytes (`vec![0u8; n]`). -/
def zeros (n : ℕ) : Bytes := List.replicate n 0

@[simp] theorem zeros_length (n : ℕ) : (zeros n).length = n := by simp [zeros]

theorem zeros_add (m n : ℕ) : zeros (m + n) = zeros m ++ zeros n := by
  simp [zeros]

theorem zeros_prefix_zeros {m n : ℕ} (h : m ≤ n) : zeros m <+: zeros n := by
  obtain ⟨d, rfl⟩ := Nat.exists_eq_add_of_le h
  exact ⟨zeros d, (zeros_add m d).symm⟩

end PaddockKV
