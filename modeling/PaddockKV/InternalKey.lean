import PaddockKV.Basic

/-!
# Records and the internal-key order

A record is a user key with a sequence number, an operation and a value. The
memtable (`memtable/skiplist.rs`), the SSTables (`sstable/block.rs`) and the
merger (`compaction/merger.rs`) all order records by user key ascending and
sequence number descending.
-/

namespace PaddockKV

/-- `OpType` of the memtable and `RecordOp` of the SSTables share one coding. -/
inductive RecordOp where
  | put
  | tombstone
  deriving Repr, DecidableEq

abbrev OpType := RecordOp

def RecordOp.toByte : RecordOp → Byte
  | .put => 0
  | .tombstone => 1

def RecordOp.fromByte (b : Byte) : Option RecordOp :=
  if b = 0 then some .put else if b = 1 then some .tombstone else none

@[simp] theorem RecordOp.fromByte_toByte (op : RecordOp) : fromByte op.toByte = some op := by
  cases op <;> rfl

structure Rec where
  key : Key
  seqno : ℕ
  op : RecordOp
  value : Value
  deriving Repr, DecidableEq

/-- `Ord::cmp` of byte slices: the first differing byte decides, then the length. -/
def cmpKey : Key → Key → Ordering
  | [], [] => .eq
  | [], _ :: _ => .lt
  | _ :: _, [] => .gt
  | a :: as, b :: bs => if a < b then .lt else if b < a then .gt else cmpKey as bs

theorem cmpKey_spec (a b : Key) :
    (a < b ∧ cmpKey a b = .lt) ∨ (a = b ∧ cmpKey a b = .eq) ∨ (b < a ∧ cmpKey a b = .gt) := by
  induction a generalizing b with
  | nil => cases b <;> simp [cmpKey]
  | cons x as ih =>
    cases b with
    | nil => simp [cmpKey]
    | cons y bs =>
      rcases lt_trichotomy x y with h | rfl | h
      · simp [cmpKey, h, List.cons_lt_cons_iff]
      · simpa [cmpKey, List.cons_lt_cons_iff] using ih bs
      · simp [cmpKey, h, h.not_gt, List.cons_lt_cons_iff]

theorem cmpKey_lt_iff (a b : Key) : cmpKey a b = .lt ↔ a < b := by
  rcases cmpKey_spec a b with ⟨h, hc⟩ | ⟨rfl, hc⟩ | ⟨h, hc⟩
  · simp [hc, h]
  · simp [hc]
  · simp [hc, h.not_gt]

theorem cmpKey_eq_iff (a b : Key) : cmpKey a b = .eq ↔ a = b := by
  rcases cmpKey_spec a b with ⟨h, hc⟩ | ⟨rfl, hc⟩ | ⟨h, hc⟩
  · simp [hc, h.ne]
  · simp [hc]
  · simp [hc, h.ne']

/-- `compare_internal_key`: user key ascending, sequence number descending. -/
def compareInternalKey (leftKey : Key) (leftSeqno : ℕ) (rightKey : Key) (rightSeqno : ℕ) :
    Ordering :=
  match cmpKey leftKey rightKey with
  | .eq => compare rightSeqno leftSeqno
  | other => other

/-- The strict order that `compareInternalKey` decides. -/
def KeyBefore (leftKey : Key) (leftSeqno : ℕ) (rightKey : Key) (rightSeqno : ℕ) : Prop :=
  leftKey < rightKey ∨ leftKey = rightKey ∧ rightSeqno < leftSeqno

instance (k₁ : Key) (s₁ : ℕ) (k₂ : Key) (s₂ : ℕ) : Decidable (KeyBefore k₁ s₁ k₂ s₂) :=
  inferInstanceAs (Decidable (_ ∨ _))

theorem compareInternalKey_lt_iff (k₁ : Key) (s₁ : ℕ) (k₂ : Key) (s₂ : ℕ) :
    compareInternalKey k₁ s₁ k₂ s₂ = .lt ↔ KeyBefore k₁ s₁ k₂ s₂ := by
  unfold compareInternalKey KeyBefore
  rcases cmpKey_spec k₁ k₂ with ⟨h, hc⟩ | ⟨rfl, hc⟩ | ⟨h, hc⟩
  · simp [hc, h]
  · simp [hc, compare_lt_iff_lt]
  · simp [hc, h.not_gt, h.ne']

section KeyBefore

variable {k₁ k₂ k₃ : Key} {s₁ s₂ s₃ : ℕ}

theorem KeyBefore.trans (h : KeyBefore k₁ s₁ k₂ s₂) (h' : KeyBefore k₂ s₂ k₃ s₃) :
    KeyBefore k₁ s₁ k₃ s₃ := by
  rcases h with h | ⟨rfl, h⟩
  · rcases h' with h' | ⟨rfl, -⟩
    · exact .inl (h.trans h')
    · exact .inl h
  · rcases h' with h' | ⟨rfl, h'⟩
    · exact .inl h'
    · exact .inr ⟨rfl, h'.trans h⟩

theorem KeyBefore.irrefl (k : Key) (s : ℕ) : ¬ KeyBefore k s k s := by
  simp [KeyBefore]

theorem KeyBefore.not_match (h : KeyBefore k₁ s₁ k₂ s₂) : ¬ (k₁ = k₂ ∧ s₁ ≤ s₂) := by
  rintro ⟨rfl, hs⟩
  rcases h with h | ⟨-, h⟩
  · exact h.ne rfl
  · omega

theorem visible_or_lt_of_not_before (h : ¬ KeyBefore k₁ s₁ k₂ s₂) :
    (k₁ = k₂ ∧ s₁ ≤ s₂) ∨ k₂ < k₁ := by
  unfold KeyBefore at h
  push Not at h
  rcases h.1.eq_or_lt with h' | h'
  · exact .inl ⟨h'.symm, h.2 h'.symm⟩
  · exact .inr h'

end KeyBefore

end PaddockKV
