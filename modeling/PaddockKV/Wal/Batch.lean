import PaddockKV.Encoding.Varint
import PaddockKV.Records

/-!
# Write batches (`wal/batch.rs`)

A batch is a list of operations. Its encoding is the number of operations and
then each operation: a tag byte, the key and, for a put, the value, each with
its length as a varint. The decoder bounds the number of operations; the
encoder does not.
-/

namespace PaddockKV.Wal

open Varint

inductive Op where
  | put (key : Key) (value : Value)
  | delete (key : Key)
  deriving Repr, DecidableEq

namespace Op

def key : Op → Key
  | put k _ => k
  | delete k => k

/-- The record `apply_batch_to_memtable` inserts for an operation. -/
def toRec (seqno : ℕ) : Op → Rec
  | put k v => ⟨k, seqno, .put, v⟩
  | delete k => ⟨k, seqno, .tombstone, []⟩

def Fits : Op → Prop
  | put k v => k.length < u32Size ∧ v.length < u32Size
  | delete k => k.length < u32Size

end Op

abbrev WriteBatch := List Op

/-- `MAX_OPS_PER_BATCH`. -/
def maxOpsPerBatch : ℕ := 2 ^ 20

def opPut : Byte := 0
def opDelete : Byte := 1

/-! ### Encoding -/

def encodeOp : Op → Res Bytes
  | .put key value => do
    let klen ← expectU32 key.length "key len fits in u32"
    let vlen ← expectU32 value.length "value len fits in u32"
    return opPut :: varint klen ++ key ++ (varint vlen ++ value)
  | .delete key => do
    let klen ← expectU32 key.length "key len fits in u32"
    return opDelete :: varint klen ++ key

def encodeOps : List Op → Res Bytes
  | [] => .ok []
  | op :: ops => do
    let bs ← encodeOp op
    let rest ← encodeOps ops
    return bs ++ rest

/-- `WriteBatch::encode`. -/
def encode (batch : WriteBatch) : Res Bytes := do
  let count ← expectU32 batch.length "op count never exceeds u32::MAX in any realistic batch"
  let ops ← encodeOps batch
  return varint count ++ ops

/-! ### Decoding -/

def take (bytes : Bytes) (n : ℕ) : Res (Bytes × Bytes) :=
  if bytes.length < n then .error (.err (.decode (.unexpectedEof (n - bytes.length))))
  else .ok (bytes.take n, bytes.drop n)

/-- A length-prefixed byte string: `decode_u32`, advance, `take`. -/
def takePrefixed (bytes : Bytes) : Res (Bytes × Bytes) := do
  let (len, c) ← decodeU32 bytes
  take (bytes.drop c) len

/-- The format `{:#04x}` of a byte. -/
def hexByte (b : Byte) : String :=
  let digits := Nat.toDigits 16 b.val
  "0x" ++ String.ofList (if digits.length < 2 then '0' :: digits else digits)

def decodeOp (bytes : Bytes) : Res (Op × Bytes) :=
  match bytes with
  | [] => .error (.err (.decode (.unexpectedEof 1)))
  | tag :: bytes =>
    if tag = opPut then do
      let (key, bytes) ← takePrefixed bytes
      let (value, bytes) ← takePrefixed bytes
      return (.put key value, bytes)
    else if tag = opDelete then do
      let (key, bytes) ← takePrefixed bytes
      return (.delete key, bytes)
    else
      .error (.err (.invalidFormat "WriteBatch" ("unknown op tag " ++ hexByte tag)))

def decodeOps : ℕ → Bytes → Res (List Op × Bytes)
  | 0, bytes => .ok ([], bytes)
  | n + 1, bytes => do
    let (op, bytes) ← decodeOp bytes
    let (ops, bytes) ← decodeOps n bytes
    return (op :: ops, bytes)

/-- `WriteBatch::decode`. -/
def decode (bytes : Bytes) : Res WriteBatch := do
  let (opCount, consumed) ← decodeU32 bytes
  if maxOpsPerBatch < opCount then
    .error (.err (.invalidFormat "WriteBatch"
      s!"op_count {opCount} exceeds limit {maxOpsPerBatch}"))
  else
    let (ops, rest) ← decodeOps opCount (bytes.drop consumed)
    if rest ≠ [] then
      .error (.err (.invalidFormat "WriteBatch" (toString rest.length ++ " trailing bytes after final op")))
    else return ops

/-! ### Round trip -/

theorem take_append (bs rest : Bytes) : take (bs ++ rest) bs.length = .ok (bs, rest) := by
  unfold take
  rw [if_neg (by simp)]
  simp

theorem takePrefixed_varint {bs : Bytes} (h : bs.length < u32Size) (rest : Bytes) :
    takePrefixed (varint bs.length ++ (bs ++ rest)) = .ok (bs, rest) := by
  unfold takePrefixed
  rw [decodeU32_varint h]
  show take ((varint bs.length ++ (bs ++ rest)).drop (varint bs.length).length) bs.length = _
  rw [List.drop_left]
  exact take_append bs rest

theorem encodeOp_put {k : Key} {v : Value} {bs : Bytes} (h : encodeOp (.put k v) = .ok bs) :
    (k.length < u32Size ∧ v.length < u32Size) ∧
      bs = opPut :: (varint k.length ++ (k ++ (varint v.length ++ v))) := by
  simp only [encodeOp, res_bind_eq_ok, expectU32_ok] at h
  obtain ⟨_, ⟨hk, rfl⟩, _, ⟨hv, rfl⟩, h⟩ := h
  cases h
  exact ⟨⟨hk, hv⟩, by simp⟩

theorem encodeOp_delete {k : Key} {bs : Bytes} (h : encodeOp (.delete k) = .ok bs) :
    k.length < u32Size ∧ bs = opDelete :: (varint k.length ++ k) := by
  simp only [encodeOp, res_bind_eq_ok, expectU32_ok] at h
  obtain ⟨_, ⟨hk, rfl⟩, h⟩ := h
  cases h
  exact ⟨hk, rfl⟩

theorem encodeOp_fits {op : Op} {bs : Bytes} (h : encodeOp op = .ok bs) : op.Fits := by
  cases op with
  | put k v => exact (encodeOp_put h).1
  | delete k => exact (encodeOp_delete h).1

theorem decodeOp_encodeOp {op : Op} {bs : Bytes} (h : encodeOp op = .ok bs) (rest : Bytes) :
    decodeOp (bs ++ rest) = .ok (op, rest) := by
  cases op with
  | put k v =>
    obtain ⟨⟨hk, hv⟩, hbs⟩ := encodeOp_put h
    subst hbs
    simp only [List.cons_append, List.append_assoc, decodeOp, if_true]
    rw [takePrefixed_varint hk]
    show (takePrefixed (varint v.length ++ (v ++ rest)) >>= fun x => _) = _
    rw [takePrefixed_varint hv]
    rfl
  | delete k =>
    obtain ⟨hk, hbs⟩ := encodeOp_delete h
    subst hbs
    have hne : opDelete ≠ opPut := by decide
    simp only [List.cons_append, List.append_assoc, decodeOp, if_neg hne, if_true]
    rw [takePrefixed_varint hk]
    rfl

theorem encodeOps_cons {op : Op} {ops : List Op} {bs : Bytes} (h : encodeOps (op :: ops) = .ok bs) :
    ∃ b₁ b₂, encodeOp op = .ok b₁ ∧ encodeOps ops = .ok b₂ ∧ bs = b₁ ++ b₂ := by
  simp only [encodeOps, res_bind_eq_ok] at h
  obtain ⟨b₁, h₁, b₂, h₂, h⟩ := h
  cases h
  exact ⟨b₁, b₂, h₁, h₂, rfl⟩

theorem decodeOps_encodeOps {ops : List Op} {bs : Bytes} (h : encodeOps ops = .ok bs)
    (rest : Bytes) : decodeOps ops.length (bs ++ rest) = .ok (ops, rest) := by
  induction ops generalizing bs with
  | nil =>
    cases h
    rfl
  | cons op ops ih =>
    obtain ⟨b₁, b₂, h₁, h₂, rfl⟩ := encodeOps_cons h
    simp only [List.length_cons, decodeOps, List.append_assoc]
    rw [decodeOp_encodeOp h₁]
    show (decodeOps ops.length (b₂ ++ rest) >>= fun x => _) = _
    rw [ih h₂]
    rfl

theorem encodeOps_fits {ops : List Op} {bs : Bytes} (h : encodeOps ops = .ok bs) :
    ∀ op ∈ ops, op.Fits := by
  induction ops generalizing bs with
  | nil => simp
  | cons op ops ih =>
    obtain ⟨b₁, b₂, h₁, h₂, -⟩ := encodeOps_cons h
    intro x hx
    rcases List.mem_cons.mp hx with rfl | hx
    · exact encodeOp_fits h₁
    · exact ih h₂ x hx

theorem encode_ok {batch : WriteBatch} {bs : Bytes} (h : encode batch = .ok bs) :
    batch.length < u32Size ∧ ∃ ops, encodeOps batch = .ok ops ∧ bs = varint batch.length ++ ops := by
  simp only [encode, res_bind_eq_ok, expectU32_ok] at h
  obtain ⟨_, ⟨hlen, rfl⟩, ops, hops, h⟩ := h
  cases h
  exact ⟨hlen, ops, hops, rfl⟩

theorem encode_fits {batch : WriteBatch} {bs : Bytes} (h : encode batch = .ok bs) :
    ∀ op ∈ batch, op.Fits := by
  obtain ⟨-, ops, hops, -⟩ := encode_ok h
  exact encodeOps_fits hops

theorem encodeOp_error {op : Op} {f : Fault} (h : encodeOp op = .error f) :
    ∃ msg, f = .panicked msg := by
  cases op with
  | put key value =>
    rcases res_bind_eq_error h with h | ⟨_, -, h⟩
    · exact ⟨_, expectU32_error h⟩
    · rcases res_bind_eq_error h with h | ⟨_, -, h⟩
      · exact ⟨_, expectU32_error h⟩
      · cases h
  | delete key =>
    rcases res_bind_eq_error h with h | ⟨_, -, h⟩
    · exact ⟨_, expectU32_error h⟩
    · cases h

theorem encodeOps_error {ops : List Op} {f : Fault} (h : encodeOps ops = .error f) :
    ∃ msg, f = .panicked msg := by
  induction ops with
  | nil => cases h
  | cons op ops ih =>
    rcases res_bind_eq_error h with h | ⟨_, -, h⟩
    · exact encodeOp_error h
    · rcases res_bind_eq_error h with h | ⟨_, -, h⟩
      · exact ih h
      · cases h

theorem encode_error {batch : WriteBatch} {f : Fault} (h : encode batch = .error f) :
    ∃ msg, f = .panicked msg := by
  rcases res_bind_eq_error h with h | ⟨_, -, h⟩
  · exact ⟨_, expectU32_error h⟩
  · rcases res_bind_eq_error h with h | ⟨_, -, h⟩
    · exact encodeOps_error h
    · cases h

theorem decode_encode {batch : WriteBatch} {bs : Bytes} (h : encode batch = .ok bs)
    (hmax : batch.length ≤ maxOpsPerBatch) : decode bs = .ok batch := by
  obtain ⟨hlen, ops, hops, rfl⟩ := encode_ok h
  have hdec := decodeOps_encodeOps hops []
  rw [List.append_nil] at hdec
  unfold decode
  rw [decodeU32_varint hlen]
  show (if maxOpsPerBatch < batch.length then _ else
    decodeOps batch.length ((varint batch.length ++ ops).drop (varint batch.length).length) >>=
      fun x => _) = _
  rw [if_neg (by omega), List.drop_left, hdec]
  rfl

/-! ### What is decoded fits -/

theorem takePrefixed_length {bytes bs rest : Bytes} (h : takePrefixed bytes = .ok (bs, rest)) :
    bs.length < u32Size := by
  unfold takePrefixed at h
  obtain ⟨⟨len, c⟩, hdec, h⟩ := res_bind_eq_ok.mp h
  dsimp only [take] at h
  split at h
  · cases h
  · cases h
    rw [List.length_take]
    exact (Nat.min_le_left _ _).trans_lt (decodeU32_lt hdec)

theorem decodeOp_fits {bytes rest : Bytes} {op : Op} (h : decodeOp bytes = .ok (op, rest)) :
    op.Fits := by
  cases bytes with
  | nil => cases h
  | cons tag bytes =>
    rw [decodeOp] at h
    split at h
    · obtain ⟨⟨key, b₁⟩, hkey, h⟩ := res_bind_eq_ok.mp h
      obtain ⟨⟨value, b₂⟩, hvalue, h⟩ := res_bind_eq_ok.mp h
      cases h
      exact ⟨takePrefixed_length hkey, takePrefixed_length hvalue⟩
    · split at h
      · obtain ⟨⟨key, b₁⟩, hkey, h⟩ := res_bind_eq_ok.mp h
        cases h
        exact takePrefixed_length hkey
      · cases h

theorem decodeOps_fits {n : ℕ} {bytes rest : Bytes} {ops : List Op}
    (h : decodeOps n bytes = .ok (ops, rest)) : ∀ op ∈ ops, op.Fits := by
  induction n generalizing bytes ops with
  | zero =>
    cases h
    simp
  | succ n ih =>
    rw [decodeOps] at h
    obtain ⟨⟨op, b₁⟩, hop, h⟩ := res_bind_eq_ok.mp h
    obtain ⟨⟨ops', b₂⟩, hops, h⟩ := res_bind_eq_ok.mp h
    cases h
    intro x hx
    rcases List.mem_cons.mp hx with rfl | hx
    · exact decodeOp_fits hop
    · exact ih hops x hx

theorem decode_fits {bytes : Bytes} {batch : WriteBatch} (h : decode bytes = .ok batch) :
    ∀ op ∈ batch, op.Fits := by
  unfold decode at h
  obtain ⟨⟨n, c⟩, -, h⟩ := res_bind_eq_ok.mp h
  dsimp only at h
  split at h
  · cases h
  · obtain ⟨⟨ops, rest⟩, hops, h⟩ := res_bind_eq_ok.mp h
    dsimp only at h
    split at h
    · cases h
    · cases h
      exact decodeOps_fits hops

theorem decode_encode_long {batch : WriteBatch} {bs : Bytes} (h : encode batch = .ok bs)
    (hmax : maxOpsPerBatch < batch.length) : ∃ e, decode bs = .error (.err e) := by
  obtain ⟨hlen, ops, hops, rfl⟩ := encode_ok h
  unfold decode
  rw [decodeU32_varint hlen]
  show ∃ e, (if maxOpsPerBatch < batch.length then _ else
    decodeOps batch.length ((varint batch.length ++ ops).drop (varint batch.length).length) >>=
      fun x => _) = _
  rw [if_pos hmax]
  exact ⟨_, rfl⟩

end PaddockKV.Wal
