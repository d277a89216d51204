import PaddockKV.Wal.Batch

/-!
# The wire format of a batch is unambiguous

Every decoder of `wal/batch.rs` uses up a part of its input that decides the
result, whatever comes after it, and that is no shorter than what the encoder
writes. The length of a varint is the one place where it may be longer: the
decoder also takes encodings that are not minimal.
-/

namespace PaddockKV.Wal

open Varint

/-- Reading `used` gives `a` and leaves what follows. -/
def Parses {α : Type} (d : Bytes → Res (α × Bytes)) (used : Bytes) (a : α) : Prop :=
  ∀ rest, d (used ++ rest) = .ok (a, rest)

/-! ### One decoder after the other -/

theorem takePrefixed_used {s bs rest : Bytes} (h : takePrefixed s = .ok (bs, rest)) :
    ∃ used, s = used ++ rest ∧ Parses takePrefixed used bs ∧
      (varint bs.length ++ bs).length ≤ used.length := by
  unfold takePrefixed at h
  obtain ⟨⟨len, c⟩, hdec, htake⟩ := res_bind_eq_ok.mp h
  obtain ⟨lenBytes, body, rfl, hlen, hmin, hall⟩ := decodeU32_used hdec
  dsimp only at htake
  rw [List.drop_left' hlen, take] at htake
  split at htake
  · cases htake
  · rename_i hroom
    cases htake
    have hbs : (body.take len).length = len := List.length_take_of_le (not_lt.mp hroom)
    refine ⟨lenBytes ++ body.take len, ?_, ?_, ?_⟩
    · rw [List.append_assoc, List.take_append_drop]
    · intro rest'
      unfold takePrefixed
      rw [List.append_assoc, hall, res_ok_bind]
      dsimp only
      rw [List.drop_left' hlen]
      nth_rewrite 2 [← hbs]
      exact take_append _ rest'
    · rw [List.length_append, List.length_append, hbs]
      omega

theorem decodeOp_used {s rest : Bytes} {op : Op} (h : decodeOp s = .ok (op, rest)) :
    ∃ used bs, s = used ++ rest ∧ Parses decodeOp used op ∧ encodeOp op = .ok bs ∧
      bs.length ≤ used.length := by
  cases s with
  | nil => cases h
  | cons tag s =>
    rw [decodeOp] at h
    split at h
    · rename_i hput
      obtain ⟨⟨key, s₁⟩, hkey, h⟩ := res_bind_eq_ok.mp h
      obtain ⟨⟨value, s₂⟩, hvalue, h⟩ := res_bind_eq_ok.mp h
      cases h
      have hklen := takePrefixed_length hkey
      have hvlen := takePrefixed_length hvalue
      obtain ⟨kused, rfl, hkparse, hkmin⟩ := takePrefixed_used hkey
      obtain ⟨vused, hs₁, hvparse, hvmin⟩ := takePrefixed_used hvalue
      refine ⟨tag :: (kused ++ vused), opPut :: varint key.length ++ key ++
        (varint value.length ++ value), ?_, ?_, ?_, ?_⟩
      · rw [hs₁, List.cons_append, List.append_assoc]
      · intro rest'
        rw [List.cons_append, List.append_assoc, decodeOp, if_pos hput, hkparse, res_ok_bind]
        dsimp only
        rw [hvparse]
        rfl
      · simp only [encodeOp, expectU32, if_pos hklen, if_pos hvlen]
        rfl
      · simp only [List.length_append, List.length_cons] at hkmin hvmin ⊢
        omega
    · rename_i hput
      split at h
      · rename_i hdelete
        obtain ⟨⟨key, s₁⟩, hkey, h⟩ := res_bind_eq_ok.mp h
        cases h
        have hklen := takePrefixed_length hkey
        obtain ⟨kused, rfl, hkparse, hkmin⟩ := takePrefixed_used hkey
        refine ⟨tag :: kused, opDelete :: varint key.length ++ key, rfl, ?_, ?_, ?_⟩
        · intro rest'
          rw [List.cons_append, decodeOp, if_neg hput, if_pos hdelete, hkparse]
          rfl
        · simp only [encodeOp, expectU32, if_pos hklen]
          rfl
        · simp only [List.length_append, List.length_cons] at hkmin ⊢
          omega
      · cases h

theorem decodeOps_used {n : ℕ} {s rest : Bytes} {ops : List Op}
    (h : decodeOps n s = .ok (ops, rest)) :
    ∃ used bs, s = used ++ rest ∧ Parses (decodeOps n) used ops ∧ encodeOps ops = .ok bs ∧
      bs.length ≤ used.length ∧ ops.length = n := by
  induction n generalizing s ops with
  | zero =>
    cases h
    exact ⟨[], [], rfl, fun _ => rfl, rfl, Nat.le_refl 0, rfl⟩
  | succ n ih =>
    rw [decodeOps] at h
    obtain ⟨⟨op, s₁⟩, hop, h⟩ := res_bind_eq_ok.mp h
    obtain ⟨⟨ops', s₂⟩, hops, h⟩ := res_bind_eq_ok.mp h
    cases h
    obtain ⟨used₁, bs₁, rfl, hparse₁, henc₁, hmin₁⟩ := decodeOp_used hop
    obtain ⟨used₂, bs₂, hs₁, hparse₂, henc₂, hmin₂, hlen⟩ := ih hops
    refine ⟨used₁ ++ used₂, bs₁ ++ bs₂, ?_, ?_, ?_, ?_, congrArg (· + 1) hlen⟩
    · rw [hs₁, List.append_assoc]
    · intro rest'
      rw [List.append_assoc, decodeOps, hparse₁, res_ok_bind]
      dsimp only
      rw [hparse₂]
      rfl
    · rw [encodeOps, henc₁, henc₂]
      rfl
    · rw [List.length_append, List.length_append]
      omega

/-! ### Whole batches -/

theorem decode_inv {s : Bytes} {batch : WriteBatch} (h : decode s = .ok batch) :
    batch.length ≤ maxOpsPerBatch ∧ ∃ count ops, s = count ++ ops ∧
      (∀ rest, decodeU32 (count ++ rest) = .ok (batch.length, count.length)) ∧
      (varint batch.length).length ≤ count.length ∧
      decodeOps batch.length ops = .ok (batch, []) := by
  unfold decode at h
  obtain ⟨⟨n, c⟩, hcount, h⟩ := res_bind_eq_ok.mp h
  obtain ⟨count, body, rfl, rfl, hmin, hall⟩ := decodeU32_used hcount
  dsimp only at h
  split at h
  · cases h
  · rename_i hmax
    obtain ⟨⟨ops, rest⟩, hops, h⟩ := res_bind_eq_ok.mp h
    dsimp only at h
    split at h
    · cases h
    · rename_i hrest
      cases h
      rw [List.drop_left, not_not.mp hrest] at hops
      obtain ⟨-, -, -, -, -, -, rfl⟩ := decodeOps_used hops
      exact ⟨not_lt.mp hmax, count, body, rfl, hall, hmin, hops⟩

theorem decode_append {s : Bytes} {batch : WriteBatch} (h : decode s = .ok batch) {more : Bytes}
    (hmore : more ≠ []) (batch' : WriteBatch) : decode (s ++ more) ≠ .ok batch' := by
  obtain ⟨hmax, count, ops, rfl, hcount, -, hops⟩ := decode_inv h
  obtain ⟨used, -, hused, hparse, -⟩ := decodeOps_used hops
  rw [List.append_nil] at hused
  subst hused
  rw [List.append_assoc, decode, hcount, res_ok_bind]
  dsimp only
  rw [if_neg (not_lt.mpr hmax), List.drop_left, hparse more, res_ok_bind]
  dsimp only
  rw [if_pos hmore]
  simp

theorem decode_reencode {s : Bytes} {batch : WriteBatch} (h : decode s = .ok batch) :
    ∃ bs, encode batch = .ok bs ∧ bs.length ≤ s.length ∧ decode bs = .ok batch := by
  obtain ⟨hmax, count, ops, rfl, -, hmin, hops⟩ := decode_inv h
  obtain ⟨used, body, hused, -, henc, hle, -⟩ := decodeOps_used hops
  have h32 : batch.length < u32Size := hmax.trans_lt (by decide)
  have hencode : encode batch = .ok (varint batch.length ++ body) := by
    simp only [encode, expectU32, if_pos h32, henc]
    rfl
  refine ⟨_, hencode, ?_, decode_encode hencode hmax⟩
  rw [hused, List.length_append, List.length_append, List.length_append]
  omega

theorem encodeOp_total {op : Op} (h : op.Fits) : ∃ bs, encodeOp op = .ok bs := by
  cases op with
  | put key value =>
    simp only [encodeOp, expectU32, if_pos h.1, if_pos h.2]
    exact ⟨_, rfl⟩
  | delete key =>
    have hkey : key.length < u32Size := h
    simp only [encodeOp, expectU32, if_pos hkey]
    exact ⟨_, rfl⟩

theorem encodeOps_total {ops : List Op} (h : ∀ op ∈ ops, op.Fits) : ∃ bs, encodeOps ops = .ok bs := by
  induction ops with
  | nil => exact ⟨[], rfl⟩
  | cons op ops ih =>
    obtain ⟨b₁, h₁⟩ := encodeOp_total (h op List.mem_cons_self)
    obtain ⟨b₂, h₂⟩ := ih fun x hx => h x (List.mem_cons_of_mem op hx)
    refine ⟨b₁ ++ b₂, ?_⟩
    rw [encodeOps, h₁, h₂]
    rfl

theorem encode_total {batch : WriteBatch} (hlen : batch.length < u32Size)
    (h : ∀ op ∈ batch, op.Fits) : ∃ bs, encode batch = .ok bs := by
  obtain ⟨body, hbody⟩ := encodeOps_total h
  simp only [encode, expectU32, if_pos hlen, hbody]
  exact ⟨_, rfl⟩

/-- A batch within the limits is read back from its encoding and from no proper
prefix or extension of it; whatever bytes decode, their batch has an encoding
that is no longer and decodes to it again. -/
theorem batch_wire_unambiguous :
    (∀ batch : WriteBatch, batch.length ≤ maxOpsPerBatch → (∀ op ∈ batch, op.Fits) →
      ∃ bs, encode batch = .ok bs ∧ decode bs = .ok batch ∧
        (∀ s, s <+: bs → s ≠ bs → ∀ other, decode s ≠ .ok other) ∧
        ∀ s, bs <+: s → s ≠ bs → ∀ other, decode s ≠ .ok other) ∧
    ∀ s batch, decode s = .ok batch →
      ∃ bs, encode batch = .ok bs ∧ bs.length ≤ s.length ∧ decode bs = .ok batch := by
  refine ⟨?_, fun s batch h => decode_reencode h⟩
  intro batch hmax hfits
  obtain ⟨bs, hbs⟩ := encode_total (hmax.trans_lt (by decide)) hfits
  have hdec := decode_encode hbs hmax
  refine ⟨bs, hbs, hdec, ?_, ?_⟩
  · rintro s ⟨more, rfl⟩ hne other hother
    have hmore : more ≠ [] := by
      rintro rfl
      exact hne (List.append_nil s).symm
    exact decode_append hother hmore batch hdec
  · rintro s ⟨more, rfl⟩ hne other
    have hmore : more ≠ [] := by
      rintro rfl
      exact hne (List.append_nil bs)
    exact decode_append hdec hmore other

-- five bytes for a count of zero are accepted, and written as one
example : decode [0x80, 0x80, 0x80, 0x80, 0] = .ok [] ∧ encode [] = .ok [0] := by decide

end PaddockKV.Wal
