import PaddockKV.Sstable.Seek

/-!
# Reading a file that may have been forged (`sstable/reader.rs`)

Header, footer, index and filter are not authenticated, so whoever writes the
file chooses every offset and length the reader uses. The data blocks are: with
an ideal cipher a block opens only if a writer sealed it, and the associated data
tells for which table and at which offset.
-/

namespace PaddockKV.Sstable

open Io Crypto PaddockKV.Filter SstReader

/-- A call of `write_block`: the writer and the block it gets. -/
structure BlockCall where
  writer : SstWriter
  plaintext : Bytes

/-- The context of table `id` under a master key. -/
def tableCtx (prims : Primitives) (master : Bytes) (id : ℕ) : CryptoCtx :=
  ⟨deriveSstableKey prims master id, id⟩

namespace BlockCall

/-- The writer seals for table `id`, at the offset it has reached. -/
structure For (prims : Primitives) (master : Bytes) (id offset : ℕ) (c : BlockCall) : Prop where
  crypto : c.writer.crypto = some (tableCtx prims master id)
  offset : c.writer.bytesWritten = offset

/-- What the call puts on disk. -/
def Puts (prims : Primitives) (c : BlockCall) (onDisk : Bytes) : Prop :=
  SstWriter.onDiskBytes prims c.writer.crypto c.writer.bytesWritten c.plaintext = .ok (onDisk, 0)

end BlockCall

/-- Under the keys of the tables all sealing was done by writers, in `calls`, and
what stands in the file opens only with the key, nonce and associated data of a call
that made it. Table ids and offsets are `u64`s. -/
structure IdealAead (prims : Primitives) (master : Bytes) (calls : Set BlockCall) (file : Bytes) :
    Prop where
  writers : ∀ c ∈ calls, ∃ id offset, id < u64Size ∧ offset < u64Size ∧ c.For prims master id offset
  opens : ∀ id nonce aad offset length ciphertext plaintext,
    readAt file offset length = .ok ciphertext →
    prims.openText (deriveSstableKey prims master id) nonce aad ciphertext = some plaintext →
      ∃ c ∈ calls, c.Puts prims ciphertext ∧ ∃ ctx, c.writer.crypto = some ctx ∧
        ctx.aeadKey = deriveSstableKey prims master id ∧
        deriveBlockNonce c.writer.bytesWritten = nonce ∧
        blockAad ctx.sstableId c.writer.bytesWritten = aad

/-- `BlockReader` decodes the record from the block. -/
def DecodedFrom (plaintext : Bytes) (x : Rec) : Prop :=
  ∃ rd, BlockReader.openBlock plaintext = .ok rd ∧ (x ∈ rd.iter ∨ ∃ key, rd.seek key = some x)

/-- The record was decoded from a block that a writer sealed for table `id`, and
the ciphertext stands in the file where the writer put it. -/
def Authentic (prims : Primitives) (master : Bytes) (calls : Set BlockCall) (id : ℕ) (file : Bytes)
    (x : Rec) : Prop :=
  ∃ c ∈ calls, ∃ offset length onDisk, c.For prims master id offset ∧ c.Puts prims onDisk ∧
    readAt file offset length = .ok onDisk ∧ DecodedFrom c.plaintext x

section Read

variable {prims : Primitives} {master : Bytes} {calls : Set BlockCall} {id : ℕ} {r : SstReader}
  {file : Bytes}

theorem openInner_fields {crypto : Option CryptoCtx}
    (h : openInner file crypto = .ok r) : r.file = file ∧ r.crypto = crypto := by
  unfold openInner at h
  dsimp only at h
  split at h
  · cases h
  obtain ⟨footerBytes, -, h⟩ := res_bind_eq_ok.mp h
  split at h
  · cases h
  obtain ⟨headerBytes, -, h⟩ := res_bind_eq_ok.mp h
  split at h
  · cases h
  obtain ⟨-, -, h⟩ := res_bind_eq_ok.mp h
  obtain ⟨indexBytes, -, h⟩ := res_bind_eq_ok.mp h
  obtain ⟨bloom, -, h⟩ := res_bind_eq_ok.mp h
  cases h
  exact ⟨rfl, rfl⟩

theorem decodeBlockHandle_lt {bytes : Bytes} {handle : BlockHandle}
    (h : decodeBlockHandle bytes = .ok handle) : handle.offset < u64Size := by
  unfold decodeBlockHandle at h
  split at h
  · cases h
  · cases h
    refine (leVal_lt _).trans_le ?_
    exact Nat.pow_le_pow_right (by decide) (List.length_take_le 8 _)

theorem call_of_openBlock (hideal : IdealAead prims master calls file) (hid : id < u64Size)
    {offset length : ℕ} (hoff : offset < u64Size) {onDisk plaintext : Bytes}
    (hread : readAt file offset length = .ok onDisk)
    (h : (tableCtx prims master id).openBlock prims offset onDisk = some plaintext) :
    ∃ c ∈ calls, c.For prims master id offset ∧ c.Puts prims onDisk ∧ c.plaintext = plaintext := by
  obtain ⟨c, hc, hputs, ctx, hcrypto, hkey, hnonce, haad⟩ := hideal.opens _ _ _ _ _ _ _ hread h
  obtain ⟨id', offset', hid', hoff', hfor⟩ := hideal.writers c hc
  have hctx : ctx = tableCtx prims master id' := Option.some.inj (hcrypto.symm.trans hfor.crypto)
  subst hctx
  rw [hfor.offset] at haad hnonce
  obtain ⟨hid'', rfl⟩ := blockAad_inj hid' hid hoff' hoff haad
  have hids : id' = id := hid''
  subst hids
  refine ⟨c, hc, hfor, hputs, ?_⟩
  -- opening inverts sealing, so the writer's block is the one that was opened
  have hseal : (tableCtx prims master id').sealBlock prims offset' c.plaintext = some onDisk := by
    have hp := hputs
    unfold BlockCall.Puts SstWriter.onDiskBytes at hp
    rw [hfor.crypto, hfor.offset] at hp
    dsimp only at hp
    split at hp
    · rename_i ct hct
      cases hp
      exact hct
    · cases hp
  exact Option.some.inj ((CryptoCtx.openBlock_sealBlock hseal).symm.trans h)

/-- The reader holds `file` and the context of table `id`. -/
structure ReadsAs (prims : Primitives) (master : Bytes) (id : ℕ) (file : Bytes) (r : SstReader) :
    Prop where
  file : r.file = file
  crypto : r.crypto = some (tableCtx prims master id)

variable {handle : BlockHandle}

theorem readDataBlock_authentic (hideal : IdealAead prims master calls file) (hid : id < u64Size)
    (hr : ReadsAs prims master id file r) (hoff : handle.offset < u64Size) {plaintext : Bytes}
    (h : readDataBlock prims r handle = .ok plaintext) {x : Rec} (hx : DecodedFrom plaintext x) :
    Authentic prims master calls id file x := by
  obtain ⟨onDisk, hread, h⟩ := res_bind_eq_ok.mp h
  rw [hr.crypto] at h
  rw [hr.file] at hread
  dsimp only at h
  split at h
  · rename_i pt hopen
    cases h
    obtain ⟨c, hc, hfor, hputs, rfl⟩ := call_of_openBlock hideal hid hoff hread hopen
    exact ⟨c, hc, handle.offset, handle.length, onDisk, hfor, hputs, hread, hx⟩
  · cases h

theorem blockRecords_authentic (hideal : IdealAead prims master calls file) (hid : id < u64Size)
    (hr : ReadsAs prims master id file r) (hoff : handle.offset < u64Size) {xs : List Rec}
    (h : blockRecords prims r handle = .ok xs) {x : Rec} (hx : x ∈ xs) :
    Authentic prims master calls id file x := by
  obtain ⟨plaintext, hread, h⟩ := res_bind_eq_ok.mp h
  obtain ⟨rd, hopen, h⟩ := res_bind_eq_ok.mp h
  cases h
  exact readDataBlock_authentic hideal hid hr hoff hread ⟨rd, hopen, .inl hx⟩

theorem get_authentic (hideal : IdealAead prims master calls file) (hid : id < u64Size)
    (hr : ReadsAs prims master id file r) {key : Key} {snapshot : ℕ} {x : Rec}
    (h : SstReader.get prims r key snapshot = .ok (some x)) :
    Authentic prims master calls id file x := by
  unfold SstReader.get at h
  split at h
  · cases h
  obtain ⟨o, hlocate, h⟩ := res_bind_eq_ok.mp h
  cases o with
  | none => cases h
  | some handle =>
    obtain ⟨index, -, hlocate⟩ := res_bind_eq_ok.mp hlocate
    split at hlocate
    · cases hlocate
    obtain ⟨handle', hdecode, hlocate⟩ := res_bind_eq_ok.mp hlocate
    cases hlocate
    obtain ⟨plaintext, hread, h⟩ := res_bind_eq_ok.mp h
    obtain ⟨rd, hopen, h⟩ := res_bind_eq_ok.mp h
    have hskip : skipNewer rd.iter key snapshot (rd.iter.length + 1) (rd.seek key) = some x :=
      Except.ok.inj h
    have hdecoded := (skipNewer_some (P := DecodedFrom plaintext) (fun y hy => ⟨rd, hopen, .inl hy⟩)
      (fun y hy => ⟨rd, hopen, .inr ⟨key, hy⟩⟩) hskip).1
    exact readDataBlock_authentic hideal hid hr (decodeBlockHandle_lt hdecode) hread hdecoded

theorem scan_authentic (hideal : IdealAead prims master calls file) (hid : id < u64Size)
    (hr : ReadsAs prims master id file r) {xs : List Rec} (h : scan prims r = .ok xs) {x : Rec}
    (hx : x ∈ xs) : Authentic prims master calls id file x := by
  obtain ⟨index, -, h⟩ := res_bind_eq_ok.mp h
  obtain ⟨blocks, hblocks, h⟩ := res_bind_eq_ok.mp h
  cases h
  obtain ⟨block, hblock, hxb⟩ := List.mem_flatten.mp hx
  obtain ⟨entry, -, hentry⟩ := mem_of_mapM hblocks hblock
  obtain ⟨handle, hdecode, hrecords⟩ := res_bind_eq_ok.mp hentry
  exact blockRecords_authentic hideal hid hr (decodeBlockHandle_lt hdecode) hrecords hxb

theorem scanStream_authentic (hideal : IdealAead prims master calls file) (hid : id < u64Size)
    (hr : ReadsAs prims master id file r) {xs : List (Res Rec)} (h : scanStream prims r = .ok xs)
    {x : Rec} (hx : .ok x ∈ xs) : Authentic prims master calls id file x := by
  obtain ⟨handles, hhandles, h⟩ := res_bind_eq_ok.mp h
  cases h
  obtain ⟨handle, hmem, hitem⟩ := List.mem_flatMap.mp hx
  obtain ⟨index, -, hhandles⟩ := res_bind_eq_ok.mp hhandles
  obtain ⟨entry, -, hdecode⟩ := mem_of_mapM hhandles hmem
  split at hitem
  · rename_i rs hrecords
    obtain ⟨y, hy, heq⟩ := List.mem_map.mp hitem
    cases heq
    exact blockRecords_authentic hideal hid hr (decodeBlockHandle_lt hdecode) hrecords hy
  · rw [List.mem_singleton] at hitem
    cases hitem

end Read

/-- Whatever bytes stand at the path of table `id`: if they open as an encrypted
table, every record that is read was decoded from a block that an encrypted
writer sealed for this table at the offset it was read from. -/
theorem forged_reads_authentic {prims : Primitives} {master : Bytes} {calls : Set BlockCall}
    {file : Bytes} (hideal : IdealAead prims master calls file) {id : ℕ} (hid : id < u64Size)
    {r : SstReader} (hopen : openInner file (some (tableCtx prims master id)) = .ok r) :
    (∀ key snapshot x, SstReader.get prims r key snapshot = .ok (some x) →
      Authentic prims master calls id file x) ∧
    (∀ xs, scan prims r = .ok xs → ∀ x ∈ xs, Authentic prims master calls id file x) ∧
    ∀ xs, scanStream prims r = .ok xs → ∀ x, .ok x ∈ xs →
      Authentic prims master calls id file x := by
  obtain ⟨hfile, hcrypto⟩ := openInner_fields hopen
  have hr : ReadsAs prims master id file r := ⟨hfile, hcrypto⟩
  exact ⟨fun _ _ _ h => get_authentic hideal hid hr h,
    fun _ h _ hx => scan_authentic hideal hid hr h hx,
    fun _ h _ hx => scanStream_authentic hideal hid hr h hx⟩

/-- What a cipher is given. -/
structure Sealing where
  key : Bytes
  nonce : Bytes
  aad : Bytes
  plaintext : Bytes
  deriving DecidableEq

/-- A stand-in for an ideal cipher that was asked for the texts of the ledger: it
opens nothing else. -/
def ledgerPrims (ledger : List Sealing) : Primitives where
  xxh3 _ := 0
  hkdf _ info := info
  sealText key nonce aad plaintext :=
    if ⟨key, nonce, aad, plaintext⟩ ∈ ledger then some (plaintext ++ zeros tagLen) else none
  openText key nonce aad ciphertext :=
    let plaintext := ciphertext.take (ciphertext.length - tagLen)
    if ⟨key, nonce, aad, plaintext⟩ ∈ ledger ∧ ciphertext = plaintext ++ zeros tagLen then
      some plaintext
    else none
  open_seal key nonce aad plaintext ciphertext h := by
    obtain ⟨hmem, heq⟩ := Option.ite_none_right_eq_some.mp h
    cases heq
    simp [hmem]
  seal_length key nonce aad plaintext ciphertext h := by
    obtain ⟨-, heq⟩ := Option.ite_none_right_eq_some.mp h
    cases heq
    simp

/-- The block of `r` sealed for table 3 at `offset`. -/
def sealingAt (offset : ℕ) (r : Rec) : Sealing :=
  ⟨sstableInfoPrefix ++ leBytes 8 3, deriveBlockNonce offset, blockAad 3 offset, blockBytes [r]⟩

-- the two blocks of a table with a block for each version
def ledger : List Sealing :=
  [sealingAt 4096 ⟨[1], 2, .put, []⟩, sealingAt 8192 ⟨[1], 1, .put, []⟩]

/-- The call that seals `r` for table 3 at `offset`. -/
def callAt (offset : ℕ) (r : Rec) : BlockCall :=
  ⟨⟨.sst 3, .new, [], r.key, offset, 0, 0, 0, 0, 0, none, some (tableCtx (ledgerPrims ledger) [] 3)⟩,
    blockBytes [r]⟩

def ledgerCalls : Set BlockCall := {callAt 4096 ⟨[1], 2, .put, []⟩, callAt 8192 ⟨[1], 1, .put, []⟩}

theorem sealBlock_ledger {offset : ℕ} {r : Rec} (hmem : sealingAt offset r ∈ ledger) :
    (tableCtx (ledgerPrims ledger) [] 3).sealBlock (ledgerPrims ledger) offset (blockBytes [r]) =
      some (blockBytes [r] ++ zeros tagLen) := if_pos hmem

theorem call_of_sealing {offset : ℕ} {r : Rec} (hc : callAt offset r ∈ ledgerCalls) {x : Sealing}
    (hmem : x ∈ ledger) (hx : x = sealingAt offset r) :
    ∃ c ∈ ledgerCalls, c.Puts (ledgerPrims ledger) (x.plaintext ++ zeros tagLen) ∧
      ∃ ctx, c.writer.crypto = some ctx ∧ ctx.aeadKey = x.key ∧
        deriveBlockNonce c.writer.bytesWritten = x.nonce ∧
        blockAad ctx.sstableId c.writer.bytesWritten = x.aad := by
  subst hx
  refine ⟨callAt offset r, hc, ?_, tableCtx (ledgerPrims ledger) [] 3, rfl, rfl, rfl, rfl⟩
  have hseal := sealBlock_ledger hmem
  show SstWriter.onDiskBytes _ (some (tableCtx (ledgerPrims ledger) [] 3)) offset (blockBytes [r]) = _
  unfold SstWriter.onDiskBytes
  dsimp only
  rw [hseal]
  rfl

theorem ideal_ledger (file : Bytes) : IdealAead (ledgerPrims ledger) [] ledgerCalls file := by
  constructor
  · rintro c (rfl | rfl)
    · exact ⟨3, 4096, by decide, by decide, rfl, rfl⟩
    · exact ⟨3, 8192, by decide, by decide, rfl, rfl⟩
  · intro id nonce aad offset length ciphertext plaintext _ h
    obtain ⟨⟨hmem, hct⟩, heq⟩ := Option.ite_none_right_eq_some.mp h
    cases heq
    generalize ciphertext.take (ciphertext.length - tagLen) = plaintext at hmem hct
    subst hct
    rcases List.mem_pair.mp hmem with hone | hone
    · exact call_of_sealing (.inl rfl) hmem hone
    · exact call_of_sealing (.inr rfl) hmem hone

-- read as table 3 the file gives its records, moved to table 4 it gives none
theorem forged_reads_authentic_written :
    Ends (SstWriter.writeTable (ledgerPrims ledger) (.sst 3) 0 ⟨7, 10⟩
        (some (tableCtx (ledgerPrims ledger) [] 3)) 0 (versions 2)) ⟨[], []⟩
      (fun _ wd => (∃ r, openInner (wd.bytesOf (.sst 3))
          (some (tableCtx (ledgerPrims ledger) [] 3)) = .ok r ∧
        scan (ledgerPrims ledger) r = .ok (versions 2) ∧ ∀ x ∈ versions 2,
          Authentic (ledgerPrims ledger) [] ledgerCalls 3 (wd.bytesOf (.sst 3)) x) ∧
        ∀ r, openInner (wd.bytesOf (.sst 3)) (some (tableCtx (ledgerPrims ledger) [] 4)) = .ok r →
          ∀ key snapshot x, SstReader.get (ledgerPrims ledger) r key snapshot ≠ .ok (some x))
      fun _ _ => False := by
  have hcut : cutBlocks 0 [] (versions 2) = [[⟨[1], 2, .put, []⟩], [⟨[1], 1, .put, []⟩]] := by decide
  refine Ends.mono (writeTable_get rfl (by decide)) ?_ fun _ _ h => ?_
  · rintro - wd ⟨r, hopen, hscan, -⟩
    have hideal := ideal_ledger (wd.bytesOf (.sst 3))
    refine ⟨⟨r, hopen, hscan, (forged_reads_authentic hideal (by decide) hopen).2.1 _ hscan⟩, ?_⟩
    intro r' hopen' key snapshot x hget
    obtain ⟨c, hc, offset, -, -, hfor, -⟩ :=
      (forged_reads_authentic hideal (by decide) hopen').1 key snapshot x hget
    have hid := hfor.crypto
    rcases hc with rfl | rfl
    · cases hid
    · cases hid
  · refine Writable.not_trouble (by decide +kernel) rfl ?_ h
    rintro A b B hb ⟨ctx, hctx, hnone⟩
    cases hctx
    rw [hcut] at hb
    -- the first block goes to 4096, the second to 8192
    rcases A with - | ⟨a, - | ⟨a', A⟩⟩
    · cases hb
      have hseal := @sealBlock_ledger 4096 ⟨[1], 2, .put, []⟩ (.head _)
      exact Option.some_ne_none _ (hseal.symm.trans hnone)
    · cases hb
      have hend : dataEndOf (some (tableCtx (ledgerPrims ledger) [] 3)) [[⟨[1], 2, .put, []⟩]] =
          8192 := by decide +kernel
      have hseal := @sealBlock_ledger 8192 ⟨[1], 1, .put, []⟩ (.tail _ (.head _))
      rw [hend] at hnone
      exact Option.some_ne_none _ (hseal.symm.trans hnone)
    · simp at hb

end PaddockKV.Sstable
