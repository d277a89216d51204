import PaddockKV.Sstable.Written

/-!
# A finished table

`finish` puts the filter, the index and the footer behind the blocks and then
fills in the header. The header is the last thing it writes, so a file whose
header region is still empty is a table that was not finished.
-/

namespace PaddockKV.Sstable

open Io Crypto PaddockKV.Filter

/-- The filter in the file. -/
def FilterAt (prims : Primitives) (file : Bytes) (h : BlockHandle) (bloom : Option BlockedBloom)
    (rs : List Rec) : Prop :=
  match bloom with
  | none => h.length = 0
  | some f => At file h.offset f.encode ∧ f.encode.length = h.length ∧
      fileHeaderRegionSize ≤ h.offset ∧ h.offset ≤ file.length ∧
      Valid f ∧ ∀ r ∈ rs, f.contains prims.xxh3 r.key = true

/-- All of a table but its header. -/
structure TableParts (prims : Primitives) (crypto : Option CryptoCtx) (file : Bytes)
    (blocks : List (List Rec)) (dataEnd : ℕ) (index : List (Key × BlockHandle))
    (ih fh mh : BlockHandle) (bloom : Option BlockedBloom) : Prop where
  size : fileHeaderRegionSize + footerSize ≤ file.length
  footer : At file (file.length - footerSize) (Footer.newSigned ih fh mh).asBytes
  handles : ih.Fits ∧ fh.Fits ∧ mh.Fits
  indexAt : At file ih.offset (blockBytes (index.map SstWriter.indexRec))
  indexLength : (blockBytes (index.map SstWriter.indexRec)).length = ih.length
  indexBehind : fileHeaderRegionSize ≤ ih.offset
  indexInside : ih.offset ≤ file.length
  indexFits : BlockFits (index.map SstWriter.indexRec)
  blocksAt : List.Forall₂ (IndexEntry prims crypto file) index blocks
  ordered : index.Pairwise Behind
  inData : ∀ e ∈ index, e.2.offset + e.2.length ≤ dataEnd
  filter : FilterAt prims file fh bloom blocks.flatten

def TableBody (prims : Primitives) (crypto : Option CryptoCtx) (file : Bytes)
    (blocks : List (List Rec)) (dataEnd : ℕ) : Prop :=
  ∃ index ih fh mh bloom, TableParts prims crypto file blocks dataEnd index ih fh mh bloom

/-- The header of a table with these blocks. -/
structure HeaderOf (crypto : Option CryptoCtx) (blocks : List (List Rec)) (dataEnd : ℕ)
    (header : FileHeader) : Prop where
  readBack : ∀ rest, FileHeader.refFromBytes (header.asBytes ++ rest) = header
  valid : header.isValid = true
  flags : decide (header.flags &&& flag.encrypted ≠ 0) = crypto.isSome
  numEntries : header.numEntries = blocks.flatten.length
  numBlocks : header.numBlocks = blocks.length
  maxSeqno : header.maxSeqno = maxSeqnoOf blocks.flatten
  endOffset : header.dataBlocksEndOffset = dataEnd

section

variable {prims : Primitives} {crypto : Option CryptoCtx} {file : Bytes} {blocks : List (List Rec)}
  {dataEnd : ℕ}

theorem FilterAt.mono {h : BlockHandle} {bloom : Option BlockedBloom} {rs : List Rec}
    (hf : FilterAt prims file h bloom rs) (rest : Bytes) :
    FilterAt prims (file ++ rest) h bloom rs := by
  cases bloom with
  | none => exact hf
  | some f =>
    obtain ⟨hat, hlen, hreg, hin, hv⟩ := hf
    refine ⟨hat.mono rest, hlen, hreg, ?_, hv⟩
    rw [List.length_append]
    omega

theorem FilterAt.overwrite {h : BlockHandle} {bloom : Option BlockedBloom} {rs : List Rec}
    {data : Bytes} (hf : FilterAt prims file h bloom rs) (hdata : data.length ≤ fileHeaderRegionSize)
    (hfile : data.length ≤ file.length) : FilterAt prims (overwrite file data 0) h bloom rs := by
  cases bloom with
  | none => exact hf
  | some f =>
    obtain ⟨hat, hlen, hreg, hin, hv⟩ := hf
    have hin' : 0 + data.length ≤ file.length := by omega
    refine ⟨hat.overwrite hin' (by omega), hlen, hreg, ?_, hv⟩
    rw [overwrite_length hin']
    exact hin

theorem TableBody.overwrite {data : Bytes} (h : TableBody prims crypto file blocks dataEnd)
    (hdata : data.length ≤ fileHeaderRegionSize) :
    TableBody prims crypto (overwrite file data 0) blocks dataEnd := by
  obtain ⟨index, ih, fh, mh, bloom, h⟩ := h
  have hsize := h.size
  have hin : 0 + data.length ≤ file.length := by omega
  refine ⟨index, ih, fh, mh, bloom, ?_⟩
  constructor
  · rw [overwrite_length hin]
    exact hsize
  · rw [overwrite_length hin]
    exact h.footer.overwrite hin (by omega)
  · exact h.handles
  · exact h.indexAt.overwrite hin (by have := h.indexBehind; omega)
  · exact h.indexLength
  · exact h.indexBehind
  · rw [overwrite_length hin]
    exact h.indexInside
  · exact h.indexFits
  · exact h.blocksAt.imp fun _ _ hb => ⟨hb.1, hb.2.overwrite hdata (by omega)⟩
  · exact h.ordered
  · exact h.inData
  · exact h.filter.overwrite hdata (by omega)

/-! ### Filter and index -/

variable {bloom₀ : Option BlockedBloom} {size n : ℕ} {params : BloomParams} {name : FileName}
  {w : SstWriter} {wd : World}

variable (prims) in
theorem filterOf_foldl (hf : FilterOf n params bloom₀) (rs : List Rec) :
    let bloom := bloom₀.map fun f => (rs.map Rec.key).foldl (.insert prims.xxh3) f
    (bloom.map fun f => f.encode.length).getD 0 = filterLength n params ∧
      ∀ f, bloom = some f → Valid f ∧ ∀ r ∈ rs, f.contains prims.xxh3 r.key = true := by
  have hlen := hf.length
  cases bloom₀ with
  | none => exact ⟨hlen, fun f h => by cases h⟩
  | some f₀ =>
    have hv := hf.valid f₀ rfl
    have hv' := valid_foldl prims.xxh3 hv (rs.map Rec.key)
    have hnum : ∀ (keys : List Key) (f : BlockedBloom),
        (keys.foldl (.insert prims.xxh3) f).numBlocks = f.numBlocks := by
      intro keys
      induction keys with
      | nil => exact fun f => rfl
      | cons k keys ih => exact fun f => ih (f.insert prims.xxh3 k)
    dsimp only
    refine ⟨?_, ?_⟩
    · rw [← hlen]
      show List.length (BlockedBloom.encode _) = f₀.encode.length
      rw [encode_length hv', hnum, encode_length hv]
    · rintro f ⟨⟩
      exact ⟨hv', fun r hr => contains_foldl prims.xxh3 hv (List.mem_map_of_mem hr)⟩

theorem writeFilter_ends {rs : List Rec} {fl : ℕ}
    (hfl : (w.bloom.map fun f => f.encode.length).getD 0 = fl)
    (hbloom : ∀ f, w.bloom = some f → Valid f ∧ ∀ r ∈ rs, f.contains prims.xxh3 r.key = true)
    (hlen : w.bytesWritten = file.length) (hroom : file.length < u64Size)
    (hreg : fileHeaderRegionSize ≤ file.length) :
    Ends w.writeFilter wd
      (fun out wd' => (∃ bs, Wrote w.file wd wd' bs ∧
        out.1 = { w with bytesWritten := (file ++ bs).length } ∧ (file ++ bs).length < u64Size ∧
        bs.length = fl ∧ out.2.Fits ∧ FilterAt prims (file ++ bs) out.2 w.bloom rs) ∧
        (wd.faults = [] → wd'.faults = []))
      fun _ wd' => (∃ bs, Wrote w.file wd wd' bs) ∧
        (wd.faults ≠ [] ∨ u32Size ≤ fl ∨ u64Size ≤ file.length + fl) := by
  have hzero : 0 < 256 ^ 4 := by decide
  unfold SstWriter.writeFilter
  split
  · rename_i f hb
    obtain ⟨hv, hcont⟩ := hbloom f hb
    rw [hb] at hfl
    have hfl : f.encode.length = fl := hfl
    dsimp only
    refine Ends.bind (append_ends _ _ wd) ?_ ?_
    · rintro - wd₁ ⟨hw, hf⟩
      refine Ends.addU64_bind ?_ ?_
      · intro hlt
        refine Ends.expectU32_bind ?_ ?_
        · intro h32
          have hfinal : (file ++ f.encode).length = w.bytesWritten + f.encode.length := by
            rw [List.length_append, hlen]
          refine Ends.ret ⟨⟨f.encode, hw, ?_, ?_, hfl, ⟨?_, h32, hzero⟩, ?_⟩, hf⟩
          · rw [hfinal]
          · rw [hfinal]
            exact hlt
          · rw [hlen]
            exact hroom
          · rw [hb]
            refine ⟨?_, rfl, ?_, ?_, hv, hcont⟩
            · show f.encode <+: (file ++ f.encode).drop w.bytesWritten
              rw [hlen, List.drop_left]
            · rw [hlen]
              exact hreg
            · rw [hfinal]
              exact Nat.le_add_right _ _
        · intro hover
          exact ⟨⟨_, hw⟩, .inr (.inl (hfl ▸ hover))⟩
      · intro hover
        rw [hlen, hfl] at hover
        exact ⟨⟨_, hw⟩, .inr (.inr hover)⟩
    · rintro - wd₁ ⟨hne, k, hw⟩
      exact ⟨⟨_, hw⟩, .inl hne⟩
  · rename_i hb
    rw [hb] at hfl
    refine Ends.ret ⟨⟨[], Wrote.refl _ _, ?_, ?_, hfl, ⟨?_, hzero, hzero⟩, ?_⟩, id⟩
    · rw [List.append_nil, ← hlen]
    · rwa [List.append_nil]
    · rw [hlen]
      exact hroom
    · rw [hb]
      rfl

/-- The same record up to the bytes of its value. -/
structure SameButValue (r r' : Rec) : Prop where
  key : r'.key = r.key
  seqno : r'.seqno = r.seqno
  op : r'.op = r.op
  value : r'.value.length = r.value.length

theorem entryBytes_sameLength {r r' : Rec} (h : SameButValue r r') (shared : ℕ) :
    (entryBytes shared r').length = (entryBytes shared r).length := by
  simp only [entryBytes, List.length_append, leBytes_length, h.key, h.value, List.length_singleton]

theorem entries_sameLength {rs rs' : List Rec} (h : List.Forall₂ SameButValue rs rs') (n : ℕ)
    (last : Key) : (entries n last rs').length = (entries n last rs).length := by
  induction h generalizing n last with
  | nil => rfl
  | cons hr _ ih =>
    rw [entries, entries, List.length_append, List.length_append, hr.key,
      entryBytes_sameLength hr, ih]

theorem blockBytes_sameLength {rs rs' : List Rec} (h : List.Forall₂ SameButValue rs rs') :
    (blockBytes rs').length = (blockBytes rs).length := by
  rw [blockBytes_length, blockBytes_length, entries_sameLength h]
  unfold numRestartsOf
  rw [h.length_eq]

/-- The bytes of the index block, whatever the handles in it. -/
def indexLength (blocks : List (List Rec)) : ℕ :=
  (blockBytes (blocks.map fun b => ⟨lastKeyOf [] b, 0, .put, zeros blockHandleSize⟩)).length

theorem index_length {index : List (Key × BlockHandle)}
    (h : List.Forall₂ (IndexEntry prims crypto file) index blocks) :
    (blockBytes (index.map SstWriter.indexRec)).length = indexLength blocks := by
  refine blockBytes_sameLength ?_
  rw [List.forall₂_map_left_iff, List.forall₂_map_right_iff]
  refine h.flip.imp ?_
  intro b e hb
  refine ⟨hb.1, rfl, rfl, ?_⟩
  rw [zeros_length]
  exact BlockHandle.asBytes_length e.2

theorem buildIndexBlock_ok {ib : Bytes} (h : w.buildIndexBlock = .ok ib) :
    ib = blockBytes (w.pendingIndex.map SstWriter.indexRec) := by
  have hbuilt := built_foldl built_new (w.pendingIndex.map SstWriter.indexRec)
  rw [List.nil_append] at hbuilt
  unfold SstWriter.buildIndexBlock at h
  obtain ⟨⟨bytes, b'⟩, hfin, h⟩ := res_bind_eq_ok.mp h
  cases h
  exact (finish_eq hbuilt hfin).1

theorem buildIndexBlock_error {e : Fault} (h : w.buildIndexBlock = .error e) :
    u32Size ≤ (blockBytes (w.pendingIndex.map SstWriter.indexRec)).length := by
  have hbuilt := built_foldl built_new (w.pendingIndex.map SstWriter.indexRec)
  rw [List.nil_append] at hbuilt
  rcases finish_ends hbuilt with ⟨b', hfin, -⟩ | hover
  · unfold SstWriter.buildIndexBlock at h
    rw [hfin] at h
    cases h
  · rw [blockBytes_length]
    omega

/-! ### Finishing -/

/-- All of the table was appended, and `data` written over the header region. -/
def TableWritten (prims : Primitives) (crypto : Option CryptoCtx) (name : FileName) (wd wd' : World)
    (file : Bytes) (blocks : List (List Rec)) (dataEnd : ℕ) (data : Bytes) : Prop :=
  ∃ evs bs, Appends name evs bs ∧ TableBody prims crypto (file ++ bs) blocks dataEnd ∧
    wd'.log = .writeAt name data 0 :: (evs ++ wd.log)

/-- The bytes of a whole table. -/
def tableLength (crypto : Option CryptoCtx) (n : ℕ) (params : BloomParams)
    (blocks : List (List Rec)) : ℕ :=
  dataEndOf crypto blocks + filterLength n params + indexLength blocks + footerSize

/-- Why a table with these blocks and a filter for `n` keys cannot be written. -/
inductive TableTrouble (prims : Primitives) (crypto : Option CryptoCtx) (wd : World) (n : ℕ)
    (params : BloomParams) (blocks : List (List Rec)) : Prop where
  | data (h : Trouble prims crypto wd blocks)
  | filter (h : FilterFails n params)
  | index (h : u32Size ≤ indexLength blocks)
  | file (h : u64Size ≤ tableLength crypto n params blocks)

/-- Keys, filter parameters and lengths of a table that can be written. -/
def Writable (crypto : Option CryptoCtx) (n : ℕ) (params : BloomParams)
    (blocks : List (List Rec)) : Prop :=
  (∀ b ∈ blocks, KeySorted (b.map Rec.key) ∧ diskLength crypto b < u32Size) ∧
    ¬ FilterFails n params ∧ indexLength blocks < u32Size ∧
    tableLength crypto n params blocks < u64Size

instance (crypto : Option CryptoCtx) (n : ℕ) (params : BloomParams) (blocks : List (List Rec)) :
    Decidable (Writable crypto n params blocks) :=
  inferInstanceAs (Decidable (_ ∧ _))

theorem Writable.not_trouble (h : Writable crypto n params blocks) (hf : wd.faults = [])
    (hseal : ∀ A b B, blocks = A ++ b :: B → ¬ SealFails prims crypto (dataEndOf crypto A) b) :
    ¬ TableTrouble prims crypto wd n params blocks := by
  obtain ⟨hblocks, hfilter, hindex, hfile⟩ := h
  rintro (hdata | hbad | hlong | hover)
  · cases hdata with
    | fault hne => exact hne hf
    | sealing hb hfails => exact hseal _ _ _ hb hfails
    | disorder hb hdis => exact hdis (hblocks _ hb).1
    | block hb hlong => exact absurd (hblocks _ hb).2 (not_lt.mpr hlong)
    | file hover =>
      unfold tableLength at hfile
      omega
  · exact hfilter hbad
  · omega
  · omega

theorem not_sealFails_blank (offset : ℕ) (b : List Rec) : ¬ SealFails .blank crypto offset b := by
  rintro ⟨ctx, -, hnone⟩
  cases hnone

theorem TableTrouble.earlier {wd₁ : World} (h : TableTrouble prims crypto wd₁ n params blocks)
    (hf : wd.faults = [] → wd₁.faults = []) : TableTrouble prims crypto wd n params blocks := by
  cases h with
  | data h => exact .data (h.earlier hf)
  | filter h => exact .filter h
  | index h => exact .index h
  | file h => exact .file h

/-- How `finish` ends with the blocks `blocks`. -/
def FinishEnds (prims : Primitives) (crypto : Option CryptoCtx) (name : FileName) (wd : World)
    (file : Bytes) (n : ℕ) (params : BloomParams) (blocks : List (List Rec))
    (x : Act World Unit) : Prop :=
  Ends x wd
    (fun _ wd' => (∃ header dataEnd, HeaderOf crypto blocks dataEnd header ∧
      TableWritten prims crypto name wd wd' file blocks dataEnd header.asBytes) ∧
      (wd.faults = [] → wd'.faults = []))
    fun _ wd' => ((∃ bs, Wrote name wd wd' bs) ∨
      wd.faults ≠ [] ∧ ∃ data dataEnd, data.length ≤ fileHeaderSize ∧
        TableWritten prims crypto name wd wd' file blocks dataEnd data) ∧
      TableTrouble prims crypto wd n params blocks

theorem writeAt_ends {data : Bytes} {f : File} (hf : wd.disk name = some f)
    (hlen : data.length ≤ f.bytes.length) :
    Ends (writeAt name data 0) wd
      (fun _ wd' => wd'.log = .writeAt name data 0 :: wd.log ∧ (wd.faults = [] → wd'.faults = []))
      fun _ wd' => wd.faults ≠ [] ∧ ∃ k, wd'.log = .writeAt name (data.take k) 0 :: wd.log := by
  unfold writeAt
  refine Ends.read_bind ?_
  rw [hf]
  dsimp only
  rw [if_neg (by omega)]
  refine Ends.mono (perform_ends _ _ _ wd) ?_ ?_
  · rintro - _ rfl
    refine ⟨rfl, fun h => ?_⟩
    rw [World.faults_call, h]
    rfl
  · rintro - _ ⟨-, hne, k, rfl⟩
    exact ⟨hne, k, rfl⟩

theorem flags_encrypted (encrypted : Bool) :
    (if encrypted = true then flag.checksummed + flag.encrypted else flag.checksummed) &&&
      flag.encrypted ≠ 0 ↔ encrypted = true := by
  cases encrypted <;> decide

theorem headerOf_fileHeader (hw : Writing prims crypto bloom₀ size name w file blocks [])
    {w' : SstWriter} (hw' : ∃ b, w' = { w with bytesWritten := b }) :
    HeaderOf crypto blocks file.length (w'.fileHeader w.bytesWritten) := by
  obtain ⟨b, rfl⟩ := hw'
  have hmin : (if w.minSeqno = u64Size - 1 then 0 else w.minSeqno) < u64Size := by
    split
    · decide
    · exact hw.minSeqno
  have hflat : blocks.flatten ++ [] = blocks.flatten := List.append_nil _
  constructor
  · refine fileHeader_refFromBytes ?_ hw.numEntries_lt hw.numBlocks_lt hmin hw.maxSeqno_lt ?_
    · split <;> decide
    · rw [hw.written]
      exact hw.room
  · exact fileHeader_isValid ..
  · rw [← hw.sameCrypto]
    rw [Bool.eq_iff_iff, decide_eq_true_iff]
    exact flags_encrypted _
  · exact hw.numEntries.trans (by rw [hflat])
  · exact hw.numBlocks
  · exact hw.maxSeqno.trans (by rw [hflat])
  · exact hw.written

theorem indexFits_of_length {index : List (Key × BlockHandle)}
    (h : (blockBytes (index.map SstWriter.indexRec)).length < u32Size) :
    BlockFits (index.map SstWriter.indexRec) := by
  refine blockFits_of_length h ?_
  intro r hr
  obtain ⟨e, -, rfl⟩ := List.mem_map.mp hr
  exact (by decide : 0 < u64Size)

theorem disk_of_wrote {wd' : World} {bs : Bytes} {s : Bool} (h : Wrote name wd wd' bs)
    (hd : wd.disk name = some ⟨file, s⟩) : ∃ s', wd'.disk name = some ⟨file ++ bs, s'⟩ := by
  obtain ⟨evs, happ, hlog⟩ := h
  obtain ⟨s', -, hd'⟩ := diskOf_appends happ hd
  refine ⟨s', ?_⟩
  unfold World.disk
  rw [hlog, hd', Function.update_self]

theorem tableParts_sections {fb ib : Bytes} {fh mh : BlockHandle} {bloom : Option BlockedBloom}
    (hw : Writing prims crypto bloom₀ size name w file blocks [])
    (hfilter : FilterAt prims (file ++ fb) fh bloom blocks.flatten) (hfh : fh.Fits) (hmh : mh.Fits)
    (hib : ib = blockBytes (w.pendingIndex.map SstWriter.indexRec)) (h32 : ib.length < u32Size)
    (hroom : (file ++ fb).length < u64Size) :
    TableBody prims crypto (file ++ fb ++ ib ++ (Footer.newSigned
      ⟨(file ++ fb).length, ib.length, SstWriter.trailingCrc ib⟩ fh mh).asBytes) blocks
      file.length := by
  generalize hih : (⟨(file ++ fb).length, ib.length, SstWriter.trailingCrc ib⟩ : BlockHandle) = ih
  have hoff : ih.offset = (file ++ fb).length := by rw [← hih]
  have hil : ih.length = ib.length := by rw [← hih]
  have hihf : ih.Fits := by
    rw [← hih]
    exact ⟨hroom, h32, trailingCrc_lt _⟩
  have hflen : (Footer.newSigned ih fh mh).asBytes.length = footerSize := Footer.asBytes_length _
  generalize hfooter : (Footer.newSigned ih fh mh).asBytes = footer at *
  have hreg := hw.region
  have hlen : (file ++ fb ++ ib ++ footer).length =
      (file ++ fb).length + ib.length + footerSize := by
    rw [List.length_append, List.length_append, hflen]
  have hfb : file.length ≤ (file ++ fb).length := by
    rw [List.length_append]
    omega
  refine ⟨w.pendingIndex, ih, fh, mh, bloom, ?_⟩
  constructor
  · omega
  · rw [hfooter, hlen]
    show footer <+: (file ++ fb ++ ib ++ footer).drop _
    rw [Nat.add_sub_cancel, ← List.length_append, List.drop_left]
  · exact ⟨hihf, hfh, hmh⟩
  · show _ <+: (file ++ fb ++ ib ++ footer).drop _
    rw [hoff, List.append_assoc, List.drop_left, hib]
    exact List.prefix_append _ _
  · rw [hil, hib]
  · omega
  · omega
  · exact indexFits_of_length (hib ▸ h32)
  · rw [List.append_assoc, List.append_assoc]
    exact indexEntry_mono hw.index
  · exact hw.ordered
  · intro e he
    obtain ⟨rs, -, hblock⟩ := exists_block_of_mem hw.index he
    exact hblock.inside
  · rw [List.append_assoc]
    exact hfilter.mono _

/-- The last call: the header goes over the placeholder of a table whose other bytes
`bs` are in the file. -/
theorem writeHeader_ends {s : Bool} {bs : Bytes} {wd₁ : World} {header : FileHeader} {dataEnd : ℕ}
    (hdisk : wd.disk name = some ⟨file, s⟩) (hwrote : Wrote name wd wd₁ bs)
    (hfaults : wd.faults = [] → wd₁.faults = []) (hregion : fileHeaderRegionSize ≤ file.length)
    (hheader : HeaderOf crypto blocks dataEnd header)
    (hbody : TableBody prims crypto (file ++ bs) blocks dataEnd) :
    Ends (writeAt name header.asBytes 0) wd₁
      (fun _ wd' => (∃ header dataEnd, HeaderOf crypto blocks dataEnd header ∧
        TableWritten prims crypto name wd wd' file blocks dataEnd header.asBytes) ∧
        (wd.faults = [] → wd'.faults = []))
      fun _ wd' => ((∃ bs, Wrote name wd wd' bs) ∨
        wd.faults ≠ [] ∧ ∃ data dataEnd, data.length ≤ fileHeaderSize ∧
          TableWritten prims crypto name wd wd' file blocks dataEnd data) ∧
        TableTrouble prims crypto wd n params blocks := by
  obtain ⟨s', hdisk'⟩ := disk_of_wrote hwrote hdisk
  obtain ⟨evs, happ, hlog⟩ := hwrote
  refine Ends.mono (writeAt_ends hdisk' ?_) ?_ ?_
  · rw [FileHeader.asBytes_length, List.length_append]
    unfold fileHeaderSize fileHeaderRegionSize at *
    omega
  · rintro - wd₂ ⟨hlog₂, hf₂⟩
    refine ⟨⟨header, dataEnd, hheader, evs, _, happ, hbody, ?_⟩, fun h => hf₂ (hfaults h)⟩
    rw [hlog₂, hlog]
  · rintro - wd₂ ⟨hne, k, hlog₂⟩
    have hfaulty : wd.faults ≠ [] := fun h => hne (hfaults h)
    refine ⟨.inr ⟨hfaulty, header.asBytes.take k, dataEnd, ?_, evs, _, happ, hbody, ?_⟩,
      .data (.fault hfaulty)⟩
    · rw [← FileHeader.asBytes_length header]
      exact List.length_take_le' _ _
    · rw [hlog₂, hlog]

theorem finishSections_ends {s : Bool} (hw : Writing prims crypto bloom₀ size name w file blocks [])
    (hfilter : FilterOf n params bloom₀) (hdisk : wd.disk name = some ⟨file, s⟩) :
    FinishEnds prims crypto name wd file n params blocks w.finishSections := by
  obtain ⟨hfl, hbloom⟩ := filterOf_foldl prims hfilter (blocks.flatten ++ [])
  rw [← hw.bloom] at hfl hbloom
  simp only [List.append_nil] at hbloom
  have hindex := index_length hw.index
  have hfile : ∀ {m}, u64Size ≤ m → m ≤ file.length + filterLength n params + indexLength blocks +
      footerSize → TableTrouble prims crypto wd n params blocks := by
    intro m h₁ h₂
    rw [hw.length] at h₂
    exact .file (h₁.trans h₂)
  have hname := hw.sameFile
  unfold FinishEnds SstWriter.finishSections
  dsimp only
  refine Ends.bind (writeFilter_ends hfl hbloom hw.written hw.room hw.region) ?_ ?_
  · rintro ⟨w₁, fh⟩ wd₁ ⟨⟨fb, hwrote₁, hw₁, hroom, hfb, hfh, hfat⟩, hf₁⟩
    dsimp only at hw₁
    subst hw₁
    rw [hname] at hwrote₁
    dsimp only
    have hfilelen : (file ++ fb).length = file.length + filterLength n params := by
      rw [List.length_append, hfb]
    refine Ends.lift_bind ?_ ?_
    · intro ib hbuild
      have hib : ib = blockBytes (w.pendingIndex.map SstWriter.indexRec) :=
        buildIndexBlock_ok hbuild
      rw [← hib] at hindex
      refine Ends.bind (append_ends _ _ wd₁) ?_ ?_
      · rintro - wd₂ ⟨hwrote₂, hf₂⟩
        rw [hname] at hwrote₂
        refine Ends.addU64_bind ?_ ?_
        · intro hlt₂
          refine Ends.expectU32_bind ?_ ?_
          · intro h32
            have hzero : 0 < 256 ^ 4 := by decide
            have hmh : BlockHandle.Fits ⟨(file ++ fb).length, 0, 0⟩ := ⟨hroom, hzero, hzero⟩
            have hbody := tableParts_sections hw hfat hfh hmh hib h32 hroom
            generalize hfooter : (Footer.newSigned ⟨(file ++ fb).length, ib.length,
              SstWriter.trailingCrc ib⟩ fh ⟨(file ++ fb).length, 0, 0⟩).asBytes = footer at hbody ⊢
            refine Ends.bind (append_ends _ _ wd₂) ?_ ?_
            · rintro - wd₃ ⟨hwrote₃, hf₃⟩
              rw [hname] at hwrote₃
              have hwrote := (hwrote₁.trans hwrote₂).trans hwrote₃
              have hfaults : wd.faults = [] → wd₃.faults = [] := fun h => hf₃ (hf₂ (hf₁ h))
              refine Ends.addU64_bind ?_ ?_
              · intro _
                rw [List.append_assoc, List.append_assoc, ← List.append_assoc fb] at hbody
                have hheader := headerOf_fileHeader hw ⟨(file ++ fb).length, rfl⟩
                generalize hh : SstWriter.fileHeader _ w.bytesWritten = header at hheader ⊢
                rw [hname]
                exact writeHeader_ends hdisk hwrote hfaults hw.region hheader hbody
              · intro hover
                exact ⟨.inl ⟨_, hwrote⟩, hfile hover (by omega)⟩
            · rintro - wd₃ ⟨hne, k, hwrote₃⟩
              rw [hname] at hwrote₃
              exact ⟨.inl ⟨_, (hwrote₁.trans hwrote₂).trans hwrote₃⟩,
                .data (.fault fun h => hne (hf₂ (hf₁ h)))⟩
          · intro hover
            exact ⟨.inl ⟨_, hwrote₁.trans hwrote₂⟩, .index (hindex ▸ hover)⟩
        · intro hover
          exact ⟨.inl ⟨_, hwrote₁.trans hwrote₂⟩, hfile hover (by omega)⟩
      · rintro - wd₂ ⟨hne, k, hwrote₂⟩
        rw [hname] at hwrote₂
        exact ⟨.inl ⟨_, hwrote₁.trans hwrote₂⟩, .data (.fault fun h => hne (hf₁ h))⟩
    · intro e hbuild
      have hover := buildIndexBlock_error (w := w) hbuild
      exact ⟨.inl ⟨fb, hwrote₁⟩, .index (hindex ▸ hover)⟩
  · rintro - wd₁ ⟨⟨bs, hwrote⟩, hcause⟩
    rw [hname] at hwrote
    refine ⟨.inl ⟨bs, hwrote⟩, ?_⟩
    rcases hcause with hne | hlong | hover
    · exact .data (.fault hne)
    · exact .filter (.inr hlong)
    · exact hfile hover (by omega)

theorem TableWritten.of_wrote {wd₁ wd₂ : World} {bs data : Bytes} (hw : Wrote name wd wd₁ bs)
    (h : TableWritten prims crypto name wd₁ wd₂ (file ++ bs) blocks dataEnd data) :
    TableWritten prims crypto name wd wd₂ file blocks dataEnd data := by
  obtain ⟨evs, happ, hlog⟩ := hw
  obtain ⟨evs', bs', happ', hbody, hlog'⟩ := h
  rw [List.append_assoc] at hbody
  refine ⟨evs' ++ evs, bs ++ bs', happ.trans happ', hbody, ?_⟩
  rw [hlog', hlog, List.append_assoc]

theorem finish_table_ends {cur : List Rec} {s : Bool}
    (hw : Writing prims crypto bloom₀ size name w file blocks cur)
    (hfilter : FilterOf n params bloom₀) (hdisk : wd.disk name = some ⟨file, s⟩) :
    FinishEnds prims crypto name wd file n params (blocks ++ cutBlocks size cur [])
      (w.finish prims) := by
  have hcut : cutBlocks size cur [] = if cur = [] then [] else [cur] := rfl
  unfold FinishEnds SstWriter.finish
  refine Ends.bind (flushBlock_ends hw) ?_ ?_
  · rintro w₁ wd₁ ⟨⟨bs, hwrote, hw₁⟩, hf₁⟩
    obtain ⟨s', hdisk₁⟩ := disk_of_wrote hwrote hdisk
    refine Ends.mono (finishSections_ends hw₁ hfilter hdisk₁) ?_ ?_
    · rintro - wd₂ ⟨⟨header, dataEnd, hheader, htable⟩, hf₂⟩
      exact ⟨⟨header, dataEnd, hheader, htable.of_wrote hwrote⟩, fun h => hf₂ (hf₁ h)⟩
    · rintro - wd₂ ⟨hleft, hcause⟩
      refine ⟨?_, hcause.earlier hf₁⟩
      rcases hleft with ⟨bs', hwrote'⟩ | ⟨hne, data, dataEnd, hdata, htable⟩
      · exact .inl ⟨_, hwrote.trans hwrote'⟩
      · exact .inr ⟨fun h => hne (hf₁ h), data, dataEnd, hdata, htable.of_wrote hwrote⟩
  · rintro - wd₁ ⟨hbs, hne, hcause⟩
    rw [hcut, if_neg hne]
    exact ⟨.inl hbs, .data hcause⟩

/-! ### A whole table -/

/-- Nothing but zeros where the header goes. -/
def Unfinished (bs : Bytes) : Prop :=
  bs <+: zeros fileHeaderRegionSize ∨ zeros fileHeaderRegionSize <+: bs

/-- What a call that writes the table `name` leaves when it fails. -/
def TableLeft (prims : Primitives) (crypto : Option CryptoCtx) (name : FileName) (wd wd' : World)
    (blocks : List (List Rec)) : Prop :=
  wd'.log = wd.log ∨
  (∃ evs bs, Appends name evs bs ∧ Unfinished bs ∧
    wd'.log = evs ++ .openWritable name :: wd.log) ∨
  wd.faults ≠ [] ∧ ∃ data dataEnd evs bs, data.length ≤ fileHeaderSize ∧ Appends name evs bs ∧
    TableBody prims crypto bs blocks dataEnd ∧
    wd'.log = .writeAt name data 0 :: (evs ++ .openWritable name :: wd.log)

/-- The table `name` was made. -/
def TableMade (prims : Primitives) (crypto : Option CryptoCtx) (name : FileName) (wd wd' : World)
    (blocks : List (List Rec)) : Prop :=
  ∃ header dataEnd evs bs, HeaderOf crypto blocks dataEnd header ∧ Appends name evs bs ∧
    zeros fileHeaderRegionSize <+: bs ∧ TableBody prims crypto bs blocks dataEnd ∧
    wd'.log = .writeAt name header.asBytes 0 :: (evs ++ .openWritable name :: wd.log)

theorem disk_of_opened {wd₁ wd₂ : World} {bs : Bytes} (hnew : wd.disk name = none)
    (hopen : wd₁.log = .openWritable name :: wd.log) (hw : Wrote name wd₁ wd₂ bs) :
    ∃ s, wd₂.disk name = some ⟨bs, s⟩ := by
  have hd : wd₁.disk name = some ⟨[], false⟩ := by
    unfold World.disk at *
    rw [hopen, diskOf_cons, Disk.apply, Function.update_self, hnew]
    rfl
  simpa using disk_of_wrote hw hd

theorem tableLeft_of_finish {wd₁ wd₂ wd₃ : World} {bs : Bytes}
    (hopen : wd₁.log = .openWritable name :: wd.log) (hw : Wrote name wd₁ wd₂ bs)
    (hf : wd.faults = [] → wd₂.faults = []) (hz : zeros fileHeaderRegionSize <+: bs)
    (h : (∃ bs', Wrote name wd₂ wd₃ bs') ∨ wd₂.faults ≠ [] ∧ ∃ data dataEnd,
      data.length ≤ fileHeaderSize ∧
        TableWritten prims crypto name wd₂ wd₃ bs blocks dataEnd data) :
    TableLeft prims crypto name wd wd₃ blocks := by
  rcases h with ⟨bs', hw'⟩ | ⟨hne, data, dataEnd, hdata, htable⟩
  · obtain ⟨evs, happ, hlog⟩ := hw.trans hw'
    refine .inr (.inl ⟨evs, _, happ, .inr (hz.trans (List.prefix_append _ _)), ?_⟩)
    rw [hlog, hopen]
  · obtain ⟨evs, happ, hlog⟩ := hw
    obtain ⟨evs', bs', happ', hbody, hlog'⟩ := htable
    refine .inr (.inr ⟨fun h => hne (hf h), data, dataEnd, evs' ++ evs, bs ++ bs', hdata,
      happ.trans happ', hbody, ?_⟩)
    rw [hlog', hlog, hopen, List.append_assoc]

theorem tableMade_of_finish {wd₁ wd₂ wd₃ : World} {bs : Bytes} {header : FileHeader}
    (hopen : wd₁.log = .openWritable name :: wd.log) (hw : Wrote name wd₁ wd₂ bs)
    (hz : zeros fileHeaderRegionSize <+: bs) (hheader : HeaderOf crypto blocks dataEnd header)
    (h : TableWritten prims crypto name wd₂ wd₃ bs blocks dataEnd header.asBytes) :
    TableMade prims crypto name wd wd₃ blocks := by
  obtain ⟨evs, happ, hlog⟩ := hw
  obtain ⟨evs', bs', happ', hbody, hlog'⟩ := h
  refine ⟨header, dataEnd, evs' ++ evs, bs ++ bs', hheader, happ.trans happ',
    hz.trans (List.prefix_append _ _), hbody, ?_⟩
  rw [hlog', hlog, hopen, List.append_assoc]

theorem table_ends {fill : SstWriter → Act World SstWriter} {rs : List Rec}
    (hnew : wd.disk name = none)
    (hfill : ∀ {bloom₀ : Option BlockedBloom} {w : SstWriter} {wd : World} {file : Bytes},
      Writing prims crypto bloom₀ defaultBlockSize name w file [] [] →
      Ends (fill w) wd (Stepped prims crypto bloom₀ size name file [] [] rs wd)
        fun _ wd' => (∃ bs, Wrote name wd wd' bs) ∧
          ∀ tail, Trouble prims crypto wd (cutBlocks size [] (rs ++ tail))) :
    Ends (do
      openWritable name
      let w ← SstWriter.createInner name n params crypto
      let w ← fill w
      w.finish prims) wd
      (fun _ wd' => TableMade prims crypto name wd wd' (cutBlocks size [] rs) ∧
        (wd.faults = [] → wd'.faults = []))
      fun _ wd' => TableLeft prims crypto name wd wd' (cutBlocks size [] rs) ∧
        TableTrouble prims crypto wd n params (cutBlocks size [] rs) := by
  refine Ends.bind (openWritable_ends name wd) ?_ ?_
  · rintro - wd₁ ⟨hopen, hf₁, -⟩
    refine Ends.bind (createInner_ends prims) ?_ ?_
    · rintro w₂ wd₂ ⟨⟨bloom₀, hfilter, hwrote₂, hw₂⟩, hf₂⟩
      refine Ends.bind (hfill hw₂) ?_ ?_
      · rintro w₃ wd₃ ⟨⟨bs, blocks, cur, hwrote₃, hw₃, hcut⟩, hf₃⟩
        have hwrote := hwrote₂.trans hwrote₃
        obtain ⟨s, hdisk⟩ := disk_of_opened hnew hopen hwrote
        have hblocks := hcut []
        rw [List.append_nil, List.nil_append] at hblocks
        have hfin := finish_table_ends hw₃ hfilter hdisk
        rw [hblocks] at hfin
        refine Ends.mono hfin ?_ ?_
        · rintro - wd₄ ⟨⟨header, dataEnd, hheader, htable⟩, hf₄⟩
          exact ⟨tableMade_of_finish hopen hwrote (List.prefix_append _ _) hheader htable,
            fun h => hf₄ (hf₃ (hf₂ (hf₁ h)))⟩
        · rintro - wd₄ ⟨hleft, hcause⟩
          exact ⟨tableLeft_of_finish hopen hwrote (fun h => hf₃ (hf₂ (hf₁ h)))
            (List.prefix_append _ _) hleft, hcause.earlier fun h => hf₃ (hf₂ (hf₁ h))⟩
      · rintro - wd₃ ⟨⟨bs, hwrote₃⟩, hcause⟩
        have htrouble := hcause []
        rw [List.append_nil] at htrouble
        exact ⟨tableLeft_of_finish hopen hwrote₂ (fun h => hf₂ (hf₁ h)) List.prefix_rfl
          (.inl ⟨bs, hwrote₃⟩), .data (htrouble.earlier fun h => hf₂ (hf₁ h))⟩
    · rintro - wd₂ ⟨⟨bs, hpre, hwrote₂⟩, hcause⟩
      obtain ⟨evs, happ, hlog⟩ := hwrote₂
      refine ⟨.inr (.inl ⟨evs, bs, happ, .inl hpre, ?_⟩), ?_⟩
      · rw [hlog, hopen]
      · rcases hcause with hne | hfail
        · exact .data (.fault fun h => hne (hf₁ h))
        · exact .filter hfail
  · rintro - wd₁ ⟨hlog, hne, -⟩
    exact ⟨.inl hlog, .data (.fault hne)⟩

theorem writeTable_ends {rs : List Rec} (hnew : wd.disk name = none)
    (hrs : ∀ r ∈ rs, r.seqno < u64Size) :
    Ends (SstWriter.writeTable prims name n params crypto size rs) wd
      (fun _ wd' => TableMade prims crypto name wd wd' (cutBlocks size [] rs) ∧
        (wd.faults = [] → wd'.faults = []))
      fun _ wd' => TableLeft prims crypto name wd wd' (cutBlocks size [] rs) ∧
        TableTrouble prims crypto wd n params (cutBlocks size [] rs) :=
  table_ends hnew fun hw => addAll_ends (writing_setBlockSize hw size) hrs

end

end PaddockKV.Sstable
