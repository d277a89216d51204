import PaddockKV.Sstable.Lookup
import PaddockKV.Sstable.Table

/-!
# Reading a finished table

Whoever opens a file with the parts of a table in it reads the records of its
blocks: a scan returns them in order, a lookup is `tableGet` on the blocks. A
file whose header region is empty is not opened.
-/

namespace PaddockKV.Sstable

open Io Crypto PaddockKV.Filter SstReader

/-! ### Lookups return records of the table -/

theorem skipNewer_some {P : Rec → Prop} {recs : List Rec} {key : Key} {snapshot fuel : ℕ}
    {start : Option Rec} {r : Rec} (hrecs : ∀ x ∈ recs, P x) (hstart : ∀ x, start = some x → P x)
    (h : skipNewer recs key snapshot fuel start = some r) : P r ∧ r.Visible key snapshot := by
  induction fuel generalizing start with
  | zero => cases h
  | succ fuel ih =>
    cases start with
    | none => cases h
    | some x =>
      rw [skipNewer] at h
      split at h
      · cases h
      · rename_i hkey
        split at h
        · rename_i hseq
          cases h
          exact ⟨hstart r rfl, not_not.mp hkey, hseq⟩
        · exact ih (fun y hy => hrecs y (List.mem_of_find?_eq_some hy)) h

theorem seekRecs_mem {rs : List Rec} {key : Key} {r : Rec} (h : seekRecs rs key = some r) :
    r ∈ rs := by
  obtain ⟨i, -, hi⟩ := Option.bind_eq_some_iff.mp h
  exact List.mem_of_getElem? hi

theorem tableGet_some {blocks : List (List Rec)} {key : Key} {snapshot : ℕ} {r : Rec}
    (h : tableGet blocks key snapshot = some r) :
    r ∈ blocks.flatten ∧ r.Visible key snapshot := by
  obtain ⟨j, -, h⟩ := Option.bind_eq_some_iff.mp h
  obtain ⟨b, hb, h⟩ := Option.bind_eq_some_iff.mp h
  obtain ⟨hr, hv⟩ := skipNewer_some (fun _ hx => hx) (fun x hx => seekRecs_mem hx) h
  exact ⟨List.mem_flatten.mpr ⟨b, List.mem_of_getElem? hb, hr⟩, hv⟩

/-! ### Blocks and the index -/

/-- The reader has the parts of a table with these blocks at hand. -/
structure ReaderOf (prims : Primitives) (r : SstReader) (blocks : List (List Rec))
    (dataEnd : ℕ) (index : List (Key × BlockHandle)) : Prop where
  indexBytes : r.indexBytes = blockBytes (index.map SstWriter.indexRec)
  indexFits : BlockFits (index.map SstWriter.indexRec)
  blocksAt : List.Forall₂ (IndexEntry prims r.crypto r.file) index blocks
  ordered : index.Pairwise Behind
  inData : ∀ e ∈ index, e.2.offset + e.2.length ≤ dataEnd
  bloom : ∀ f, r.bloom = some f → ∀ x ∈ blocks.flatten, f.contains prims.xxh3 x.key = true

section

variable {prims : Primitives} {r : SstReader} {blocks : List (List Rec)} {dataEnd : ℕ}
  {index : List (Key × BlockHandle)}

theorem readDataBlock_at {h : BlockHandle} {rs : List Rec}
    (hb : BlockAt prims r.crypto r.file h rs) : readDataBlock prims r h = .ok (blockBytes rs) := by
  obtain ⟨onDisk, hat, hlen, hsealed⟩ := hb.bytes
  have hinside := hb.inside
  have hread := hat.readAt (by omega)
  rw [hlen] at hread
  unfold readDataBlock
  rw [hread, res_ok_bind]
  cases hc : r.crypto with
  | none =>
    rw [hc] at hsealed
    exact congrArg Except.ok hsealed
  | some ctx =>
    rw [hc] at hsealed
    have hopen : ctx.openBlock prims h.offset onDisk = some (blockBytes rs) := hsealed
    simp only [hopen]
    rfl

theorem blockRecords_at {h : BlockHandle} {rs : List Rec}
    (hb : BlockAt prims r.crypto r.file h rs) : blockRecords prims r h = .ok rs := by
  unfold blockRecords
  rw [readDataBlock_at hb]
  show (do let reader ← BlockReader.openBlock (blockBytes rs); Except.ok reader.iter) = _
  rw [openBlock_blockBytes hb.fits.restarts]
  exact congrArg Except.ok (iter_readerOf hb.fits.recs)

theorem decodeBlockHandle_asBytes {h : BlockHandle} (hf : h.Fits) :
    decodeBlockHandle h.asBytes = .ok h := by
  unfold decodeBlockHandle
  have hlen : h.asBytes.length = blockHandleSize := BlockHandle.asBytes_length h
  rw [if_neg (by omega), List.take_of_length_le hlen.le]
  have href := BlockHandle.refFromBytes_asBytes hf []
  rw [List.append_nil] at href
  rw [href]

theorem openIndex (hr : ReaderOf prims r blocks dataEnd index) :
    BlockReader.openBlock r.indexBytes = .ok (readerOf (index.map SstWriter.indexRec)) := by
  rw [hr.indexBytes]
  exact openBlock_blockBytes hr.indexFits.restarts

theorem mapM_index {α : Type} {f : Rec → Res α} {g : Key × BlockHandle → α}
    (h : ∀ e ∈ index, f (SstWriter.indexRec e) = .ok (g e)) :
    (index.map SstWriter.indexRec).mapM f = .ok (index.map g) := by
  induction index with
  | nil => rfl
  | cons e index ih =>
    rw [List.map_cons, List.mapM_cons, h e List.mem_cons_self,
      ih fun x hx => h x (List.mem_cons_of_mem e hx)]
    rfl

theorem handle_fits (hr : ReaderOf prims r blocks dataEnd index) {e : Key × BlockHandle}
    (he : e ∈ index) : e.2.Fits := by
  obtain ⟨rs, -, hb⟩ := exists_block_of_mem hr.blocksAt he
  exact hb.handle

theorem decodeIndexHandles_eq (hr : ReaderOf prims r blocks dataEnd index) :
    decodeIndexHandles r.indexBytes = .ok (index.map Prod.snd) := by
  unfold decodeIndexHandles
  rw [openIndex hr]
  show (readerOf (index.map SstWriter.indexRec)).iter.mapM _ = _
  rw [iter_readerOf hr.indexFits.recs]
  exact mapM_index fun e he => decodeBlockHandle_asBytes (handle_fits hr he)

/-! ### Scans and lookups -/

theorem stream_blocks {bs : List (List Rec)} {entries : List (Key × BlockHandle)}
    (h : List.Forall₂ (IndexEntry prims r.crypto r.file) entries bs) :
    ((entries.map Prod.snd).flatMap fun handle =>
      match blockRecords prims r handle with
      | .ok rs => rs.map .ok
      | .error e => [.error e]) = bs.flatten.map (Except.ok : Rec → Res Rec) := by
  induction h with
  | nil => rfl
  | cons hb _ ih =>
    rw [List.map_cons, List.flatMap_cons, ih, blockRecords_at hb.2, List.flatten_cons,
      List.map_append]

theorem scanStream_eq (hr : ReaderOf prims r blocks dataEnd index) :
    scanStream prims r = .ok (blocks.flatten.map .ok) := by
  unfold scanStream
  rw [decodeIndexHandles_eq hr]
  exact congrArg Except.ok (stream_blocks hr.blocksAt)

theorem mapM_blocks {bs : List (List Rec)} {entries : List (Key × BlockHandle)}
    (h : List.Forall₂ (IndexEntry prims r.crypto r.file) entries bs) :
    ((entries.map SstWriter.indexRec).mapM fun entry => do
      let handle ← decodeBlockHandle entry.value
      blockRecords prims r handle) = .ok bs := by
  induction h with
  | nil => rfl
  | @cons e b _ _ hb _ ih =>
    have hvalue : (SstWriter.indexRec e).value = e.2.asBytes := rfl
    rw [List.map_cons, List.mapM_cons, ih, hvalue, decodeBlockHandle_asBytes hb.2.handle]
    show (do let x ← blockRecords prims r e.2; _) = _
    rw [blockRecords_at hb.2]
    rfl

theorem scan_eq (hr : ReaderOf prims r blocks dataEnd index) :
    scan prims r = .ok blocks.flatten := by
  unfold scan
  rw [openIndex hr]
  show Except.bind ((readerOf (index.map SstWriter.indexRec)).iter.mapM _) _ = _
  rw [iter_readerOf hr.indexFits.recs, mapM_blocks hr.blocksAt]
  rfl

theorem index_keys {bs : List (List Rec)} {entries : List (Key × BlockHandle)}
    (h : List.Forall₂ (IndexEntry prims r.crypto r.file) entries bs) :
    (entries.map SstWriter.indexRec).map Rec.key = bs.map (lastKeyOf []) := by
  induction h with
  | nil => rfl
  | cons hb _ ih =>
    rw [List.map_cons, List.map_cons, List.map_cons, ih, ← hb.1]
    rfl

theorem forall₂_getElem? {α β : Type} {R : α → β → Prop} {as : List α} {bs : List β}
    (h : List.Forall₂ R as bs) (j : ℕ) : Option.Rel R as[j]? bs[j]? := by
  induction h generalizing j with
  | nil => exact .none
  | cons hab _ ih =>
    cases j with
    | zero => exact .some hab
    | succ j => exact ih j

theorem locateBlock_eq (hr : ReaderOf prims r blocks dataEnd index) (key : Key) :
    locateBlock r key =
      .ok ((seekPos (blocks.map (lastKeyOf [])) key).bind fun j => (index[j]?).map Prod.snd) := by
  unfold locateBlock
  rw [openIndex hr, res_ok_bind, seek_readerOf hr.indexFits.recs hr.indexFits.entries, seekRecs,
    index_keys hr.blocksAt]
  cases seekPos (blocks.map (lastKeyOf [])) key with
  | none => rfl
  | some j =>
    rw [Option.bind_some, Option.bind_some, List.getElem?_map]
    cases hj : index[j]? with
    | none => rfl
    | some e =>
      have hdecode : decodeBlockHandle (SstWriter.indexRec e).value = .ok e.2 :=
        decodeBlockHandle_asBytes (handle_fits hr (List.mem_of_getElem? hj))
      simp only [Option.map_some, hdecode, res_ok_bind]
      rfl

theorem tableGet_pruned (hr : ReaderOf prims r blocks dataEnd index) {key : Key}
    (h : (r.bloom.any fun f => !f.contains prims.xxh3 key) = true) (snapshot : ℕ) :
    tableGet blocks key snapshot = none := by
  obtain ⟨f, hf, hno⟩ := (Option.any_eq_true ..).mp h
  cases hget : tableGet blocks key snapshot with
  | none => rfl
  | some x =>
    obtain ⟨hx, rfl, -⟩ := tableGet_some hget
    rw [hr.bloom f hf x hx] at hno
    cases hno

theorem get_eq (hr : ReaderOf prims r blocks dataEnd index) (key : Key) (snapshot : ℕ) :
    SstReader.get prims r key snapshot = .ok (tableGet blocks key snapshot) := by
  unfold SstReader.get
  split
  · rename_i h
    rw [tableGet_pruned hr h]
  · rw [locateBlock_eq hr, res_ok_bind]
    unfold tableGet
    cases seekPos (blocks.map (lastKeyOf [])) key with
    | none => rfl
    | some j =>
      have hrel := forall₂_getElem? hr.blocksAt j
      simp only [Option.bind_some, Option.bind_eq_bind]
      generalize index[j]? = entry, blocks[j]? = block at hrel
      cases hrel with
      | none => rfl
      | @some e b hentry =>
        have hfits := hentry.2.fits
        simp only [Option.map_some, Option.bind_some, readDataBlock_at hentry.2, res_ok_bind,
          openBlock_blockBytes hfits.restarts, iter_readerOf hfits.recs,
          seek_readerOf hfits.recs hfits.entries]
        rfl

/-! ### Opening -/

variable {crypto : Option CryptoCtx} {file : Bytes} {ih fh mh : BlockHandle}
  {bloom : Option BlockedBloom}

theorem readBloom_eq {rs : List Rec} (h : FilterAt prims file fh bloom rs) :
    readBloom file fh = .ok bloom := by
  unfold readBloom
  cases bloom with
  | none => exact if_pos h
  | some f =>
    obtain ⟨hat, hlen, -, hin, hv, -⟩ := h
    have hne : fh.length ≠ 0 := by
      rw [← hlen, encode_length hv]
      unfold headerSize
      omega
    have hread := hat.readAt hin
    rw [hlen] at hread
    rw [if_neg hne, hread, res_ok_bind, decode_encode hv, res_ok_bind]
    rfl

theorem openInner_eq (h : TableParts prims crypto file blocks dataEnd index ih fh mh bloom) :
    openInner file crypto = do
      let headerBytes ← readAt file 0 fileHeaderSize
      let header := FileHeader.refFromBytes headerBytes
      if !header.isValid then
        .error (.err (.corruption "sstable file header"
          "magic / version / reserved / checksum mismatch"))
      else
        checkEncryption (header.flags &&& flag.encrypted ≠ 0) crypto.isSome
        return ⟨file, header, Footer.newSigned ih fh mh,
          blockBytes (index.map SstWriter.indexRec), bloom, crypto⟩ := by
  have hsize := h.size
  have hfooter := h.footer.readAt (by omega)
  rw [Footer.asBytes_length] at hfooter
  have href := footer_refFromBytes h.handles.1 h.handles.2.1 h.handles.2.2 []
  rw [List.append_nil] at href
  have hvalid := footer_isValid ih fh mh
  have hindex := h.indexAt.readAt h.indexInside
  rw [h.indexLength] at hindex
  have hbloom := readBloom_eq h.filter
  have hfi : (Footer.newSigned ih fh mh).indexHandle = ih := rfl
  have hff : (Footer.newSigned ih fh mh).filterHandle = fh := rfl
  have hlong : ¬ file.length < fileHeaderSize + footerSize := by
    unfold fileHeaderSize fileHeaderRegionSize at *
    omega
  generalize Footer.newSigned ih fh mh = footer at *
  unfold openInner
  dsimp only
  rw [if_neg hlong, hfooter, res_ok_bind, href, if_neg (by rw [hvalid]; decide), hfi, hff, hindex,
    hbloom]
  simp only [res_ok_bind]

theorem readerOf_parts (h : TableParts prims crypto file blocks dataEnd index ih fh mh bloom)
    (header : FileHeader) :
    ReaderOf prims ⟨file, header, Footer.newSigned ih fh mh,
      blockBytes (index.map SstWriter.indexRec), bloom, crypto⟩ blocks dataEnd index := by
  refine ⟨rfl, h.indexFits, h.blocksAt, h.ordered, h.inData, ?_⟩
  rintro f hf x hx
  have hfilter := h.filter
  have hf : bloom = some f := hf
  rw [hf] at hfilter
  exact hfilter.2.2.2.2.2 x hx

theorem readerOf_openInner (h : TableBody prims crypto file blocks dataEnd)
    (hopen : openInner file crypto = .ok r) : ∃ index, ReaderOf prims r blocks dataEnd index := by
  obtain ⟨index, ih, fh, mh, bloom, h⟩ := h
  rw [openInner_eq h] at hopen
  obtain ⟨headerBytes, -, hopen⟩ := res_bind_eq_ok.mp hopen
  dsimp only at hopen
  split at hopen
  · cases hopen
  · obtain ⟨_, -, hopen⟩ := res_bind_eq_ok.mp hopen
    cases hopen
    exact ⟨index, readerOf_parts h _⟩

theorem checkEncryption_self (b : Bool) : checkEncryption b b = .ok () := by
  cases b <;> rfl

theorem openInner_table {header : FileHeader} (h : TableBody prims crypto file blocks dataEnd)
    (hheader : HeaderOf crypto blocks dataEnd header) (hat : At file 0 header.asBytes) :
    ∃ r, openInner file crypto = .ok r ∧ r.header = header := by
  obtain ⟨index, ih, fh, mh, bloom, h⟩ := h
  have hread := hat.readAt (Nat.zero_le _)
  rw [FileHeader.asBytes_length] at hread
  have href := hheader.readBack []
  rw [List.append_nil] at href
  refine ⟨⟨file, header, Footer.newSigned ih fh mh, blockBytes (index.map SstWriter.indexRec),
    bloom, crypto⟩, ?_, rfl⟩
  rw [openInner_eq h, hread, res_ok_bind, href]
  dsimp only
  rw [if_neg (by rw [hheader.valid]; decide), hheader.flags, checkEncryption_self, res_ok_bind]
  rfl

theorem openInner_unfinished (h : Unfinished file) : openInner file crypto ≠ .ok r := by
  intro hopen
  unfold openInner at hopen
  dsimp only at hopen
  split at hopen
  · cases hopen
  · rename_i hlong
    obtain ⟨footerBytes, -, hopen⟩ := res_bind_eq_ok.mp hopen
    split at hopen
    · cases hopen
    · have hat : At file 0 (zeros fileHeaderSize) := by
        have hpre : zeros fileHeaderSize <+: zeros fileHeaderRegionSize := zeros_prefix_zeros (by decide)
        rcases h with h | h
        · refine List.prefix_of_prefix_length_le hpre h ?_
          rw [zeros_length, List.drop_zero]
          omega
        · exact hpre.trans h
      have hread := hat.readAt (Nat.zero_le _)
      rw [zeros_length] at hread
      rw [hread, res_ok_bind] at hopen
      have hinvalid : (FileHeader.refFromBytes (zeros fileHeaderSize)).isValid = false := by decide
      rw [if_pos (by rw [hinvalid]; decide)] at hopen
      cases hopen

/-! ### What was written is read -/

/-- The file is a finished table with these blocks. -/
def TableFile (prims : Primitives) (crypto : Option CryptoCtx) (file : Bytes)
    (blocks : List (List Rec)) : Prop :=
  ∃ dataEnd header, TableBody prims crypto file blocks dataEnd ∧
    HeaderOf crypto blocks dataEnd header ∧ At file 0 header.asBytes

theorem at_overwrite (file data : Bytes) :
    At (overwrite file data 0) 0 data := by
  unfold At Io.overwrite
  rw [List.take_zero, List.nil_append, List.drop_zero]
  exact List.prefix_append _ _

theorem disk_made {name : FileName} {wd wd' : World} (h : TableMade prims crypto name wd wd' blocks)
    (hnew : wd.disk name = none) :
    ∃ file s, wd'.disk = Function.update wd.disk name (some ⟨file, s⟩) ∧
      TableFile prims crypto file blocks := by
  obtain ⟨header, dataEnd, evs, bs, hheader, happ, -, hbody, hlog⟩ := h
  have hopened : (wd.call (.openWritable name)).disk =
      Function.update wd.disk name (some ⟨[], false⟩) := by
    rw [World.disk_call, Disk.apply, hnew]
    rfl
  have hname : (wd.call (.openWritable name)).disk name = some ⟨[], false⟩ := by
    rw [hopened, Function.update_self]
  obtain ⟨s, -, hdisk⟩ := diskOf_appends happ hname
  rw [List.nil_append] at hdisk
  have hdisk : diskOf (evs ++ .openWritable name :: wd.log) =
      Function.update wd.disk name (some ⟨bs, s⟩) := by
    refine hdisk.trans ?_
    show Function.update (wd.call (.openWritable name)).disk name _ = _
    rw [hopened, Function.update_idem]
  have hlen : header.asBytes.length = fileHeaderSize := FileHeader.asBytes_length header
  refine ⟨overwrite bs header.asBytes 0, false, ?_, dataEnd, header, ?_, hheader, ?_⟩
  · unfold World.disk at hdisk ⊢
    rw [hlog, diskOf_cons, Disk.apply, hdisk, Function.update_self, Function.update_idem]
    rfl
  · exact hbody.overwrite (by rw [hlen]; decide)
  · exact at_overwrite bs header.asBytes

theorem disk_of_made {name : FileName} {wd wd' : World} (h : TableMade prims crypto name wd wd' blocks)
    (hnew : wd.disk name = none) :
    ∃ file s, wd'.disk name = some ⟨file, s⟩ ∧ TableFile prims crypto file blocks := by
  obtain ⟨file, s, hdisk, htable⟩ := disk_made h hnew
  refine ⟨file, s, ?_, htable⟩
  rw [hdisk, Function.update_self]

/-- A table that was finished is opened, and both scans return what was added. The
header counts it, and the data blocks lie aligned and apart between the header
region and the end the header gives. The writer fails only on a failing call, a
block it cannot seal, keys out of order in a block, filter parameters it rejects,
and a block, filter, index or file whose length does not fit its word. -/
theorem scan_writeTable (prims : Primitives) (name : FileName) (expectedKeys : ℕ)
    (params : BloomParams) (crypto : Option CryptoCtx) (blockSize : ℕ) (rs : List Rec) (wd : World)
    (hnew : wd.disk name = none) (hrs : ∀ r ∈ rs, r.seqno < u64Size) :
    Ends (SstWriter.writeTable prims name expectedKeys params crypto blockSize rs) wd
      (fun _ wd' => ∃ r handles, openInner (wd'.bytesOf name) crypto = .ok r ∧
        scan prims r = .ok rs ∧ scanStream prims r = .ok (rs.map .ok) ∧
        decodeIndexHandles r.indexBytes = .ok handles ∧
        r.header.numEntries = rs.length ∧ r.header.numBlocks = handles.length ∧
        r.header.maxSeqno = maxSeqnoOf rs ∧
        (∀ h ∈ handles, h.offset % blockAlignment = 0 ∧ fileHeaderRegionSize ≤ h.offset ∧
          h.offset + h.length ≤ r.header.dataBlocksEndOffset) ∧
        handles.Pairwise fun a b => a.offset + a.length ≤ b.offset)
      fun _ _ => TableTrouble prims crypto wd expectedKeys params (cutBlocks blockSize [] rs) := by
  refine Ends.mono (writeTable_ends hnew hrs) ?_ (fun _ _ h => h.2)
  rintro - wd' ⟨hmade, -⟩
  obtain ⟨file, s, hdisk, dataEnd, header, hbody, hheader, hat⟩ := disk_of_made hmade hnew
  have hbytes : wd'.bytesOf name = file := by
    unfold World.bytesOf
    rw [hdisk]
  obtain ⟨r, hopen, hrh⟩ := openInner_table hbody hheader hat
  obtain ⟨index, hreader⟩ := readerOf_openInner hbody hopen
  have hflat : (cutBlocks blockSize [] rs).flatten = rs := by
    rw [cutBlocks_flatten, List.nil_append]
  refine ⟨r, index.map Prod.snd, ?_, ?_, ?_, decodeIndexHandles_eq hreader, ?_, ?_, ?_, ?_, ?_⟩
  · rw [hbytes]
    exact hopen
  · rw [scan_eq hreader, hflat]
  · rw [scanStream_eq hreader, hflat]
  · rw [hrh, hheader.numEntries, hflat]
  · rw [hrh, hheader.numBlocks, List.length_map, hreader.blocksAt.length_eq]
  · rw [hrh, hheader.maxSeqno, hflat]
  · intro h hh
    obtain ⟨e, he, rfl⟩ := List.mem_map.mp hh
    obtain ⟨b, -, hb⟩ := exists_block_of_mem hreader.blocksAt he
    refine ⟨hb.aligned, hb.behindHeader, ?_⟩
    rw [hrh, hheader.endOffset]
    exact hreader.inData e he
  · exact List.pairwise_map.mpr hreader.ordered

end

def twoRecs : List Rec := [⟨[1], 6, .tombstone, []⟩, ⟨[2], 5, .put, [9]⟩]

-- an encrypted table with a filter and blocks of the default size
theorem scan_writeTable_two :
    Ends (SstWriter.writeTable .blank (.sst 3) 2 ⟨7, 10⟩ (some ⟨[], 3⟩) defaultBlockSize twoRecs)
      ⟨[], []⟩
      (fun _ wd' => ∃ r handles, openInner (wd'.bytesOf (.sst 3)) (some ⟨[], 3⟩) = .ok r ∧
        scan .blank r = .ok twoRecs ∧ scanStream .blank r = .ok (twoRecs.map .ok) ∧
        decodeIndexHandles r.indexBytes = .ok handles ∧
        r.header.numEntries = twoRecs.length ∧ r.header.numBlocks = handles.length ∧
        r.header.maxSeqno = maxSeqnoOf twoRecs ∧
        (∀ h ∈ handles, h.offset % blockAlignment = 0 ∧ fileHeaderRegionSize ≤ h.offset ∧
          h.offset + h.length ≤ r.header.dataBlocksEndOffset) ∧
        handles.Pairwise fun a b => a.offset + a.length ≤ b.offset)
      fun _ _ => False :=
  Ends.mono (scan_writeTable .blank (.sst 3) 2 ⟨7, 10⟩ (some ⟨[], 3⟩) defaultBlockSize twoRecs
    ⟨[], []⟩ rfl (by decide)) (fun _ _ h => h)
    fun _ _ h =>
      Writable.not_trouble (by decide +kernel) rfl (fun _ _ _ _ => not_sealFails_blank _ _) h

end PaddockKV.Sstable
