import PaddockKV.Filter.Total
import PaddockKV.Sstable.BlockTotal
import PaddockKV.Sstable.Lookup

/-!
# Reading an arbitrary file as a table

The reader of a table and its stream, over the checked blocks and the checked
filter. Whatever the bytes of the file are, no check fires and every loop ends:
the checked reader does what the model of the reader does.
-/

namespace PaddockKV.Sstable

open Io Crypto PaddockKV.Filter

namespace Checked

def decodeBlockHandle (bytes : Bytes) : Res BlockHandle :=
  if bytes.length < blockHandleSize then
    .error (.err (.invalidFormat "sstable index value" "shorter than BlockHandle"))
  else do
    let handle ← slice bytes 0 blockHandleSize
    .ok (BlockHandle.refFromBytes handle)

def readBloom (file : Bytes) (handle : BlockHandle) : Res (Option BlockedBloom) :=
  if handle.length = 0 then .ok none
  else do
    let filterBytes ← readAt file handle.offset handle.length
    let bloom ← Filter.Checked.decode filterBytes
    return some bloom

/-- `SstReader::open`. -/
def openTable (file : Bytes) : Res SstReader := do
  let size := file.length
  if size < fileHeaderSize + footerSize then
    .error (.err (.invalidFormat "sstable" "file smaller than header + footer"))
  else
    let footerAt ← subWord size footerSize
    let footerBytes ← readAt file footerAt footerSize
    let footer := Footer.refFromBytes footerBytes
    if !footer.isValid then
      .error (.err (.corruption "sstable footer" "checksum / magic mismatch"))
    else
      let headerBytes ← readAt file 0 fileHeaderSize
      let header := FileHeader.refFromBytes headerBytes
      if !header.isValid then
        .error (.err (.corruption "sstable file header"
          "magic / version / reserved / checksum mismatch"))
      else
        SstReader.checkEncryption (header.flags &&& flag.encrypted ≠ 0) false
        let indexBytes ← readAt file footer.indexHandle.offset footer.indexHandle.length
        let bloom ← readBloom file footer.filterHandle
        return ⟨file, header, footer, indexBytes, bloom, none⟩

def locateBlock (r : SstReader) (key : Key) : Res (Option BlockHandle) := do
  let reader ← openBlock r.indexBytes
  match ← seek reader key with
  | none => return none
  | some entry =>
    let handle ← decodeBlockHandle entry.value
    return some handle

def skipNewer (recs : List Rec) (key : Key) (snapshot : ℕ) : ℕ → Option Rec → Res (Option Rec)
  | _, none => .ok none
  | 0, some _ => .error (.panicked "get: loop did not end")
  | fuel + 1, some r =>
    if r.key ≠ key then .ok none
    else if r.seqno ≤ snapshot then .ok (some r)
    else skipNewer recs key snapshot fuel (SstReader.nextAfter recs r.key r.seqno)

def pruned (xxh3 : Bytes → UInt64) (backend : ProbeBackend) (bloom : Option BlockedBloom)
    (key : Key) : Res Bool :=
  match bloom with
  | none => .ok false
  | some f => do
    let found ← Filter.Checked.contains xxh3 backend f key
    return !found

protected def get (prims : Primitives) (backend : ProbeBackend) (r : SstReader) (key : Key)
    (snapshot : ℕ) : Res (Option Rec) := do
  if ← pruned prims.xxh3 backend r.bloom key then .ok none
  else
    match ← locateBlock r key with
    | none => return none
    | some handle =>
      let blockBytes ← r.readDataBlock prims handle
      let reader ← openBlock blockBytes
      let first ← seek reader key
      let recs ← iter reader
      skipNewer recs key snapshot (recs.length + 1) first

def blockRecords (prims : Primitives) (r : SstReader) (handle : BlockHandle) : Res (List Rec) := do
  let blockBytes ← r.readDataBlock prims handle
  let reader ← openBlock blockBytes
  iter reader

def scan (prims : Primitives) (r : SstReader) : Res (List Rec) := do
  let indexReader ← openBlock r.indexBytes
  let entries ← iter indexReader
  let blocks ← entries.mapM fun entry => do
    let handle ← decodeBlockHandle entry.value
    blockRecords prims r handle
  return blocks.flatten

def decodeIndexHandles (indexBytes : Bytes) : Res (List BlockHandle) := do
  let reader ← openBlock indexBytes
  let entries ← iter reader
  entries.mapM fun entry => decodeBlockHandle entry.value

/-! ### The stream -/

structure SstStream where
  handles : List BlockHandle
  nextBlock : ℕ
  current : List Rec

def scanStream (r : SstReader) : Res SstStream := do
  let handles ← decodeIndexHandles r.indexBytes
  return ⟨handles, 0, []⟩

def refill (prims : Primitives) (r : SstReader) : ℕ → Act SstStream Bool
  | 0 => Act.panic "refill: loop did not end"
  | fuel + 1 => do
    let s ← get
    if s.nextBlock < s.handles.length then
      let handle ← Act.lift (itemAt s.handles s.nextBlock)
      set { s with nextBlock := s.nextBlock + 1 }
      let records ← Act.lift (blockRecords prims r handle)
      if records = [] then refill prims r fuel
      else
        modify fun s => { s with current := records }
        return true
    else return false

def nextRecord (prims : Primitives) (r : SstReader) : ℕ → Act SstStream (Option Rec)
  | 0 => Act.panic "next_record: loop did not end"
  | fuel + 1 => do
    let s ← get
    match s.current with
    | rec :: rest =>
      set { s with current := rest }
      return some rec
    | [] =>
      if ← refill prims r (s.handles.length + 1) then nextRecord prims r fuel else return none

/-- The iterator run to its end. An `Err` is an item, and the next call goes on
behind it. -/
def drain (prims : Primitives) (r : SstReader) : ℕ → Act SstStream (List (Res Rec))
  | 0 => Act.panic "the stream did not end"
  | fuel + 1 => fun s =>
    match nextRecord prims r 2 s with
    | .ok none s' => .ok [] s'
    | .ok (some rec) s' => ((.ok rec :: ·) <$> drain prims r fuel) s'
    | .error (.err e) s' => ((.error (.err e) :: ·) <$> drain prims r fuel) s'
    | .error (.panicked msg) s' => .error (.panicked msg) s'

end Checked

/-! ### Opening a file -/

theorem leVal_take_lt (b : Bytes) : leVal (b.take 4) < u32Size :=
  (leVal_lt _).trans_le (Nat.pow_le_pow_right (by decide) (List.length_take_le _ _))

theorem refFromBytes_length_lt (b : Bytes) : (BlockHandle.refFromBytes b).length < u32Size :=
  leVal_take_lt _

theorem readAt_length {file bs : Bytes} {offset len : ℕ} (h : readAt file offset len = .ok bs) :
    bs.length = len := by
  unfold readAt at h
  split at h
  · cases h
  · cases h
    rw [List.length_take, List.length_drop]
    omega

theorem readAt_returns (file : Bytes) (offset len : ℕ) : Returns (readAt file offset len) := by
  unfold readAt
  split
  · exact Returns.err _
  · exact Returns.ok _

/-- What `open` leaves behind, and what every lookup rests on. -/
structure Opened (r : SstReader) : Prop where
  crypto : r.crypto = none
  index : r.indexBytes.length < u32Size
  bloom : ∀ f, r.bloom = some f → Valid f

theorem checked_readBloom (file : Bytes) (handle : BlockHandle) :
    Checked.readBloom file handle = SstReader.readBloom file handle := by
  unfold Checked.readBloom SstReader.readBloom
  simp only [checked_decode]

theorem readBloom_returns (file : Bytes) (handle : BlockHandle) :
    Returns (SstReader.readBloom file handle) := by
  unfold SstReader.readBloom
  split
  · exact Returns.ok none
  · exact (readAt_returns _ _ _).bind fun bs _ => (decode_returns bs).bind fun f _ =>
      Returns.ok (some f)

theorem readBloom_valid {file : Bytes} {handle : BlockHandle} {bloom : Option BlockedBloom}
    (h : SstReader.readBloom file handle = .ok bloom) : ∀ f, bloom = some f → Valid f := by
  unfold SstReader.readBloom at h
  split at h
  · cases h
    intro f hf
    cases hf
  · obtain ⟨bs, -, h⟩ := res_bind_eq_ok.mp h
    obtain ⟨g, hg, h⟩ := res_bind_eq_ok.mp h
    cases h
    intro f hf
    cases hf
    exact valid_decode hg

theorem checked_openTable (file : Bytes) :
    Checked.openTable file = SstReader.openInner file none := by
  unfold Checked.openTable SstReader.openInner
  dsimp only
  split
  · rfl
  · rename_i hlong
    rw [subWord_ok (by omega), res_ok_bind]
    simp only [checked_readBloom]
    rfl

theorem checkEncryption_returns (a b : Bool) : Returns (SstReader.checkEncryption a b) := by
  cases a <;> cases b
  · exact Returns.ok ()
  · exact Returns.err _
  · exact Returns.err _
  · exact Returns.ok ()

theorem openInner_returns (file : Bytes) : Returns (SstReader.openInner file none) := by
  unfold SstReader.openInner
  dsimp only
  split
  · exact Returns.err _
  · refine (readAt_returns _ _ _).bind fun footerBytes _ => ?_
    split
    · exact Returns.err _
    · refine (readAt_returns _ _ _).bind fun headerBytes _ => ?_
      split
      · exact Returns.err _
      · exact (checkEncryption_returns _ _).bind fun _ _ => (readAt_returns _ _ _).bind fun _ _ =>
          (readBloom_returns _ _).bind fun _ _ => Returns.ok _

theorem opened_of_openInner {file : Bytes} {r : SstReader}
    (h : SstReader.openInner file none = .ok r) : Opened r := by
  unfold SstReader.openInner at h
  dsimp only at h
  split at h
  · cases h
  · obtain ⟨footerBytes, -, h⟩ := res_bind_eq_ok.mp h
    split at h
    · cases h
    · obtain ⟨headerBytes, -, h⟩ := res_bind_eq_ok.mp h
      split at h
      · cases h
      · obtain ⟨_, -, h⟩ := res_bind_eq_ok.mp h
        obtain ⟨indexBytes, hindex, h⟩ := res_bind_eq_ok.mp h
        obtain ⟨bloom, hbloom, h⟩ := res_bind_eq_ok.mp h
        cases h
        exact ⟨rfl, (readAt_length hindex).trans_lt (leVal_take_lt _), readBloom_valid hbloom⟩

theorem checked_decodeBlockHandle (bytes : Bytes) :
    Checked.decodeBlockHandle bytes = decodeBlockHandle bytes := by
  unfold Checked.decodeBlockHandle decodeBlockHandle
  split
  · rfl
  · rename_i hlong
    rw [slice_ok (Nat.zero_le _) (not_lt.mp hlong), res_ok_bind, List.drop_zero, Nat.sub_zero]

theorem decodeBlockHandle_returns (bytes : Bytes) : Returns (decodeBlockHandle bytes) := by
  unfold decodeBlockHandle
  split
  · exact Returns.err _
  · exact Returns.ok _

theorem decodeBlockHandle_length {bytes : Bytes} {handle : BlockHandle}
    (h : decodeBlockHandle bytes = .ok handle) : handle.length < u32Size := by
  unfold decodeBlockHandle at h
  split at h
  · cases h
  · cases h
    exact refFromBytes_length_lt _

/-! ### The lookups of an opened table -/

section

variable {r : SstReader} (hr : Opened r) (prims : Primitives)

include hr

theorem readDataBlock_returns (handle : BlockHandle) : Returns (r.readDataBlock prims handle) := by
  unfold SstReader.readDataBlock
  rw [hr.crypto]
  exact (readAt_returns _ _ _).bind fun bs _ => Returns.ok bs

theorem readDataBlock_length {handle : BlockHandle} {bs : Bytes}
    (h : r.readDataBlock prims handle = .ok bs) : bs.length = handle.length := by
  unfold SstReader.readDataBlock at h
  rw [hr.crypto] at h
  obtain ⟨bs', hbs, h⟩ := res_bind_eq_ok.mp h
  cases h
  exact readAt_length hbs

theorem checked_locateBlock (key : Key) : Checked.locateBlock r key = r.locateBlock key := by
  unfold Checked.locateBlock SstReader.locateBlock
  rw [checked_openBlock]
  refine res_bind_congr fun reader hreader => ?_
  rw [checked_seek ((openBlock_records hreader).trans_lt hr.index), res_ok_bind]
  cases reader.seek key with
  | none => rfl
  | some entry =>
    dsimp only
    rw [checked_decodeBlockHandle]

omit hr in
theorem locateBlock_returns (key : Key) : Returns (r.locateBlock key) := by
  unfold SstReader.locateBlock
  refine (openBlock_returns _).bind fun reader _ => ?_
  split
  · exact Returns.ok none
  · exact (decodeBlockHandle_returns _).bind fun handle _ => Returns.ok (some handle)

omit hr in
theorem locateBlock_length {key : Key} {handle : BlockHandle}
    (h : r.locateBlock key = .ok (some handle)) : handle.length < u32Size := by
  unfold SstReader.locateBlock at h
  obtain ⟨reader, -, h⟩ := res_bind_eq_ok.mp h
  split at h
  · cases h
  · obtain ⟨handle', hdec, h⟩ := res_bind_eq_ok.mp h
    cases h
    exact decodeBlockHandle_length hdec

omit hr in
theorem checked_skipNewer {recs : List Rec} {key : Key} {snapshot fuel : ℕ} {r : Rec}
    (hfuel : recs.countP (fun x => x.key = key ∧ x.seqno < r.seqno) < fuel) :
    Checked.skipNewer recs key snapshot fuel (some r) =
      .ok (SstReader.skipNewer recs key snapshot fuel (some r)) := by
  induction fuel generalizing r with
  | zero => omega
  | succ fuel ih =>
    rw [Checked.skipNewer, SstReader.skipNewer]
    split
    · rfl
    · rename_i hkey
      split
      · rfl
      · rw [not_not.mp hkey]
        cases hnext : SstReader.nextAfter recs key r.seqno with
        | none =>
          rw [Checked.skipNewer]
          cases fuel <;> rfl
        | some r' =>
          have hlt := countP_below_lt hnext
          exact ih (by omega)

omit hr in
theorem checked_skipNewer_start (recs : List Rec) (key : Key) (snapshot : ℕ) (first : Option Rec) :
    Checked.skipNewer recs key snapshot (recs.length + 1) first =
      .ok (SstReader.skipNewer recs key snapshot (recs.length + 1) first) := by
  cases first with
  | none => rfl
  | some r => exact checked_skipNewer (Nat.lt_succ_of_le List.countP_le_length)

theorem checked_pruned (backend : ProbeBackend) (key : Key) :
    Checked.pruned prims.xxh3 backend r.bloom key =
      .ok (r.bloom.any fun f => !f.contains prims.xxh3 key) := by
  cases hbloom : r.bloom with
  | none => rfl
  | some f =>
    unfold Checked.pruned
    dsimp only
    rw [checked_contains (hr.bloom f hbloom), res_ok_bind]
    rfl

theorem checked_get (backend : ProbeBackend) (key : Key) (snapshot : ℕ) :
    Checked.get prims backend r key snapshot = r.get prims key snapshot := by
  unfold Checked.get SstReader.get
  rw [checked_pruned hr, res_ok_bind]
  split
  · rfl
  · rw [checked_locateBlock hr]
    refine res_bind_congr fun located hlocated => ?_
    cases located with
    | none => rfl
    | some handle =>
      dsimp only
      refine res_bind_congr fun bs hbs => ?_
      rw [checked_openBlock]
      refine res_bind_congr fun reader hreader => ?_
      have hsize : reader.records.length < u32Size :=
        ((openBlock_records hreader).trans_eq (readDataBlock_length hr prims hbs)).trans_lt
          (locateBlock_length hlocated)
      rw [checked_seek hsize, res_ok_bind, checked_iter hsize, res_ok_bind,
        checked_skipNewer_start]
      rfl

theorem get_returns (key : Key) (snapshot : ℕ) : Returns (r.get prims key snapshot) := by
  unfold SstReader.get
  split
  · exact Returns.ok none
  · refine (locateBlock_returns key).bind fun located _ => ?_
    split
    · exact Returns.ok none
    · exact (readDataBlock_returns hr prims _).bind fun bs _ => (openBlock_returns bs).bind fun _ _ =>
        Returns.ok _

theorem checked_blockRecords {handle : BlockHandle} (hlen : handle.length < u32Size) :
    Checked.blockRecords prims r handle = r.blockRecords prims handle := by
  unfold Checked.blockRecords SstReader.blockRecords
  refine res_bind_congr fun bs hbs => ?_
  rw [checked_openBlock]
  refine res_bind_congr fun reader hreader => ?_
  exact checked_iter (((openBlock_records hreader).trans_eq (readDataBlock_length hr prims hbs)).trans_lt
    hlen)

theorem blockRecords_returns (handle : BlockHandle) : Returns (r.blockRecords prims handle) :=
  (readDataBlock_returns hr prims handle).bind fun bs _ => (openBlock_returns bs).bind fun reader _ =>
    Returns.ok reader.iter

theorem checked_scan : Checked.scan prims r = r.scan prims := by
  unfold Checked.scan SstReader.scan
  rw [checked_openBlock]
  refine res_bind_congr fun reader hreader => ?_
  rw [checked_iter ((openBlock_records hreader).trans_lt hr.index), res_ok_bind]
  congr 2
  funext entry
  rw [checked_decodeBlockHandle]
  exact res_bind_congr fun handle hhandle =>
    checked_blockRecords hr prims (decodeBlockHandle_length hhandle)

theorem scan_returns : Returns (r.scan prims) := by
  unfold SstReader.scan
  refine (openBlock_returns _).bind fun reader _ => ?_
  refine Returns.bind ?_ fun blocks _ => Returns.ok blocks.flatten
  exact Returns.mapM (fun entry => (decodeBlockHandle_returns _).bind fun handle _ =>
    blockRecords_returns hr prims handle) _

theorem checked_decodeIndexHandles :
    Checked.decodeIndexHandles r.indexBytes = SstReader.decodeIndexHandles r.indexBytes := by
  unfold Checked.decodeIndexHandles SstReader.decodeIndexHandles
  rw [checked_openBlock]
  refine res_bind_congr fun reader hreader => ?_
  rw [checked_iter ((openBlock_records hreader).trans_lt hr.index), res_ok_bind]
  simp only [checked_decodeBlockHandle]

omit hr in
theorem decodeIndexHandles_returns (indexBytes : Bytes) :
    Returns (SstReader.decodeIndexHandles indexBytes) :=
  (openBlock_returns indexBytes).bind fun _ _ =>
    Returns.mapM (fun entry : Rec => decodeBlockHandle_returns entry.value) _

omit hr in
theorem decodeIndexHandles_length {indexBytes : Bytes} {handles : List BlockHandle}
    (h : SstReader.decodeIndexHandles indexBytes = .ok handles) :
    ∀ handle ∈ handles, handle.length < u32Size := by
  obtain ⟨reader, -, h⟩ := res_bind_eq_ok.mp h
  intro handle hmem
  obtain ⟨entry, -, hentry⟩ := mem_of_mapM h hmem
  exact decodeBlockHandle_length hentry

/-! ### Draining the stream -/

/-- What a block contributes to the stream. -/
def blockItems (prims : Primitives) (r : SstReader) (handle : BlockHandle) : List (Res Rec) :=
  match r.blockRecords prims handle with
  | .ok rs => rs.map .ok
  | .error e => [.error e]

/-- The items a stream has not yielded yet. -/
def pending (prims : Primitives) (r : SstReader) (s : Checked.SstStream) : List (Res Rec) :=
  s.current.map .ok ++ (s.handles.drop s.nextBlock).flatMap (blockItems prims r)

omit hr in
theorem pending_of_block {s : Checked.SstStream} {handle : BlockHandle} (hcur : s.current = [])
    (hat : s.handles[s.nextBlock]? = some handle) :
    pending prims r s = blockItems prims r handle ++
      pending prims r { s with nextBlock := s.nextBlock + 1 } := by
  obtain ⟨hlt, hget⟩ := List.getElem?_eq_some_iff.mp hat
  unfold pending
  rw [hcur, List.map_nil, List.nil_append, List.drop_eq_getElem_cons hlt, hget,
    List.flatMap_cons]
  rfl

theorem refill_ends {fuel : ℕ} {s : Checked.SstStream}
    (hlen : ∀ handle ∈ s.handles, handle.length < u32Size) (hcur : s.current = [])
    (hpos : 0 < fuel) (hfuel : s.handles.length < s.nextBlock + fuel) :
    Ends (Checked.refill prims r fuel) s
      (fun more s' => s'.handles = s.handles ∧ pending prims r s' = pending prims r s ∧
        if more then s'.current ≠ [] else pending prims r s = [])
      fun f s' => s'.handles = s.handles ∧ (∃ e, f = .err e) ∧
        pending prims r s = .error f :: pending prims r s' := by
  induction fuel generalizing s with
  | zero => omega
  | succ fuel ih =>
    rw [Checked.refill]
    refine Ends.read_bind ?_
    split
    · rename_i hlt
      have hat := List.getElem?_eq_getElem hlt
      have hpending := pending_of_block prims (r := r) hcur hat
      rw [itemAt_ok hat, act_lift_ok_bind]
      refine Ends.ok_bind rfl ?_
      rw [checked_blockRecords hr prims (hlen _ (List.getElem_mem hlt))]
      cases hblock : r.blockRecords prims s.handles[s.nextBlock] with
      | error f =>
        refine Ends.fail_bind ⟨rfl, ?_, ?_⟩
        · cases f with
          | err e => exact ⟨e, rfl⟩
          | panicked msg => exact (blockRecords_returns hr prims _ msg hblock).elim
        · rw [hpending, blockItems, hblock]
          rfl
      | ok records =>
        rw [act_lift_ok_bind]
        rw [blockItems, hblock] at hpending
        dsimp only at hpending
        split
        · rename_i hempty
          rw [hempty, List.map_nil, List.nil_append] at hpending
          rw [hpending]
          exact ih (s := { s with nextBlock := s.nextBlock + 1 }) hlen hcur (by omega)
            (by dsimp only; omega)
        · rename_i hsome
          refine Ends.update_bind (Ends.ret ⟨rfl, ?_, hsome⟩)
          rw [hpending, pending, pending]
          dsimp only
          rw [hcur, List.map_nil, List.nil_append]
    · rename_i hend
      refine Ends.ret ⟨rfl, rfl, ?_⟩
      unfold pending
      rw [hcur, List.drop_eq_nil_of_le (not_lt.mp hend)]
      rfl

omit hr in
theorem nextRecord_current (fuel : ℕ) {s : Checked.SstStream} (hcur : s.current ≠ []) :
    ∃ rec s', Checked.nextRecord prims r (fuel + 1) s = .ok (some rec) s' ∧
      s'.handles = s.handles ∧ pending prims r s = .ok rec :: pending prims r s' := by
  obtain ⟨rec, rest, hrec⟩ := List.exists_cons_of_ne_nil hcur
  refine ⟨rec, { s with current := rest }, ?_, rfl, ?_⟩
  · rw [Checked.nextRecord, act_bind, act_get]
    dsimp only
    rw [hrec]
    rfl
  · rw [pending, hrec]
    rfl

theorem nextRecord_ends {s : Checked.SstStream}
    (hlen : ∀ handle ∈ s.handles, handle.length < u32Size) :
    Ends (Checked.nextRecord prims r 2) s
      (fun rec s' => s'.handles = s.handles ∧ match rec with
        | some rec => pending prims r s = .ok rec :: pending prims r s'
        | none => pending prims r s = [])
      fun f s' => s'.handles = s.handles ∧ (∃ e, f = .err e) ∧
        pending prims r s = .error f :: pending prims r s' := by
  by_cases hcur : s.current = []
  · rw [Checked.nextRecord]
    refine Ends.read_bind ?_
    rw [hcur]
    refine Ends.bind (refill_ends hr prims hlen hcur (Nat.succ_pos _) (by omega)) ?_
      (fun f s' h => h)
    rintro more s' ⟨hhandles, hpending, hmore⟩
    cases more with
    | true =>
      obtain ⟨rec, s'', hrun, hhandles', hrec⟩ := nextRecord_current prims (r := r) 0 hmore
      unfold Ends
      rw [if_pos rfl, hrun]
      exact ⟨hhandles'.trans hhandles, hpending.symm.trans hrec⟩
    | false => exact Ends.ret ⟨hhandles, hmore⟩
  · obtain ⟨rec, s', hrun, hhandles, hrec⟩ := nextRecord_current prims (r := r) 1 hcur
    unfold Ends
    rw [hrun]
    exact ⟨hhandles, hrec⟩

theorem drain_pending {s : Checked.SstStream}
    (hlen : ∀ handle ∈ s.handles, handle.length < u32Size) {items : List (Res Rec)}
    (hitems : pending prims r s = items) :
    ∃ s', Checked.drain prims r (items.length + 1) s = .ok items s' := by
  induction items generalizing s with
  | nil =>
    have hnext := nextRecord_ends hr prims hlen
    cases hrun : Checked.nextRecord prims r 2 s with
    | ok rec s' =>
      have hrec := (hnext.of_ok hrun).2
      rw [hitems] at hrec
      cases rec with
      | none =>
        refine ⟨s', ?_⟩
        simp only [Checked.drain, hrun]
      | some rec => cases hrec
    | error f s' =>
      have hfail := (hnext.of_error hrun).2.2
      rw [hitems] at hfail
      cases hfail
  | cons item items ih =>
    have hnext := nextRecord_ends hr prims hlen
    cases hrun : Checked.nextRecord prims r 2 s with
    | ok rec s' =>
      obtain ⟨hhandles, hrec⟩ := hnext.of_ok hrun
      rw [hitems] at hrec
      rw [← hhandles] at hlen
      cases rec with
      | none => cases hrec
      | some rec =>
        obtain ⟨rfl, hrest⟩ := List.cons_eq_cons.mp hrec
        obtain ⟨t, ht⟩ := ih hlen hrest.symm
        refine ⟨t, ?_⟩
        rw [List.length_cons, Checked.drain]
        dsimp only
        rw [hrun]
        dsimp only
        rw [act_map, ht]
    | error f s' =>
      obtain ⟨hhandles, ⟨e, rfl⟩, hfail⟩ := hnext.of_error hrun
      rw [hitems] at hfail
      rw [← hhandles] at hlen
      obtain ⟨rfl, hrest⟩ := List.cons_eq_cons.mp hfail
      obtain ⟨t, ht⟩ := ih hlen hrest.symm
      refine ⟨t, ?_⟩
      rw [List.length_cons, Checked.drain]
      dsimp only
      rw [hrun]
      dsimp only
      rw [act_map, ht]

theorem checked_scanStream :
    Checked.scanStream r = (SstReader.decodeIndexHandles r.indexBytes >>= fun handles =>
      .ok ⟨handles, 0, []⟩) := by
  unfold Checked.scanStream
  rw [checked_decodeIndexHandles hr]
  rfl

theorem drain_scanStream {s : Checked.SstStream} (h : Checked.scanStream r = .ok s) :
    ∃ items, r.scanStream prims = .ok items ∧ (∀ item ∈ items, Returns item) ∧
      ∃ fuel s', Checked.drain prims r fuel s = .ok items s' := by
  rw [checked_scanStream hr] at h
  obtain ⟨handles, hhandles, h⟩ := res_bind_eq_ok.mp h
  cases h
  refine ⟨handles.flatMap (blockItems prims r), ?_, ?_, ?_⟩
  · unfold SstReader.scanStream
    rw [hhandles]
    rfl
  · intro item hitem
    obtain ⟨handle, -, hin⟩ := List.mem_flatMap.mp hitem
    have hblock := blockRecords_returns hr prims handle
    unfold blockItems at hin
    cases hrecs : r.blockRecords prims handle with
    | ok rs =>
      rw [hrecs] at hin
      obtain ⟨rec, -, rfl⟩ := List.mem_map.mp hin
      exact Returns.ok rec
    | error f =>
      rw [hrecs, List.mem_singleton] at hin
      rw [hrecs] at hblock
      intro msg hmsg
      rw [hin] at hmsg
      exact hblock msg (congrArg Except.error (Except.error.inj hmsg))
  · obtain ⟨s', hrun⟩ := drain_pending hr prims (s := ⟨handles, 0, []⟩)
      (decodeIndexHandles_length hhandles) rfl
    exact ⟨_, s', hrun⟩

end

/-- Reading is total. On any bytes `open` returns; from a table it has opened,
every `get`, `scan` and `scan_stream` drained to its end return, without an index,
slice, sum or difference out of range, and the answers are those of the model. -/
theorem read_total (prims : Primitives) (backend : ProbeBackend) (file : Bytes) :
    Checked.openTable file = SstReader.openInner file none ∧ Returns (Checked.openTable file) ∧
      ∀ r, Checked.openTable file = .ok r →
        (∀ key snapshot, Checked.get prims backend r key snapshot = r.get prims key snapshot ∧
          Returns (Checked.get prims backend r key snapshot)) ∧
        (Checked.scan prims r = r.scan prims ∧ Returns (Checked.scan prims r)) ∧
        Returns (Checked.scanStream r) ∧
        ∀ s, Checked.scanStream r = .ok s →
          ∃ items, r.scanStream prims = .ok items ∧ (∀ item ∈ items, Returns item) ∧
            ∃ fuel s', Checked.drain prims r fuel s = .ok items s' := by
  rw [checked_openTable]
  refine ⟨rfl, openInner_returns file, ?_⟩
  intro r hopen
  have hr := opened_of_openInner hopen
  refine ⟨?_, ?_, ?_, fun s => drain_scanStream hr prims⟩
  · intro key snapshot
    rw [checked_get hr]
    exact ⟨rfl, get_returns hr prims key snapshot⟩
  · rw [checked_scan hr]
    exact ⟨rfl, scan_returns hr prims⟩
  · rw [checked_scanStream hr]
    exact (decodeIndexHandles_returns _).bind fun handles _ => Returns.ok _

end PaddockKV.Sstable
