import PaddockKV.Engine.Calls
import PaddockKV.Sstable.TableRead

/-!
# The table a compaction writes (`compaction/compact.rs`)

The loop of `compact_sstables` adds what the merge yields, so its table is the one
`writeTable` would make of the merged records.
-/

namespace PaddockKV.Engine

open Io Sstable Crypto Compaction PaddockKV.Filter

/-- The reader serves the records of these blocks. -/
def Serves (prims : Primitives) (reader : SstReader) (blocks : List (List Rec)) : Prop :=
  ∃ dataEnd index, ReaderOf prims reader blocks dataEnd index

section Merge

variable {prims : Primitives} {crypto : Option CryptoCtx} {bloom₀ : Option BlockedBloom} {size : ℕ}
  {name : FileName}

theorem wrote_of_log {w w₁ w₂ : World} {bs : Bytes} (hlog : w₁.log = w.log)
    (h : Wrote name w₁ w₂ bs) : Wrote name w w₂ bs := by
  obtain ⟨evs, happ, hlog₂⟩ := h
  exact ⟨evs, happ, hlog ▸ hlog₂⟩

theorem mergeLoop_ends {fuel : ℕ} {m : KWayMerge} {w : SstWriter} {wd : World} {file : Bytes}
    {blocks : List (List Rec)} {cur l : List Rec} (hm : Yields m l)
    (hw : Writing prims crypto bloom₀ size name w file blocks cur)
    (hl : ∀ r ∈ l, r.seqno < u64Size) (hfuel : l.length < fuel) :
    Ends (mergeLoop prims fuel m w) wd
      (Stepped prims crypto bloom₀ size name file blocks cur l wd)
      fun _ wd' => (∃ bs, Wrote name wd wd' bs) ∧
        ∀ tail, Trouble prims crypto wd (blocks ++ cutBlocks size cur (l ++ tail)) := by
  induction fuel generalizing m w wd file blocks cur l with
  | zero => omega
  | succ fuel ih =>
    unfold mergeLoop
    refine Ends.bind (tryReads_ends wd) ?_ ?_
    · rintro - wd₁ ⟨hlog₁, hf₁⟩
      cases l with
      | nil =>
        obtain ⟨m', hnext, -⟩ := hm.nil
        simp only [hnext]
        refine Ends.ret ⟨⟨[], blocks, cur, ⟨[], .nil, hlog₁⟩, ?_, fun tail => rfl⟩, hf₁⟩
        rw [List.append_nil]
        exact hw
      | cons r l =>
        obtain ⟨m', hnext, hm'⟩ := hm.cons
        simp only [hnext]
        refine Ends.bind (add_ends hw (hl r List.mem_cons_self)) ?_ ?_
        · rintro w₂ wd₂ ⟨⟨bs, blocks₂, cur₂, hwrote, hw₂, hcut⟩, hf₂⟩
          have hlen : l.length < fuel := by
            rw [List.length_cons] at hfuel
            omega
          refine Ends.mono (ih hm' hw₂ (fun x hx => hl x (List.mem_cons_of_mem r hx)) hlen) ?_ ?_
          · rintro w₃ wd₃ ⟨⟨bs', blocks₃, cur₃, hwrote', hw₃, hcut'⟩, hf₃⟩
            refine ⟨⟨bs ++ bs', blocks₃, cur₃, wrote_of_log hlog₁ (hwrote.trans hwrote'), ?_, ?_⟩,
              fun h => hf₃ (hf₂ (hf₁ h))⟩
            · rw [← List.append_assoc]
              exact hw₃
            · intro tail
              rw [hcut', hcut]
              rfl
          · rintro - wd₃ ⟨⟨bs', hwrote'⟩, hcause⟩
            refine ⟨⟨bs ++ bs', wrote_of_log hlog₁ (hwrote.trans hwrote')⟩, fun tail => ?_⟩
            have htail := hcause tail
            rw [hcut] at htail
            exact htail.earlier fun h => hf₂ (hf₁ h)
        · rintro - wd₂ ⟨⟨bs, hwrote⟩, hcause⟩
          exact ⟨⟨bs, wrote_of_log hlog₁ hwrote⟩, fun tail => (hcause (l ++ tail)).earlier hf₁⟩
    · rintro f wd₁ ⟨hlog₁, -, hne⟩
      exact ⟨⟨[], [], .nil, hlog₁⟩, fun _ => .fault hne⟩

end Merge

theorem mapM_scanStream {prims : Primitives} {inputs : List SstReader}
    {tables : List (List (List Rec))} (h : List.Forall₂ (Serves prims) inputs tables) :
    inputs.mapM (SstReader.scanStream prims) =
      .ok ((tables.map List.flatten).map items) := by
  induction h with
  | nil => rfl
  | cons hr _ ih =>
    obtain ⟨dataEnd, index, hr⟩ := hr
    rw [List.mapM_cons, scanStream_eq hr, ih]
    rfl

theorem items_lengths (vs : List (List Rec)) :
    ((vs.map items).map List.length).sum = vs.flatten.length := by
  rw [List.length_flatten, List.map_map]
  refine congrArg List.sum (List.map_congr_left ?_)
  intro v _
  exact List.length_map ..

/-- The records of the output. -/
def merged (tables : List (List (List Rec))) : List Rec := isort (tables.map List.flatten).flatten

theorem mem_merged {tables : List (List (List Rec))} {r : Rec} :
    r ∈ merged tables ↔ ∃ t ∈ tables, r ∈ t.flatten := by
  simp only [merged, mem_isort, List.mem_flatten, List.mem_map]
  constructor
  · rintro ⟨l, ⟨t, ht, rfl⟩, hr⟩
    exact ⟨t, ht, List.mem_flatten.mp hr⟩
  · rintro ⟨t, ht, hr⟩
    exact ⟨t.flatten, ⟨t, ht, rfl⟩, List.mem_flatten.mpr hr⟩

theorem openTable_made {prims : Primitives} {config : DbConfig} {id : ℕ} {wd wd₁ : World}
    {blocks : List (List Rec)}
    (h : TableMade prims (config.cryptoFor prims id) (.sst id) wd wd₁ blocks)
    (hnew : wd.disk (.sst id) = none) :
    Ends (openTable prims config id) wd₁
      (fun reader wd' => wd'.log = wd₁.log ∧ (wd₁.faults = [] → wd'.faults = []) ∧
        Serves prims reader blocks ∧ reader.header.maxSeqno = maxSeqnoOf blocks.flatten)
      fun _ wd' => wd'.log = wd₁.log ∧ wd₁.faults ≠ [] := by
  obtain ⟨file, s, hdisk, dataEnd, header, hbody, hheader, hat⟩ := disk_of_made h hnew
  obtain ⟨r, hopen, hrh⟩ := openInner_table hbody hheader hat
  refine Ends.mono (openTable_ends prims config id wd₁) ?_ ?_
  · rintro reader wd' ⟨hlog, hf, file', s', hdisk', hopen'⟩
    rw [hdisk] at hdisk'
    cases hdisk'
    rw [hopen] at hopen'
    cases hopen'
    obtain ⟨index, hreader⟩ := readerOf_openInner hbody hopen
    exact ⟨hlog, hf, ⟨dataEnd, index, hreader⟩, hrh ▸ hheader.maxSeqno⟩
  · rintro f wd' ⟨hlog, hne | hnone | ⟨file', s', hdisk', hopen'⟩⟩
    · exact ⟨hlog, hne⟩
    · rw [hdisk] at hnone
      cases hnone
    · rw [hdisk] at hdisk'
      cases hdisk'
      rw [hopen] at hopen'
      cases hopen'

/-- `compact_sstables` up to the opening of its output. -/
def mergeTables (prims : Primitives) (config : DbConfig) (inputs : List SstReader)
    (outputId : ℕ) : Act World Unit := do
  let streams ← Act.lift (inputs.mapM (SstReader.scanStream prims))
  openWritable (.sst outputId)
  let w ← SstWriter.createInner (.sst outputId)
    (max config.sstableCapacityHint (estimateTotalEntries inputs)) config.bloomParams
    (config.cryptoFor prims outputId)
  let w ← mergeLoop prims ((streams.map List.length).sum + 1) (.new streams) w
  w.finish prims

theorem compactSstables_eq (prims : Primitives) (config : DbConfig) (inputs : List SstReader)
    (outputId : ℕ) : compactSstables prims config inputs outputId =
      mergeTables prims config inputs outputId >>= fun _ => openTable prims config outputId := by
  simp only [compactSstables, mergeTables, bind_assoc]

section Output

variable {prims : Primitives} {config : DbConfig} {inputs : List SstReader}
  {tables : List (List (List Rec))} {id : ℕ} {wd : World}

theorem yields_merged (hsorted : ∀ t ∈ tables, SortedRecs t.flatten) :
    Yields (.new ((tables.map List.flatten).map items)) (merged tables) := by
  refine yields_new ?_
  intro v hv
  obtain ⟨t, ht, rfl⟩ := List.mem_map.mp hv
  exact hsorted t ht

theorem merged_length_lt (tables : List (List (List Rec))) : (merged tables).length <
    (((tables.map List.flatten).map items).map List.length).sum + 1 := by
  rw [items_lengths, merged, length_isort]
  exact Nat.lt_succ_self _

theorem mergeTables_ends (hin : List.Forall₂ (Serves prims) inputs tables)
    (hsorted : ∀ t ∈ tables, SortedRecs t.flatten)
    (hseq : ∀ t ∈ tables, ∀ r ∈ t.flatten, r.seqno < u64Size)
    (hnew : wd.disk (.sst id) = none) :
    Ends (mergeTables prims config inputs id) wd
      (fun _ wd' => TableMade prims (config.cryptoFor prims id) (.sst id) wd wd'
          (cutBlocks defaultBlockSize [] (merged tables)) ∧ (wd.faults = [] → wd'.faults = []))
      fun _ wd' => TableLeft prims (config.cryptoFor prims id) (.sst id) wd wd'
          (cutBlocks defaultBlockSize [] (merged tables)) ∧
        TableTrouble prims (config.cryptoFor prims id) wd
          (max config.sstableCapacityHint (estimateTotalEntries inputs)) config.bloomParams
          (cutBlocks defaultBlockSize [] (merged tables)) := by
  have hlt : ∀ r ∈ merged tables, r.seqno < u64Size := by
    intro r hr
    obtain ⟨t, ht, hr⟩ := mem_merged.mp hr
    exact hseq t ht r hr
  unfold mergeTables
  rw [mapM_scanStream hin]
  refine Ends.lift_bind ?_ (fun _ h => by cases h)
  rintro _ ⟨⟩
  exact table_ends hnew fun hw =>
    mergeLoop_ends (yields_merged hsorted) hw hlt (merged_length_lt tables)

end Output

end PaddockKV.Engine
