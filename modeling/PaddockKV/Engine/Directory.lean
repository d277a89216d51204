import PaddockKV.Engine.Recovery
import PaddockKV.Engine.Store
import PaddockKV.Sstable.TableRead

/-!
# The files of a store

`Directory` says which file stands for which history. Beside it stands what each
change of a file makes of it.
-/

namespace PaddockKV.Engine

open Io Wal Memtable Sstable Crypto History

/-- The blocks of the table made from these commits. -/
def blocksOf (h : History) : List (List Rec) := cutBlocks defaultBlockSize [] (sortedRecs h)

theorem blocksOf_flatten (h : History) : (blocksOf h).flatten = sortedRecs h := by
  rw [blocksOf, cutBlocks_flatten, List.nil_append]

def Encodes (view : RecordView) (x : ℕ × WriteBatch) : Prop :=
  view.seqno = x.1 ∧ encode x.2 = .ok view.payload

/-- The segment `id` is read as these commits; what a failed append left may follow
them. -/
def SegmentFile (id : ℕ) (h : History) (file : Bytes) : Prop :=
  ∃ firstSeqno views area out, firstSeqno < u64Size ∧ List.Forall₂ Encodes views h ∧
    file = (SegmentHeader.newSigned id firstSeqno).asBytes ++ area ∧
    SegmentReader.Reads file 0 views out

theorem segmentFile_layout (id : ℕ) {firstSeqno : ℕ} {views : List RecordView} {h : History}
    (hfs : firstSeqno < u64Size) (henc : List.Forall₂ Encodes views h)
    (hseq : ∀ c ∈ h, c.1 < u64Size) :
    SegmentFile id h ((SegmentHeader.newSigned id firstSeqno).asBytes ++ layout 0 views) := by
  refine ⟨firstSeqno, views, _, .clean, hfs, henc, rfl, ?_⟩
  have hviews : ∀ v ∈ views, v.seqno < u64Size := by
    intro v hv
    obtain ⟨c, hc, hvc⟩ := forall₂_exists_right henc hv
    rw [hvc.1]
    exact hseq c hc
  have hreads := reads_then_zeros (SegmentHeader.newSigned id firstSeqno) views 0 hviews
  rwa [zeros, List.replicate_zero, List.append_nil] at hreads

/-- The directory consists of the files of the store. -/
structure Directory (prims : Primitives) (config : DbConfig) (d : Disk) (s : Store) : Prop where
  tables : ∀ x ∈ s.tables, ∃ file sync, d (.sst x.1) = some ⟨file, sync⟩ ∧
    TableFile prims (config.cryptoFor prims x.1) file (blocksOf x.2)
  wals : ∀ x ∈ s.wals, ∃ file sync, d (.wal x.1) = some ⟨file, sync⟩ ∧ SegmentFile x.1 x.2 file
  sst_mem : ∀ n, (d (.sst n)).isSome = true → n ∈ s.tables.map Prod.fst
  wal_mem : ∀ n, (d (.wal n)).isSome = true → n ∈ s.wals.map Prod.fst
  tables_sorted : (s.tables.map Prod.fst).Pairwise (· > ·)
  wals_sorted : (s.wals.map Prod.fst).Pairwise (· < ·)
  ids : ∀ x ∈ s.wals, x.1 < u64Size
  table_seqnos : ∀ x ∈ s.tables, ∀ c ∈ x.2, c.1 < u64Size
  wal_seqnos : ∀ x ∈ s.wals, ∀ c ∈ x.2, c.1 < u64Size

theorem Directory.config {prims : Primitives} {config config' : DbConfig} {d : Disk} {s : Store}
    (h : Directory prims config d s) (hkey : config'.masterKey = config.masterKey) :
    Directory prims config' d s := by
  have hcrypto : ∀ id, config'.cryptoFor prims id = config.cryptoFor prims id := by
    intro id
    unfold DbConfig.cryptoFor
    rw [hkey]
  refine { h with tables := ?_ }
  intro x hx
  rw [hcrypto]
  exact h.tables x hx

section

variable {prims : Primitives} {config : DbConfig} {d : Disk} {s : Store}

theorem Directory.sst_none {n : ℕ} (h : Directory prims config d s)
    (hn : n ∉ s.tables.map Prod.fst) : d (.sst n) = none :=
  Option.not_isSome_iff_eq_none.mp fun hsome => hn (h.sst_mem n hsome)

theorem Directory.wal_none {n : ℕ} (h : Directory prims config d s)
    (hn : n ∉ s.wals.map Prod.fst) : d (.wal n) = none :=
  Option.not_isSome_iff_eq_none.mp fun hsome => hn (h.wal_mem n hsome)

theorem Directory.free_none (h : Directory prims config d s) : d (.wal s.free) = none := by
  refine h.wal_none ?_
  intro hmem
  obtain ⟨x, hx, heq⟩ := List.mem_map.mp hmem
  exact absurd heq (s.free_above.1 x hx).ne

theorem Directory.wal_unique (h : Directory prims config d s) {x y : ℕ × History}
    (hx : x ∈ s.wals) (hy : y ∈ s.wals) (heq : x.1 = y.1) : x = y := by
  have hnodup : (s.wals.map Prod.fst).Nodup := h.wals_sorted.imp fun hlt => ne_of_lt hlt
  exact List.inj_on_of_nodup_map hnodup hx hy heq

/-! ### Segments -/

theorem map_fst_update (id : ℕ) (f : History → History) (l : List (ℕ × History)) :
    (l.map fun x => if x.1 = id then (x.1, f x.2) else x).map Prod.fst = l.map Prod.fst := by
  rw [List.map_map]
  refine List.map_congr_left ?_
  intro x _
  dsimp only [Function.comp]
  split <;> rfl

theorem Directory.write_wal {id : ℕ} {h h' : History} {file : Bytes}
    (hd : Directory prims config d s) (hmem : (id, h) ∈ s.wals) (sync : Bool)
    (f : History → History) (hf : f h = h') (hfile : SegmentFile id h' file) (hseq : ∀ c ∈ h', c.1 < u64Size) :
    Directory prims config (Function.update d (.wal id) (some ⟨file, sync⟩))
      { s with wals := s.wals.map fun x => if x.1 = id then (x.1, f x.2) else x } := by
  have hmap : ∀ y ∈ s.wals.map (fun x => if x.1 = id then (x.1, f x.2) else x),
      y = (id, h') ∨ y ∈ s.wals ∧ y.1 ≠ id := by
    intro y hy
    obtain ⟨x, hx, rfl⟩ := List.mem_map.mp hy
    by_cases hid : x.1 = id
    · have heq := hd.wal_unique hx hmem hid
      subst heq
      rw [if_pos rfl, ← hf]
      exact .inl rfl
    · rw [if_neg hid]
      exact .inr ⟨hx, hid⟩
  constructor
  · intro x hx
    rw [Function.update_of_ne (by simp)]
    exact hd.tables x hx
  · intro y hy
    rcases hmap y hy with rfl | ⟨hy, hne⟩
    · exact ⟨file, sync, Function.update_self .., hfile⟩
    · rw [Function.update_of_ne (by simpa using hne)]
      exact hd.wals y hy
  · intro n hn
    rw [Function.update_of_ne (by simp)] at hn
    exact hd.sst_mem n hn
  · intro n hn
    rw [map_fst_update]
    by_cases hid : n = id
    · rw [hid]
      exact List.mem_map_of_mem hmem
    · rw [Function.update_of_ne (by simpa using hid)] at hn
      exact hd.wal_mem n hn
  · exact hd.tables_sorted
  · rw [map_fst_update]
    exact hd.wals_sorted
  · intro y hy
    rcases hmap y hy with rfl | ⟨hy, -⟩
    · exact hd.ids (id, h) hmem
    · exact hd.ids y hy
  · exact hd.table_seqnos
  · intro y hy
    rcases hmap y hy with rfl | ⟨hy, -⟩
    · exact hseq
    · exact hd.wal_seqnos y hy

theorem mem_update_self {l : List (ℕ × History)} {id : ℕ} {h : History} (f : History → History)
    (hmem : (id, h) ∈ l) :
    (id, f h) ∈ l.map fun x => if x.1 = id then (x.1, f x.2) else x :=
  List.mem_map.mpr ⟨(id, h), hmem, if_pos rfl⟩

theorem Directory.commit_seqnos {hist : History} {q : ℕ}
    (hd : Directory prims config d s) (hmem : (s.walId, hist) ∈ s.wals) (hq : q < u64Size)
    (batch : WriteBatch) : ∀ c ∈ hist ++ [(q, batch)], c.1 < u64Size := by
  intro c hc
  rcases List.mem_append.mp hc with hc | hc
  · exact hd.wal_seqnos _ hmem c hc
  · rw [List.mem_singleton.mp hc]
    exact hq

theorem Directory.commit {hist : History} {file : Bytes}
    {batch : WriteBatch} (sync : Bool) (hd : Directory prims config d s)
    (hmem : (s.walId, hist) ∈ s.wals) (hseq : s.seqno + 1 < u64Size)
    (hfile : SegmentFile s.walId (hist ++ [(s.seqno + 1, batch)]) file) :
    Directory prims config (Function.update d (.wal s.walId) (some ⟨file, sync⟩))
      (s.commit batch) :=
  { hd.write_wal hmem sync (· ++ [(s.seqno + 1, batch)]) rfl hfile
      (hd.commit_seqnos hmem hseq batch) with }

theorem segmentFile_new (id : ℕ) {firstSeqno : ℕ} (hfs : firstSeqno < u64Size) :
    SegmentFile id [] (SegmentHeader.newSigned id firstSeqno).asBytes := by
  have hnone : ∀ c ∈ ([] : History), c.1 < u64Size := by
    intro c hc
    cases hc
  have hfile : SegmentFile id [] ((SegmentHeader.newSigned id firstSeqno).asBytes ++ layout 0 []) :=
    segmentFile_layout _ hfs .nil hnone
  rwa [layout, List.append_nil] at hfile

theorem Directory.open_wal {id firstSeqno : ℕ} (sync : Bool)
    (hd : Directory prims config d s) (hlt : ∀ x ∈ s.wals, x.1 < id) (hid : id < u64Size)
    (hfs : firstSeqno < u64Size) :
    Directory prims config (Function.update d (.wal id)
      (some ⟨(SegmentHeader.newSigned id firstSeqno).asBytes, sync⟩))
      { s with wals := s.wals ++ [(id, [])] } := by
  have hfile : SegmentFile id [] (SegmentHeader.newSigned id firstSeqno).asBytes :=
    segmentFile_new id hfs
  generalize (SegmentHeader.newSigned id firstSeqno).asBytes = bytes at hfile ⊢
  constructor
  · intro x hx
    rw [Function.update_of_ne (by simp)]
    exact hd.tables x hx
  · intro x hx
    rcases List.mem_append.mp hx with hx | hx
    · have hne := (hlt x hx).ne
      rw [Function.update_of_ne (by simpa using hne)]
      exact hd.wals x hx
    · rw [List.mem_singleton.mp hx]
      exact ⟨_, sync, Function.update_self .., hfile⟩
  · intro n hn
    rw [Function.update_of_ne (by simp)] at hn
    exact hd.sst_mem n hn
  · intro n hn
    rw [List.map_append]
    by_cases hid : n = id
    · rw [hid]
      exact List.mem_append_right _ (List.mem_singleton_self _)
    · rw [Function.update_of_ne (by simpa using hid)] at hn
      exact List.mem_append_left _ (hd.wal_mem n hn)
  · exact hd.tables_sorted
  · rw [List.map_append]
    refine List.pairwise_append.mpr ⟨hd.wals_sorted, List.pairwise_singleton _ _, ?_⟩
    intro a ha b hb
    obtain ⟨x, hx, rfl⟩ := List.mem_map.mp ha
    rw [List.mem_singleton.mp hb]
    exact hlt x hx
  · intro x hx
    rcases List.mem_append.mp hx with hx | hx
    · exact hd.ids x hx
    · rw [List.mem_singleton.mp hx]
      exact hid
  · exact hd.table_seqnos
  · intro x hx
    rcases List.mem_append.mp hx with hx | hx
    · exact hd.wal_seqnos x hx
    · rw [List.mem_singleton.mp hx]
      intro c hc
      cases hc

theorem Directory.remove_wal (hd : Directory prims config d s)
    (id : ℕ) : Directory prims config (Function.update d (.wal id) none)
      { s with wals := s.wals.filter fun y => decide (y.1 ≠ id) } := by
  have hmem : ∀ x ∈ s.wals.filter (fun y => decide (y.1 ≠ id)), x ∈ s.wals ∧ x.1 ≠ id := by
    intro x hx
    obtain ⟨hx, hne⟩ := List.mem_filter.mp hx
    exact ⟨hx, of_decide_eq_true hne⟩
  constructor
  · intro x hx
    rw [Function.update_of_ne (by simp)]
    exact hd.tables x hx
  · intro x hx
    obtain ⟨hx, hne⟩ := hmem x hx
    rw [Function.update_of_ne (by simpa using hne)]
    exact hd.wals x hx
  · intro n hn
    rw [Function.update_of_ne (by simp)] at hn
    exact hd.sst_mem n hn
  · intro n hn
    by_cases hid : n = id
    · rw [hid, Function.update_self] at hn
      cases hn
    · rw [Function.update_of_ne (by simpa using hid)] at hn
      obtain ⟨x, hx, rfl⟩ := List.mem_map.mp (hd.wal_mem n hn)
      exact List.mem_map_of_mem (List.mem_filter.mpr ⟨hx, decide_eq_true hid⟩)
  · exact hd.tables_sorted
  · exact hd.wals_sorted.sublist (List.filter_sublist.map _)
  · intro x hx
    exact hd.ids x (hmem x hx).1
  · exact hd.table_seqnos
  · intro x hx
    exact hd.wal_seqnos x (hmem x hx).1

/-! ### Tables -/

theorem Directory.make_table {id : ℕ} {h : History} {file : Bytes}
    (sync : Bool) (hd : Directory prims config d s) (hlt : ∀ x ∈ s.tables, x.1 < id)
    (hfile : TableFile prims (config.cryptoFor prims id) file (blocksOf h))
    (hseq : ∀ c ∈ h, c.1 < u64Size) :
    Directory prims config (Function.update d (.sst id) (some ⟨file, sync⟩))
      { s with tables := (id, h) :: s.tables } := by
  constructor
  · intro x hx
    rcases List.mem_cons.mp hx with rfl | hx
    · exact ⟨file, sync, Function.update_self .., hfile⟩
    · have hne := (hlt x hx).ne
      rw [Function.update_of_ne (by simpa using hne)]
      exact hd.tables x hx
  · intro x hx
    rw [Function.update_of_ne (by simp)]
    exact hd.wals x hx
  · intro n hn
    by_cases hid : n = id
    · rw [hid]
      exact List.mem_cons_self
    · rw [Function.update_of_ne (by simpa using hid)] at hn
      exact List.mem_cons_of_mem _ (hd.sst_mem n hn)
  · intro n hn
    rw [Function.update_of_ne (by simp)] at hn
    exact hd.wal_mem n hn
  · refine List.pairwise_cons.mpr ⟨?_, hd.tables_sorted⟩
    intro n hn
    obtain ⟨x, hx, rfl⟩ := List.mem_map.mp hn
    exact hlt x hx
  · exact hd.wals_sorted
  · exact hd.ids
  · intro x hx
    rcases List.mem_cons.mp hx with rfl | hx
    · exact hseq
    · exact hd.table_seqnos x hx
  · exact hd.wal_seqnos

theorem Directory.remove_tables {d' : Disk} {x : ℕ × History}
    {gone rest : List (ℕ × History)}
    (hd : Directory prims config d { s with tables := x :: (gone ++ rest) })
    (hgone : ∀ n ∈ gone.map Prod.fst, d' (.sst n) = none)
    (hkept : ∀ name, (∀ n ∈ gone.map Prod.fst, name ≠ .sst n) → d' name = d name) :
    Directory prims config d' { s with tables := x :: rest } := by
  have hsorted := hd.tables_sorted
  rw [List.map_cons, List.map_append, List.pairwise_cons, List.pairwise_append] at hsorted
  obtain ⟨hhead, -, hrest, hapart⟩ := hsorted
  have hstays : ∀ y ∈ x :: rest, d' (.sst y.1) = d (.sst y.1) := by
    intro y hy
    refine hkept _ ?_
    intro n hn heq
    cases heq
    rcases List.mem_cons.mp hy with rfl | hy
    · exact lt_irrefl _ (hhead y.1 (List.mem_append_left _ hn))
    · exact lt_irrefl _ (hapart y.1 hn y.1 (List.mem_map_of_mem hy))
  have hsub : ∀ y ∈ x :: rest, y ∈ x :: (gone ++ rest) := by
    intro y hy
    rcases List.mem_cons.mp hy with rfl | hy
    · exact List.mem_cons_self
    · exact List.mem_cons_of_mem _ (List.mem_append_right _ hy)
  have hwal : ∀ n, d' (.wal n) = d (.wal n) := fun n => hkept _ fun m _ heq => by cases heq
  constructor
  · intro y hy
    rw [hstays y hy]
    exact hd.tables y (hsub y hy)
  · intro y hy
    rw [hwal]
    exact hd.wals y hy
  · intro n hn
    by_cases hmem : n ∈ gone.map Prod.fst
    · rw [hgone n hmem] at hn
      cases hn
    · rw [hkept _ (fun m hm heq => hmem (by cases heq; exact hm))] at hn
      have hn := hd.sst_mem n hn
      rw [List.map_cons, List.map_append] at hn
      rcases List.mem_cons.mp hn with rfl | hn
      · exact List.mem_cons_self
      · rcases List.mem_append.mp hn with hn | hn
        · exact absurd hn hmem
        · exact List.mem_cons_of_mem _ hn
  · intro n hn
    rw [hwal] at hn
    exact hd.wal_mem n hn
  · refine List.pairwise_cons.mpr ⟨?_, hrest⟩
    intro n hn
    exact hhead n (List.mem_append_right _ hn)
  · exact hd.wals_sorted
  · exact hd.ids
  · intro y hy
    exact hd.table_seqnos y (hsub y hy)
  · exact hd.wal_seqnos

/-! ### Syncs -/

theorem diskOf_sync (log : List VfsCall) (name other : FileName) :
    (diskOf (.sync name :: log) other).map File.bytes = (diskOf log other).map File.bytes := by
  rw [diskOf_cons, Disk.apply]
  by_cases hname : other = name
  · subst hname
    rw [Function.update_self]
    cases diskOf log other <;> rfl
  · rw [Function.update_of_ne hname]

theorem Directory.of_bytes {d' : Disk} (hd : Directory prims config d s)
    (hbytes : ∀ name, (d' name).map File.bytes = (d name).map File.bytes) :
    Directory prims config d' s := by
  have hfile : ∀ {name : FileName} {file : Bytes} {sync : Bool}, d name = some ⟨file, sync⟩ →
      ∃ sync', d' name = some ⟨file, sync'⟩ := by
    intro name file sync hname
    have hmap := hbytes name
    rw [hname] at hmap
    obtain ⟨⟨file', sync'⟩, hname', rfl⟩ := Option.map_eq_some_iff.mp hmap
    exact ⟨sync', hname'⟩
  have hsome : ∀ name, (d' name).isSome = (d name).isSome := by
    intro name
    have hmap := congrArg Option.isSome (hbytes name)
    rwa [Option.isSome_map, Option.isSome_map] at hmap
  refine { hd with tables := ?_, wals := ?_, sst_mem := ?_, wal_mem := ?_ }
  · intro x hx
    obtain ⟨file, sync, hname, htable⟩ := hd.tables x hx
    obtain ⟨sync', hname'⟩ := hfile hname
    exact ⟨file, sync', hname', htable⟩
  · intro x hx
    obtain ⟨file, sync, hname, hsegment⟩ := hd.wals x hx
    obtain ⟨sync', hname'⟩ := hfile hname
    exact ⟨file, sync', hname', hsegment⟩
  · intro n hn
    rw [hsome] at hn
    exact hd.sst_mem n hn
  · intro n hn
    rw [hsome] at hn
    exact hd.wal_mem n hn

end

end PaddockKV.Engine
