import PaddockKV.Engine.Refinement
import PaddockKV.Lib.Stages
import PaddockKV.Wal.Torn

/-!
# Crashes between file operations

A crash leaves the directory at one of the stages of a call. At each of them the
files are those of a store that holds the commits made so far, or in addition the one
under way, unless a segment was opened and has no header yet or a table is not
finished; then the next session does not start.
-/

namespace PaddockKV.Engine

open Io Wal Memtable Sstable Crypto History Transition

/-- Every segment has room for its header, and no table has zeros in its place. -/
structure HeadersWritten (d : Disk) : Prop where
  segments : ∀ n f, d (.wal n) = some f → segmentHeaderSize ≤ f.bytes.length
  tables : ∀ n f, d (.sst n) = some f → ¬ Unfinished f.bytes

/-- Where all headers are written, the files are those of a store with one of the
histories `H`. -/
def Recoverable (prims : Primitives) (config : DbConfig) (H : History → Prop)
    (log : List VfsCall) : Prop :=
  HeadersWritten (diskOf log) → ∃ t h, H h ∧ t.Kept h ∧ Directory prims config (diskOf log) t

/-! ### Files under way -/

theorem unfinished_part {bs p : Bytes} (h : Unfinished bs) (hp : p <+: bs) : Unfinished p := by
  rcases h with h | h
  · exact .inl (hp.trans h)
  · exact List.prefix_or_prefix_of_prefix hp h

section Files

variable {P : List VfsCall → Prop} {name : FileName} {wd wd' : World} {evs : List VfsCall}
  {bs : Bytes}

theorem diskOf_new {log : List VfsCall} (hnew : diskOf log name = none)
    (happ : Appends name evs bs) :
    ∃ s, diskOf (evs ++ .openWritable name :: log) name = some ⟨bs, s⟩ := by
  have hopen : diskOf (.openWritable name :: log) name = some ⟨[], false⟩ := by
    rw [diskOf_cons, Disk.apply, Function.update_self, hnew]
    rfl
  obtain ⟨s, -, hdisk⟩ := diskOf_appends happ hopen
  refine ⟨s, ?_⟩
  rw [hdisk, Function.update_self]
  rfl

theorem stages_unfinished (hnew : wd.disk name = none) (hstart : P wd.log)
    (hunfinished : ∀ log bs s, diskOf log name = some ⟨bs, s⟩ → Unfinished bs → P log)
    (happ : Appends name evs bs) (hbs : Unfinished bs) :
    Stages P wd.log (evs ++ .openWritable name :: wd.log) := by
  have hpart : ∀ evs₁ evs₂, evs = evs₂ ++ evs₁ → P (evs₁ ++ .openWritable name :: wd.log) := by
    rintro evs₁ evs₂ rfl
    obtain ⟨p, hp, hpre⟩ := happ.part
    obtain ⟨s, hdisk⟩ := diskOf_new hnew hp
    exact hunfinished _ p s hdisk (unfinished_part hbs hpre)
  exact ((Stages.refl hstart).cons (hpart [] evs (List.append_nil _).symm)).trans
    (Stages.of_append hpart)

variable {prims : Primitives} {crypto : Option CryptoCtx} {blocks : List (List Rec)}

theorem tableMade_stages (hnew : wd.disk name = none) (hstart : P wd.log)
    (hunfinished : ∀ log bs s, diskOf log name = some ⟨bs, s⟩ → Unfinished bs → P log)
    (hmade : TableMade prims crypto name wd wd' blocks) (hend : P wd'.log) :
    Stages P wd.log wd'.log := by
  obtain ⟨header, dataEnd, evs, bs, -, happ, hzeros, -, hlog⟩ := hmade
  rw [hlog] at hend ⊢
  exact (stages_unfinished hnew hstart hunfinished happ (.inr hzeros)).cons hend

theorem tableLeft_stages (hnew : wd.disk name = none) (hstart : P wd.log)
    (hunfinished : ∀ log bs s, diskOf log name = some ⟨bs, s⟩ → Unfinished bs → P log)
    (hfaults : wd.faults = []) (hleft : TableLeft prims crypto name wd wd' blocks) :
    Stages P wd.log wd'.log := by
  rcases hleft with hlog | ⟨evs, bs, happ, hbs, hlog⟩ | ⟨hne, -⟩
  · rw [hlog]
    exact .refl hstart
  · rw [hlog]
    exact stages_unfinished hnew hstart hunfinished happ hbs
  · exact absurd hfaults hne

end Files

section Recoverable

variable {prims : Primitives} {config : DbConfig} {H : History → Prop} {log log' : List VfsCall}

theorem Directory.recoverable {t : Store} {h : History} (hd : Directory prims config (diskOf log) t)
    (hkept : t.Kept h) (hH : H h) : Recoverable prims config H log :=
  fun _ => ⟨t, h, hH, hkept, hd⟩

theorem recoverable_unfinished {n : ℕ} (log : List VfsCall) (bs : Bytes) (s : Bool)
    (hdisk : diskOf log (.sst n) = some ⟨bs, s⟩) (hbs : Unfinished bs) :
    Recoverable prims config H log :=
  fun hheaders => absurd hbs (hheaders.tables n _ hdisk)

theorem recoverable_opened {n : ℕ} (hnew : diskOf log (.wal n) = none) :
    Recoverable prims config H (.openWritable (.wal n) :: log) := by
  intro hheaders
  obtain ⟨s, hdisk⟩ := diskOf_new hnew .nil
  exact absurd (hheaders.segments n _ hdisk) (Nat.not_succ_le_zero _)

theorem HeadersWritten.of_bytes {d d' : Disk} (h : HeadersWritten d)
    (hbytes : ∀ name, (d' name).map File.bytes = (d name).map File.bytes) : HeadersWritten d' := by
  have hfile : ∀ name f, d' name = some f → ∃ f', d name = some f' ∧ f'.bytes = f.bytes := by
    intro name f hname
    have hmap := hbytes name
    rw [hname] at hmap
    exact Option.map_eq_some_iff.mp hmap.symm
  constructor
  · intro n f hname
    obtain ⟨f', hname', hf⟩ := hfile _ f hname
    rw [← hf]
    exact h.segments n f' hname'
  · intro n f hname
    obtain ⟨f', hname', hf⟩ := hfile _ f hname
    rw [← hf]
    exact h.tables n f' hname'

theorem Recoverable.sync (name : FileName) (h : Recoverable prims config H log) :
    Recoverable prims config H (.sync name :: log) := by
  intro hheaders
  obtain ⟨t, hist, hH, hkept, hdir⟩ := h (hheaders.of_bytes fun other => (diskOf_sync _ name other).symm)
  exact ⟨t, hist, hH, hkept, hdir.of_bytes (diskOf_sync _ name)⟩

theorem segmentMade_stages {id firstSeqno : ℕ} (hnew : diskOf log (.wal id) = none)
    (hstart : Recoverable prims config H log) (hmade : SegmentMade id firstSeqno log log')
    (hend : Recoverable prims config H log') : Stages (Recoverable prims config H) log log' := by
  rw [hmade] at hend ⊢
  exact ((Stages.refl hstart).cons (recoverable_opened hnew)).cons hend

theorem segmentLeft_stages {id firstSeqno : ℕ} (hnew : diskOf log (.wal id) = none)
    (hstart : Recoverable prims config H log) (hleft : SegmentLeft [] id firstSeqno log log') :
    Stages (Recoverable prims config H) log log' := by
  rcases hleft with rfl | rfl | ⟨hne, -⟩
  · exact .refl hstart
  · exact (Stages.refl hstart).cons (recoverable_opened hnew)
  · exact absurd rfl hne

end Recoverable

/-! ### The stages of the calls -/

section Calls

variable {prims : Primitives} {e : Env} {s : Store} {H : History → Prop} {h : History}

theorem Simulates.recoverable (hsim : Simulates prims e s) (hkept : s.Kept h) (hH : H h) :
    Recoverable prims e.db.config H e.world.log := hsim.dir.recoverable hkept hH

theorem rotate_stages (hsim : Simulates prims e s) (hkept : s.Kept h) (hH : H h) :
    Ends rotateMemtableLocked e
      (fun _ e' => Stages (Recoverable prims e.db.config H) e.world.log e'.world.log)
      fun _ e' => Stages (Recoverable prims e.db.config H) e.world.log e'.world.log := by
  have hstart := hsim.recoverable hkept hH
  have hnew := wal_next_none hsim.mirrors
  rw [← hsim.next] at hnew
  refine Ends.mono (Ends.and (rotateMemtableLocked_ends e) (rotate_simulates hsim.mirrors)) ?_ ?_
  · rintro - e' ⟨⟨hdb, -, -, hmade, -⟩, hsim'⟩
    have hend := hsim'.recoverable hkept.rotate hH
    rw [hdb] at hend
    exact segmentMade_stages hnew hstart hmade hend
  · rintro f e' ⟨hstop, -⟩
    have hleft := hstop.log
    rw [hsim.faults] at hleft
    exact segmentLeft_stages hnew hstart hleft

/-! ### Commits -/

theorem recoverable_appended {batch : WriteBatch} {encoded p : Bytes} {evs : List VfsCall}
    (hsim : Simulates prims e s) (hkept : s.Kept h) (hH : H h)
    (hH' : H (h ++ [(s.seqno + 1, batch)])) (hencode : encode batch = .ok encoded)
    (hseq : s.seqno + 1 < u64Size) (happ : Appends (.wal s.walId) evs p)
    (hp : p <+: recordBytes e.db.ctx.wal.blockOffset (s.seqno + 1) encoded) :
    Recoverable prims e.db.config H (evs ++ e.world.log) := by
  rcases hsim.dir.appended hsim.tidySegment hencode hseq happ hp with ⟨-, hdir⟩ | ⟨-, hdir⟩
  · exact hdir.recoverable (hkept.commit batch hsim.mirrors.segment) hH'
  · exact hdir.recoverable hkept hH

theorem commitHead_stages (batch : WriteBatch) (hsim : Simulates prims e s) (hkept : s.Kept h)
    (hH : H h) (hH' : H (h ++ [(s.seqno + 1, batch)])) :
    Ends (commitHead batch) e
      (fun _ e' => Stages (Recoverable prims e.db.config H) e.world.log e'.world.log)
      fun _ e' => Stages (Recoverable prims e.db.config H) e.world.log e'.world.log := by
  obtain ⟨_, _, _, -, -, -, hfile, hholds⟩ := hsim.writer
  -- what was appended, all of the record or a part
  have hpart : ∀ {encoded p : Bytes} {t : WalEnv}, encode batch = .ok encoded →
      e.db.seqno + 1 < u64Size → Wal.Wrote (walEnv e) t p →
      p <+: recordBytes e.db.ctx.wal.blockOffset (e.db.seqno + 1) encoded →
      Stages (Recoverable prims e.db.config H) e.world.log t.world.log := by
    rintro encoded p t hencode hseq ⟨-, evs, happ, hlog⟩ hp
    rw [hsim.seqno] at hseq hp
    rw [show (walEnv e).writer.file = .wal s.walId from hfile] at happ
    rw [hlog]
    refine Stages.of_append ?_
    rintro evs₁ evs₂ rfl
    obtain ⟨p₁, happ₁, hp₁⟩ := happ.part
    exact recoverable_appended hsim hkept hH hH' hencode hseq happ₁ (hp₁.trans hp)
  have happend := fun encoded =>
    SegmentWriter.appendRecord_ends (e.db.seqno + 1) encoded (walEnv e) hholds.offset_le
  have hlogged : ∀ {encoded : Bytes} {t : WalEnv}, Logged batch e encoded t →
      Stages (Recoverable prims e.db.config H) e.world.log t.world.log := by
    rintro encoded t ⟨hencode, hseq, start, t₁, happ, hsync⟩
    have hstages := hpart hencode hseq ((happend encoded).of_ok happ).wrote List.prefix_rfl
    obtain ⟨-, hlog⟩ := (walSync_ends t₁).of_ok hsync
    rw [hlog]
    exact hstages.cons (hstages.last.sync _)
  refine Ends.mono (commitHead_ends batch e) ?_ ?_
  · rintro full _ ⟨encoded, t, m, hlog, -, rfl, -⟩
    exact hlogged hlog
  · intro f e' hstop
    cases hstop with
    | before hw =>
      rw [hw]
      exact .refl (hsim.recoverable hkept hH)
    | @append encoded _ t hencode happ hseq =>
      obtain ⟨p, hp⟩ := (happend encoded).of_error happ
      exact hpart hencode hseq hp.wrote hp.part
    | @sync encoded _ start t t' hencode happ hsync hseq =>
      obtain ⟨-, hlog⟩ := (walSync_ends t).of_error hsync
      show Stages _ _ t'.world.log
      rw [hlog]
      exact hpart hencode hseq ((happend encoded).of_ok happ).wrote List.prefix_rfl
    | after hlog hw =>
      rw [hw]
      exact hlogged hlog

theorem commitBatch_stages (batch : WriteBatch) (hsim : Simulates prims e s) (hkept : s.Kept h)
    (hH : H h) (hH' : H (h ++ [(s.seqno + 1, batch)])) :
    Ends (commitBatch batch) e
      (fun _ e' => Stages (Recoverable prims e.db.config H) e.world.log e'.world.log)
      fun _ e' => Stages (Recoverable prims e.db.config H) e.world.log e'.world.log := by
  obtain ⟨-, -, hist, -, hmem, -⟩ := hsim.writer
  unfold commitBatch
  refine Ends.bind (Ends.and (commitHead_ends batch e) (Ends.and (commitHead_simulates batch hsim)
    (commitHead_stages batch hsim hkept hH hH'))) ?_ (fun _ _ hstop => hstop.2.2)
  rintro full e₁ ⟨⟨encoded, t, m, -, -, rfl, -⟩, hsim₁, hstages⟩
  split
  · refine Ends.mono (rotate_stages hsim₁ (hkept.commit batch ⟨hist, hmem⟩) hH') ?_ ?_
    · intro _ e₂ hrotate
      exact hstages.trans hrotate
    · intro _ e₂ hrotate
      exact hstages.trans hrotate
  · exact Ends.ret hstages

/-! ### Flushes and compactions -/

theorem flushOne_stages {im : ImmutableMemtable} {front : List (ℕ × History)} {x : ℕ × History}
    (hseal : SealWorks prims) (hsim : Simulates prims e s) (hkept : s.Kept h) (hH : H h)
    (hq : s.queue = front ++ [x]) (hid : im.walSegmentId = x.1)
    (hrecs : im.memtable.recs = sortedRecs x.2) :
    Ends (flushOne prims im) e
      (fun _ e' => Stages (Recoverable prims e.db.config H) e.world.log e'.world.log)
      fun _ e' => Stages (Recoverable prims e.db.config H) e.world.log e'.world.log := by
  have hx : x ∈ s.queue := by
    rw [hq]
    exact List.mem_append_right _ (List.mem_singleton_self _)
  have hstart := hsim.recoverable hkept hH
  have hnew := sst_next_none hsim.mirrors
  have hwrite := writeFlush_ends hseal hsim.mirrors hx hrecs
  refine Ends.mono (Ends.and (flushOne_ends prims im e)
    (flushOne_simulates hseal hsim hx hid hrecs)) ?_ ?_
  · rintro - e' ⟨⟨reader, w₁, w₂, hnum, hrun, hopen, hdb, hremoved⟩, hsim'⟩
    obtain ⟨hmade, hf₁⟩ := hwrite.of_ok hrun
    rw [hsim.next] at hopen
    obtain ⟨hlog₂, hf₂, -⟩ := (openTable_made hmade hnew).of_ok hopen
    -- the table is there and so is the segment
    have hmid : Recoverable prims e.db.config H w₁.log := by
      obtain ⟨file, sync, hdisk, hfile⟩ := disk_made hmade hnew
      have hdir := hsim.dir.make_table sync hsim.tables_lt hfile (hsim.queue_seqnos x hx)
      rw [← hdisk] at hdir
      exact hdir.recoverable (hkept.add_table hx s.next) hH
    have hstages := tableMade_stages hnew hstart recoverable_unfinished hmade hmid
    obtain ⟨-, hlog'⟩ := removed_disk hremoved (hf₂ hf₁)
    rw [hlog₂] at hlog'
    have hend := hsim'.recoverable (hkept.flushOne hq) hH
    rw [show e'.db.config = e.db.config by rw [hdb]; rfl] at hend
    rw [hlog'] at hend ⊢
    unfold fedBy at hend ⊢
    split at hend
    · rename_i hzero
      rw [if_pos hzero]
      exact hstages.cons hend
    · rename_i hzero
      rw [if_neg hzero]
      exact hstages
  · rintro f e' ⟨hstop, -⟩
    cases hstop with
    | number _ => exact .refl hstart
    | table hrun =>
      exact tableLeft_stages hnew hstart recoverable_unfinished hsim.faults
        (hwrite.of_error hrun).1
    | reader hrun hopen =>
      obtain ⟨hmade, hf₁⟩ := hwrite.of_ok hrun
      rw [hsim.next] at hopen
      exact absurd hf₁ ((openTable_made hmade hnew).of_error hopen).2

theorem flush_stages (hseal : SealWorks prims) (hsim : Simulates prims e s) (hkept : s.Kept h)
    (hH : H h) :
    Ends (flush prims) e
      (fun _ e' => Stages (Recoverable prims e.db.config H) e.world.log e'.world.log)
      fun _ e' => Stages (Recoverable prims e.db.config H) e.world.log e'.world.log := by
  refine Ends.mono (flush_ends (I := fun e' => e'.db.config = e.db.config ∧
      Stages (Recoverable prims e.db.config H) e.world.log e'.world.log ∧
      ∃ s', Simulates prims e' s' ∧ s'.Kept h) ?_ ?_) (fun _ _ hend => hend.1.2.1)
    (fun _ _ hstop => hstop)
  · have hstart := hsim.recoverable hkept hH
    unfold flushRotate
    refine Ends.read_bind ?_
    split
    · refine Ends.mono (Ends.and (keepsConfig_rotate e rfl)
        (Ends.and (rotate_stages hsim hkept hH) (rotate_simulates hsim.mirrors))) ?_
        (fun _ _ hstop => hstop.2.1)
      rintro - e₁ ⟨hconfig, hstages, hsim₁⟩
      exact ⟨hconfig, hstages, _, hsim₁, hkept.rotate⟩
    · exact Ends.ret ⟨rfl, .refl hstart, s, hsim, hkept⟩
  · rintro e₁ im ⟨hconfig, hstages, s₁, hsim₁, hkept₁⟩ hlast
    obtain ⟨front, x, hq, hid, hrecs⟩ := forall₂_getLast hsim₁.queue hlast
    have hx : x ∈ s₁.queue := by
      rw [hq]
      exact List.mem_append_right _ (List.mem_singleton_self _)
    have hone := flushOne_stages hseal hsim₁ hkept₁ hH hq hid hrecs
    rw [hconfig] at hone
    refine Ends.mono (Ends.and (keepsConfig_flushOne prims im e₁ hconfig)
      (Ends.and hone (flushOne_simulates hseal hsim₁ hx hid hrecs))) ?_ ?_
    · rintro - e₂ ⟨hconfig₂, hstages₂, hsim₂⟩
      exact ⟨hconfig₂, hstages.trans hstages₂, _, hsim₂, hkept₁.flushOne hq⟩
    · rintro f e₂ ⟨-, hstages₂, -⟩
      exact hstages.trans hstages₂

theorem removed_stages {config : DbConfig} {names : List FileName} {w : World} (hkept : s.Kept h)
    (hH : H h)
    (hdir : Directory prims config w.disk
      { s with tables := (s.next, Store.oldestFirst s.tables) :: s.tables })
    (hnames : names = s.tables.map fun x => .sst x.1) :
    Stages (Recoverable prims config H) w.log ((names.map VfsCall.remove).reverse ++ w.log) := by
  refine Stages.of_append ?_
  intro evs₁ evs₂ heq
  have hsplit : names.map VfsCall.remove = evs₁.reverse ++ evs₂.reverse := by
    rw [← List.reverse_append, ← heq, List.reverse_reverse]
  obtain ⟨names₁, names₂, hparts, hnames₁, -⟩ := List.map_eq_append_iff.mp hsplit
  rw [hnames] at hparts
  obtain ⟨gone, rest, htables, hgone, -⟩ := List.map_eq_append_iff.mp hparts
  have hevs : evs₁ = (names₁.map VfsCall.remove).reverse := by rw [hnames₁, List.reverse_reverse]
  rw [hevs, ← hgone]
  rw [htables] at hdir
  have hdir' : Directory prims config
      (diskOf (((gone.map fun x => FileName.sst x.1).map VfsCall.remove).reverse ++ w.log))
      { s with tables := (s.next, Store.oldestFirst (gone ++ rest)) :: rest } := by
    refine hdir.remove_tables ?_ ?_
    · intro n hn
      obtain ⟨x, hx, rfl⟩ := List.mem_map.mp hn
      rw [diskOf_removes, if_pos (List.mem_map_of_mem (f := fun x => FileName.sst x.1) hx)]
    · intro name hname
      rw [diskOf_removes, if_neg]
      · rfl
      · intro hmem
        obtain ⟨x, hx, rfl⟩ := List.mem_map.mp hmem
        exact hname x.1 (List.mem_map_of_mem hx) rfl
  refine Directory.recoverable hdir' (hkept.replace_tables ?_ ?_) hH
  · intro y hy c hc
    rcases List.mem_cons.mp hy with rfl | hy
    · rw [← htables] at hc
      exact Store.mem_history.mpr (.inl (Store.mem_oldestFirst.mp hc))
    · refine Store.mem_history.mpr (.inl ⟨y, ?_, hc⟩)
      rw [htables]
      exact List.mem_append_right _ hy
  · intro y hy c hc
    refine ⟨_, List.mem_cons_self, ?_⟩
    rw [← htables]
    exact Store.mem_oldestFirst.mpr ⟨y, hy, hc⟩

theorem compactAll_stages (hseal : SealWorks prims) (hsim : Simulates prims e s)
    (hkept : s.Kept h) (hH : H h) :
    Ends (compactAll prims) e
      (fun _ e' => Stages (Recoverable prims e.db.config H) e.world.log e'.world.log)
      fun _ e' => Stages (Recoverable prims e.db.config H) e.world.log e'.world.log := by
  have hstart := hsim.recoverable hkept hH
  have hnew := sst_next_none hsim.mirrors
  have hwrite := writeCompaction_made hseal hsim.mirrors
  refine Ends.mono (compactAll_ends prims e) ?_ ?_
  · rintro - e' (⟨-, rfl⟩ | ⟨-, reader, w, -, hrun, -, hremoved⟩)
    · exact .refl hstart
    · obtain ⟨-, hf, w₁, hlog, hmade⟩ := hwrite.of_ok hrun
      obtain ⟨file, sync, hdisk, hfile⟩ := disk_made hmade hnew
      have hdir := hsim.dir.make_table sync hsim.tables_lt hfile (oldestFirst_seqnos hsim.dir)
      rw [← hdisk] at hdir
      have hremove := removed_stages hkept hH hdir (inputs_names hsim.tables)
      obtain ⟨-, hlog'⟩ := removed_disk hremoved hf
      rw [hlog', hlog]
      refine (tableMade_stages hnew hstart recoverable_unfinished hmade ?_).trans hremove
      exact hremove.all _ List.suffix_rfl hremove.suffix
  · intro f e' hstop
    cases hstop with
    | number _ => exact .refl hstart
    | table _ hrun =>
      exact tableLeft_stages hnew hstart recoverable_unfinished hsim.faults
        (hwrite.of_error hrun).1

theorem call_stages (hseal : SealWorks prims) (c : Call) (hsim : Simulates prims e s)
    (hkept : s.Kept h) :
    Ends (c.run prims) e
      (fun _ e' => Stages (Recoverable prims e.db.config fun h' => h' = h ∨ h' = h ++ c.commits e.db)
        e.world.log e'.world.log)
      fun _ e' => Stages (Recoverable prims e.db.config fun h' => h' = h ∨ h' = h ++ c.commits e.db)
        e.world.log e'.world.log := by
  cases c with
  | commit batch =>
    refine commitBatch_stages batch hsim hkept (.inl rfl) (.inr ?_)
    rw [← hsim.seqno]
    rfl
  | flush => exact flush_stages hseal hsim hkept (.inl rfl)
  | compactAll => exact compactAll_stages hseal hsim hkept (.inl rfl)

theorem openWith_stages {config : DbConfig} {w : World} (hd : Directory prims config w.disk s)
    (hf : w.faults = []) (hkept : s.Kept h) (hH : H h) :
    Ends (openWith prims config) w
      (fun _ w' => Stages (Recoverable prims config H) w.log w'.log)
      fun _ w' => Stages (Recoverable prims config H) w.log w'.log := by
  have hstart : Recoverable prims config H w.log := hd.recoverable hkept hH
  have hlists : listed w w.faults.head? = w.list ∧ listed w w.faults.tail.head? = w.list := by
    rw [hf]
    exact ⟨rfl, rfl⟩
  have hends := openWith_ends prims config w
  rw [hlists.1, hlists.2, firstFree_eq hd, hf] at hends
  refine Ends.mono (Ends.and hends (openWith_simulates hd hf)) ?_ ?_
  · rintro db w' ⟨hopened, hconfig, hsim, -⟩
    obtain ⟨-, -, hmade⟩ := hopened.ctx s.free (firstFree_eq hd).symm
    have hend := hsim.recoverable hkept.reopen hH
    rw [show (⟨db, w'⟩ : Env).db.config = config from hconfig] at hend
    exact segmentMade_stages hd.free_none hstart hmade hend
  · rintro f w' ⟨⟨-, q, hleft⟩, -⟩
    exact segmentLeft_stages hd.free_none hstart hleft

end Calls

/-! ### The next session -/

def Call.Small : Call → Prop
  | .commit batch => batch.length ≤ maxOpsPerBatch
  | .flush | .compactAll => True

/-- Crashes in a call or in the opening of a session, without a failed file operation
before them. -/
def Crashes (key : Option Bytes) : Action → Prop
  | .crashOpen config faults _ => config.masterKey = key ∧ faults = []
  | .crashCall c faults _ => c.Small ∧ faults = []
  | _ => False

/-- The commit the crash interrupts. -/
def inFlight (s : Sys) : Action → History
  | .crashCall c _ _ =>
    match s.db with
    | some db => c.commits db
    | none => []
  | _ => []

section

variable {prims : Primitives} {key : Option Bytes} {s s₁ : Sys} {a : Action}

theorem Stages.cut {P : List VfsCall → Prop} {log log' : List VfsCall} (kept : ℕ)
    (h : Stages P log log') : P (cutLog kept log log') :=
  h.all _ (suffix_cutLog kept h.suffix) (cutLog_suffix kept log log')

theorem crash_recoverable (hseal : SealWorks prims)
    (h : Reach (Sys.next prims) (Quiet key) Sys.start s) (hcrash : Crashes key a)
    (hn : s.next prims a = some s₁) :
    s₁.db = none ∧ ∀ config : DbConfig, config.masterKey = key →
      Recoverable prims config (fun h => h = s.acked ∨ h = s.acked ++ inFlight s a) s₁.log := by
  obtain ⟨t, hmodels, hkept⟩ := reach_kept hseal h
  cases step_of_next hn with
  | @crashedOpen config' faults kept hdb =>
    obtain ⟨hkey', rfl⟩ := hcrash
    refine ⟨rfl, ?_⟩
    intro config hkey
    have hstages := openWith_stages (w := ⟨s.log, []⟩) (hmodels.closed hdb config' hkey') rfl hkept
      (H := fun h => h = s.acked ∨ h = s.acked ++ inFlight s (.crashOpen config' [] kept)) (.inl rfl)
    have hcut := Stages.cut kept (Ends.resultState (I := fun w' : World => Stages _ s.log w'.log)
      hstages)
    intro hheaders
    obtain ⟨t', hist, hH, hkept', hdir⟩ := hcut hheaders
    exact ⟨t', hist, hH, hkept', hdir.config (hkey.trans hkey'.symm)⟩
  | @crashedCall c faults db kept hdb =>
    obtain ⟨-, rfl⟩ := hcrash
    refine ⟨rfl, ?_⟩
    intro config hkey
    obtain ⟨hkey', hsim⟩ := hmodels.opened db hdb
    have hcut := Stages.cut kept (Ends.resultState (I := fun e' : Env => Stages _ s.log e'.world.log)
      (call_stages hseal c hsim hkept))
    intro hheaders
    obtain ⟨t', hist, hH, hkept', hdir⟩ := hcut hheaders
    refine ⟨t', hist, ?_, hkept', hdir.config (hkey.trans hkey'.symm)⟩
    rw [show inFlight s (.crashCall c [] kept) = c.commits db by simp only [inFlight, hdb]]
    exact hH
  | opened => cases hcrash
  | notOpened => cases hcrash
  | returned => cases hcrash
  | failed => cases hcrash
  | dropped => cases hcrash

theorem inFlight_small (hcrash : Crashes key a) :
    ∀ c ∈ inFlight s a, c.2.length ≤ maxOpsPerBatch := by
  cases a with
  | crashCall c faults kept =>
    unfold inFlight
    cases s.db with
    | none =>
      intro x hx
      cases hx
    | some db =>
      cases c with
      | commit batch =>
        intro x hx
        rw [List.mem_singleton.mp hx]
        exact hcrash.1
      | flush =>
        intro x hx
        cases hx
      | compactAll =>
        intro x hx
        cases hx
  | crashOpen config faults kept =>
    intro x hx
    cases hx
  | openDb config faults => cases hcrash
  | call c faults => cases hcrash
  | drop => cases hcrash

theorem openFile_length {file : Bytes} {r : SegmentReader}
    (h : SegmentReader.openFile file = .ok r) : segmentHeaderSize ≤ file.length := by
  unfold SegmentReader.openFile at h
  split at h
  · cases h
  · rename_i hlong
    exact not_lt.mp hlong

theorem headersWritten_of_opened {config : DbConfig} {w w' : World} {db : Db} (hf : w.faults = [])
    (h : openWith prims config w = .ok db w') : HeadersWritten w.disk := by
  have hopened := (openWith_ends prims config w).of_ok h
  have hlist : listed w none = w.list := rfl
  rw [hf, List.head?_nil, List.tail_nil, List.head?_nil, hlist] at hopened
  have hmem : ∀ name f, w.disk name = some f → name ∈ w.list := by
    intro name f hname
    rw [World.mem_list, hname]
    rfl
  constructor
  · intro n f hname
    obtain ⟨hists, hsegments, -⟩ := hopened.segments
    obtain ⟨hist, -, file, sync, hfile, hopen, -⟩ :=
      forall₂_exists_right hsegments (mem_walIds.mpr (hmem _ f hname))
    cases hname.symm.trans hfile
    exact openFile_length hopen
  · intro n f hname hunfinished
    obtain ⟨sst, -, -, file, sync, hfile, hopen⟩ :=
      forall₂_exists_right hopened.tables (mem_sstIds.mpr (hmem _ f hname))
    cases hname.symm.trans hfile
    exact openInner_unfinished hunfinished hopen

/-- After a run whose batches the decoder accepts and a crash in one more call, the
database opens and shows the commits that returned, or these and the one under way, if
and only if the crash left no file without its header; then only a counter can keep the
opening from returning. -/
theorem crash_recovers_iff (hseal : SealWorks prims)
    (h : Reach (Sys.next prims) (QuietSmall key) Sys.start s) (hcrash : Crashes key a)
    (hn : s.next prims a = some s₁) {config : DbConfig} (hkey : config.masterKey = key) :
    (HeadersWritten (diskOf s₁.log) → s₁.next prims (.openDb config []) = none →
      OutOfNumbers prims config s₁) ∧
    ∀ s₂, s₁.next prims (.openDb config []) = some s₂ →
      ((∃ db h, s₂.db = some db ∧ (h = s.acked ∨ h = s.acked ++ inFlight s a) ∧
        ShowsExactly prims db h) ↔ HeadersWritten (diskOf s₁.log)) := by
  obtain ⟨hclosed, hrecover⟩ := crash_recoverable hseal (h.mono fun _ _ hok => hok.1) hcrash hn
  have hsmall : ∀ {hist : History}, hist = s.acked ∨ hist = s.acked ++ inFlight s a →
      ∀ c ∈ hist, c.2.length ≤ maxOpsPerBatch := by
    have hacked := reach_small h
    rintro hist (rfl | rfl)
    · exact hacked
    · intro c hc
      rcases List.mem_append.mp hc with hc | hc
      · exact hacked c hc
      · exact inFlight_small hcrash c hc
  constructor
  · intro hheaders
    obtain ⟨t, hist, hH, hkept, hdir⟩ := hrecover config hkey hheaders
    exact outOfNumbers_of_open hdir (hkept.replayable (hsmall hH)) hclosed
  intro s₂ hopen
  constructor
  · rintro ⟨db, -, hdb, -⟩
    cases step_of_next hopen with
    | opened _ hok => exact headersWritten_of_opened rfl hok
    | notOpened => cases hdb
  · intro hheaders
    obtain ⟨t, hist, hH, hkept, hdir⟩ := hrecover config hkey hheaders
    obtain ⟨db, hdb, -, hsim⟩ := opens_small hdir hkept (hsmall hH) hopen
    exact ⟨db, hist, hdb, hH, showsExactly_of_kept hsim.serving hkept.reopen⟩

end

/-! ### Crashes in a flush -/

section Runs

set_option maxRecDepth 100000

/-- A session with one commit. -/
def afterPut : List Action := [.openDb .default [], .call (.commit [.put [1] [2]]) []]

-- the crash comes when the new segment has its header and the table is not yet begun
theorem crash_recovers_iff_rotated : ∃ s s₁ s₂,
    Reach (Sys.next .blank) (QuietSmall none) Sys.start s ∧ s.acked = [(1, [.put [1] [2]])] ∧
      s.next .blank (.crashCall .flush [] 2) = some s₁ ∧
      s₁.next .blank (.openDb .default []) = some s₂ ∧ s₂.db.isSome = true ∧
      ((∃ db h, s₂.db = some db ∧
        (h = s.acked ∨ h = s.acked ++ inFlight s (.crashCall .flush [] 2)) ∧
        ShowsExactly .blank db h) ↔ HeadersWritten (diskOf s₁.log)) := by
  obtain ⟨s, hreach, hs⟩ := reach_of_runDecided
    (show (runOk (Sys.next .blank) (fun s a => decide (QuietSmall none s a)) Sys.start
      afterPut).map (fun s => decide (s.acked = [(1, [.put [1] [2]])]) &&
        ((s.next .blank (.crashCall .flush [] 2)).bind fun s₁ =>
          (s₁.next .blank (.openDb .default [])).map fun s₂ => s₂.db.isSome) == some true) =
        some true by
      decide +kernel)
  rw [Bool.and_eq_true, beq_iff_eq] at hs
  obtain ⟨hacked, hs⟩ := hs
  obtain ⟨s₁, hcrash, hs⟩ := Option.bind_eq_some_iff.mp hs
  obtain ⟨s₂, hopen, hdb⟩ := Option.map_eq_some_iff.mp hs
  have hcrashes : Crashes none (.crashCall .flush [] 2) := ⟨trivial, rfl⟩
  exact ⟨s, s₁, s₂, hreach, of_decide_eq_true hacked, hcrash, hopen, hdb,
    (crash_recovers_iff sealWorks_blank hreach hcrashes hcrash rfl).2 s₂ hopen⟩

-- the crash comes when the new segment is open and has no header
theorem crash_blocks_open : ∃ s s₁ s₂,
    run (Sys.next .blank) Sys.start afterPut = some s ∧
      s.next .blank (.crashCall .flush [] 1) = some s₁ ∧
      s₁.next .blank (.openDb .default []) = some s₂ ∧ s₂.db.isSome = false := by
  have hrun : ((run (Sys.next .blank) Sys.start afterPut).bind fun s =>
      (s.next .blank (.crashCall .flush [] 1)).bind fun s₁ =>
        (s₁.next .blank (.openDb .default [])).map fun s₂ => s₂.db.isSome) = some false := by
    decide +kernel
  obtain ⟨s, hs, hrun⟩ := Option.bind_eq_some_iff.mp hrun
  obtain ⟨s₁, hcrash, hrun⟩ := Option.bind_eq_some_iff.mp hrun
  obtain ⟨s₂, hopen, hdb⟩ := Option.map_eq_some_iff.mp hrun
  exact ⟨s, s₁, s₂, hs, hcrash, hopen, hdb⟩

end Runs

end PaddockKV.Engine
