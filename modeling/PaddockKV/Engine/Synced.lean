import PaddockKV.Engine.Listing
import PaddockKV.Engine.OldSegments

/-!
# What is synced

A segment is synced with every commit and a table never. Beside the log stands the
store: which commits its segments hold, and whether they hold those of the tables, too.
-/

namespace PaddockKV.Engine

open Io Wal Memtable Sstable Crypto History Transition

/-- The files that were synced after their last write. -/
def synced (d : Disk) : Disk := fun name => (d name).filter File.synced

/-- Every record of the file is in another one that was synced. -/
def SafelyRemoved (prims : Primitives) (config : DbConfig) (log : List VfsCall) (name : FileName) :
    Prop :=
  ∀ r, HoldsRec prims config (diskOf log) name r →
    ∃ other, other ≠ name ∧ HoldsRec prims config (synced (diskOf log)) other r

/-- So it is with every file unlinked between the two logs. -/
def RemovesSafely (prims : Primitives) (config : DbConfig) (log log' : List VfsCall) : Prop :=
  ∀ evs name l, log' = evs ++ .remove name :: l → log <:+ l → SafelyRemoved prims config l name

/-! ### Calls and files -/

/-- The file a call changes. -/
def changes : VfsCall → Option FileName
  | .openWritable name | .append name _ | .writeAt name _ _ | .sync name | .remove name => some name
  | .sealBlock _ _ => none

section Logs

variable {prims : Primitives} {config : DbConfig} {log log' l evs : List VfsCall} {name : FileName}

theorem diskOf_unchanged (h : ∀ c ∈ evs, changes c ≠ some name) :
    diskOf (evs ++ log) name = diskOf log name := by
  induction evs with
  | nil => rfl
  | cons c evs ih =>
    have hc := h c List.mem_cons_self
    rw [List.cons_append, diskOf_cons, ← ih fun c' hc' => h c' (List.mem_cons_of_mem _ hc')]
    cases c with
    | sealBlock id offset => rfl
    | openWritable n | append n data | writeAt n data off | sync n | remove n =>
      rw [Disk.apply, Function.update_of_ne]
      rintro rfl
      exact hc rfl

theorem appends_mem {bs : Bytes} (h : Appends name evs bs) {c : VfsCall} (hc : c ∈ evs) :
    (∃ data, c = .append name data) ∨ ∃ id offset, c = .sealBlock id offset := by
  induction h with
  | nil => cases hc
  | append _ data ih =>
    rcases List.mem_cons.mp hc with rfl | hc
    · exact .inl ⟨data, rfl⟩
    · exact ih hc
  | sealBlock _ id offset ih =>
    rcases List.mem_cons.mp hc with rfl | hc
    · exact .inr ⟨id, offset, rfl⟩
    · exact ih hc

theorem unsynced_of_log (h : .sync name ∉ log) {f : File} (hf : diskOf log name = some f) :
    f.synced = false := by
  induction log generalizing f with
  | nil => cases hf
  | cons c log ih =>
    have hlog : .sync name ∉ log := fun hmem => h (List.mem_cons_of_mem _ hmem)
    by_cases hc : changes c = some name
    · rw [diskOf_cons] at hf
      cases c with
      | sealBlock id offset => cases hc
      | openWritable n =>
        cases hc
        rw [Disk.apply, Function.update_self] at hf
        cases hd : diskOf log name with
        | none =>
          rw [hd] at hf
          cases hf
          rfl
        | some f' =>
          rw [hd] at hf
          cases hf
          exact ih hlog hd
      | append n data | writeAt n data off =>
        cases hc
        rw [Disk.apply, Function.update_self] at hf
        obtain ⟨f', -, rfl⟩ := Option.map_eq_some_iff.mp hf
        rfl
      | sync n =>
        cases hc
        exact absurd List.mem_cons_self h
      | remove n =>
        cases hc
        rw [Disk.apply, Function.update_self] at hf
        cases hf
    · refine ih hlog ?_
      have hsame : diskOf ([c] ++ log) name = diskOf log name := by
        refine diskOf_unchanged ?_
        intro c' hc'
        rw [List.mem_singleton.mp hc']
        exact hc
      rw [← hsame]
      exact hf

/-! ### Removals -/

theorem removesSafely_refl : RemovesSafely prims config log log := by
  intro evs name l heq hsuffix
  have hlen := congrArg List.length heq
  have hle := hsuffix.length_le
  rw [List.length_append, List.length_cons] at hlen
  omega

theorem removesSafely_cons {c : VfsCall} (h : log <:+ l) :
    RemovesSafely prims config log (c :: l) ↔
      (∀ name, c = .remove name → SafelyRemoved prims config l name) ∧
        RemovesSafely prims config log l := by
  constructor
  · intro hall
    refine ⟨?_, ?_⟩
    · rintro name rfl
      exact hall [] name l rfl h
    · rintro evs name l' rfl hl'
      exact hall (c :: evs) name l' rfl hl'
  · rintro ⟨hc, hall⟩ evs name l' heq hl'
    cases evs with
    | nil =>
      cases heq
      exact hc name rfl
    | cons c' evs =>
      cases heq
      exact hall evs name l' rfl hl'

theorem removesSafely_append (h : log <:+ l) (hevs : ∀ name, .remove name ∉ evs) :
    RemovesSafely prims config log (evs ++ l) ↔ RemovesSafely prims config log l := by
  induction evs with
  | nil => exact Iff.rfl
  | cons c evs ih =>
    rw [List.cons_append, removesSafely_cons (h.trans (List.suffix_append evs l)),
      ih fun name hmem => hevs name (List.mem_cons_of_mem _ hmem)]
    refine and_iff_right ?_
    rintro name rfl
    exact absurd List.mem_cons_self (hevs name)

/-! ### Records -/

theorem holdsRec_congr {d d' : Disk} (h : d' name = d name) (r : Rec) :
    HoldsRec prims config d' name r ↔ HoldsRec prims config d name r := by
  cases name with
  | wal n => simp only [HoldsRec, SegmentAt, h]
  | sst n => simp only [HoldsRec, TableOpens, h]

theorem holdsRec_isSome {d : Disk} {r : Rec} (h : HoldsRec prims config d name r) :
    ∃ f, d name = some f := by
  cases name with
  | wal n =>
    obtain ⟨-, ⟨file, sync, hdisk, -⟩, -⟩ := h
    exact ⟨_, hdisk⟩
  | sst n =>
    obtain ⟨-, ⟨file, sync, hdisk, -⟩, -⟩ := h
    exact ⟨_, hdisk⟩

theorem holdsRec_synced {d : Disk} {r : Rec} : HoldsRec prims config (synced d) name r ↔
    HoldsRec prims config d name r ∧ ∃ file, d name = some ⟨file, true⟩ := by
  constructor
  · intro h
    obtain ⟨⟨file, sync⟩, hf⟩ := holdsRec_isSome h
    obtain ⟨hdisk, hsync⟩ := Option.filter_eq_some_iff.mp hf
    refine ⟨(holdsRec_congr (hf.trans hdisk.symm) r).mp h, file, ?_⟩
    rw [hdisk, show sync = true from hsync]
  · rintro ⟨h, file, hdisk⟩
    refine (holdsRec_congr ?_ r).mpr h
    rw [synced, hdisk]
    rfl

end Logs

/-! ### One file written -/

/-- A call that writes to `name` and no other file. -/
def Writes (name : FileName) : VfsCall → Prop
  | .openWritable n | .append n _ | .writeAt n _ _ => n = name
  | .sealBlock _ _ => True
  | .sync _ | .remove _ => False

/-- Between the two logs `name` was written. -/
def Written (name : FileName) (log log' : List VfsCall) : Prop :=
  ∃ evs, log' = evs ++ log ∧ ∀ c ∈ evs, Writes name c

section Written

variable {prims : Primitives} {config : DbConfig} {log log' l : List VfsCall}
  {name other : FileName}

theorem Written.suffix (h : Written name log log') : log <:+ log' := by
  obtain ⟨evs, rfl, -⟩ := h
  exact List.suffix_append evs log

theorem Written.disk (h : Written name log log') (hne : other ≠ name) :
    diskOf log' other = diskOf log other := by
  obtain ⟨evs, rfl, hevs⟩ := h
  refine diskOf_unchanged ?_
  intro c hc heq
  have hw := hevs c hc
  cases c with
  | openWritable n | append n data | writeAt n data off =>
    cases heq
    exact hne hw
  | sealBlock id offset => cases heq
  | sync n => exact hw
  | remove n => exact hw

theorem Written.sync_mem (h : Written name log log') (hmem : .sync other ∈ log') :
    .sync other ∈ log := by
  obtain ⟨evs, rfl, hevs⟩ := h
  rcases List.mem_append.mp hmem with hmem | hmem
  · exact (hevs _ hmem).elim
  · exact hmem

theorem Written.removesSafely (h : Written name log log') (hl : l <:+ log) :
    RemovesSafely prims config l log' ↔ RemovesSafely prims config l log := by
  obtain ⟨evs, rfl, hevs⟩ := h
  exact removesSafely_append hl fun n hmem => hevs _ hmem

theorem written_appends {evs : List VfsCall} {bs : Bytes} (h : Appends name evs bs) :
    ∀ c ∈ evs, Writes name c := by
  intro c hc
  rcases appends_mem h hc with ⟨data, rfl⟩ | ⟨id, offset, rfl⟩
  · exact rfl
  · exact trivial

theorem written_table {crypto : Option CryptoCtx} {wd wd' : World} {blocks : List (List Rec)}
    (h : TableMade prims crypto name wd wd' blocks) : Written name wd.log wd'.log := by
  obtain ⟨header, dataEnd, evs, bs, -, happ, -, -, hlog⟩ := h
  refine ⟨.writeAt name header.asBytes 0 :: (evs ++ [.openWritable name]), ?_, ?_⟩
  · rw [hlog, List.cons_append, List.append_assoc, List.singleton_append]
  · intro c hc
    rcases List.mem_cons.mp hc with rfl | hc
    · exact rfl
    · rcases List.mem_append.mp hc with hc | hc
      · exact written_appends happ c hc
      · rw [List.mem_singleton.mp hc]
        exact rfl

theorem written_segment {id firstSeqno : ℕ} (h : SegmentMade id firstSeqno log log') :
    Written (.wal id) log log' := by
  refine ⟨[_, _], h, ?_⟩
  intro c hc
  rcases List.mem_cons.mp hc with rfl | hc
  · exact rfl
  · rw [List.mem_singleton.mp hc]
    exact rfl

end Written

/-! ### The commits of the segments -/

/-- No table is synced, every segment with a commit is, and no commit with operations
is in two segments. -/
structure Synced (log : List VfsCall) (t : Store) : Prop where
  tables : ∀ n, .sync (.sst n) ∉ log
  wals : ∀ x ∈ t.wals, x.2 ≠ [] → ∃ file, diskOf log (.wal x.1) = some ⟨file, true⟩
  apart : ∀ x ∈ t.wals, ∀ y ∈ t.wals, x.1 ≠ y.1 → ∀ c ∈ x.2, c.2 ≠ [] → c ∉ y.2

/-- What the tables hold is in the segments, too. -/
def Store.Covered (t : Store) : Prop :=
  ∀ x ∈ t.tables, ∀ c ∈ x.2, c.2 ≠ [] → ∃ w ∈ t.wals, c ∈ w.2

/-- The segments of the session hold no operation. -/
def Store.SessionBlank (t : Store) : Prop :=
  ∀ y ∈ t.memtables, ∀ w ∈ t.wals, w.1 = y.1 → Store.Blank w

section Synced

variable {log log' l : List VfsCall} {t t' : Store} {acked : History}

theorem synced_empty : Synced [] Store.empty := by
  constructor
  · intro n hn
    cases hn
  all_goals
    intro x hx
    cases hx

theorem Synced.of_disk (h : Synced log t) (htables : ∀ n, .sync (.sst n) ∉ log')
    (hwals : ∀ x ∈ t'.wals, x ∈ t.wals)
    (hdisk : ∀ x ∈ t'.wals, diskOf log' (.wal x.1) = diskOf log (.wal x.1)) : Synced log' t' := by
  refine ⟨htables, ?_, ?_⟩
  · intro x hx hne
    rw [hdisk x hx]
    exact h.wals x (hwals x hx) hne
  · intro x hx y hy
    exact h.apart x (hwals x hx) y (hwals y hy)

theorem Synced.table {n : ℕ} (h : Synced log t) (hwritten : Written (.sst n) log log')
    (ht' : t'.wals = t.wals) : Synced log' t' := by
  refine h.of_disk (fun m hm => h.tables m (hwritten.sync_mem hm)) ?_ ?_
  · intro x hx
    rwa [ht'] at hx
  · intro x _
    exact hwritten.disk (by simp)

theorem Synced.segment {id : ℕ} (h : Synced log t) (hwritten : Written (.wal id) log log')
    (hnew : diskOf log (.wal id) = none) (ht' : t'.wals = t.wals ++ [(id, [])]) :
    Synced log' t' := by
  have hmem : ∀ x ∈ t'.wals, x ∈ t.wals ∨ x = (id, []) := by
    intro x hx
    rw [ht', List.mem_append, List.mem_singleton] at hx
    exact hx
  refine ⟨fun m hm => h.tables m (hwritten.sync_mem hm), ?_, ?_⟩
  · intro x hx hne
    rcases hmem x hx with hx | rfl
    · obtain ⟨file, hfile⟩ := h.wals x hx hne
      refine ⟨file, ?_⟩
      rw [hwritten.disk, hfile]
      intro heq
      rw [heq, hnew] at hfile
      cases hfile
    · exact absurd rfl hne
  · intro x hx y hy hne c hc hcne
    rcases hmem x hx with hx | rfl
    · rcases hmem y hy with hy | rfl
      · exact h.apart x hx y hy hne c hc hcne
      · exact List.not_mem_nil
    · cases hc

theorem Synced.commit {f : File} (h : Synced log t) (hkept : t.Kept acked) (batch : WriteBatch)
    (hwritten : Written (.wal t.walId) log l) (hdisk : diskOf l (.wal t.walId) = some f) :
    Synced (.sync (.wal t.walId) :: l) (t.commit batch) := by
  -- what a segment holds it held before, but for this commit in the open one
  have hmem : ∀ x ∈ (t.commit batch).wals, ∃ y ∈ t.wals, x.1 = y.1 ∧
      ∀ c ∈ x.2, c ∈ y.2 ∨ c = (t.seqno + 1, batch) ∧ x.1 = t.walId := by
    intro x hx
    obtain ⟨y, hy, rfl⟩ := List.mem_map.mp hx
    refine ⟨y, hy, ?_⟩
    split
    · rename_i heq
      refine ⟨rfl, ?_⟩
      intro c hc
      rcases List.mem_append.mp hc with hc | hc
      · exact .inl hc
      · exact .inr ⟨List.mem_singleton.mp hc, heq⟩
    · exact ⟨rfl, fun c hc => .inl hc⟩
  -- the numbers of the commits in the segments are smaller
  have hnew : ∀ y ∈ t.wals, batch ≠ [] → (t.seqno + 1, batch) ∉ y.2 := by
    intro y hy hne hc
    have hle := hkept.le_seqno _ (hkept.wals y hy _ hc hne) hne
    exact absurd hle (Nat.not_succ_le_self _)
  refine ⟨?_, ?_, ?_⟩
  · intro n hn
    rcases List.mem_cons.mp hn with heq | hn
    · cases heq
    · exact h.tables n (hwritten.sync_mem hn)
  · intro x hx hne
    by_cases hid : x.1 = t.walId
    · refine ⟨f.bytes, ?_⟩
      rw [hid, diskOf_cons, Disk.apply, Function.update_self, hdisk]
      rfl
    · obtain ⟨y, hy, hxy, hsub⟩ := hmem x hx
      obtain ⟨c, hc⟩ := List.exists_mem_of_ne_nil x.2 hne
      have hcy : c ∈ y.2 := (hsub c hc).resolve_right fun hopen => hid hopen.2
      obtain ⟨file, hfile⟩ := h.wals y hy (List.ne_nil_of_mem hcy)
      refine ⟨file, ?_⟩
      have hne : FileName.wal x.1 ≠ .wal t.walId := by simpa using hid
      rw [diskOf_cons, Disk.apply, Function.update_of_ne hne, hwritten.disk hne, hxy, hfile]
  · intro x hx y hy hxy c hcx hcne hcy
    obtain ⟨x', hx', hidx, hsubx⟩ := hmem x hx
    obtain ⟨y', hy', hidy, hsuby⟩ := hmem y hy
    rcases hsubx c hcx with hcx' | ⟨rfl, hopen⟩
    · rcases hsuby c hcy with hcy' | ⟨rfl, -⟩
      · exact h.apart x' hx' y' hy' (hidx ▸ hidy ▸ hxy) c hcx' hcne hcy'
      · exact hnew x' hx' hcne hcx'
    · rcases hsuby _ hcy with hcy' | ⟨-, hopen'⟩
      · exact hnew y' hy' hcne hcy'
      · exact hxy (hopen.trans hopen'.symm)

theorem Synced.remove_wal {n : ℕ} (h : Synced log t)
    (ht' : t'.wals = t.wals.filter fun x => decide (x.1 ≠ n)) :
    Synced (.remove (.wal n) :: log) t' := by
  have hmem : ∀ x ∈ t'.wals, x ∈ t.wals ∧ x.1 ≠ n := by
    intro x hx
    rw [ht'] at hx
    exact ⟨List.mem_of_mem_filter hx, of_decide_eq_true (List.mem_filter.mp hx).2⟩
  refine h.of_disk ?_ (fun x hx => (hmem x hx).1) ?_
  · intro m hm
    rcases List.mem_cons.mp hm with heq | hm
    · cases heq
    · exact h.tables m hm
  · intro x hx
    rw [diskOf_cons, Disk.apply, Function.update_of_ne (by simpa using (hmem x hx).2)]

theorem Synced.remove_tables (h : Synced log t) (ids : List ℕ) (ht' : t'.wals = t.wals) :
    Synced (((ids.map FileName.sst).map VfsCall.remove).reverse ++ log) t' := by
  refine h.of_disk ?_ ?_ ?_
  · intro n hn
    rcases List.mem_append.mp hn with hn | hn
    · simp at hn
    · exact h.tables n hn
  · intro x hx
    rwa [ht'] at hx
  · intro x _
    rw [diskOf_removes, if_neg (by simp)]

end Synced

/-! ### Records of the files -/

section Directory

variable {prims : Primitives} {config : DbConfig} {d : Disk} {log l : List VfsCall} {t : Store}
  {acked : History} {r : Rec}

theorem holdsRec_wal_iff (hd : Directory prims config d t) (hsmall : ∀ x ∈ t.wals, Replayable x.2)
    (n : ℕ) : HoldsRec prims config d (.wal n) r ↔ ∃ x ∈ t.wals, x.1 = n ∧ r ∈ records x.2 := by
  constructor
  · rintro ⟨h, hat, hr⟩
    obtain ⟨file, sync, hdisk, -⟩ := id hat
    have hsome : (d (.wal n)).isSome = true := by
      rw [hdisk]
      rfl
    obtain ⟨x, hx, rfl⟩ := (wal_isSome_iff hd n).mp hsome
    rw [((segmentAt_iff hd hx).mp hat).1] at hr
    exact ⟨x, hx, rfl, hr⟩
  · rintro ⟨x, hx, rfl, hr⟩
    exact ⟨x.2, (segmentAt_iff hd hx).mpr ⟨rfl, hsmall x hx⟩, hr⟩

theorem holdsRec_sst {n : ℕ} (hd : Directory prims config d t)
    (h : HoldsRec prims config d (.sst n) r) : ∃ x ∈ t.tables, r ∈ records x.2 := by
  obtain ⟨f, hf⟩ := holdsRec_isSome h
  obtain ⟨reader, hopens, items, hscan, hr⟩ := h
  have hsome : (d (.sst n)).isSome = true := by
    rw [hf]
    rfl
  obtain ⟨x, hx, rfl⟩ := List.mem_map.mp (hd.sst_mem n hsome)
  obtain ⟨⟨dataEnd, index, hreader⟩, -⟩ := tableOpens_serves hd hx hopens
  rw [scanStream_eq hreader, blocksOf_flatten] at hscan
  cases hscan
  obtain ⟨r', hr', heq⟩ := List.mem_map.mp hr
  cases heq
  exact ⟨x, hx, mem_sortedRecs.mp hr'⟩

/-- A segment with operations is not safely unlinked: its records are in no other, and
the tables are not synced. -/
theorem safelyRemoved_wal_iff (hd : Directory prims config (diskOf l) t) (hs : Synced l t)
    (hkept : t.Kept acked) (hsmall : ∀ x ∈ t.wals, Replayable x.2) (n : ℕ) :
    SafelyRemoved prims config l (.wal n) ↔ ∀ x ∈ t.wals, x.1 = n → Store.Blank x := by
  constructor
  · intro hsafe x hx hid c hc
    by_contra hne
    obtain ⟨op, hop⟩ := List.exists_mem_of_ne_nil c.2 hne
    have hr : op.toRec c.1 ∈ records x.2 := mem_records.mpr ⟨c, hc, op, hop, rfl⟩
    obtain ⟨other, hother, hholds⟩ := hsafe _ ((holdsRec_wal_iff hd hsmall n).mpr ⟨x, hx, hid, hr⟩)
    obtain ⟨hholds, file, hfile⟩ := holdsRec_synced.mp hholds
    cases other with
    | sst m =>
      have hfalse := unsynced_of_log (hs.tables m) hfile
      cases hfalse
    | wal m =>
      -- a commit in both has one number, so it is one commit in two segments
      obtain ⟨y, hy, rfl, hry⟩ := (holdsRec_wal_iff hd hsmall m).mp hholds
      obtain ⟨c', hc', op', hop', heq⟩ := mem_records.mp hry
      have hseq : c.1 = c'.1 := by
        have := congrArg Rec.seqno heq
        rwa [toRec_seqno, toRec_seqno] at this
      have hne' := List.ne_nil_of_mem hop'
      have hbatch := hkept.apart c (hkept.wals x hx c hc hne) c' (hkept.wals y hy c' hc' hne') hne
        hne' hseq
      have hsame : c = c' := Prod.ext hseq hbatch
      have hids : x.1 ≠ y.1 := by
        intro heq
        rw [← heq, hid] at hother
        exact hother rfl
      exact hs.apart x hx y hy hids c hc hne (hsame ▸ hc')
  · intro hblank r hr
    obtain ⟨x, hx, hid, hr⟩ := (holdsRec_wal_iff hd hsmall n).mp hr
    obtain ⟨c, hc, op, hop, -⟩ := mem_records.mp hr
    rw [hblank x hx hid c hc] at hop
    cases hop

theorem synced_record (hd : Directory prims config (diskOf log) t) (hs : Synced log t)
    (hsmall : ∀ x ∈ t.wals, Replayable x.2) {x : ℕ × History} (hx : x ∈ t.wals)
    (hr : r ∈ records x.2) : HoldsRec prims config (synced (diskOf log)) (.wal x.1) r := by
  obtain ⟨c, hc, -⟩ := mem_records.mp hr
  exact holdsRec_synced.mpr ⟨(holdsRec_wal_iff hd hsmall x.1).mpr ⟨x, hx, rfl, hr⟩,
    hs.wals x hx (List.ne_nil_of_mem hc)⟩

theorem Store.Covered.safelyRemoved (hcov : t.Covered) (hd : Directory prims config (diskOf log) t)
    (hs : Synced log t) (hsmall : ∀ x ∈ t.wals, Replayable x.2)
    (hwal : ∀ n, diskOf l (.wal n) = diskOf log (.wal n)) {n : ℕ}
    (hsst : diskOf l (.sst n) = none ∨ diskOf l (.sst n) = diskOf log (.sst n)) :
    SafelyRemoved prims config l (.sst n) := by
  intro r hr
  rcases hsst with hnone | hsame
  · obtain ⟨f, hf⟩ := holdsRec_isSome hr
    rw [hnone] at hf
    cases hf
  · obtain ⟨x, hx, hrx⟩ := holdsRec_sst hd ((holdsRec_congr hsame r).mp hr)
    obtain ⟨c, hc, op, hop, rfl⟩ := mem_records.mp hrx
    obtain ⟨w, hw, hcw⟩ := hcov x hx c hc (List.ne_nil_of_mem hop)
    refine ⟨.wal w.1, by simp, ?_⟩
    refine (holdsRec_congr ?_ _).mp
      (synced_record hd hs hsmall hw (mem_records.mpr ⟨c, hcw, op, hop, rfl⟩))
    rw [synced, synced, hwal]

theorem Store.Covered.durable (hcov : t.Covered) (hd : Directory prims config (diskOf log) t)
    (hs : Synced log t) (hkept : t.Kept acked) (hsmall : ∀ x ∈ t.wals, Replayable x.2)
    (hr : r ∈ records acked) : ∃ name, HoldsRec prims config (synced (diskOf log)) name r := by
  obtain ⟨c, hc, op, hop, rfl⟩ := mem_records.mp hr
  have hne := List.ne_nil_of_mem hop
  have hwal : ∃ w ∈ t.wals, c ∈ w.2 := by
    rcases Store.mem_history.mp ((hkept.same c hne).mpr hc) with ⟨x, hx, hcx⟩ | ⟨y, hy, hcy⟩
    · exact hcov x hx c hcx hne
    · obtain ⟨w, hw, hcw, -⟩ := hkept.logged y hy c hcy
      exact ⟨w, hw, hcw⟩
  obtain ⟨w, hw, hcw⟩ := hwal
  exact ⟨_, synced_record hd hs hsmall hw (mem_records.mpr ⟨c, hcw, op, hop, rfl⟩)⟩

end Directory

/-! ### Covered tables -/

namespace Store

section

variable {t t' : Store} {acked : History}

theorem Covered.of_wals (h : t.Covered) (htables : t'.tables = t.tables)
    (hwals : ∀ w ∈ t.wals, ∃ w' ∈ t'.wals, ∀ c ∈ w.2, c ∈ w'.2) : t'.Covered := by
  intro x hx c hc hne
  rw [htables] at hx
  obtain ⟨w, hw, hcw⟩ := h x hx c hc hne
  obtain ⟨w', hw', hsub⟩ := hwals w hw
  exact ⟨w', hw', hsub c hcw⟩

theorem Covered.commit (h : t.Covered) (batch : WriteBatch) : (t.commit batch).Covered := by
  refine h.of_wals rfl ?_
  intro w hw
  refine ⟨_, List.mem_map_of_mem hw, ?_⟩
  split
  · exact fun c hc => List.mem_append_left _ hc
  · exact fun c hc => hc

theorem Covered.rotate (h : t.Covered) : t.rotate.Covered :=
  h.of_wals rfl fun w hw => ⟨w, List.mem_append_left _ hw, fun _ hc => hc⟩

theorem Covered.reopen (h : t.Covered) : t.reopen.Covered :=
  h.of_wals rfl fun w hw => ⟨w, List.mem_append_left _ hw, fun _ hc => hc⟩

theorem Covered.compact (h : t.Covered) : t.compact.Covered := by
  intro x hx c hc hne
  rw [List.mem_singleton.mp hx] at hc
  obtain ⟨y, hy, hcy⟩ := mem_oldestFirst.mp hc
  exact h y hy c hcy hne

theorem Covered.flushOne (h : t.Covered) (hkept : t.Kept acked) {y : ℕ × History}
    (hy : y ∈ t.queue) (hblank : ∀ w ∈ t.wals, w.1 = y.1 → Blank w) : (t.flushOne y).Covered := by
  have hstays : ∀ {c : ℕ × WriteBatch}, c.2 ≠ [] → (∃ w ∈ t.wals, c ∈ w.2) →
      ∃ w ∈ (t.flushOne y).wals, c ∈ w.2 := by
    rintro c hne ⟨w, hw, hcw⟩
    refine ⟨w, mem_flushOne_wals hw ?_, hcw⟩
    intro heq
    exact hne (hblank w hw heq c hcw)
  intro x hx c hc hne
  refine hstays hne ?_
  rcases List.mem_cons.mp hx with rfl | hx
  · obtain ⟨w, hw, hcw, -⟩ := hkept.logged y (List.mem_cons_of_mem _ hy) c hc
    exact ⟨w, hw, hcw⟩
  · exact h x hx c hc hne

theorem covered_works (hkept : t.Kept acked) (hworks : Works t t') (hcov : t.Covered)
    (hblank : t.SessionBlank) : t'.Covered := by
  refine (Works.invariant (I := fun t => t.Kept acked ∧ t.Covered ∧ t.SessionBlank) ?_ hworks
    ⟨hkept, hcov, hblank⟩).2.1
  rintro s s' ⟨hkept, hcov, hblank⟩ hwork
  cases hwork with
  | rotate =>
    refine ⟨hkept.rotate, hcov.rotate, ?_⟩
    intro y hy w hw heq
    rcases List.mem_append.mp hw with hw | hw
    · rcases List.mem_cons.mp hy with rfl | hy
      · exact absurd heq (hkept.fed.wals_lt w hw).ne
      · exact hblank y hy w hw heq
    · rw [List.mem_singleton.mp hw]
      intro c hc
      cases hc
  | @flushOne front y hq =>
    have hy : y ∈ s.queue := by simp [hq]
    refine ⟨hkept.flushOne hq, hcov.flushOne hkept hy (hblank y (List.mem_cons_of_mem _ hy)), ?_⟩
    intro z hz w hw heq
    refine hblank z ?_ w (flushOne_wals_subset hw) heq
    rcases List.mem_cons.mp hz with rfl | hz
    · exact List.mem_cons_self
    · exact List.mem_cons_of_mem _ (List.mem_of_mem_filter hz)
  | compact => exact ⟨hkept.compact, hcov.compact, hblank⟩

theorem flushed_blank_iff (hkept : t.Kept acked) (hworks : Works t t') (hqueue : t'.queue = [])
    (hactive : records t'.active = []) :
    (∀ x ∈ t.wals, x ∉ t'.wals → Blank x) ↔ t.SessionBlank := by
  obtain ⟨hfed, hold⟩ := old_works hkept.fed hworks
  constructor
  · intro hall y hy w hw heq
    by_cases hw' : w ∈ t'.wals
    · -- what is left of the session is the open segment
      have hnot : ¬ t'.Old w := fun hwold => ((hold w).mp hwold).2 y hy heq
      have hid : w.1 = t'.walId := by
        by_contra hne
        refine hnot (old_iff.mpr ⟨hw', hne, ?_⟩)
        rw [hqueue]
        intro z hz
        cases hz
      intro c hc
      exact blank_of_records hactive c (hfed.active w hw' hid c hc)
    · exact hall w hw hw'
  · intro hblank x hx hgone
    have hnot : ¬ t.Old x := fun hxold => hgone ((hold x).mpr hxold).1
    by_contra hne
    refine hnot ⟨hx, ?_⟩
    intro y hy heq
    exact hne (hblank y hy x hx heq)

end

end Store

end PaddockKV.Engine
