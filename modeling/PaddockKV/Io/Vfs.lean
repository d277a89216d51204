import PaddockKV.Basic
import PaddockKV.Lib.Ends

/-!
# The file layer (`io/vfs.rs`)

The file system is given by the list of calls that changed it, the latest
first; `disk` plays them back. A prefix of a run's calls is what a crash
leaves behind. Names are the two kinds of file the engine creates, with their
ids in place of the formatted paths. A handle is its name, and the bytes a
reader sees are those of the file when it was opened: no file is written
again once it is read.
-/

namespace PaddockKV.Io

inductive FileName where
  | wal (id : ℕ)
  | sst (id : ℕ)
  deriving Repr, DecidableEq

/-- The calls that change files. The log also notes each block sealed, with the
table's id and the block's offset; that changes no file. -/
inductive VfsCall where
  | openWritable (name : FileName)
  | append (name : FileName) (data : Bytes)
  | writeAt (name : FileName) (data : Bytes) (offset : ℕ)
  | sync (name : FileName)
  | remove (name : FileName)
  | sealBlock (id offset : ℕ)
  deriving Repr, DecidableEq

/-- A file, and whether `sync` was called since its last write. -/
structure File where
  bytes : Bytes
  synced : Bool
  deriving Repr, DecidableEq

abbrev Disk := FileName → Option File

-- `bytes[off..off + data.len()].copy_from_slice(data)`
def overwrite (bytes data : Bytes) (offset : ℕ) : Bytes :=
  bytes.take offset ++ data ++ bytes.drop (offset + data.length)

def Disk.apply (d : Disk) : VfsCall → Disk
  | .openWritable name => Function.update d name (some ((d name).getD ⟨[], false⟩))
  | .append name data =>
    Function.update d name ((d name).map fun f => ⟨f.bytes ++ data, false⟩)
  | .writeAt name data offset =>
    Function.update d name ((d name).map fun f => ⟨overwrite f.bytes data offset, false⟩)
  | .sync name => Function.update d name ((d name).map fun f => ⟨f.bytes, true⟩)
  | .remove name => Function.update d name none
  | .sealBlock _ _ => d

def diskOf (log : List VfsCall) : Disk := log.foldr (fun c d => d.apply c) fun _ => none

/-- What a coming call does: it may fail, a write after its first `written`
bytes. -/
inductive Outcome where
  | done
  | failed (written : ℕ)
  deriving Repr, DecidableEq

/-- The calls made so far and the outcomes of the coming ones; when the list of
outcomes is used up all calls succeed. -/
structure World where
  log : List VfsCall
  faults : List Outcome
  deriving Repr, DecidableEq

def World.disk (w : World) : Disk := diskOf w.log

def World.call (w : World) (c : VfsCall) : World := { w with log := c :: w.log }

def nextOutcome : Act World Outcome := fun w =>
  match w.faults with
  | [] => .ok .done w
  | o :: faults => .ok o { w with faults := faults }

/-- A call that does `onDone`, or fails having done `onFailed`. -/
def perform (onDone : World → World) (onFailed : ℕ → World → World) (msg : String) :
    Act World Unit := do
  match ← nextOutcome with
  | .done => modify onDone
  | .failed n =>
    modify (onFailed n)
    Act.fail (.io .other msg)

def openWritable (name : FileName) : Act World Unit :=
  perform (·.call (.openWritable name)) (fun _ => id) "open_writable failed"

def append (name : FileName) (data : Bytes) : Act World Unit :=
  perform (·.call (.append name data)) (fun n => (·.call (.append name (data.take n))))
    "append failed"

def writeAt (name : FileName) (data : Bytes) (offset : ℕ) : Act World Unit := do
  match (← get).disk name with
  | none => Act.fail (.io .notFound "missing file")
  | some f =>
    if f.bytes.length < offset + data.length then
      Act.fail (.io .invalidInput "MemFile::write_at: range extends past file end")
    else
      perform (·.call (.writeAt name data offset))
        (fun n => (·.call (.writeAt name (data.take n) offset))) "write_at failed"

def sync (name : FileName) : Act World Unit :=
  perform (·.call (.sync name)) (fun _ => id) "sync failed"

def remove (name : FileName) : Act World Unit :=
  perform (·.call (.remove name)) (fun _ => id) "remove failed"

/-- `open_readonly`, with the bytes `read_at` will serve. -/
def openReadonly (name : FileName) : Act World Bytes := do
  perform id (fun _ => id) "open_readonly failed"
  match (← get).disk name with
  | none => Act.fail (.io .notFound "missing file")
  | some f => return f.bytes

/-- One outcome for the `size` and `read_at` calls made next: they change
nothing, so it does not matter which of them fails. -/
def tryReads : Act World Unit := perform id (fun _ => id) "read_at failed"

-- `read_at` with a buffer of `len` bytes
def readAt (file : Bytes) (offset len : ℕ) : Res Bytes :=
  if file.length < offset + len then
    .error (.err (.io .unexpectedEof "MemFile: short read"))
  else .ok ((file.drop offset).take len)

def opened : VfsCall → Option FileName
  | .openWritable name => some name
  | _ => none

/-- The files created and not removed, in no particular order. -/
def World.list (w : World) : List FileName :=
  (w.log.filterMap opened).dedup.filter fun name => (w.disk name).isSome

def list : Act World (List FileName) := do
  perform id (fun _ => id) "list failed"
  return (← get).list

/-! ### Listing -/

theorem diskOf_cons (c : VfsCall) (log : List VfsCall) :
    diskOf (c :: log) = (diskOf log).apply c := rfl

@[simp] theorem World.disk_call (w : World) (c : VfsCall) : (w.call c).disk = w.disk.apply c := rfl

@[simp] theorem World.faults_call (w : World) (c : VfsCall) : (w.call c).faults = w.faults := rfl

theorem Disk.isSome_of_apply {d : Disk} {c : VfsCall} {name : FileName}
    (h : (d.apply c name).isSome = true) : opened c = some name ∨ (d name).isSome = true := by
  cases c with
  | openWritable n =>
    by_cases hn : name = n
    · exact .inl (congrArg some hn.symm)
    · rw [Disk.apply, Function.update_of_ne hn] at h
      exact .inr h
  | append n data | writeAt n data off | sync n =>
    by_cases hn : name = n
    · subst hn
      rw [Disk.apply, Function.update_self, Option.isSome_map] at h
      exact .inr h
    · rw [Disk.apply, Function.update_of_ne hn] at h
      exact .inr h
  | remove n =>
    by_cases hn : name = n
    · subst hn
      rw [Disk.apply, Function.update_self] at h
      cases h
    · rw [Disk.apply, Function.update_of_ne hn] at h
      exact .inr h
  | sealBlock id off => exact .inr h

theorem opened_of_isSome {log : List VfsCall} {name : FileName}
    (h : (diskOf log name).isSome = true) : name ∈ log.filterMap opened := by
  induction log with
  | nil => cases h
  | cons c log ih =>
    rw [List.mem_filterMap]
    rcases Disk.isSome_of_apply (diskOf_cons c log ▸ h) with ho | hs
    · exact ⟨c, List.mem_cons_self, ho⟩
    · obtain ⟨c', hc', ho⟩ := List.mem_filterMap.mp (ih hs)
      exact ⟨c', List.mem_cons_of_mem _ hc', ho⟩

theorem World.mem_list {w : World} {name : FileName} :
    name ∈ w.list ↔ (w.disk name).isSome = true := by
  unfold World.list
  rw [List.mem_filter, List.mem_dedup]
  constructor
  · intro h
    exact h.2
  · intro h
    exact ⟨opened_of_isSome h, h⟩

theorem World.nodup_list (w : World) : w.list.Nodup := (List.nodup_dedup _).filter _

/-! ### How calls end -/

section Calls

variable {onDone : World → World} {onFailed : ℕ → World → World} {msg : String} {w : World}
  {name : FileName}

theorem perform_ends (onDone : World → World) (onFailed : ℕ → World → World) (msg : String)
    (w : World) :
    Ends (perform onDone onFailed msg) w
      (fun _ w' => w' = onDone { w with faults := w.faults.tail })
      fun f w' => f = .err (.io .other msg) ∧ w.faults ≠ [] ∧
        ∃ n, w' = onFailed n { w with faults := w.faults.tail } := by
  obtain ⟨log, faults⟩ := w
  unfold Ends
  cases faults with
  | nil => exact rfl
  | cons o faults =>
    cases o with
    | done => exact rfl
    | failed n => exact ⟨rfl, List.cons_ne_nil _ _, n, rfl⟩

theorem openWritable_ends (name : FileName) (w : World) :
    Ends (openWritable name) w
      (fun _ w' => w'.log = .openWritable name :: w.log ∧ (w.faults = [] → w'.faults = []) ∧
        w'.faults = w.faults.tail)
      fun f w' => w'.log = w.log ∧ w.faults ≠ [] ∧ ∃ e, f = .err e := by
  refine Ends.mono (perform_ends _ _ _ w) ?_ ?_
  · rintro - _ rfl
    refine ⟨rfl, fun h => ?_, rfl⟩
    rw [World.faults_call, h]
    rfl
  · rintro f _ ⟨hf, hne, k, rfl⟩
    exact ⟨rfl, hne, _, hf⟩

theorem perform_nil (onDone : World → World) (onFailed : ℕ → World → World) (msg : String)
    (h : w.faults = []) : perform onDone onFailed msg w = .ok () (onDone w) := by
  obtain ⟨log, faults⟩ := w
  cases h
  rfl

theorem openWritable_nil (name : FileName) (h : w.faults = []) :
    openWritable name w = .ok () (w.call (.openWritable name)) := perform_nil _ _ _ h

theorem append_nil (name : FileName) (data : Bytes) (h : w.faults = []) :
    append name data w = .ok () (w.call (.append name data)) := perform_nil _ _ _ h

end Calls

/-! ### Appends -/

/-- The calls `evs` append to `name`, `bs` in all, and seal blocks. -/
inductive Appends (name : FileName) : List VfsCall → Bytes → Prop where
  | nil : Appends name [] []
  | append {evs : List VfsCall} {bs : Bytes} (h : Appends name evs bs) (data : Bytes) :
    Appends name (.append name data :: evs) (bs ++ data)
  | sealBlock {evs : List VfsCall} {bs : Bytes} (h : Appends name evs bs) (id offset : ℕ) :
    Appends name (.sealBlock id offset :: evs) bs

section Appends

variable {name : FileName} {evs evs' log : List VfsCall} {bs bs' : Bytes}

theorem Appends.trans (h : Appends name evs bs) (h' : Appends name evs' bs') :
    Appends name (evs' ++ evs) (bs ++ bs') := by
  induction h' with
  | nil => simpa using h
  | append _ data ih =>
    rw [← List.append_assoc]
    exact ih.append data
  | sealBlock _ id offset ih => exact ih.sealBlock id offset

theorem Appends.part (h : Appends name (evs' ++ evs) bs) : ∃ p, Appends name evs p ∧ p <+: bs := by
  induction evs' generalizing bs with
  | nil => exact ⟨bs, h, List.prefix_rfl⟩
  | cons c evs' ih =>
    cases h with
    | append h data =>
      obtain ⟨p, hp, hpre⟩ := ih h
      exact ⟨p, hp, hpre.trans (List.prefix_append _ _)⟩
    | sealBlock h id offset => exact ih h

theorem diskOf_appends {f : File} (h : Appends name evs bs) (hf : diskOf log name = some f) :
    ∃ s, (f.synced = false → s = false) ∧
      diskOf (evs ++ log) = Function.update (diskOf log) name (some ⟨f.bytes ++ bs, s⟩) := by
  induction h with
  | nil =>
    refine ⟨f.synced, id, ?_⟩
    rw [List.append_nil, List.nil_append]
    exact (Function.update_eq_self_iff.mpr hf.symm).symm
  | append _ data ih =>
    obtain ⟨s, -, hd⟩ := ih
    refine ⟨false, fun _ => rfl, ?_⟩
    rw [List.cons_append, diskOf_cons, hd, Disk.apply, Function.update_self, Option.map_some,
      Function.update_idem, List.append_assoc]
  | sealBlock _ id offset ih => exact ih

end Appends

/-- `bs` was appended to `name`, in some chunks, and nothing else was done to the
files. -/
def Wrote (name : FileName) (w w' : World) (bs : Bytes) : Prop :=
  ∃ evs, Appends name evs bs ∧ w'.log = evs ++ w.log

section Wrote

variable {name : FileName} {w w₁ w₂ : World} {bs bs' : Bytes}

theorem Wrote.refl (name : FileName) (w : World) : Wrote name w w [] := ⟨[], .nil, rfl⟩

theorem Wrote.trans (h : Wrote name w w₁ bs) (h' : Wrote name w₁ w₂ bs') :
    Wrote name w w₂ (bs ++ bs') := by
  obtain ⟨evs, ha, hl⟩ := h
  obtain ⟨evs', ha', hl'⟩ := h'
  refine ⟨evs' ++ evs, ha.trans ha', ?_⟩
  rw [hl', hl, List.append_assoc]

theorem append_ends (name : FileName) (data : Bytes) (w : World) :
    Ends (append name data) w
      (fun _ w' => Wrote name w w' data ∧ (w.faults = [] → w'.faults = []))
      fun _ w' => w.faults ≠ [] ∧ ∃ n, Wrote name w w' (data.take n) := by
  refine Ends.mono (perform_ends _ _ _ w) ?_ ?_
  · rintro - _ rfl
    refine ⟨⟨_, Appends.nil.append data, rfl⟩, ?_⟩
    intro h
    rw [World.faults_call, h]
    rfl
  · rintro - _ ⟨-, hne, n, rfl⟩
    exact ⟨hne, n, _, Appends.nil.append _, rfl⟩

theorem append_ok {data : Bytes} {u : Unit} (h : append name data w = .ok u w₁) :
    Wrote name w w₁ data := ((append_ends name data w).of_ok h).1

end Wrote

/-- The bytes of a file, none when it does not exist. -/
def World.bytesOf (w : World) (name : FileName) : Bytes :=
  match w.disk name with
  | some f => f.bytes
  | none => []

/-! ### Reading -/

/-- The file holds `bs` at `pos`. -/
def At (file : Bytes) (pos : ℕ) (bs : Bytes) : Prop := bs <+: file.drop pos

theorem At.left {file : Bytes} {pos : ℕ} {a b : Bytes} (h : At file pos (a ++ b)) : At file pos a :=
  (List.prefix_append a b).trans h

theorem At.right {file : Bytes} {pos : ℕ} {a b : Bytes} (h : At file pos (a ++ b)) :
    At file (pos + a.length) b := by
  obtain ⟨rest, hr⟩ := h
  refine ⟨rest, ?_⟩
  rw [← List.drop_drop, ← hr, List.append_assoc, List.drop_left]

theorem At.bound {file : Bytes} {pos : ℕ} {bs : Bytes} (h : At file pos bs) (hne : bs ≠ []) :
    pos + bs.length ≤ file.length := by
  have hlen := List.IsPrefix.length_le h
  rw [List.length_drop] at hlen
  have hpos := List.length_pos_of_ne_nil hne
  omega

theorem At.readAt {file : Bytes} {pos : ℕ} {bs : Bytes} (h : At file pos bs)
    (hpos : pos ≤ file.length) : readAt file pos bs.length = .ok bs := by
  have hlen := List.IsPrefix.length_le h
  rw [List.length_drop] at hlen
  unfold Io.readAt
  rw [if_neg (by omega)]
  exact congrArg Except.ok (List.prefix_iff_eq_take.mp h).symm

theorem At.mono {file : Bytes} {pos : ℕ} {bs : Bytes} (h : At file pos bs) (rest : Bytes) :
    At (file ++ rest) pos bs := by
  unfold At at *
  rw [List.drop_append]
  exact h.trans (List.prefix_append _ _)

theorem At.overwrite {file data : Bytes} {pos off : ℕ} {bs : Bytes} (h : At file pos bs)
    (hin : off + data.length ≤ file.length) (hpos : off + data.length ≤ pos) :
    At (overwrite file data off) pos bs := by
  unfold At Io.overwrite at *
  have hfront : (file.take off ++ data).length = off + data.length := by
    rw [List.length_append, List.length_take]
    omega
  obtain ⟨d, rfl⟩ : ∃ d, pos = off + data.length + d := ⟨pos - (off + data.length), by omega⟩
  rw [← List.drop_drop, ← hfront, List.drop_left, hfront, List.drop_drop]
  exact h

theorem overwrite_length {file data : Bytes} {off : ℕ} (hin : off + data.length ≤ file.length) :
    (overwrite file data off).length = file.length := by
  unfold Io.overwrite
  rw [List.length_append, List.length_append, List.length_take, List.length_drop]
  omega

end PaddockKV.Io
