import PaddockKV.Vfs.Refinement
import PaddockKV.Vfs.Paths

/-!
# The production backend (`io/linux_vfs.rs`, `LinuxVfs` and `LinuxFile`)

The host keeps files and directories under the places of their paths, one name for
each file. The calls resolve their path first and then do what the system calls they
are made of do. Opening a directory for reading, permissions and full disks are left
out.
-/

namespace PaddockKV.Vfs

open Io

/-- The host's file system. -/
structure Posix where
  files : Inodes (List Str) Bytes
  dirs : List (List Str)
  deriving Repr, DecidableEq

namespace Posix

/-- `create_dir_all`. -/
def createDirAll (d : List Str) (fs : Posix) : Res Posix :=
  if ∃ p ∈ d.inits, (fs.files.find p).isSome = true then
    .error (.err (.io .other "Not a directory"))
  else .ok { fs with dirs := d.inits.filter (· ∉ fs.dirs) ++ fs.dirs }

/-- `open` with `O_CREAT`. -/
def openCreate (p : List Str) (fs : Posix) : Res (ℕ × Posix) :=
  if p ∈ fs.dirs then .error (.err (.io .other "Is a directory"))
  else if p.dropLast ∉ fs.dirs then .error (.err (.io .notFound "No such file or directory"))
  else .ok ((fs.files.create p []).1, { fs with files := (fs.files.create p []).2 })

def openRead (p : List Str) (fs : Posix) : Res ℕ :=
  match fs.files.find p with
  | some i => .ok i
  | none => .error (.err (.io .notFound "No such file or directory"))

/-- `rename`, between files. -/
def rename (p q : List Str) (fs : Posix) : Res Posix :=
  match fs.files.find p with
  | none => .error (.err (.io .notFound "No such file or directory"))
  | some i =>
    if q ∈ fs.dirs then .error (.err (.io .other "Is a directory"))
    else if q.dropLast ∉ fs.dirs then .error (.err (.io .notFound "No such file or directory"))
    else .ok { fs with files := fs.files.move p q i }

/-- `unlink`. -/
def removeFile (p : List Str) (fs : Posix) : Res Posix :=
  if p ∈ fs.dirs then .error (.err (.io .other "Is a directory"))
  else
    match fs.files.find p with
    | none => .error (.err (.io .notFound "No such file or directory"))
    | some _ => .ok { fs with files := fs.files.unlink p }

/-- The name of `p` if it is an entry of `d`. -/
def entry (d p : List Str) : Option Str :=
  match p.dropPrefix? d with
  | some [name] => some name
  | _ => none

def readDir (d : List Str) (fs : Posix) : Res (List Str) :=
  if (fs.files.find d).isSome = true then .error (.err (.io .other "Not a directory"))
  else if d ∉ fs.dirs then .error (.err (.io .notFound "No such file or directory"))
  else .ok ((fs.files.names.map Prod.fst).filterMap (entry d) ++ fs.dirs.filterMap (entry d))

/-- What `pwrite` of all of `data` leaves: past the end it fills up with zeros. -/
def pwrite (bytes data : Bytes) (offset : ℕ) : Bytes :=
  if data = [] then bytes
  else (bytes ++ List.replicate (offset - bytes.length) 0).take offset ++ data ++
    bytes.drop (offset + data.length)

end Posix

namespace LinuxVfs

def staleMsg : String := "Bad file descriptor"

/-- The directory of a file that is opened for writing is made, the root apart. -/
def ensureParent (root : Str) (parent : List Str) (fs : Posix) : Res Posix :=
  if parent ≠ place root then fs.createDirAll parent else .ok fs

def openWritable (root path : Str) (fs : Posix) : Res (ℕ × Posix) := do
  let full ← resolve root path
  let fs ← ensureParent root (place full).dropLast fs
  fs.openCreate (place full)

def openReadonly (root path : Str) (fs : Posix) : Res ℕ := do
  let full ← resolve root path
  fs.openRead (place full)

def rename (root source target : Str) (fs : Posix) : Res Posix := do
  let source ← resolve root source
  let target ← resolve root target
  fs.rename (place source) (place target)

def remove (root path : Str) (fs : Posix) : Res Posix := do
  let full ← resolve root path
  match fs.removeFile (place full) with
  | .error (.err (.io .notFound _)) => .ok fs
  | r => r

def listTarget (root dir : Str) : Res Str :=
  if dir = [] ∨ dir = ['.'] then .ok root else resolve root dir

def list (root dir : Str) (fs : Posix) : Res (List Str) := do
  let target ← listTarget root dir
  match fs.readDir (place target) with
  | .error (.err (.io .notFound _)) => .ok []
  | r => r

def withFile {α : Type} (i : ℕ) (fs : Posix) (f : Bytes → Res α) : Res α :=
  match fs.files.blob i with
  | some bytes => f bytes
  | none => .error (.err (.io .other staleMsg))

def changeFile (i : ℕ) (f : Bytes → Bytes) (fs : Posix) : Posix :=
  { fs with files := fs.files.change i f }

def append (i : ℕ) (data : Bytes) (fs : Posix) : Res (ℕ × Posix) :=
  withFile i fs fun bytes =>
    .ok (bytes.length, changeFile i (fun b => Posix.pwrite b data b.length) fs)

def writeAt (i : ℕ) (data : Bytes) (offset : ℕ) (fs : Posix) : Res Posix :=
  withFile i fs fun _ =>
    if 2 ^ 63 ≤ offset + data.length then .error (.err (.io .invalidInput "Invalid argument"))
    else .ok (changeFile i (Posix.pwrite · data offset) fs)

def sync (i : ℕ) (fs : Posix) : Res Posix := withFile i fs fun _ => .ok fs

/-- `read_exact_at`; an empty buffer is full at once. -/
def readAt (i offset len : ℕ) (fs : Posix) : Res Bytes :=
  withFile i fs fun bytes =>
    if len = 0 then .ok []
    else if 2 ^ 63 ≤ offset + len then .error (.err (.io .invalidInput "Invalid argument"))
    else if bytes.length < offset + len then
      .error (.err (.io .unexpectedEof "failed to fill whole buffer"))
    else .ok ((bytes.drop offset).take len)

def size (i : ℕ) (fs : Posix) : Res ℕ := withFile i fs fun bytes => .ok bytes.length

def vfs (root : Str) : Vfs Posix where
  openWritable := openWritable root
  openReadonly := openReadonly root
  rename := rename root
  remove := remove root
  list := list root
  append := append
  writeAt := writeAt
  sync := sync
  readAt := readAt
  size := size

end LinuxVfs

/-! ### Writes inside a file -/

theorem pwrite_end (bytes data : Bytes) : Posix.pwrite bytes data bytes.length = bytes ++ data := by
  unfold Posix.pwrite
  by_cases hd : data = []
  · rw [if_pos hd, hd, List.append_nil]
  · rw [if_neg hd, Nat.sub_self, List.replicate_zero, List.append_nil, List.take_length,
      List.drop_of_length_le (by omega), List.append_nil]

theorem pwrite_inside {bytes data : Bytes} {offset : ℕ} (h : offset + data.length ≤ bytes.length) :
    Posix.pwrite bytes data offset = overwrite bytes data offset := by
  unfold Posix.pwrite overwrite
  by_cases hd : data = []
  · rw [if_pos hd, hd, List.append_nil, List.length_nil, Nat.add_zero, List.take_append_drop]
  · have hgap : offset - bytes.length = 0 := by omega
    rw [if_neg hd, hgap, List.replicate_zero, List.append_nil]

/-! ### The directory of the engine -/

/-- Directories the calls accept: below the root, and given as one. -/
def Accepted (dir : Str) : Prop := dir ≠ [] ∧ isAbsolute dir = false ∧ ['.', '.'] ∉ segments dir

instance (dir : Str) : Decidable (Accepted dir) := inferInstanceAs (Decidable (_ ∧ _ ∧ _))

theorem numbered_length {str : Str} (h : Numbered str) : 4 < str.length := by
  have hdigits : ∀ s id, parseU64 s = some id → 0 < s.length := by
    intro s id hs
    cases s with
    | nil => cases hs
    | cons c s => exact Nat.succ_pos _
  rcases h with h | h
  · obtain ⟨id, hid⟩ := Option.isSome_iff_exists.mp h
    obtain ⟨digits, rfl, hparse⟩ := parseWalSegmentName_eq.mp hid
    have hpos := hdigits digits id hparse
    simp only [List.length_append, List.length_cons, List.length_nil]
    omega
  · obtain ⟨id, hid⟩ := Option.isSome_iff_exists.mp h
    obtain ⟨digits, rfl, hparse⟩ := parseSstName_eq.mp hid
    have hpos := hdigits digits id hparse
    simp only [List.length_append, List.length_cons, List.length_nil]
    omega

section

variable {root dir : Str} {fs : Posix} {name : FileName}

/-- Where the engine's directory is. -/
def spot (root dir : Str) : List Str := place root ++ place dir

theorem resolve_pathOf (root : Str) (hdir : Accepted dir) (hname : Engine.number name < u64Size) :
    ∃ full, resolve root (pathOf dir name) = .ok full ∧
      place full = spot root dir ++ [baseName name] := by
  obtain ⟨hne, habs, hup⟩ := hdir
  have hlong := numbered_length (numbered_baseName hname)
  have hseg : segments (baseName name) = [baseName name] :=
    segments_of_no_slash (slash_notMem_baseName name)
  have hbase : ∀ s : Str, s.length ≤ 4 → baseName name ≠ s := by
    intro s hs heq
    rw [heq] at hlong
    omega
  refine ⟨join root (pathOf dir name), resolve_eq_ok.mpr ⟨?_, ?_, ?_, rfl⟩, ?_⟩
  · rw [pathOf_eq]
    simp
  · rw [pathOf_eq]
    cases dir with
    | nil => exact absurd rfl hne
    | cons c s => exact habs
  · rw [pathOf_eq, segments_append_slash, hseg, List.mem_append, List.mem_singleton]
    rintro (h | h)
    · exact hup h
    · exact hbase _ (by decide) h.symm
  · have hplace : place (baseName name) = [baseName name] :=
      place_of_no_slash (slash_notMem_baseName name) (hbase _ (by decide)) (hbase _ (by decide))
    rw [place_join, pathOf_eq, place_append_slash, hplace, ← List.append_assoc]
    rfl

/-- The host's side of the engine's directory: nothing stands in its way, and what is
in it with a name of the engine's is a file. -/
structure LinuxVfs.Inv (root dir : Str) (fs : Posix) : Prop where
  names : (fs.files.names.map Prod.fst).Nodup
  dirs : fs.dirs.Nodup
  apart : ∀ p ∈ fs.dirs, fs.files.find p = none
  rooted : place root ∈ fs.dirs
  clear : ∀ p ∈ (spot root dir).inits, fs.files.find p = none
  subdirs : ∀ str, Numbered str → spot root dir ++ [str] ∉ fs.dirs
  parent : ∀ str, (fs.files.find (spot root dir ++ [str])).isSome = true → spot root dir ∈ fs.dirs

theorem append_singleton_notMem_inits {α : Type*} (d : List α) (x : α) : d ++ [x] ∉ d.inits := by
  intro h
  have hle := ((List.mem_inits _ _).mp h).length_le
  rw [List.length_append, List.length_singleton] at hle
  omega

theorem nodup_inits {α : Type*} (l : List α) : l.inits.Nodup := by
  induction l with
  | nil => simp
  | cons a l ih =>
    rw [List.inits_cons]
    exact List.nodup_cons.mpr ⟨by simp, ih.map List.cons_injective⟩

theorem Posix.createDirAll_eq {d : List Str} (h : ∀ p ∈ d.inits, fs.files.find p = none) :
    fs.createDirAll d = .ok { fs with dirs := d.inits.filter (· ∉ fs.dirs) ++ fs.dirs } := by
  refine if_neg ?_
  rintro ⟨p, hp, hsome⟩
  rw [h p hp] at hsome
  cases hsome

theorem LinuxVfs.Inv.madeDir (hinv : Inv root dir fs) : ∃ fs₁,
    ensureParent root (spot root dir) fs = .ok fs₁ ∧ fs₁.files = fs.files ∧
      spot root dir ∈ fs₁.dirs ∧ Inv root dir fs₁ := by
  unfold ensureParent
  by_cases hroot : spot root dir = place root
  · rw [if_neg (by simp [hroot])]
    exact ⟨fs, rfl, rfl, hroot ▸ hinv.rooted, hinv⟩
  · rw [if_pos hroot, Posix.createDirAll_eq hinv.clear]
    have hmem : ∀ p, p ∈ (spot root dir).inits.filter (· ∉ fs.dirs) ++ fs.dirs ↔
        p ∈ (spot root dir).inits ∨ p ∈ fs.dirs := by
      intro p
      rw [List.mem_append, List.mem_filter]
      by_cases hp : p ∈ fs.dirs <;> simp [hp]
    have hself : spot root dir ∈ (spot root dir).inits := (List.mem_inits _ _).mpr List.prefix_rfl
    refine ⟨_, rfl, rfl, (hmem _).mpr (.inl hself), ?_⟩
    refine ⟨hinv.names, ?_, ?_, (hmem _).mpr (.inr hinv.rooted), hinv.clear, ?_, ?_⟩
    · refine List.nodup_append.mpr ⟨(nodup_inits _).filter _, hinv.dirs, ?_⟩
      intro p hp q hq heq
      have hnot := (List.mem_filter.mp hp).2
      rw [heq] at hnot
      simp [hq] at hnot
    · intro p hp
      rcases (hmem p).mp hp with hp | hp
      · exact hinv.clear p hp
      · exact hinv.apart p hp
    · intro str hstr hp
      rcases (hmem _).mp hp with hp | hp
      · exact append_singleton_notMem_inits _ _ hp
      · exact hinv.subdirs str hstr hp
    · intro _ _
      exact (hmem _).mpr (.inl hself)

theorem LinuxVfs.openWritable_eq (hdir : Accepted dir) (hinv : Inv root dir fs)
    (hname : Engine.number name < u64Size) : ∃ fs',
      openWritable root (pathOf dir name) fs =
        .ok ((fs.files.create (spot root dir ++ [baseName name]) []).1, fs') ∧
      fs'.files = (fs.files.create (spot root dir ++ [baseName name]) []).2 ∧ Inv root dir fs' := by
  obtain ⟨full, hfull, hplace⟩ := resolve_pathOf root hdir hname
  obtain ⟨fs₁, hmade, hfiles, hin, hinv₁⟩ := hinv.madeDir
  have hnot := hinv₁.subdirs _ (numbered_baseName hname)
  have hcall : openWritable root (pathOf dir name) fs =
      .ok ((fs.files.create (spot root dir ++ [baseName name]) []).1,
        { fs₁ with files := (fs.files.create (spot root dir ++ [baseName name]) []).2 }) := by
    unfold openWritable
    simp only [hfull, hplace, List.dropLast_concat, hmade, bind, Except.bind]
    rw [Posix.openCreate, if_neg hnot, List.dropLast_concat, if_neg (not_not.mpr hin), hfiles]
  refine ⟨_, hcall, rfl, ?_⟩
  have hfind : ∀ p, p ≠ spot root dir ++ [baseName name] →
      (fs.files.create (spot root dir ++ [baseName name]) []).2.find p = fs₁.files.find p := by
    intro p hp
    rw [Inodes.find_create, if_neg hp, hfiles]
  refine ⟨Inodes.nodup_create hinv.names _ _, hinv₁.dirs, ?_, hinv₁.rooted, ?_, hinv₁.subdirs,
    fun _ _ => hin⟩
  · intro p hp
    show Inodes.find _ p = none
    rw [hfind p (fun heq => hnot (heq ▸ hp))]
    exact hinv₁.apart p hp
  · intro p hp
    show Inodes.find _ p = none
    rw [hfind p (fun heq => append_singleton_notMem_inits _ _ (heq ▸ hp))]
    exact hinv₁.clear p hp

theorem LinuxVfs.Inv.unlink (hinv : Inv root dir fs) (p : List Str) :
    Inv root dir { fs with files := fs.files.unlink p } := by
  have hnone : ∀ q, fs.files.find q = none → (fs.files.unlink p).find q = none := by
    intro q hq
    rw [Inodes.find_unlink, hq]
    split <;> rfl
  refine ⟨Inodes.nodup_unlink hinv.names p, hinv.dirs, fun q hq => hnone q (hinv.apart q hq),
    hinv.rooted, fun q hq => hnone q (hinv.clear q hq), hinv.subdirs, ?_⟩
  intro str hsome
  refine hinv.parent str ?_
  cases hf : fs.files.find (spot root dir ++ [str]) with
  | some i => rfl
  | none =>
    rw [show Inodes.find _ _ = none from hnone _ hf] at hsome
    cases hsome

theorem LinuxVfs.Inv.change (hinv : Inv root dir fs) (i : ℕ) (f : Bytes → Bytes) :
    Inv root dir (changeFile i f fs) :=
  ⟨hinv.names, hinv.dirs, hinv.apart, hinv.rooted, hinv.clear, hinv.subdirs, hinv.parent⟩

theorem LinuxVfs.remove_eq (hdir : Accepted dir) (hinv : Inv root dir fs)
    (hname : Engine.number name < u64Size) : ∃ fs', remove root (pathOf dir name) fs = .ok fs' ∧
      fs'.files = fs.files.unlink (spot root dir ++ [baseName name]) ∧ Inv root dir fs' := by
  obtain ⟨full, hfull, hplace⟩ := resolve_pathOf root hdir hname
  have hnot := hinv.subdirs _ (numbered_baseName hname)
  unfold remove
  simp only [hfull, hplace, bind, Except.bind, Posix.removeFile, if_neg hnot]
  cases hf : fs.files.find (spot root dir ++ [baseName name]) with
  | some i => exact ⟨_, rfl, rfl, hinv.unlink _⟩
  | none =>
    -- there is nothing to remove
    refine ⟨fs, rfl, ?_, hinv⟩
    have hall : ∀ x ∈ fs.files.names, x.1 ≠ spot root dir ++ [baseName name] := by
      intro x hx heq
      have hsome := (Inodes.mem_names fs.files x.1).mp (List.mem_map_of_mem hx)
      rw [heq, hf] at hsome
      cases hsome
    unfold Inodes.unlink
    rw [List.filter_eq_self.mpr fun x hx => decide_eq_true (hall x hx)]

theorem LinuxVfs.entry_eq_some {d p : List Str} {str : Str} :
    Posix.entry d p = some str ↔ p = d ++ [str] := by
  unfold Posix.entry
  constructor
  · intro h
    split at h
    · rename_i x hx
      obtain ⟨q, rfl, hq⟩ := List.dropPrefix?_eq_some_iff.mp hx
      rw [eq_of_beq hq, Option.some.inj h]
    · cases h
  · rintro rfl
    rw [List.dropPrefix?_eq_some_iff.mpr ⟨d, rfl, beq_self_eq_true d⟩]

theorem LinuxVfs.list_eq (hdir : Accepted dir) (hinv : Inv root dir fs) :
    ∃ names, list root dir fs = .ok names ∧ names.Nodup ∧ ∀ str, Numbered str →
      (str ∈ names ↔ (fs.files.find (spot root dir ++ [str])).isSome = true) := by
  have htarget : ∃ target, listTarget root dir = .ok target ∧ place target = spot root dir := by
    unfold listTarget
    by_cases hdot : dir = ['.']
    · rw [if_pos (.inr hdot)]
      refine ⟨root, rfl, ?_⟩
      rw [spot, hdot]
      exact (List.append_nil _).symm
    · rw [if_neg (by simp [hdir.1, hdot])]
      have hres : resolve root dir = .ok (join root dir) :=
        resolve_eq_ok.mpr ⟨hdir.1, hdir.2.1, hdir.2.2, rfl⟩
      exact ⟨_, hres, place_resolve hres⟩
  obtain ⟨target, hgiven, hplace⟩ := htarget
  have hfree : fs.files.find (spot root dir) = none :=
    hinv.clear _ ((List.mem_inits _ _).mpr List.prefix_rfl)
  unfold list
  simp only [hgiven, bind, Except.bind, hplace, Posix.readDir, hfree]
  by_cases hin : spot root dir ∈ fs.dirs
  · rw [if_neg (by simp), if_neg (not_not.mpr hin)]
    have hinj : ∀ p q str, Posix.entry (spot root dir) p = some str →
        Posix.entry (spot root dir) q = some str → p = q := by
      intro p q str hp hq
      rw [entry_eq_some.mp hp, entry_eq_some.mp hq]
    refine ⟨_, rfl, List.nodup_append.mpr ⟨hinv.names.filterMap hinj, hinv.dirs.filterMap hinj, ?_⟩, ?_⟩
    · intro a ha b hb heq
      obtain ⟨p, hp, hpa⟩ := List.mem_filterMap.mp ha
      obtain ⟨q, hq, hqb⟩ := List.mem_filterMap.mp hb
      rw [heq] at hpa
      rw [hinj p q b hpa hqb, Inodes.mem_names, hinv.apart q hq] at hp
      cases hp
    · intro str hstr
      simp only [List.mem_append, List.mem_filterMap, entry_eq_some, exists_eq_right]
      rw [Inodes.mem_names, or_iff_left (hinv.subdirs str hstr)]
  · rw [if_neg (by simp), if_pos hin]
    refine ⟨[], rfl, List.nodup_nil, ?_⟩
    intro str _
    constructor
    · intro h
      cases h
    · intro h
      exact absurd (hinv.parent str h) hin

theorem LinuxVfs.withFile_eq {α : Type} {i : ℕ} {bytes : Bytes} (h : fs.files.blob i = some bytes)
    (f : Bytes → Res α) : withFile i fs f = f bytes := by
  rw [withFile, h]

theorem LinuxVfs.hosting (root : Str) (hdir : Accepted dir) :
    Hosting (vfs root) dir Posix.files (fun str => spot root dir ++ [str]) (Inv root dir) := by
  constructor
  case key_inj =>
    intro a b _ _ h
    exact (List.cons.inj (List.append_cancel_left h)).1
  case openWritable => exact fun fs name hinv hname => openWritable_eq hdir hinv hname
  case openReadonly =>
    intro fs name i hinv hname hfind
    obtain ⟨full, hfull, hplace⟩ := resolve_pathOf root hdir hname
    show openReadonly root _ fs = _
    unfold openReadonly
    simp only [hfull, bind, Except.bind, hplace, Posix.openRead, hfind]
  case missing =>
    intro fs name hinv hname hfind
    obtain ⟨full, hfull, hplace⟩ := resolve_pathOf root hdir hname
    refine ⟨"No such file or directory", ?_⟩
    show openReadonly root _ fs = _
    unfold openReadonly
    simp only [hfull, bind, Except.bind, hplace, Posix.openRead, hfind]
  case remove => exact fun fs name hinv hname => remove_eq hdir hinv hname
  case append =>
    intro fs i data hinv hlt
    have hblob : fs.files.blob i = some _ := List.getElem?_eq_getElem hlt
    refine ⟨_, _, withFile_eq hblob _, ?_, hinv.change i _⟩
    show Inodes.change _ _ _ = _
    simp only [pwrite_end]
  case writeAt =>
    intro fs i data offset bytes hinv hblob hle hlt
    refine ⟨changeFile i (Posix.pwrite · data offset) fs, ?_, ?_, hinv.change i _⟩
    · show writeAt i data offset fs = _
      rw [writeAt, withFile_eq hblob, if_neg (by omega)]
    · -- only this file's bytes matter
      show Inodes.mk _ _ = Inodes.mk _ _
      congr 1
      refine List.ext_getElem? ?_
      intro j
      rw [List.getElem?_modify, List.getElem?_modify]
      by_cases hj : i = j
      · subst hj
        rw [show fs.files.blobs[i]? = some bytes from hblob]
        simp [pwrite_inside hle]
      · simp [hj]
  case sync =>
    intro fs i hinv hlt
    have hblob : fs.files.blob i = some _ := List.getElem?_eq_getElem hlt
    exact ⟨fs, withFile_eq hblob _, rfl, hinv⟩
  case readAt =>
    intro fs i offset len bytes _ hblob hlt hzero
    show Answer.ofRes (readAt i offset len fs) _ = _
    rw [readAt, withFile_eq hblob]
    by_cases hlen : len = 0
    · have hle := hzero hlen
      rw [if_pos hlen, Io.readAt, if_neg (by omega), hlen, List.take_zero]
    · rw [if_neg hlen, if_neg (by omega), Io.readAt]
      by_cases hshort : bytes.length < offset + len
      · rw [if_pos hshort, if_pos hshort]
        rfl
      · rw [if_neg hshort, if_neg hshort]
  case size =>
    intro fs i bytes _ hblob
    exact withFile_eq hblob _
  case list => exact fun fs hinv => list_eq hdir hinv

/-- The production backend answers every proper list of calls of the engine as the
model's file layer does, on a host whose files have one name each. -/
theorem linuxVfs_refines (hdir : Accepted dir) (hinv : LinuxVfs.Inv root dir fs)
    (hone : ∃ owner, fs.files.Owned owner)
    (hforeign : ∀ str, Numbered str → fs.files.find (spot root dir ++ [str]) = none)
    {ops : List FileOp} (hok : ProperRun Client.start ops) :
    answers (Host.step (LinuxVfs.vfs root) dir) (Host.start fs) ops =
      answers Client.step Client.start ops := by
  obtain ⟨owner, howned⟩ := hone
  have hstart : Related Posix.files (fun str => spot root dir ++ [str]) (LinuxVfs.Inv root dir)
      Client.start (Host.start fs) := related_start hinv howned hforeign
  exact (LinuxVfs.hosting root hdir).answers hstart hok

end

/-- A host with an empty directory `/data`. -/
def dataHost : Posix := ⟨⟨[], []⟩, [[['d', 'a', 't', 'a']], []]⟩

theorem dataHost_inv : LinuxVfs.Inv ['/', 'd', 'a', 't', 'a'] ['.'] dataHost := by
  refine ⟨List.nodup_nil, by decide, fun _ _ => rfl, by decide, fun _ _ => rfl, ?_, ?_⟩
  · intro str _ h
    have hlen : ∀ p ∈ dataHost.dirs, p.length ≤ 1 := by decide
    have hspot : (spot ['/', 'd', 'a', 't', 'a'] ['.']).length = 1 := by decide
    have hle := hlen _ h
    rw [List.length_append, hspot] at hle
    exact absurd hle (by simp)
  · intro str h
    cases h

theorem linuxVfs_refines_calls :
    answers (Host.step (LinuxVfs.vfs ['/', 'd', 'a', 't', 'a']) ['.']) (Host.start dataHost)
        someCalls =
      [.done, .done, .done, .done, .done, .done, .done, .done, .done, .bytes [9, 9, 5],
        .failed (some .unexpectedEof), .failed (some .notFound), .numbers [1, 3] []] :=
  (linuxVfs_refines (by decide) dataHost_inv ⟨fun _ => [], fun _ _ h => nomatch h⟩
    (fun _ _ => rfl) (by decide)).trans (by decide)

end PaddockKV.Vfs
