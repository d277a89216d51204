import Mathlib.Data.Char
import Mathlib.Data.List.Lex
import PaddockKV.Vfs.Refinement

/-!
# The in-memory backend (`io/vfs.rs`, `MemVfs` and `MemFile`)

Paths map to shared byte vectors. A handle keeps its vector when the path is
removed. `list` matches the text of the paths, so a directory that is given with a
slash at its end hides the files the engine makes under it.
-/

namespace PaddockKV.Vfs

open Io

abbrev MemVfs := Inodes Str Bytes

def staleHandleMsg : String := "no such handle"

namespace MemVfs

def new : MemVfs := ⟨[], []⟩

def openWritable (path : Str) (m : MemVfs) : Res (ℕ × MemVfs) := .ok (m.create path [])

def openReadonly (path : Str) (m : MemVfs) : Res ℕ :=
  match m.find path with
  | some i => .ok i
  | none => .error (.err (.io .notFound ("MemVfs: missing file '" ++ String.ofList path ++ "'")))

def rename (source target : Str) (m : MemVfs) : Res MemVfs :=
  match m.find source with
  | none =>
    .error (.err (.io .notFound ("MemVfs: rename source '" ++ String.ofList source ++ "' missing")))
  | some i => .ok (m.move source target i)

def remove (path : Str) (m : MemVfs) : Res MemVfs := .ok (m.unlink path)

/-- The names in `dir`, in the order of the map. -/
def list (dir : Str) (m : MemVfs) : Res (List Str) :=
  let start := if dir.getLast? = some '/' then dir else dir ++ ['/']
  .ok ((((m.names.map Prod.fst).insertionSort (· ≤ ·)).filterMap (·.dropPrefix? start)).filter
    fun k => '/' ∉ k)

-- a handle of the source cannot be stale
def withFile {α : Type} (i : ℕ) (m : MemVfs) (f : Bytes → Res α) : Res α :=
  match m.blob i with
  | some bytes => f bytes
  | none => .error (.panicked staleHandleMsg)

def append (i : ℕ) (data : Bytes) (m : MemVfs) : Res (ℕ × MemVfs) :=
  withFile i m fun bytes => .ok (bytes.length, m.change i (· ++ data))

def writeAt (i : ℕ) (data : Bytes) (offset : ℕ) (m : MemVfs) : Res MemVfs :=
  withFile i m fun bytes =>
    if u64Size ≤ offset + data.length then
      .error (.err (.io .invalidInput "MemFile: offset + length overflow"))
    else if bytes.length < offset + data.length then
      .error (.err (.io .invalidInput "MemFile::write_at: range extends past file end"))
    else .ok (m.change i (overwrite · data offset))

def sync (_ : ℕ) (m : MemVfs) : Res MemVfs := .ok m

def readAt (i offset len : ℕ) (m : MemVfs) : Res Bytes :=
  withFile i m fun bytes =>
    if u64Size ≤ offset + len then
      .error (.err (.io .invalidInput "MemFile: offset + length overflow"))
    else if bytes.length < offset + len then
      .error (.err (.io .unexpectedEof "MemFile: short read"))
    else .ok ((bytes.drop offset).take len)

def size (i : ℕ) (m : MemVfs) : Res ℕ := withFile i m fun bytes => .ok bytes.length

def vfs : Vfs MemVfs where
  openWritable := openWritable
  openReadonly := openReadonly
  rename := rename
  remove := remove
  list := list
  append := append
  writeAt := writeAt
  sync := sync
  readAt := readAt
  size := size

/-! ### The names in a directory -/

theorem withFile_eq {α : Type} {i : ℕ} {m : MemVfs} {bytes : Bytes} (h : m.blob i = some bytes)
    (f : Bytes → Res α) : withFile i m f = f bytes := by
  rw [withFile, h]

theorem numbered_no_slash {str : Str} (h : Numbered str) : '/' ∉ str := by
  have hdigits : ∀ s id, parseU64 s = some id → '/' ∉ s := by
    intro s id hs hmem
    obtain ⟨t, ht, -, hall, -⟩ := parseU64_eq_some.mp hs
    rcases ht with rfl | rfl
    · exact absurd (hall _ hmem) (by decide)
    · rcases List.mem_cons.mp hmem with heq | hmem
      · exact absurd heq (by decide)
      · exact absurd (hall _ hmem) (by decide)
  rcases h with h | h
  · obtain ⟨id, hid⟩ := Option.isSome_iff_exists.mp h
    obtain ⟨digits, rfl, hparse⟩ := parseWalSegmentName_eq.mp hid
    simp [hdigits digits id hparse]
  · obtain ⟨id, hid⟩ := Option.isSome_iff_exists.mp h
    obtain ⟨digits, rfl, hparse⟩ := parseSstName_eq.mp hid
    simp [hdigits digits id hparse]

/-- The invariant: a path stands in the map once. -/
def Inv (m : MemVfs) : Prop := (m.names.map Prod.fst).Nodup

theorem list_eq {m : MemVfs} (h : Inv m) {dir : Str} (hdir : dir.getLast? ≠ some '/') :
    ∃ names, list dir m = .ok names ∧ names.Nodup ∧
      ∀ str, Numbered str → (str ∈ names ↔ (m.find (dir ++ '/' :: str)).isSome = true) := by
  refine ⟨_, rfl, ?_, ?_⟩
  · refine List.Nodup.filter _ (List.Nodup.filterMap ?_ ((List.perm_insertionSort _ _).nodup_iff.mpr h))
    intro a b str ha hb
    obtain ⟨p, rfl, hp⟩ := List.dropPrefix?_eq_some_iff.mp ha
    obtain ⟨q, rfl, hq⟩ := List.dropPrefix?_eq_some_iff.mp hb
    rw [eq_of_beq hp, eq_of_beq hq]
  · intro str hstr
    rw [if_neg hdir, List.mem_filter, List.mem_filterMap]
    simp only [numbered_no_slash hstr, not_false_eq_true, decide_true, and_true,
      List.mem_insertionSort, List.dropPrefix?_eq_some_iff, beq_iff_eq]
    constructor
    · rintro ⟨path, hpath, p, rfl, rfl⟩
      rw [Inodes.mem_names, List.append_assoc] at hpath
      exact hpath
    · intro hsome
      refine ⟨dir ++ '/' :: str, (Inodes.mem_names m _).mpr hsome, dir ++ ['/'], ?_, rfl⟩
      rw [List.append_assoc]
      rfl

theorem hosting {dir : Str} (hdir : dir.getLast? ≠ some '/') :
    Hosting vfs dir id (fun str => dir ++ '/' :: str) Inv := by
  constructor
  case key_inj =>
    intro a b _ _ h
    exact (List.cons.inj (List.append_cancel_left h)).2
  case openWritable =>
    intro m name hinv _
    rw [pathOf_eq]
    exact ⟨_, rfl, rfl, Inodes.nodup_create hinv _ _⟩
  case openReadonly =>
    intro m name i _ _ hfind
    show openReadonly _ m = _
    rw [pathOf_eq, openReadonly, show m.find _ = some i from hfind]
  case missing =>
    intro m name _ _ hfind
    refine ⟨"MemVfs: missing file '" ++ String.ofList (pathOf dir name) ++ "'", ?_⟩
    show openReadonly _ m = _
    rw [openReadonly, pathOf_eq, show m.find _ = none from hfind]
  case remove =>
    intro m name hinv _
    rw [pathOf_eq]
    exact ⟨_, rfl, rfl, Inodes.nodup_unlink hinv _⟩
  case append =>
    intro m i data hinv hlt
    have hblob : m.blob i = some _ := List.getElem?_eq_getElem hlt
    exact ⟨_, _, withFile_eq hblob _, rfl, hinv⟩
  case writeAt =>
    intro m i data offset bytes hinv hblob hle hlt
    refine ⟨m.change i (overwrite · data offset), ?_, rfl, hinv⟩
    show writeAt i data offset m = _
    have hsmall : offset + data.length < u64Size := hlt.trans (by decide)
    rw [writeAt, withFile_eq (show m.blob i = some bytes from hblob), if_neg (by omega), if_neg (by omega)]
  case sync =>
    intro m i hinv _
    exact ⟨m, rfl, rfl, hinv⟩
  case readAt =>
    intro m i offset len bytes _ hblob hlt _
    have hsmall : offset + len < u64Size := hlt.trans (by decide)
    show Answer.ofRes (readAt i offset len m) _ = _
    rw [readAt, withFile_eq (show m.blob i = some bytes from hblob), if_neg (by omega)]
    rfl
  case size =>
    intro m i bytes _ hblob
    exact withFile_eq hblob _
  case list =>
    intro m hinv
    exact list_eq hinv hdir

/-- Every path has one vector, and every vector at most one path. -/
structure Sound (m : MemVfs) : Prop where
  paths : Inv m
  owned : ∃ owner, m.Owned owner

theorem sound_new : Sound new := by
  refine ⟨List.nodup_nil, fun _ => [], ?_⟩
  intro k i h
  cases h

end MemVfs

/-- The in-memory backend answers every proper list of calls of the engine as the
model's file layer does, whatever else is stored in it. -/
theorem memVfs_refines {dir : Str} (hdir : dir.getLast? ≠ some '/') {m : MemVfs} (hm : m.Sound)
    (hforeign : ∀ str, Numbered str → m.find (dir ++ '/' :: str) = none) {ops : List FileOp}
    (hok : ProperRun Client.start ops) :
    answers (Host.step MemVfs.vfs dir) (Host.start m) ops = answers Client.step Client.start ops := by
  obtain ⟨owner, howned⟩ := hm.owned
  have hstart : Related id (fun str => dir ++ '/' :: str) MemVfs.Inv Client.start (Host.start m) :=
    related_start hm.paths howned hforeign
  exact (MemVfs.hosting hdir).answers hstart hok

theorem memVfs_refines_calls :
    answers (Host.step MemVfs.vfs ['/', 'd', 'b']) (Host.start MemVfs.new) someCalls =
      [.done, .done, .done, .done, .done, .done, .done, .done, .done, .bytes [9, 9, 5],
        .failed (some .unexpectedEof), .failed (some .notFound), .numbers [1, 3] []] :=
  (memVfs_refines (by decide) MemVfs.sound_new (fun _ _ => rfl) (by decide)).trans (by decide)

end PaddockKV.Vfs
