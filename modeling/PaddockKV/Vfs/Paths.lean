import PaddockKV.Vfs.Trait

/-!
# Paths of the host (`io/linux_vfs.rs`, `LinuxVfs::resolve`)

`resolve` walks the components of a path, refuses those that lead out, and joins the
path to the root. `place` is where the kernel ends up: the segments of the path
without the empty ones and the dots. Steps to the parent are only taken in the root's
own path, the same for all files, and there are no links.
-/

namespace PaddockKV.Vfs

/-- `std::path::Component` on Unix. -/
inductive Component where
  | rootDir
  | curDir
  | parentDir
  | normal (s : Str)
  deriving Repr, DecidableEq

/-- The pieces between slashes. -/
def segments : Str → List Str
  | [] => [[]]
  | c :: s =>
    if c = '/' then [] :: segments s
    else
      match segments s with
      | [] => [[c]]
      | t :: ts => (c :: t) :: ts

/-- A piece after the first; empty ones and dots are skipped. -/
def component (s : Str) : Option Component :=
  if s = [] ∨ s = ['.'] then none
  else if s = ['.', '.'] then some .parentDir
  else some (.normal s)

/-- `Path::components`; a dot counts at the start of the path only. -/
def components (path : Str) : List Component :=
  match segments path with
  | [] => []
  | first :: rest =>
    (if first = [] then if path = [] then [] else [.rootDir]
      else if first = ['.'] then [.curDir]
      else (component first).toList) ++ rest.filterMap component

def isAbsolute (path : Str) : Bool := path.head? = some '/'

/-- `PathBuf::join` with a relative path. -/
def join (root path : Str) : Str :=
  if root = [] ∨ root.getLast? = some '/' then root ++ path else root ++ '/' :: path

def Component.permitted : Component → Bool
  | .normal _ | .curDir => true
  | .parentDir | .rootDir => false

def resolve (root path : Str) : Res Str :=
  if path = [] then .error (.err (.invalidFormat "LinuxVfs" "empty path"))
  else if isAbsolute path then
    .error (.err (.invalidFormat "LinuxVfs"
      "absolute paths are not permitted; pass a relative name"))
  else if (components path).all Component.permitted then .ok (join root path)
  else
    .error (.err (.invalidFormat "LinuxVfs" "path component outside the root is not permitted"))

def place (path : Str) : List Str := (segments path).filter fun s => s ≠ [] ∧ s ≠ ['.']

/-! ### Segments -/

theorem segments_ne_nil (s : Str) : segments s ≠ [] := by
  cases s with
  | nil => exact List.cons_ne_nil _ _
  | cons c s =>
    rw [segments]
    split
    · exact List.cons_ne_nil _ _
    · split <;> exact List.cons_ne_nil _ _

theorem segments_append_slash (a b : Str) : segments (a ++ '/' :: b) = segments a ++ segments b := by
  induction a with
  | nil => simp [segments]
  | cons c a ih =>
    rw [List.cons_append, segments, segments, ih]
    by_cases hc : c = '/'
    · rw [if_pos hc, if_pos hc, List.cons_append]
    · rw [if_neg hc, if_neg hc]
      cases hs : segments a with
      | nil => exact absurd hs (segments_ne_nil a)
      | cons t ts => rfl

theorem segments_of_no_slash {s : Str} (h : '/' ∉ s) : segments s = [s] := by
  induction s with
  | nil => rfl
  | cons c s ih =>
    rw [List.mem_cons, not_or] at h
    rw [segments, if_neg (Ne.symm h.1), ih h.2]

theorem place_append_slash (a b : Str) : place (a ++ '/' :: b) = place a ++ place b := by
  rw [place, segments_append_slash, List.filter_append]
  rfl

theorem place_join (root path : Str) : place (join root path) = place root ++ place path := by
  unfold join
  by_cases hroot : root = []
  · rw [if_pos (.inl hroot), hroot]
    rfl
  · by_cases hlast : root.getLast? = some '/'
    · rw [if_pos (.inr hlast)]
      obtain ⟨r, rfl⟩ := List.getLast?_eq_some_iff.mp hlast
      rw [List.append_assoc, List.singleton_append, place_append_slash, place_append_slash]
      exact congrArg (· ++ place path) (List.append_nil _).symm
    · rw [if_neg (by simp [hroot, hlast]), place_append_slash]

theorem place_of_no_slash {s : Str} (h : '/' ∉ s) (hne : s ≠ []) (hdot : s ≠ ['.']) :
    place s = [s] := by
  rw [place, segments_of_no_slash h, List.filter_cons_of_pos (by simp [hne, hdot])]
  rfl

theorem head_segments {path : Str} (hne : path ≠ []) (habs : isAbsolute path = false) :
    ∃ first rest, segments path = first :: rest ∧ first ≠ [] := by
  cases path with
  | nil => exact absurd rfl hne
  | cons c s =>
    have hc : c ≠ '/' := by
      intro heq
      rw [heq] at habs
      cases habs
    rw [segments, if_neg hc]
    split
    · exact ⟨_, _, rfl, List.cons_ne_nil _ _⟩
    · exact ⟨_, _, rfl, List.cons_ne_nil _ _⟩

theorem permitted_component (s : Str) :
    (∀ x ∈ component s, x.permitted = true) ↔ s ≠ ['.', '.'] := by
  unfold component
  by_cases hskip : s = [] ∨ s = ['.']
  · rw [if_pos hskip]
    rcases hskip with rfl | rfl <;> simp
  · rw [if_neg hskip]
    by_cases hup : s = ['.', '.']
    · simp [hup, Component.permitted]
    · simp [hup, Component.permitted]

theorem permitted_iff {path : Str} (hne : path ≠ []) (habs : isAbsolute path = false) :
    (components path).all Component.permitted = true ↔ ['.', '.'] ∉ segments path := by
  obtain ⟨first, rest, hseg, hfirst⟩ := head_segments hne habs
  have hhead : (∀ x ∈ (if first = [] then if path = [] then [] else [Component.rootDir]
      else if first = ['.'] then [.curDir] else (component first).toList), x.permitted = true) ↔
      first ≠ ['.', '.'] := by
    rw [if_neg hfirst]
    by_cases hdot : first = ['.']
    · simp [hdot, Component.permitted]
    · rw [if_neg hdot, ← permitted_component]
      simp only [Option.mem_toList, Option.mem_def]
  have htail : (∀ x ∈ rest.filterMap component, x.permitted = true) ↔
      ∀ s ∈ rest, s ≠ ['.', '.'] := by
    simp only [List.mem_filterMap]
    constructor
    · intro h s hs
      exact (permitted_component s).mp fun x hx => h x ⟨s, hs, hx⟩
    · rintro h x ⟨s, hs, hx⟩
      exact (permitted_component s).mpr (h s hs) x hx
  rw [components, hseg, List.all_append, Bool.and_eq_true, List.all_eq_true, List.all_eq_true, hhead,
    htail, List.mem_cons, not_or]
  constructor
  · intro h
    exact ⟨Ne.symm h.1, fun hmem => h.2 _ hmem rfl⟩
  · intro h
    exact ⟨Ne.symm h.1, fun s hs heq => h.2 (heq ▸ hs)⟩

/-- What `resolve` returns lies below the root, and it refuses only the empty path,
absolute paths and paths with a step to the parent. -/
theorem resolve_eq_ok {root path full : Str} :
    resolve root path = .ok full ↔ path ≠ [] ∧ isAbsolute path = false ∧
      ['.', '.'] ∉ segments path ∧ full = join root path := by
  unfold resolve
  by_cases hne : path = []
  · simp [hne]
  · rw [if_neg hne]
    cases habs : isAbsolute path with
    | true => simp
    | false =>
      rw [if_neg Bool.false_ne_true]
      by_cases hperm : (components path).all Component.permitted = true
      · rw [if_pos hperm]
        have hseg := (permitted_iff hne habs).mp hperm
        simp [hne, hseg, eq_comm]
      · rw [if_neg hperm]
        rw [permitted_iff hne habs] at hperm
        simp [hperm]

theorem place_resolve {root path full : Str} (h : resolve root path = .ok full) :
    place full = place root ++ place path := by
  rw [(resolve_eq_ok.mp h).2.2.2, place_join]

end PaddockKV.Vfs
