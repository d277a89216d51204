import Mathlib.Tactic

/-!
# Files by name and by handle

A directory maps names to files, and a handle keeps its file when the name goes
away or is given to another file. Files are numbered in the order of their
creation; a handle is such a number.
-/

structure Inodes (K B : Type*) where
  names : List (K × ℕ)
  blobs : List B
  deriving Repr, DecidableEq

namespace Inodes

variable {K B : Type*} [DecidableEq K] {m : Inodes K B} {k k' : K} {b : B} {i : ℕ} {f : B → B}

def find (m : Inodes K B) (k : K) : Option ℕ := m.names.lookup k

def blob (m : Inodes K B) (i : ℕ) : Option B := m.blobs[i]?

/-- What the file of this name holds. -/
def content (m : Inodes K B) (k : K) : Option B := (m.find k).bind m.blob

/-- The file of this name, made with `b` in it if there is none. -/
def create (m : Inodes K B) (k : K) (b : B) : ℕ × Inodes K B :=
  match m.find k with
  | some i => (i, m)
  | none => (m.blobs.length, ⟨(k, m.blobs.length) :: m.names, m.blobs ++ [b]⟩)

def unlink (m : Inodes K B) (k : K) : Inodes K B :=
  { m with names := m.names.filter fun p => p.1 ≠ k }

/-- Gives the file `i` of `k` the name `k'`, whatever had it. -/
def move (m : Inodes K B) (k k' : K) (i : ℕ) : Inodes K B :=
  { m with names := (k', i) :: ((m.unlink k).unlink k').names }

def change (m : Inodes K B) (i : ℕ) (f : B → B) : Inodes K B :=
  { m with blobs := m.blobs.modify i f }

/-! ### Names -/

theorem mem_names (m : Inodes K B) (k : K) :
    k ∈ m.names.map Prod.fst ↔ (m.find k).isSome = true := by
  unfold find
  induction m.names with
  | nil => simp
  | cons p l ih =>
    rw [List.map_cons, List.mem_cons, ih, List.lookup_cons]
    by_cases hp : k = p.1
    · simp [hp]
    · have hne : (k == p.1) = false := by simpa using hp
      rw [hne]
      simp [hp]

theorem lookup_filter_ne (l : List (K × ℕ)) (k k' : K) :
    (l.filter fun p => p.1 ≠ k).lookup k' = if k' = k then none else l.lookup k' := by
  induction l with
  | nil => simp
  | cons p l ih =>
    obtain ⟨q, i⟩ := p
    by_cases hq : q = k
    · rw [List.filter_cons_of_neg (by simpa using hq), ih, List.lookup_cons]
      by_cases hk : k' = k
      · rw [if_pos hk, if_pos hk]
      · have hne : (k' == q) = false := by simpa [hq] using hk
        rw [if_neg hk, if_neg hk, hne]
    · rw [List.filter_cons_of_pos (by simpa using hq), List.lookup_cons, List.lookup_cons, ih]
      by_cases hk : k' = q
      · subst hk
        simp [hq]
      · have hne : (k' == q) = false := by simpa using hk
        rw [hne]

@[simp] theorem find_unlink (m : Inodes K B) (k k' : K) :
    (m.unlink k).find k' = if k' = k then none else m.find k' := lookup_filter_ne m.names k k'

@[simp] theorem find_change (m : Inodes K B) (i : ℕ) (f : B → B) (k : K) :
    (m.change i f).find k = m.find k := rfl

omit [DecidableEq K] in
theorem blob_change (m : Inodes K B) (i j : ℕ) (f : B → B) :
    (m.change i f).blob j = if i = j then (m.blob j).map f else m.blob j := by
  unfold change blob
  rw [List.getElem?_modify]
  by_cases h : i = j
  · simp [h]
  · simp [h]

theorem find_create (m : Inodes K B) (k k' : K) (b : B) :
    (m.create k b).2.find k' = if k' = k then some (m.create k b).1 else m.find k' := by
  unfold create
  cases h : m.find k with
  | some i =>
    by_cases hk : k' = k
    · rw [if_pos hk, hk]
      exact h
    · rw [if_neg hk]
  | none =>
    by_cases hk : k' = k
    · rw [if_pos hk, hk]
      exact List.lookup_cons_self
    · rw [if_neg hk]
      have hne : (k' == k) = false := by simpa using hk
      change List.lookup k' ((k, m.blobs.length) :: m.names) = m.names.lookup k'
      rw [List.lookup_cons, hne]

theorem blob_create_of_lt (m : Inodes K B) (k : K) (b : B) (h : i < m.blobs.length) :
    (m.create k b).2.blob i = m.blob i := by
  unfold create
  cases m.find k with
  | some j => rfl
  | none => exact List.getElem?_append_left h

/-- Names stand once. -/
theorem nodup_create (h : (m.names.map Prod.fst).Nodup) (k : K) (b : B) :
    ((m.create k b).2.names.map Prod.fst).Nodup := by
  unfold create
  cases hf : m.find k with
  | some i => exact h
  | none =>
    refine List.nodup_cons.mpr ⟨?_, h⟩
    rw [mem_names, hf]
    exact Bool.false_ne_true

theorem nodup_unlink (h : (m.names.map Prod.fst).Nodup) (k : K) :
    ((m.unlink k).names.map Prod.fst).Nodup := h.sublist (List.filter_sublist.map Prod.fst)

theorem length_le_create (m : Inodes K B) (k : K) (b : B) :
    m.blobs.length ≤ (m.create k b).2.blobs.length := by
  unfold create
  cases m.find k with
  | some j => exact le_rfl
  | none => simp

/-! ### Owners -/

/-- Every file belongs to one name, and only that name leads to it. -/
def Owned (owner : ℕ → K) (m : Inodes K B) : Prop :=
  ∀ k i, m.find k = some i → i < m.blobs.length ∧ owner i = k

section

variable {owner : ℕ → K}

theorem Owned.unlink (h : Owned owner m) (k : K) : Owned owner (m.unlink k) := by
  intro k' i hi
  rw [find_unlink] at hi
  split at hi
  · cases hi
  · exact h k' i hi

theorem Owned.change (h : Owned owner m) (i : ℕ) (f : B → B) : Owned owner (m.change i f) := by
  intro k j hj
  obtain ⟨hlt, howner⟩ := h k j hj
  refine ⟨?_, howner⟩
  simpa [Inodes.change] using hlt

/-- The owners after a file is made, the same for the files there were. -/
def newOwner (owner : ℕ → K) (m : Inodes K B) (k : K) : ℕ → K :=
  match m.find k with
  | some _ => owner
  | none => Function.update owner m.blobs.length k

theorem newOwner_of_lt (h : i < m.blobs.length) : newOwner owner m k i = owner i := by
  unfold newOwner
  cases m.find k with
  | some j => rfl
  | none => exact Function.update_of_ne h.ne _ _

/-- The file a name is given: in range, and the name's own. -/
theorem Owned.created (h : Owned owner m) (k : K) (b : B) :
    (m.create k b).1 < (m.create k b).2.blobs.length ∧ newOwner owner m k (m.create k b).1 = k := by
  unfold Inodes.create newOwner
  cases hf : m.find k with
  | some i => exact h k i hf
  | none => simp

theorem Owned.create (h : Owned owner m) (k : K) (b : B) :
    Owned (newOwner owner m k) (m.create k b).2 := by
  intro k' i hi
  rw [find_create] at hi
  split at hi
  · rename_i hk
    rw [hk, ← Option.some.inj hi]
    exact h.created k b
  · obtain ⟨hlt, howner⟩ := h k' i hi
    exact ⟨hlt.trans_le (length_le_create m k b), (newOwner_of_lt hlt).trans howner⟩

/-! ### Contents -/

theorem content_unlink (m : Inodes K B) (k k' : K) :
    (m.unlink k).content k' = if k' = k then none else m.content k' := by
  unfold content
  rw [find_unlink]
  split
  · rfl
  · rfl

theorem Owned.content_create (h : Owned owner m) (k k' : K) (b : B) :
    (m.create k b).2.content k' =
      if k' = k then some ((m.content k).getD b) else m.content k' := by
  unfold content
  rw [find_create]
  by_cases hk : k' = k
  · rw [if_pos hk, if_pos hk, Option.bind_some]
    cases hf : m.find k with
    | some i =>
      have hlt := (h k i hf).1
      simp only [Inodes.create, hf, Option.bind_some]
      unfold blob
      rw [List.getElem?_eq_getElem hlt]
      rfl
    | none =>
      simp only [Inodes.create, hf]
      exact List.getElem?_concat_length
  · rw [if_neg hk, if_neg hk]
    cases hf : m.find k' with
    | none => rfl
    | some i =>
      rw [Option.bind_some, Option.bind_some]
      exact blob_create_of_lt m k b (h k' i hf).1

/-- A change through a handle is a change of the file its owner names, if any. -/
theorem Owned.content_change (h : Owned owner m) (howner : owner i = k)
    (hcur : ∀ j, m.find k = some j → j = i) (k' : K) (f : B → B) :
    (m.change i f).content k' = if k' = k then (m.content k).map f else m.content k' := by
  unfold content
  rw [find_change]
  by_cases hk : k' = k
  · rw [if_pos hk, hk]
    cases hf : m.find k with
    | none => rfl
    | some j =>
      rw [Option.bind_some, Option.bind_some, blob_change, if_pos (hcur j hf).symm]
  · rw [if_neg hk]
    cases hf : m.find k' with
    | none => rfl
    | some j =>
      have hne : i ≠ j := by
        intro heq
        exact hk (by rw [← (h k' j hf).2, ← heq, howner])
      rw [Option.bind_some, Option.bind_some, blob_change, if_neg hne]

end

end Inodes
