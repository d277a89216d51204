import PaddockKV.Lib.Inodes
import PaddockKV.Vfs.Names

/-!
# The VFS trait (`io/vfs.rs`, `Vfs` and `VfsFile`) and its use by the engine

A backend opens paths and works on handles. The engine's model knows two kinds of
file by their numbers, takes the name for the handle of its writer, and reads the
bytes a file had when it was opened. Here both are machines that answer the same
calls: `Client` is the model's file layer, `Host` a backend under the paths that
the engine forms.
-/

namespace PaddockKV

open Io Vfs

/-- The trait; a handle is the number of the open file. -/
structure Vfs (σ : Type) where
  openWritable : Str → σ → Res (ℕ × σ)
  openReadonly : Str → σ → Res ℕ
  rename : Str → Str → σ → Res σ
  remove : Str → σ → Res σ
  list : Str → σ → Res (List Str)
  append : ℕ → Bytes → σ → Res (ℕ × σ)
  writeAt : ℕ → Bytes → ℕ → σ → Res σ
  sync : ℕ → σ → Res σ
  readAt : ℕ → ℕ → ℕ → σ → Res Bytes
  size : ℕ → σ → Res ℕ

namespace Vfs

/-- The calls of the engine. Readers are numbered in the order in which they are
opened; `closeAll` is the end of a session. -/
inductive FileOp where
  | openWritable (name : FileName)
  | append (name : FileName) (data : Bytes)
  | writeAt (name : FileName) (data : Bytes) (offset : ℕ)
  | sync (name : FileName)
  | remove (name : FileName)
  | openReadonly (name : FileName)
  | readAt (reader offset len : ℕ)
  | size (reader : ℕ)
  | list
  | closeAll
  deriving Repr, DecidableEq

/-- What a call returns; of an error the caller sees the kind. -/
inductive Answer where
  | done
  | bytes (data : Bytes)
  | length (n : ℕ)
  | numbers (segments tables : List ℕ)
  | failed (kind : Option IoKind)
  deriving Repr, DecidableEq

def kindOf : Fault → Option IoKind
  | .err (.io kind _) => some kind
  | _ => none

def Answer.ofRes {α : Type} (r : Res α) (f : α → Answer) : Answer :=
  match r with
  | .ok a => f a
  | .error e => .failed (kindOf e)

/-! ### The file layer of the model -/

structure Client where
  world : World
  readers : List (FileName × Bytes)

def Client.start : Client := ⟨⟨[], []⟩, []⟩

def Client.call {α : Type} (c : Client) (x : Act World α) (f : α → Client → Client)
    (ans : α → Answer) : Client × Answer :=
  match x c.world with
  | .ok a w => (f a { c with world := w }, ans a)
  | .error e w => ({ c with world := w }, .failed (kindOf e))

/-- The numbers `open_with` takes from a listing. -/
def Answer.ofNames (names : List FileName) : Answer :=
  .numbers ((names.filterMap Engine.parseWalSegmentName).insertionSort (· ≤ ·))
    ((names.filterMap Engine.parseSstName).insertionSort (· ≥ ·))

def Client.step (c : Client) : FileOp → Client × Answer
  | .openWritable name => c.call (Io.openWritable name) (fun _ => id) fun _ => .done
  | .append name data => c.call (Io.append name data) (fun _ => id) fun _ => .done
  | .writeAt name data offset => c.call (Io.writeAt name data offset) (fun _ => id) fun _ => .done
  | .sync name => c.call (Io.sync name) (fun _ => id) fun _ => .done
  | .remove name => c.call (Io.remove name) (fun _ => id) fun _ => .done
  | .openReadonly name =>
    c.call (Io.openReadonly name)
      (fun bytes c => { c with readers := c.readers ++ [(name, bytes)] }) fun _ => .done
  | .readAt reader offset len =>
    (c, match c.readers[reader]? with
      | some r => .ofRes (Io.readAt r.2 offset len) .bytes
      | none => .failed none)
  | .size reader =>
    (c, match c.readers[reader]? with
      | some r => .length r.2.length
      | none => .failed none)
  | .list => c.call Io.list (fun _ => id) .ofNames
  | .closeAll => ({ c with readers := [] }, .done)

/-! ### A backend -/

/-- The backend's state, the handles the engine writes through and those it reads
through. -/
structure Host (σ : Type) where
  fs : σ
  writers : FileName → Option ℕ
  readers : List ℕ

def Host.start {σ : Type} (fs : σ) : Host σ := ⟨fs, fun _ => none, []⟩

def Host.step {σ : Type} (V : Vfs σ) (dir : Str) (h : Host σ) : FileOp → Host σ × Answer
  | .openWritable name =>
    match V.openWritable (pathOf dir name) h.fs with
    | .ok (i, fs) => ({ h with fs := fs, writers := Function.update h.writers name (some i) }, .done)
    | .error e => (h, .failed (kindOf e))
  | .append name data =>
    match h.writers name with
    | none => (h, .failed none)
    | some i =>
      match V.append i data h.fs with
      | .ok (_, fs) => ({ h with fs := fs }, .done)
      | .error e => (h, .failed (kindOf e))
  | .writeAt name data offset =>
    match h.writers name with
    | none => (h, .failed none)
    | some i =>
      match V.writeAt i data offset h.fs with
      | .ok fs => ({ h with fs := fs }, .done)
      | .error e => (h, .failed (kindOf e))
  | .sync name =>
    match h.writers name with
    | none => (h, .failed none)
    | some i =>
      match V.sync i h.fs with
      | .ok fs => ({ h with fs := fs }, .done)
      | .error e => (h, .failed (kindOf e))
  | .remove name =>
    match V.remove (pathOf dir name) h.fs with
    | .ok fs => ({ h with fs := fs }, .done)
    | .error e => (h, .failed (kindOf e))
  | .openReadonly name =>
    match V.openReadonly (pathOf dir name) h.fs with
    | .ok i => ({ h with readers := h.readers ++ [i] }, .done)
    | .error e => (h, .failed (kindOf e))
  | .readAt reader offset len =>
    (h, match h.readers[reader]? with
      | some i => .ofRes (V.readAt i offset len h.fs) .bytes
      | none => .failed none)
  | .size reader =>
    (h, match h.readers[reader]? with
      | some i => .ofRes (V.size i h.fs) .length
      | none => .failed none)
  | .list =>
    (h, .ofRes (V.list dir h.fs) fun names =>
      .numbers ((names.filterMap parseWalSegmentName).insertionSort (· ≤ ·))
        ((names.filterMap parseSstName).insertionSort (· ≥ ·)))
  | .closeAll => ({ h with readers := [] }, .done)

/-! ### Runs -/

/-- The answers to a list of calls. -/
def answers {S : Type} (step : S → FileOp → S × Answer) : S → List FileOp → List Answer
  | _, [] => []
  | s, op :: ops => (step s op).2 :: answers step (step s op).1 ops

/-- How the engine uses its files: writers have been opened, no file is written
while a reader has it open, a file that is patched is there and is not extended, an
empty read starts inside the file, and numbers and offsets fit their types. -/
def Proper (c : Client) : FileOp → Prop
  | .openWritable name => Engine.number name < u64Size
  | .append name _ => name ∈ c.world.log.filterMap opened ∧ ∀ r ∈ c.readers, r.1 ≠ name
  | .writeAt name data offset =>
    (∃ f ∈ c.world.disk name, offset + data.length ≤ f.bytes.length) ∧ offset + data.length < 2 ^ 63 ∧
      ∀ r ∈ c.readers, r.1 ≠ name
  | .sync name => name ∈ c.world.log.filterMap opened
  | .remove name => Engine.number name < u64Size
  | .openReadonly name => Engine.number name < u64Size
  | .readAt reader offset len =>
    offset + len < 2 ^ 63 ∧ (len = 0 → ∀ r ∈ c.readers[reader]?, offset ≤ r.2.length)
  | .size _ => True
  | .list => True
  | .closeAll => True

instance (c : Client) (op : FileOp) : Decidable (Proper c op) := by
  unfold Proper
  split <;> infer_instance

/-- A list of calls made properly from here on. -/
def ProperRun : Client → List FileOp → Prop
  | _, [] => True
  | c, op :: ops => Proper c op ∧ ProperRun (c.step op).1 ops

instance decidableProperRun : (c : Client) → (ops : List FileOp) → Decidable (ProperRun c ops)
  | _, [] => isTrue trivial
  | c, op :: ops => @instDecidableAnd _ _ _ (decidableProperRun (c.step op).1 ops)

/-- A segment and a table are written, the table is read and removed, and another
segment is begun. -/
def someCalls : List FileOp :=
  [.openWritable (.wal 1), .append (.wal 1) [7, 8], .sync (.wal 1), .openWritable (.sst 2),
    .append (.sst 2) [0, 0, 5], .writeAt (.sst 2) [9, 9] 0, .openReadonly (.sst 2), .remove (.sst 2),
    .openWritable (.wal 3), .readAt 0 0 3, .readAt 0 2 9, .openReadonly (.sst 2), .list]

end Vfs

end PaddockKV
