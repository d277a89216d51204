import PaddockKV.Basic

/-!
# Arithmetic and indexing that unwinds

What `a - b`, `&bytes[a..b]` and `bytes[i]` do in the source: outside their
range they unwind. The parsers of the model are written with total operations;
their checked versions use these and are shown to be equal to them.
-/

namespace PaddockKV

def subWord (a b : ℕ) : Res ℕ :=
  if b ≤ a then .ok (a - b) else .error (.panicked "attempt to subtract with overflow")

def addWord (a b : ℕ) : Res ℕ :=
  if a + b < u64Size then .ok (a + b) else .error (.panicked "attempt to add with overflow")

def mulWord (a b : ℕ) : Res ℕ :=
  if a * b < u64Size then .ok (a * b) else .error (.panicked "attempt to multiply with overflow")

/-- `&bytes[start..stop]`. -/
def slice (bytes : Bytes) (start stop : ℕ) : Res Bytes :=
  if stop < start then .error (.panicked "slice index starts after its end")
  else if bytes.length < stop then .error (.panicked "range end index out of range for slice")
  else .ok ((bytes.drop start).take (stop - start))

/-- `&bytes[start..]`. -/
def sliceFrom (bytes : Bytes) (start : ℕ) : Res Bytes :=
  if bytes.length < start then .error (.panicked "range start index out of range for slice")
  else .ok (bytes.drop start)

def byteAt (bytes : Bytes) (i : ℕ) : Res Byte :=
  if bytes.length ≤ i then .error (.panicked "index out of bounds") else .ok ((bytes.drop i).headD 0)

/-- `u32::from_le_bytes(bytes[start..stop].try_into().expect(..))`. -/
def u32At (bytes : Bytes) (start stop : ℕ) : Res ℕ := do
  let word ← slice bytes start stop
  if word.length = 4 then .ok (leVal word) else .error (.panicked "4-byte slice")

/-- `items[i]`. -/
def itemAt {α : Type} (items : List α) (i : ℕ) : Res α :=
  match items[i]? with
  | some a => .ok a
  | none => .error (.panicked "index out of bounds")

/-- `items[i] = f(items[i])`. -/
def updateAt {α : Type} (items : List α) (i : ℕ) (f : α → α) : Res (List α) :=
  if items.length ≤ i then .error (.panicked "index out of bounds") else .ok (items.modify i f)

/-- `x.ok()?` where an `Option` is returned; a panic is no `Err`. -/
def okOr {α β : Type} (x : Res α) (k : α → Res (Option β)) : Res (Option β) :=
  match x with
  | .ok a => k a
  | .error (.err _) => .ok none
  | .error (.panicked msg) => .error (.panicked msg)

/-- The call returns, with `Ok` or with `Err`. -/
def Returns {α : Type} (x : Res α) : Prop := ∀ msg, x ≠ .error (.panicked msg)

theorem subWord_ok {a b : ℕ} (h : b ≤ a) : subWord a b = .ok (a - b) := if_pos h

theorem addWord_ok {a b : ℕ} (h : a + b < u64Size) : addWord a b = .ok (a + b) := if_pos h

theorem mulWord_ok {a b : ℕ} (h : a * b < u64Size) : mulWord a b = .ok (a * b) := if_pos h

theorem slice_ok {bytes : Bytes} {start stop : ℕ} (h : start ≤ stop) (hstop : stop ≤ bytes.length) :
    slice bytes start stop = .ok ((bytes.drop start).take (stop - start)) := by
  unfold slice
  rw [if_neg (not_lt.mpr h), if_neg (not_lt.mpr hstop)]

theorem sliceFrom_ok {bytes : Bytes} {start : ℕ} (h : start ≤ bytes.length) :
    sliceFrom bytes start = .ok (bytes.drop start) := if_neg (not_lt.mpr h)

theorem byteAt_ok {bytes : Bytes} {i : ℕ} (h : i < bytes.length) :
    byteAt bytes i = .ok ((bytes.drop i).headD 0) := if_neg (not_le.mpr h)

theorem u32At_ok {bytes : Bytes} {start stop : ℕ} (h : start + 4 = stop)
    (hstop : stop ≤ bytes.length) :
    u32At bytes start stop = .ok (leVal ((bytes.drop start).take 4)) := by
  have hfour : stop - start = 4 := by omega
  have hlen : ((bytes.drop start).take 4).length = 4 := by
    rw [List.length_take, List.length_drop]
    omega
  unfold u32At
  rw [slice_ok (by omega) hstop, res_ok_bind, hfour, if_pos hlen]

theorem itemAt_ok {α : Type} {items : List α} {i : ℕ} {a : α} (h : items[i]? = some a) :
    itemAt items i = .ok a := by rw [itemAt, h]

theorem updateAt_ok {α : Type} {items : List α} {i : ℕ} (h : i < items.length) (f : α → α) :
    updateAt items i f = .ok (items.modify i f) := if_neg (not_le.mpr h)

section

variable {α β : Type}

theorem okOr_eq {x : Res α} {k : α → Res (Option β)} {f : α → Option β} (hx : Returns x)
    (hk : ∀ a, x = .ok a → k a = .ok (f a)) : okOr x k = .ok (x.toOption.bind f) := by
  cases x with
  | ok a => exact hk a rfl
  | error fault =>
    cases fault with
    | err e => rfl
    | panicked msg => exact (hx msg rfl).elim

theorem Returns.ok (a : α) : Returns (.ok a : Res α) := fun _ h => by cases h

theorem Returns.err (e : Error) : Returns (.error (.err e) : Res α) := fun _ h => by cases h

theorem Returns.bind {x : Res α} {f : α → Res β} (hx : Returns x)
    (hf : ∀ a, x = .ok a → Returns (f a)) : Returns (x >>= f) := by
  cases x with
  | ok a => exact hf a rfl
  | error fault =>
    intro msg h
    exact hx msg (congrArg Except.error (Except.error.inj h))

theorem res_bind_congr {x : Res α} {f g : α → Res β} (h : ∀ a, x = .ok a → f a = g a) :
    (x >>= f) = (x >>= g) := by
  cases x with
  | ok a => exact h a rfl
  | error fault => rfl

theorem Returns.mapM {f : α → Res β} (hf : ∀ a, Returns (f a)) (l : List α) :
    Returns (l.mapM f) := by
  induction l with
  | nil => exact Returns.ok []
  | cons a l ih =>
    rw [List.mapM_cons]
    exact (hf a).bind fun b _ => ih.bind fun bs _ => Returns.ok (b :: bs)

theorem allM_ok {f : α → Res Bool} {p : α → Bool} {l : List α} (h : ∀ a ∈ l, f a = .ok (p a)) :
    l.allM f = .ok (l.all p) := by
  induction l with
  | nil => rfl
  | cons a l ih =>
    rw [List.allM, h a List.mem_cons_self, res_ok_bind, List.all_cons]
    cases p a with
    | false => rfl
    | true => exact ih fun b hb => h b (List.mem_cons_of_mem a hb)

theorem foldlM_ok {I : β → Prop} {f : β → α → Res β} {g : β → α → β} {l : List α}
    (h : ∀ b, I b → ∀ a ∈ l, f b a = .ok (g b a) ∧ I (g b a)) {b : β} (hb : I b) :
    l.foldlM f b = .ok (l.foldl g b) := by
  induction l generalizing b with
  | nil => rfl
  | cons a l ih =>
    obtain ⟨hstep, hkept⟩ := h b hb a List.mem_cons_self
    rw [List.foldlM_cons, hstep, res_ok_bind, List.foldl_cons]
    exact ih (fun b hb a' ha' => h b hb a' (List.mem_cons_of_mem a ha')) hkept

end

theorem headD_drop (bytes : Bytes) (i : ℕ) : (bytes.drop i).headD 0 = bytes.getD i 0 := by
  rw [List.headD_eq_head?_getD, List.head?_drop, List.getD_eq_getElem?_getD]

/-- An `Err` that is neither a failed read nor a panic. -/
def PlainError (f : Fault) : Prop := ∃ e, f = .err e ∧ ∀ kind msg, e ≠ .io kind msg

end PaddockKV
