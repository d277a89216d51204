import PaddockKV.Basic

/-!
# The bump allocator (`memtable/arena.rs`)

Memory comes in slabs that the global allocator hands out. A request is served
from the newest slab, behind everything served there before; when it does not
fit, one more slab is taken. A pointer is kept as the slab it points into and
the offset there.
-/

namespace PaddockKV

def initialSlabSize : ℕ := 256 * 1024
def maxSlabSize : ℕ := 4 * 1024 * 1024
def defaultAlign : ℕ := 8

/-- `size_of::<Slab>()`: the link to the previous slab and the capacity. -/
def slabHeaderSize : ℕ := 16

/-- The largest size `Layout::from_size_align` takes with `DEFAULT_ALIGN`:
rounded up to the alignment it is at most `isize::MAX`. -/
def maxLayoutSize : ℕ := 2 ^ 63 - defaultAlign

/-- A slab, with its place among the answers of the global allocator. -/
structure Slab where
  index : ℕ
  base : ℕ
  capacity : ℕ
  deriving Repr, DecidableEq

/-- `slabs` is the list that starts at `head` and follows `prev`. -/
structure Arena where
  slabs : List Slab
  bumpOffset : ℕ
  nextSlabSize : ℕ
  bytesUsed : ℕ
  bytesReserved : ℕ
  deriving Repr, DecidableEq

structure Ptr where
  slab : Slab
  offset : ℕ
  deriving Repr, DecidableEq

def Ptr.address (p : Ptr) : ℕ := p.slab.base + p.offset

/-- The global allocator: what it answers to its `n`-th call, for a layout of
the given size; `none` is the null pointer. -/
abbrev GlobalAlloc := ℕ → ℕ → Option ℕ

def Arena.new : Arena := ⟨[], 0, initialSlabSize, 0, 0⟩

def alignMsg : String := "alignment must be a power of two"
def layoutMsg : String := "slab layout (cap and DEFAULT_ALIGN are both reasonable)"
def outOfMemoryMsg : String := "arena slab allocation failed (out of memory)"

def roundUp {σ : Type} (value multiple : ℕ) : Act σ ℕ :=
  let rem := value % multiple
  if rem = 0 then pure value else addU64 value (multiple - rem) overflowMsg

namespace Arena

def grow (alloc : GlobalAlloc) (capacity : ℕ) : Act Arena Unit :=
  if maxLayoutSize < capacity then Act.panic layoutMsg
  else do
    let a ← get
    match alloc a.slabs.length capacity with
    | none => Act.panic outOfMemoryMsg
    | some base => do
      modify fun a =>
        { a with slabs := ⟨a.slabs.length, base, capacity⟩ :: a.slabs, bumpOffset := 0 }
      let bytesReserved ← addU64 a.bytesReserved capacity overflowMsg
      modify fun a => { a with
        bytesReserved := bytesReserved
        nextSlabSize := min (min (a.nextSlabSize * 2) (u64Size - 1)) maxSlabSize }

/-- The attempt of `allocate` to serve `req` bytes from the head slab. -/
def bump (req align : ℕ) : Act Arena (Option Ptr) := do
  let a ← get
  match a.slabs with
  | [] => pure none
  | slab :: _ => do
    let free ← addU64 slabHeaderSize a.bumpOffset overflowMsg
    let alignedStart ← roundUp free align
    let stop ← addU64 alignedStart req overflowMsg
    if stop ≤ slab.capacity then
      modify fun a => { a with bumpOffset := stop - slabHeaderSize }
      let bytesUsed ← addU64 a.bytesUsed req overflowMsg
      modify fun a => { a with bytesUsed := bytesUsed }
      pure (some ⟨slab, alignedStart⟩)
    else pure none

/-- `allocate`, which calls itself after `grow`; `fuel` bounds the recursion. -/
def allocate (alloc : GlobalAlloc) : ℕ → ℕ → ℕ → Act Arena Ptr
  | 0, _, _ => Act.panic "stack overflow"
  | fuel + 1, size, align =>
    if ¬ align.isPowerOfTwo then Act.panic alignMsg
    else do
      let rounded ← roundUp size align
      let req := max rounded 1
      match ← bump req align with
      | some p => pure p
      | none => do
        let a ← get
        let room ← addU64 req slabHeaderSize overflowMsg
        let room ← addU64 room align overflowMsg
        let want := max room a.nextSlabSize
        -- never below `want`
        grow alloc (min want (max maxSlabSize want))
        allocate alloc fuel size align

end Arena

structure Request where
  size : ℕ
  align : ℕ
  deriving Repr, DecidableEq

/-- What a call did: the pointer it returned and how many slabs it added. -/
structure Served where
  request : Request
  ptr : Ptr
  grown : ℕ
  deriving Repr, DecidableEq

/-- One call after the other. -/
def Arena.allocateAll (alloc : GlobalAlloc) (fuel : ℕ) : List Request → Act Arena (List Served)
  | [] => pure []
  | r :: rs => do
    let before ← get
    let p ← Arena.allocate alloc fuel r.size r.align
    let after ← get
    let served ← Arena.allocateAll alloc fuel rs
    pure (⟨r, p, after.slabs.length - before.slabs.length⟩ :: served)

namespace Served

/-- The bytes of the call lie in a slab of the arena, past its header. -/
def Inside (c : Served) (a : Arena) : Prop :=
  c.ptr.slab ∈ a.slabs ∧ slabHeaderSize ≤ c.ptr.offset ∧
    c.ptr.offset + c.request.size ≤ c.ptr.slab.capacity

/-- The bytes of two calls are in different slabs, or apart in one. -/
def Apart (c d : Served) : Prop :=
  c.ptr.slab.index ≠ d.ptr.slab.index ∨
    c.ptr.offset + c.request.size ≤ d.ptr.offset ∨ d.ptr.offset + d.request.size ≤ c.ptr.offset

theorem Apart.symm {c d : Served} (h : d.Apart c) : c.Apart d :=
  h.imp Ne.symm Or.symm

def AddressesApart (c d : Served) : Prop :=
  c.ptr.address + c.request.size ≤ d.ptr.address ∨ d.ptr.address + d.request.size ≤ c.ptr.address

end Served

def Slab.Apart (s t : Slab) : Prop := s.base + s.capacity ≤ t.base ∨ t.base + t.capacity ≤ s.base

instance Slab.symm_apart : Std.Symm Slab.Apart := ⟨fun _ _ h => h.symm⟩

/-- The memory a request can take: a slab of its own, and rounding. -/
def Request.cost (r : Request) : ℕ :=
  maxSlabSize + slabHeaderSize + 2 * r.size + 4 * r.align

def demand (rs : List Request) : ℕ := (rs.map Request.cost).sum

/-- Why a call may unwind: the sizes leave the address space, or the global
allocator has no memory. -/
def Starved (alloc : GlobalAlloc) (total : ℕ) (f : Fault) : Prop :=
  (f = .panicked overflowMsg ∨ f = .panicked layoutMsg ∨ f = .panicked outOfMemoryMsg) ∧
    (maxLayoutSize < total ∨ ∃ n size, alloc n size = none)

theorem Starved.mono {alloc : GlobalAlloc} {total total' : ℕ} {f : Fault}
    (h : Starved alloc total f) (hle : total ≤ total') : Starved alloc total' f :=
  ⟨h.1, h.2.imp_left (fun hlt => hlt.trans_le hle)⟩

/-! ### Rounding -/

def roundedUp (value multiple : ℕ) : ℕ :=
  if value % multiple = 0 then value else value + (multiple - value % multiple)

theorem roundedUp_spec (value : ℕ) {multiple : ℕ} (hpos : 0 < multiple) :
    value ≤ roundedUp value multiple ∧ roundedUp value multiple < value + multiple ∧
      multiple ∣ roundedUp value multiple := by
  have hmod := Nat.mod_lt value hpos
  unfold roundedUp
  split
  · rename_i h
    exact ⟨Nat.le_refl _, by omega, Nat.dvd_of_mod_eq_zero h⟩
  · refine ⟨by omega, by omega, ?_⟩
    have hsum : value + (multiple - value % multiple) = multiple * (value / multiple) + multiple := by
      have := Nat.div_add_mod value multiple
      omega
    rw [hsum]
    exact Dvd.dvd.add (Nat.dvd_mul_right ..) (Nat.dvd_refl _)

theorem Ends.roundUp_bind {σ β : Type} {value multiple : ℕ} {f : ℕ → Act σ β} {s : σ}
    {R : β → σ → Prop} {Q : Fault → σ → Prop} (hok : Ends (f (roundedUp value multiple)) s R Q)
    (hover : u64Size ≤ value + multiple → Q (.panicked overflowMsg) s) :
    Ends (roundUp value multiple >>= f) s R Q := by
  unfold roundUp
  unfold roundedUp at hok
  dsimp only
  split
  · rename_i h
    rw [if_pos h] at hok
    exact Ends.ret_bind hok
  · rename_i h
    rw [if_neg h] at hok
    exact Ends.addU64_bind (fun _ => hok) (fun hge => hover (by omega))

/-- The bytes a request is served with. -/
def Request.bytes (r : Request) : ℕ := max (roundedUp r.size r.align) 1

theorem Request.bytes_bounds {r : Request} (hpos : 0 < r.align) :
    r.size ≤ r.bytes ∧ r.bytes ≤ r.size + r.align := by
  have := roundedUp_spec r.size hpos
  unfold Request.bytes
  omega

namespace Arena

/-! ### One call -/

section Call
variable {alloc : GlobalAlloc} {a : Arena} {total : ℕ}

theorem starved_overflow {n : ℕ} (h : u64Size ≤ n) (hn : n ≤ total) :
    Starved alloc total (.panicked overflowMsg) := by
  refine ⟨.inl rfl, .inl ?_⟩
  have : maxLayoutSize < u64Size := by decide
  omega

/-- The counters of the arena are within `total`. -/
structure Within (a : Arena) (total : ℕ) : Prop where
  bytes : a.bytesUsed + a.bytesReserved ≤ total
  bump : a.bumpOffset ≤ total
  next : a.nextSlabSize ≤ maxSlabSize

/-- `req` bytes are served from the head slab. -/
structure Bumped (a : Arena) (req align : ℕ) (p : Ptr) (a' : Arena) : Prop where
  head : a.slabs.head? = some p.slab
  above : slabHeaderSize + a.bumpOffset ≤ p.offset
  near : p.offset < slabHeaderSize + a.bumpOffset + align
  aligned : align ∣ p.offset
  inside : p.offset + req ≤ p.slab.capacity
  after : a' = { a with
    bumpOffset := p.offset + req - slabHeaderSize, bytesUsed := a.bytesUsed + req }

theorem bump_ends {req align : ℕ} (total : ℕ) (hpos : 0 < align)
    (hbump : slabHeaderSize + a.bumpOffset + align + req ≤ total)
    (hused : a.bytesUsed + req ≤ total) :
    Ends (bump req align) a
      (fun p a' => match p with
        | some p => Bumped a req align p a'
        | none => a' = a ∧ ∀ s ∈ a.slabs.head?,
            s.capacity < slabHeaderSize + a.bumpOffset + align + req)
      fun f _ => Starved alloc total f := by
  unfold bump
  apply Ends.read_bind
  split
  · rename_i hslabs
    apply Ends.ret
    simp [hslabs]
  · rename_i slab rest hslabs
    have hhead : a.slabs.head? = some slab := by simp [hslabs]
    apply Ends.addU64_bind ?_ (fun h => starved_overflow h (by omega))
    intro _
    apply Ends.roundUp_bind ?_ (fun h => starved_overflow h (by omega))
    obtain ⟨hge, hlt, hdvd⟩ := roundedUp_spec (slabHeaderSize + a.bumpOffset) hpos
    apply Ends.addU64_bind ?_ (fun h => starved_overflow h (by omega))
    intro _
    split
    · rename_i hfits
      apply Ends.update_bind
      apply Ends.addU64_bind ?_ (fun h => starved_overflow h (by omega))
      intro _
      apply Ends.update_bind
      apply Ends.ret
      exact ⟨hhead, hge, hlt, hdvd, hfits, rfl⟩
    · apply Ends.ret
      apply And.intro rfl
      intro s hs
      rw [hhead] at hs
      cases hs
      omega

theorem grow_ends {capacity : ℕ} (total : ℕ) (hcap : a.bytesReserved + capacity ≤ total) :
    Ends (grow alloc capacity) a
      (fun _ a' => ∃ base, alloc a.slabs.length capacity = some base ∧
        a' = { a with
          slabs := ⟨a.slabs.length, base, capacity⟩ :: a.slabs
          bumpOffset := 0
          bytesReserved := a.bytesReserved + capacity
          nextSlabSize := min (min (a.nextSlabSize * 2) (u64Size - 1)) maxSlabSize })
      fun f _ => Starved alloc total f := by
  unfold grow
  split
  · rename_i hlarge
    exact Ends.fail ⟨.inr (.inl rfl), .inl (by omega)⟩
  · apply Ends.read_bind
    split
    · rename_i hnull
      exact Ends.fail ⟨.inr (.inr rfl), .inr ⟨_, _, hnull⟩⟩
    · rename_i base hbase
      apply Ends.update_bind
      apply Ends.addU64_bind ?_ (fun h => starved_overflow h (by omega))
      intro _
      exact Ends.update ⟨base, hbase, rfl⟩

/-- What one call does: the request is served past everything served from the
slab before, or at the start of a new slab. -/
structure Allocated (alloc : GlobalAlloc) (a : Arena) (r : Request) (p : Ptr) (a' : Arena) :
    Prop where
  slabs : a'.slabs = a.slabs ∧ slabHeaderSize + a.bumpOffset ≤ p.offset ∨
    a'.slabs = p.slab :: a.slabs ∧ p.slab.index = a.slabs.length ∧
      alloc p.slab.index p.slab.capacity = some p.slab.base
  head : a'.slabs.head? = some p.slab
  start : slabHeaderSize ≤ p.offset
  aligned : r.align ∣ p.offset
  stop : p.offset + r.size ≤ slabHeaderSize + a'.bumpOffset
  inside : slabHeaderSize + a'.bumpOffset ≤ p.slab.capacity

theorem Bumped.allocated {r : Request} {p : Ptr} {a' : Arena} (alloc : GlobalAlloc)
    (hpos : 0 < r.align)
    (h : Bumped a r.bytes r.align p a') :
    Allocated alloc a r p a' := by
  have hbytes := Request.bytes_bounds hpos
  obtain ⟨hhead, habove, -, hdvd, hinside, rfl⟩ := h
  exact ⟨.inl ⟨rfl, habove⟩, hhead, by omega, hdvd, by dsimp only; omega, by dsimp only; omega⟩

theorem Within.mono {total' : ℕ} (h : Within a total) (hle : total ≤ total') : Within a total' :=
  ⟨h.bytes.trans hle, h.bump.trans hle, h.next⟩

theorem Bumped.within {r : Request} {p : Ptr} {a' : Arena} (hw : Within a total)
    (h : Bumped a r.bytes r.align p a') : Within a' (total + r.bytes + r.align) := by
  obtain ⟨hbytes, hbump, hnext⟩ := hw
  obtain ⟨-, -, hnear, -, -, rfl⟩ := h
  exact ⟨by dsimp only; omega, by dsimp only; omega, hnext⟩

theorem allocate_roomy {r : Request} {slab : Slab} (fuel total : ℕ) (hpow : r.align.isPowerOfTwo)
    (hhead : a.slabs.head? = some slab)
    (hroom : slabHeaderSize + a.bumpOffset + r.align + r.bytes ≤ slab.capacity)
    (hbump : slabHeaderSize + a.bumpOffset + r.align + r.bytes ≤ total)
    (hused : a.bytesUsed + r.bytes ≤ total) (hsize : r.size + r.align ≤ total) :
    Ends (allocate alloc (fuel + 1) r.size r.align) a
      (fun p a' => Bumped a r.bytes r.align p a') fun f _ => Starved alloc total f := by
  rw [allocate, if_neg (not_not.mpr hpow)]
  apply Ends.roundUp_bind ?_ (fun h => starved_overflow h hsize)
  apply Ends.bind (bump_ends total (Nat.pos_of_isPowerOfTwo hpow) hbump hused) ?_ (fun _ _ h => h)
  intro p a' hp
  cases p with
  | some p => exact Ends.ret hp
  | none =>
    have := hp.2 slab (by simp [hhead])
    omega

/-- A new slab has room for its header, the padding in front of the request and
the request: the call that follows does not grow the arena again. -/
theorem grow_allocate {r : Request} {capacity : ℕ} (fuel : ℕ) (hpow : r.align.isPowerOfTwo)
    (hw : Within a total) (hcap : r.bytes + slabHeaderSize + r.align ≤ capacity)
    (hcap' : capacity ≤ r.bytes + slabHeaderSize + r.align + maxSlabSize) :
    Ends (grow alloc capacity >>= fun _ => allocate alloc (fuel + 1) r.size r.align) a
      (fun p a' => Allocated alloc a r p a' ∧ Within a' (total + r.cost))
      fun f _ => Starved alloc (total + r.cost) f := by
  have hpos := Nat.pos_of_isPowerOfTwo hpow
  have hbytes := Request.bytes_bounds hpos
  have hcost : r.cost = maxSlabSize + slabHeaderSize + 2 * r.size + 4 * r.align := rfl
  obtain ⟨htotal, hbump, hnext⟩ := hw
  apply Ends.bind (grow_ends (total + r.cost) (by omega)) ?_ (fun _ _ h => h)
  rintro - grown ⟨base, hbase, hgrown⟩
  have hslabs : grown.slabs = ⟨a.slabs.length, base, capacity⟩ :: a.slabs := by rw [hgrown]
  have hzero : grown.bumpOffset = 0 := by rw [hgrown]
  have hused : grown.bytesUsed = a.bytesUsed := by rw [hgrown]
  have hwithin : Within grown (total + capacity) := by
    rw [hgrown]
    exact ⟨by dsimp only; omega, Nat.zero_le _, Nat.min_le_right _ _⟩
  have hhead : grown.slabs.head? = some ⟨a.slabs.length, base, capacity⟩ := by simp [hslabs]
  apply Ends.mono (allocate_roomy fuel (total + r.cost) hpow hhead (by dsimp only; omega)
    (by omega) (by omega) (by omega)) ?_ (fun _ _ h => h)
  intro p a' hb
  obtain ⟨-, hhead', hstart, hdvd, hstop, hinside⟩ := hb.allocated alloc hpos
  have hslab : p.slab = ⟨a.slabs.length, base, capacity⟩ :=
    Option.some.inj (hb.head.symm.trans hhead)
  have hafter : a'.slabs = grown.slabs := by rw [hb.after]
  refine ⟨⟨.inr ⟨?_, ?_, ?_⟩, hhead', hstart, hdvd, hstop, hinside⟩,
    (hb.within hwithin).mono (by omega)⟩
  · rw [hafter, hslabs, hslab]
  · rw [hslab]
  · rw [hslab]
    exact hbase

theorem allocate_ends {r : Request} (fuel : ℕ) (hpow : r.align.isPowerOfTwo)
    (hw : Within a total) :
    Ends (allocate alloc (fuel + 2) r.size r.align) a
      (fun p a' => Allocated alloc a r p a' ∧ Within a' (total + r.cost))
      fun f _ => Starved alloc (total + r.cost) f := by
  have hpos := Nat.pos_of_isPowerOfTwo hpow
  have hbytes := Request.bytes_bounds hpos
  have hcost : r.cost = maxSlabSize + slabHeaderSize + 2 * r.size + 4 * r.align := rfl
  have htotal := hw.bytes
  have hbump := hw.bump
  rw [allocate, if_neg (not_not.mpr hpow)]
  apply Ends.roundUp_bind ?_ (fun h => starved_overflow h (by omega))
  dsimp only
  rw [show max (roundedUp r.size r.align) 1 = r.bytes from rfl]
  apply Ends.bind (bump_ends (total + r.cost) hpos (by omega) (by omega)) ?_
    (fun _ _ h => h)
  intro p a' hp
  cases p with
  | some p =>
    have hb : Bumped a r.bytes r.align p a' := hp
    exact Ends.ret ⟨hb.allocated alloc hpos, (hb.within hw).mono (by omega)⟩
  | none =>
    obtain ⟨rfl, -⟩ := hp
    apply Ends.read_bind
    apply Ends.addU64_bind ?_ (fun h => starved_overflow h (by omega))
    intro _
    apply Ends.addU64_bind ?_ (fun h => starved_overflow h (by omega))
    intro _
    rw [min_eq_left (Nat.le_max_right _ _)]
    have hnext := hw.next
    exact grow_allocate fuel hpow hw (by omega) (by omega)

end Call

/-! ### Every sequence of calls -/

/-- What holds between the calls: every range handed out is in a slab and ends
below the bump pointer if that slab is the head. -/
structure Holding (alloc : GlobalAlloc) (a : Arena) (served : List Served) : Prop where
  index : ∀ s ∈ a.slabs, s.index < a.slabs.length
  distinct : a.slabs.Pairwise fun s t => s.index ≠ t.index
  base : ∀ s ∈ a.slabs, alloc s.index s.capacity = some s.base
  inside : ∀ c ∈ served, c.Inside a
  below : ∀ c ∈ served, ∀ s ∈ a.slabs.head?, c.ptr.slab.index = s.index →
    c.ptr.offset + c.request.size ≤ slabHeaderSize + a.bumpOffset
  aligned : ∀ c ∈ served, c.request.align ∣ c.ptr.offset
  grown : ∀ c ∈ served, c.grown ≤ 1
  apart : served.Pairwise Served.Apart

theorem holding_new (alloc : GlobalAlloc) : Holding alloc Arena.new [] := by
  constructor <;> simp [Arena.new]

section Steps
variable {alloc : GlobalAlloc} {a a' : Arena} {r : Request} {p : Ptr} {served : List Served}

theorem Allocated.mem_slabs (h : Allocated alloc a r p a') {s : Slab} (hs : s ∈ a.slabs) :
    s ∈ a'.slabs := by
  rcases h.slabs with ⟨hsame, -⟩ | ⟨hnew, -⟩
  · rwa [hsame]
  · rw [hnew]
    exact List.mem_cons_of_mem _ hs

theorem Allocated.grown (h : Allocated alloc a r p a') :
    a'.slabs.length - a.slabs.length ≤ 1 := by
  rcases h.slabs with ⟨hsame, -⟩ | ⟨hnew, -⟩
  · simp [hsame]
  · simp [hnew]

theorem Allocated.slab_mem (h : Allocated alloc a r p a') : p.slab ∈ a'.slabs :=
  List.mem_of_mem_head? h.head

theorem Allocated.above (h : Allocated alloc a r p a') (hold : Holding alloc a served)
    {c : Served} (hc : c ∈ served) (hslab : c.ptr.slab.index = p.slab.index) :
    c.ptr.offset + c.request.size ≤ p.offset := by
  rcases h.slabs with ⟨hsame, habove⟩ | ⟨-, hindex, -⟩
  · have hhead : p.slab ∈ a.slabs.head? := by
      rw [← hsame]
      exact h.head
    exact (hold.below c hc p.slab hhead hslab).trans habove
  · have hlt := hold.index _ (hold.inside c hc).1
    omega

theorem Holding.allocate (hold : Holding alloc a served) (h : Allocated alloc a r p a') :
    Holding alloc a' (⟨r, p, a'.slabs.length - a.slabs.length⟩ :: served) := by
  have hstop := h.stop
  have hinside := h.inside
  constructor
  case index =>
    rcases h.slabs with ⟨hsame, -⟩ | ⟨hnew, hindex, -⟩
    · rw [hsame]
      exact hold.index
    · rw [hnew]
      intro s hs
      rcases List.mem_cons.mp hs with rfl | hs
      · simp [hindex]
      · have := hold.index s hs
        simp only [List.length_cons]
        omega
  case distinct =>
    rcases h.slabs with ⟨hsame, -⟩ | ⟨hnew, hindex, -⟩
    · rw [hsame]
      exact hold.distinct
    · rw [hnew]
      apply List.Pairwise.cons ?_ hold.distinct
      intro s hs
      have := hold.index s hs
      omega
  case base =>
    rcases h.slabs with ⟨hsame, -⟩ | ⟨hnew, -, hbase⟩
    · rw [hsame]
      exact hold.base
    · rw [hnew]
      intro s hs
      rcases List.mem_cons.mp hs with rfl | hs
      · exact hbase
      · exact hold.base s hs
  case inside =>
    intro c hc
    rcases List.mem_cons.mp hc with rfl | hc
    · exact ⟨h.slab_mem, h.start, hstop.trans hinside⟩
    · obtain ⟨hmem, hrest⟩ := hold.inside c hc
      exact ⟨h.mem_slabs hmem, hrest⟩
  case below =>
    intro c hc s hs hindex
    obtain rfl : p.slab = s := by
      rw [h.head] at hs
      simpa using hs
    rcases List.mem_cons.mp hc with rfl | hc
    · exact hstop
    · have := h.above hold hc hindex
      omega
  case aligned =>
    intro c hc
    rcases List.mem_cons.mp hc with rfl | hc
    · exact h.aligned
    · exact hold.aligned c hc
  case grown =>
    intro c hc
    rcases List.mem_cons.mp hc with rfl | hc
    · exact h.grown
    · exact hold.grown c hc
  case apart =>
    apply List.Pairwise.cons ?_ hold.apart
    intro c hc
    by_cases hslab : c.ptr.slab.index = p.slab.index
    · exact .inr (.inr (h.above hold hc hslab))
    · exact .inl (fun heq => hslab heq.symm)

theorem Holding.of_reverse (hold : Holding alloc a served.reverse) : Holding alloc a served := by
  obtain ⟨hindex, hdistinct, hbase, hinside, hbelow, haligned, hgrown, hapart⟩ := hold
  simp only [List.mem_reverse] at hinside hbelow haligned hgrown
  exact ⟨hindex, hdistinct, hbase, hinside, hbelow, haligned, hgrown,
    (List.pairwise_reverse.mp hapart).imp Served.Apart.symm⟩

theorem allocateAll_ends {rs : List Request} {total : ℕ} (fuel : ℕ)
    (hpow : ∀ r ∈ rs, r.align.isPowerOfTwo) (hold : Holding alloc a served)
    (hw : Within a total) :
    Ends (allocateAll alloc (fuel + 2) rs) a
      (fun more a' => more.map Served.request = rs ∧ Holding alloc a' (more.reverse ++ served))
      fun f _ => Starved alloc (total + demand rs) f := by
  induction rs generalizing a served total with
  | nil =>
    apply Ends.ret
    exact ⟨rfl, hold⟩
  | cons r rs ih =>
    have hdemand : demand (r :: rs) = r.cost + demand rs := by simp [demand]
    rw [allocateAll]
    apply Ends.read_bind
    apply Ends.bind (allocate_ends fuel (hpow r (List.mem_cons_self ..)) hw)
    · rintro p a' ⟨hp, hw'⟩
      apply Ends.read_bind
      have hrest := ih (fun r hr => hpow r (List.mem_cons_of_mem _ hr)) (hold.allocate hp) hw'
      apply Ends.bind hrest
      · rintro more a'' ⟨hmap, hold'⟩
        apply Ends.ret
        apply And.intro
        · simp [hmap]
        · simpa using hold'
      · intro f _ hf
        rw [hdemand, ← Nat.add_assoc]
        exact hf
    · intro f _ hf
      exact hf.mono (by omega)

theorem Holding.addresses (hold : Holding alloc a served)
    (hapart : a.slabs.Pairwise Slab.Apart) : served.Pairwise Served.AddressesApart := by
  apply hold.apart.imp_of_mem
  intro c d hc hd hcd
  obtain ⟨hcmem, -, hcin⟩ := hold.inside c hc
  obtain ⟨hdmem, -, hdin⟩ := hold.inside d hd
  unfold Served.AddressesApart Ptr.address
  by_cases hslab : c.ptr.slab = d.ptr.slab
  · rcases hcd with hne | hcd
    · exact absurd (congrArg Slab.index hslab) hne
    · rw [hslab]
      omega
  · have hst := hapart.forall hcmem hdmem hslab
    unfold Slab.Apart at hst
    omega

theorem Holding.dvd_address_iff (hold : Holding alloc a served) {c : Served} (hc : c ∈ served) :
    c.request.align ∣ c.ptr.address ↔ c.request.align ∣ c.ptr.slab.base :=
  (Nat.dvd_add_iff_left (hold.aligned c hc)).symm

theorem Holding.dvd_address (hold : Holding alloc a served) {c : Served} (hc : c ∈ served)
    (hbases : ∀ n size base, alloc n size = some base → defaultAlign ∣ base)
    (hpow : c.request.align.isPowerOfTwo) (hsmall : c.request.align ≤ defaultAlign) :
    c.request.align ∣ c.ptr.address := by
  obtain ⟨k, hk⟩ := hpow
  have hk3 : k ≤ 3 := by
    rw [hk] at hsmall
    exact (Nat.pow_le_pow_iff_right (by decide)).mp (hsmall : 2 ^ k ≤ 2 ^ 3)
  have hdvd : c.request.align ∣ defaultAlign := by
    rw [hk]
    exact Nat.pow_dvd_pow 2 hk3
  have hbase := hold.base _ (hold.inside c hc).1
  exact (hold.dvd_address_iff hc).mpr (hdvd.trans (hbases _ _ _ hbase))

end Steps

theorem allocateAll_new (alloc : GlobalAlloc) (fuel : ℕ) {rs : List Request}
    (hpow : ∀ r ∈ rs, r.align.isPowerOfTwo) :
    Ends (allocateAll alloc (fuel + 2) rs) Arena.new
      (fun served a => served.map Served.request = rs ∧ Holding alloc a served)
      fun f _ => Starved alloc (demand rs) f := by
  have hwithin : Within Arena.new 0 := by constructor <;> decide
  apply Ends.mono (allocateAll_ends fuel hpow (holding_new alloc) hwithin)
  · rintro served a ⟨hmap, hold⟩
    rw [List.append_nil] at hold
    exact ⟨hmap, hold.of_reverse⟩
  · intro f _ hf
    simpa using hf

/-- Every call of every sequence returns after at most one new slab, unless the
sizes leave the address space or memory runs out. The ranges are inside their
slabs and pairwise disjoint, in memory too if the allocator's blocks are. -/
theorem allocations_disjoint (alloc : GlobalAlloc) (fuel : ℕ) {rs : List Request}
    (hpow : ∀ r ∈ rs, r.align.isPowerOfTwo) :
    Ends (allocateAll alloc (fuel + 2) rs) Arena.new
      (fun served a => served.map Served.request = rs ∧
        (∀ c ∈ served, c.grown ≤ 1 ∧ c.Inside a) ∧
        served.Pairwise Served.Apart ∧
        (a.slabs.Pairwise Slab.Apart → served.Pairwise Served.AddressesApart))
      fun f _ => Starved alloc (demand rs) f := by
  apply Ends.mono (allocateAll_new alloc fuel hpow) ?_ (fun _ _ hf => hf)
  rintro served a ⟨hmap, hold⟩
  refine ⟨hmap, ?_, hold.apart, hold.addresses⟩
  intro c hc
  exact ⟨hold.grown c hc, hold.inside c hc⟩

/-- Three requests, the last with a slab of its own. -/
theorem allocations_disjoint_three :
    (∀ r ∈ [Request.mk 20 8, ⟨0, 1⟩, ⟨5000000, 64⟩], r.align.isPowerOfTwo) ∧
      ∃ served a, allocateAll (fun n _ => some (n * 2 ^ 40)) 2
          [⟨20, 8⟩, ⟨0, 1⟩, ⟨5000000, 64⟩] Arena.new = .ok served a ∧
        served.map (fun c => (c.ptr.address, c.grown)) = [(16, 1), (40, 0), (2 ^ 40 + 64, 1)] ∧
        served.Pairwise Served.Apart := by
  have hpow : ∀ r ∈ [Request.mk 20 8, ⟨0, 1⟩, ⟨5000000, 64⟩], r.align.isPowerOfTwo := by
    decide
  apply And.intro hpow
  have hends := allocations_disjoint (fun n _ => some (n * 2 ^ 40)) 0 hpow
  exact ⟨_, _, rfl, by decide, (hends.of_ok rfl).2.2.1⟩

/-- The offset is a multiple of the alignment, so the address is one exactly if
the address of the slab is. The allocator only promises `DEFAULT_ALIGN` there. -/
theorem address_aligned_iff (alloc : GlobalAlloc) (fuel : ℕ) {rs : List Request}
    (hpow : ∀ r ∈ rs, r.align.isPowerOfTwo)
    (hbases : ∀ n size base, alloc n size = some base → defaultAlign ∣ base) :
    Ends (allocateAll alloc (fuel + 2) rs) Arena.new
      (fun served _ => served.map Served.request = rs ∧ ∀ c ∈ served,
        alloc c.ptr.slab.index c.ptr.slab.capacity = some c.ptr.slab.base ∧
        (c.request.align ∣ c.ptr.address ↔ c.request.align ∣ c.ptr.slab.base) ∧
        (c.request.align ≤ defaultAlign → c.request.align ∣ c.ptr.address))
      fun f _ => Starved alloc (demand rs) f := by
  apply Ends.mono (allocateAll_new alloc fuel hpow) ?_ (fun _ _ hf => hf)
  rintro served a ⟨hmap, hold⟩
  apply And.intro hmap
  intro c hc
  have hreq : c.request ∈ rs := by
    rw [← hmap]
    exact List.mem_map_of_mem hc
  exact ⟨hold.base _ (hold.inside c hc).1, hold.dvd_address_iff hc,
    hold.dvd_address hc hbases (hpow c.request hreq)⟩

theorem address_aligned_at_page :
    (∀ r ∈ [Request.mk 1 16], r.align.isPowerOfTwo) ∧
      (∀ n size base, (fun _ _ => some 4096 : GlobalAlloc) n size = some base →
        defaultAlign ∣ base) ∧
      ∃ c a, allocateAll (fun _ _ => some 4096) 2 [⟨1, 16⟩] Arena.new = .ok [c] a ∧
        (c.request.align ∣ c.ptr.address ↔ c.request.align ∣ c.ptr.slab.base) := by
  have hpow : ∀ r ∈ [Request.mk 1 16], r.align.isPowerOfTwo := by decide
  have hbases : ∀ n size base, (fun _ _ => some 4096 : GlobalAlloc) n size = some base →
      defaultAlign ∣ base := by
    intro n size base h
    cases h
    decide
  have hends := address_aligned_iff (fun _ _ => some 4096) 0 hpow hbases
  refine ⟨hpow, hbases, _, _, rfl, ?_⟩
  exact ((hends.of_ok rfl).2 _ (List.mem_singleton_self _)).2.1

/-- A slab at 4104 and a request for 16-byte alignment: the address is 4120. -/
theorem address_misaligned :
    defaultAlign ∣ 4104 ∧ ∃ c a,
      allocateAll (fun _ _ => some 4104) 2 [⟨1, 16⟩] Arena.new = .ok [c] a ∧
        c.ptr.address = 4120 ∧ ¬ c.request.align ∣ c.ptr.address := by
  refine ⟨by decide, _, _, rfl, by decide, by decide⟩

end Arena

end PaddockKV
