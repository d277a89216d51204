import PaddockKV.Vfs.Trait

/-!
# Backends refine the file layer

What a backend has to do for the paths of one directory is said in `Hosting`, over
the files it keeps by name and by handle. Such a backend answers every proper list
of calls as the model's file layer does.
-/

namespace PaddockKV.Vfs

open Io

/-- Names the engine takes for its own. -/
def Numbered (name : Str) : Prop :=
  (parseWalSegmentName name).isSome = true ∨ (parseSstName name).isSome = true

theorem numbered_baseName {name : FileName} (h : Engine.number name < u64Size) :
    Numbered (baseName name) := by
  unfold Numbered
  rw [parseWalSegmentName_baseName h, parseSstName_baseName h]
  cases name with
  | wal id => exact .inl rfl
  | sst id => exact .inr rfl

/-! ### Calls of the model that succeed -/

section Served

variable {c : Client} {name : FileName} (hfaults : c.world.faults = [])
include hfaults

theorem Client.openWritable_served : c.step (.openWritable name) =
    ({ c with world := c.world.call (.openWritable name) }, .done) := by
  simp only [Client.step, Client.call, openWritable_nil name hfaults]
  rfl

theorem Client.append_served {data : Bytes} : c.step (.append name data) =
    ({ c with world := c.world.call (.append name data) }, .done) := by
  simp only [Client.step, Client.call, append_nil name data hfaults]
  rfl

theorem Client.sync_served : c.step (.sync name) =
    ({ c with world := c.world.call (.sync name) }, .done) := by
  simp only [Client.step, Client.call, Io.sync, perform_nil _ _ _ hfaults]
  rfl

theorem Client.remove_served : c.step (.remove name) =
    ({ c with world := c.world.call (.remove name) }, .done) := by
  simp only [Client.step, Client.call, Io.remove, perform_nil _ _ _ hfaults]
  rfl

theorem Client.writeAt_served {data : Bytes} {offset : ℕ} {f : File}
    (hdisk : c.world.disk name = some f) (hle : offset + data.length ≤ f.bytes.length) :
    c.step (.writeAt name data offset) =
      ({ c with world := c.world.call (.writeAt name data offset) }, .done) := by
  have hwrite : Io.writeAt name data offset c.world =
      .ok () (c.world.call (.writeAt name data offset)) := by
    unfold Io.writeAt
    rw [act_bind, act_get]
    simp only [hdisk, if_neg (not_lt.mpr hle)]
    exact perform_nil _ _ _ hfaults
  simp only [Client.step, Client.call, hwrite]
  rfl

theorem Client.list_served : c.step .list = (c, .ofNames c.world.list) := by
  have hio : Io.list c.world = .ok c.world.list c.world := by
    unfold Io.list
    rw [act_bind, perform_nil _ _ _ hfaults]
    rfl
  simp only [Client.step, Client.call, hio]
  rfl

end Served

/-! ### What a backend has to do -/

/-- The backend keeps files under `key` of their names, and its calls on the paths in
`dir` are what they are called. -/
structure Hosting {σ K : Type} [DecidableEq K] (V : Vfs σ) (dir : Str) (view : σ → Inodes K Bytes)
    (key : Str → K) (Inv : σ → Prop) : Prop where
  key_inj : ∀ a b, Numbered a → Numbered b → key a = key b → a = b
  openWritable : ∀ s name, Inv s → Engine.number name < u64Size → ∃ s',
    V.openWritable (pathOf dir name) s = .ok (((view s).create (key (baseName name)) []).1, s') ∧
      view s' = ((view s).create (key (baseName name)) []).2 ∧ Inv s'
  openReadonly : ∀ s name i, Inv s → Engine.number name < u64Size →
    (view s).find (key (baseName name)) = some i → V.openReadonly (pathOf dir name) s = .ok i
  missing : ∀ s name, Inv s → Engine.number name < u64Size →
    (view s).find (key (baseName name)) = none →
      ∃ msg, V.openReadonly (pathOf dir name) s = .error (.err (.io .notFound msg))
  remove : ∀ s name, Inv s → Engine.number name < u64Size → ∃ s',
    V.remove (pathOf dir name) s = .ok s' ∧
      view s' = (view s).unlink (key (baseName name)) ∧ Inv s'
  append : ∀ s i data, Inv s → i < (view s).blobs.length → ∃ n s', V.append i data s = .ok (n, s') ∧
    view s' = (view s).change i (· ++ data) ∧ Inv s'
  writeAt : ∀ s i data offset bytes, Inv s → (view s).blob i = some bytes →
    offset + data.length ≤ bytes.length → offset + data.length < 2 ^ 63 →
      ∃ s', V.writeAt i data offset s = .ok s' ∧
        view s' = (view s).change i (overwrite · data offset) ∧ Inv s'
  sync : ∀ s i, Inv s → i < (view s).blobs.length →
    ∃ s', V.sync i s = .ok s' ∧ view s' = view s ∧ Inv s'
  readAt : ∀ s i offset len bytes, Inv s → (view s).blob i = some bytes → offset + len < 2 ^ 63 →
    (len = 0 → offset ≤ bytes.length) →
      Answer.ofRes (V.readAt i offset len s) .bytes =
        Answer.ofRes (Io.readAt bytes offset len) .bytes
  size : ∀ s i bytes, Inv s → (view s).blob i = some bytes → V.size i s = .ok bytes.length
  list : ∀ s, Inv s → ∃ names, V.list dir s = .ok names ∧ names.Nodup ∧
    ∀ str, Numbered str → (str ∈ names ↔ ((view s).find (key str)).isSome = true)

section

variable {σ K : Type} [DecidableEq K] {V : Vfs σ} {dir : Str} {view : σ → Inodes K Bytes}
  {key : Str → K} {Inv : σ → Prop} {owner : ℕ → K} {c : Client} {h : Host σ} {name : FileName}

/-- A reader of the model and the handle behind it. -/
def ReadsAs (key : Str → K) (owner : ℕ → K) (m : Inodes K Bytes) (r : FileName × Bytes)
    (i : ℕ) : Prop :=
  m.blob i = some r.2 ∧ owner i = key (baseName r.1) ∧ Engine.number r.1 < u64Size

/-- The handle the engine writes a file through. -/
structure WritesAs (key : Str → K) (owner : ℕ → K) (m : Inodes K Bytes) (name : FileName)
    (i : ℕ) : Prop where
  small : Engine.number name < u64Size
  lt : i < m.blobs.length
  own : owner i = key (baseName name)
  current : ∀ j, m.find (key (baseName name)) = some j → j = i

structure Sim (view : σ → Inodes K Bytes) (key : Str → K) (Inv : σ → Prop) (owner : ℕ → K)
    (c : Client) (h : Host σ) : Prop where
  inv : Inv h.fs
  faults : c.world.faults = []
  owned : (view h.fs).Owned owner
  disk : ∀ name, Engine.number name < u64Size →
    (view h.fs).content (key (baseName name)) = (c.world.disk name).map File.bytes
  writers : ∀ name ∈ c.world.log.filterMap opened,
    ∃ i, h.writers name = some i ∧ WritesAs key owner (view h.fs) name i
  readers : List.Forall₂ (ReadsAs key owner (view h.fs)) c.readers h.readers
  canonical : ∀ str, Numbered str → ((view h.fs).find (key str)).isSome = true →
    ∃ name, str = baseName name ∧ Engine.number name < u64Size

/-- Related states, whoever owns the files. -/
def Related (view : σ → Inodes K Bytes) (key : Str → K) (Inv : σ → Prop) (c : Client)
    (h : Host σ) : Prop := ∃ owner, Sim view key Inv owner c h

/-- A step of both machines. -/
def Matches (view : σ → Inodes K Bytes) (key : Str → K) (Inv : σ → Prop) (x : Client × Answer)
    (y : Host σ × Answer) : Prop := x.2 = y.2 ∧ Related view key Inv x.1 y.1

theorem Hosting.key_ne (hV : Hosting V dir view key Inv) {a b : FileName}
    (ha : Engine.number a < u64Size) (hb : Engine.number b < u64Size) (hne : a ≠ b) :
    key (baseName a) ≠ key (baseName b) := by
  intro heq
  exact hne (baseName_injective
    (hV.key_inj _ _ (numbered_baseName ha) (numbered_baseName hb) heq))

/-! ### Writing -/

theorem Sim.changed (hV : Hosting V dir view key Inv) (hsim : Sim view key Inv owner c h)
    {i : ℕ} {f : Bytes → Bytes} {s' : σ} {c' : Client} (hw : WritesAs key owner (view h.fs) name i)
    (hinv : Inv s') (hview : view s' = (view h.fs).change i f)
    (hreaders : c'.readers = c.readers) (hfree : ∀ r ∈ c.readers, r.1 ≠ name)
    (hopened : c'.world.log.filterMap opened = c.world.log.filterMap opened)
    (hfaults : c'.world.faults = [])
    (hdisk : ∀ n, (c'.world.disk n).map File.bytes =
      if n = name then ((c.world.disk name).map File.bytes).map f
      else (c.world.disk n).map File.bytes) :
    Sim view key Inv owner c' { h with fs := s' } := by
  have hcontent := hsim.owned.content_change hw.own hw.current
  have hlen : (view s').blobs.length = (view h.fs).blobs.length := by
    rw [hview]
    exact List.length_modify _ _ _
  constructor
  case inv => exact hinv
  case faults => exact hfaults
  case owned =>
    show (view s').Owned owner
    rw [hview]
    exact hsim.owned.change i f
  case disk =>
    intro n hn
    show (view s').content _ = _
    rw [hview, hcontent, hdisk, hsim.disk n hn, hsim.disk name hw.small]
    by_cases heq : n = name
    · rw [if_pos heq, if_pos (by rw [heq])]
    · rw [if_neg heq, if_neg (hV.key_ne hn hw.small heq)]
  case writers =>
    rw [hopened]
    intro n hn
    obtain ⟨j, hj, hwj⟩ := hsim.writers n hn
    refine ⟨j, hj, hwj.small, ?_, hwj.own, ?_⟩
    · show j < (view s').blobs.length
      rw [hlen]
      exact hwj.lt
    · show ∀ l, (view s').find _ = some l → l = j
      rw [hview]
      exact hwj.current
  case readers =>
    rw [hreaders]
    refine ((List.forall₂_and_left _ _).mpr ⟨hfree, hsim.readers⟩).imp ?_
    rintro r j ⟨hr, hblob, hown, hsmall⟩
    refine ⟨?_, hown, hsmall⟩
    -- the file belongs to another name
    have hne : i ≠ j := by
      intro heq
      refine hV.key_ne hsmall hw.small hr ?_
      rw [← hown, ← hw.own, heq]
    rw [hview, Inodes.blob_change, if_neg hne]
    exact hblob
  case canonical =>
    show ∀ str, Numbered str → ((view s').find (key str)).isSome = true → _
    rw [hview]
    exact hsim.canonical

theorem Sim.same (hsim : Sim view key Inv owner c h) {s' : σ} {c' : Client} (hinv : Inv s')
    (hview : view s' = view h.fs) (hreaders : c'.readers = c.readers)
    (hopened : c'.world.log.filterMap opened = c.world.log.filterMap opened)
    (hfaults : c'.world.faults = [])
    (hdisk : ∀ n, (c'.world.disk n).map File.bytes = (c.world.disk n).map File.bytes) :
    Sim view key Inv owner c' { h with fs := s' } := by
  refine ⟨hinv, hfaults, ?_, ?_, ?_, ?_, ?_⟩
  · show (view s').Owned owner
    rw [hview]
    exact hsim.owned
  · intro n hn
    show (view s').content _ = _
    rw [hview, hdisk]
    exact hsim.disk n hn
  · show ∀ n ∈ _, ∃ i, h.writers n = some i ∧ WritesAs key owner (view s') n i
    rw [hview, hopened]
    exact hsim.writers
  · show List.Forall₂ (ReadsAs key owner (view s')) c'.readers h.readers
    rw [hview, hreaders]
    exact hsim.readers
  · show ∀ str, Numbered str → ((view s').find (key str)).isSome = true → _
    rw [hview]
    exact hsim.canonical

theorem Sim.append (hV : Hosting V dir view key Inv) (hsim : Sim view key Inv owner c h)
    {data : Bytes} (hok : Proper c (.append name data)) :
    Matches view key Inv (c.step (.append name data)) (h.step V dir (.append name data)) := by
  obtain ⟨hopened, hfree⟩ := hok
  obtain ⟨i, hi, hw⟩ := hsim.writers name hopened
  obtain ⟨n, s', hcall, hview, hinv⟩ := hV.append h.fs i data hsim.inv hw.lt
  have hhost : h.step V dir (.append name data) = ({ h with fs := s' }, .done) := by
    simp only [Host.step, hi, hcall]
  rw [Client.append_served hsim.faults, hhost]
  refine ⟨rfl, owner, hsim.changed hV hw hinv hview rfl hfree rfl hsim.faults ?_⟩
  intro n
  rw [World.disk_call, Disk.apply]
  by_cases heq : n = name
  · rw [heq, Function.update_self, if_pos rfl, Option.map_map, Option.map_map]
    rfl
  · rw [Function.update_of_ne heq, if_neg heq]

theorem Sim.writeAt (hV : Hosting V dir view key Inv) (hsim : Sim view key Inv owner c h)
    {data : Bytes} {offset : ℕ} (hok : Proper c (.writeAt name data offset)) :
    Matches view key Inv (c.step (.writeAt name data offset))
      (h.step V dir (.writeAt name data offset)) := by
  obtain ⟨⟨f, hf, hle⟩, hlt, hfree⟩ := hok
  have hdisk : c.world.disk name = some f := hf
  have hopened : name ∈ c.world.log.filterMap opened :=
    opened_of_isSome (by rw [show diskOf c.world.log name = some f from hdisk]; rfl)
  obtain ⟨i, hi, hw⟩ := hsim.writers name hopened
  have hblob : (view h.fs).blob i = some f.bytes := by
    have hcontent := hsim.disk name hw.small
    rw [hdisk, Option.map_some, Inodes.content, Option.bind_eq_some_iff] at hcontent
    obtain ⟨j, hj, hblob⟩ := hcontent
    rwa [hw.current j hj] at hblob
  obtain ⟨s', hcall, hview, hinv⟩ := hV.writeAt h.fs i data offset f.bytes hsim.inv hblob hle hlt
  have hhost : h.step V dir (.writeAt name data offset) = ({ h with fs := s' }, .done) := by
    simp only [Host.step, hi, hcall]
  rw [Client.writeAt_served hsim.faults hdisk hle, hhost]
  refine ⟨rfl, owner, hsim.changed hV hw hinv hview rfl hfree rfl hsim.faults ?_⟩
  intro n
  rw [World.disk_call, Disk.apply]
  by_cases heq : n = name
  · rw [heq, Function.update_self, if_pos rfl, Option.map_map, Option.map_map]
    rfl
  · rw [Function.update_of_ne heq, if_neg heq]

theorem Sim.sync (hV : Hosting V dir view key Inv) (hsim : Sim view key Inv owner c h)
    (hok : Proper c (.sync name)) :
    Matches view key Inv (c.step (.sync name)) (h.step V dir (.sync name)) := by
  obtain ⟨i, hi, hw⟩ := hsim.writers name hok
  obtain ⟨s', hcall, hview, hinv⟩ := hV.sync h.fs i hsim.inv hw.lt
  have hhost : h.step V dir (.sync name) = ({ h with fs := s' }, .done) := by
    simp only [Host.step, hi, hcall]
  rw [Client.sync_served hsim.faults, hhost]
  refine ⟨rfl, owner, hsim.same hinv hview rfl rfl hsim.faults ?_⟩
  intro n
  rw [World.disk_call, Disk.apply]
  by_cases heq : n = name
  · rw [heq, Function.update_self, Option.map_map]
    rfl
  · rw [Function.update_of_ne heq]

/-! ### Names -/

theorem Sim.openWritable (hV : Hosting V dir view key Inv) (hsim : Sim view key Inv owner c h)
    (hok : Proper c (.openWritable name)) :
    Matches view key Inv (c.step (.openWritable name)) (h.step V dir (.openWritable name)) := by
  have hsmall : Engine.number name < u64Size := hok
  obtain ⟨s', hcall, hview, hinv⟩ := hV.openWritable h.fs name hsim.inv hsmall
  have hhost : h.step V dir (.openWritable name) = ({ h with
      fs := s'
      writers := Function.update h.writers name
        (some ((view h.fs).create (key (baseName name)) []).1) }, .done) := by
    simp only [Host.step, hcall]
  rw [Client.openWritable_served hsim.faults, hhost]
  have hfind := Inodes.find_create (view h.fs) (key (baseName name))
  refine ⟨rfl, Inodes.newOwner owner (view h.fs) (key (baseName name)), ?_⟩
  constructor
  case inv => exact hinv
  case faults => exact hsim.faults
  case owned =>
    show (view s').Owned _
    rw [hview]
    exact hsim.owned.create _ _
  case disk =>
    intro n hn
    show (view s').content _ = _
    rw [hview, hsim.owned.content_create, hsim.disk name hsmall, hsim.disk n hn, World.disk_call,
      Disk.apply]
    by_cases heq : n = name
    · rw [heq, if_pos rfl, Function.update_self]
      cases c.world.disk name <;> rfl
    · rw [if_neg (hV.key_ne hn hsmall heq), Function.update_of_ne heq]
  case writers =>
    intro n hn
    rw [World.call, List.filterMap_cons_some (show opened (.openWritable name) = some name from rfl),
      List.mem_cons] at hn
    show ∃ i, Function.update h.writers name _ n = some i ∧ WritesAs key _ (view s') n i
    rw [hview]
    by_cases heq : n = name
    · rw [heq, Function.update_self]
      obtain ⟨hlt, hown⟩ := hsim.owned.created (key (baseName name)) []
      refine ⟨_, rfl, hsmall, hlt, hown, ?_⟩
      intro j hj
      rw [hfind, if_pos rfl] at hj
      exact (Option.some.inj hj).symm
    · obtain ⟨i, hi, hw⟩ := hsim.writers n (hn.resolve_left heq)
      rw [Function.update_of_ne heq]
      refine ⟨i, hi, hw.small, hw.lt.trans_le (Inodes.length_le_create _ _ _),
        (Inodes.newOwner_of_lt hw.lt).trans hw.own, ?_⟩
      rw [hfind, if_neg (hV.key_ne hw.small hsmall heq)]
      exact hw.current
  case readers =>
    show List.Forall₂ (ReadsAs key _ (view s')) c.readers h.readers
    rw [hview]
    refine hsim.readers.imp ?_
    rintro r i ⟨hblob, hown, hr⟩
    have hlt : i < (view h.fs).blobs.length := (List.getElem?_eq_some_iff.mp hblob).1
    refine ⟨?_, (Inodes.newOwner_of_lt hlt).trans hown, hr⟩
    rw [Inodes.blob_create_of_lt _ _ _ hlt]
    exact hblob
  case canonical =>
    show ∀ str, Numbered str → ((view s').find (key str)).isSome = true → _
    rw [hview]
    intro str hstr hsome
    rw [hfind] at hsome
    by_cases heq : key str = key (baseName name)
    · exact ⟨name, hV.key_inj _ _ hstr (numbered_baseName hsmall) heq, hsmall⟩
    · rw [if_neg heq] at hsome
      exact hsim.canonical str hstr hsome

theorem Sim.remove (hV : Hosting V dir view key Inv) (hsim : Sim view key Inv owner c h)
    (hok : Proper c (.remove name)) :
    Matches view key Inv (c.step (.remove name)) (h.step V dir (.remove name)) := by
  have hsmall : Engine.number name < u64Size := hok
  obtain ⟨s', hcall, hview, hinv⟩ := hV.remove h.fs name hsim.inv hsmall
  have hhost : h.step V dir (.remove name) = ({ h with fs := s' }, .done) := by
    simp only [Host.step, hcall]
  rw [Client.remove_served hsim.faults, hhost]
  have hfind := Inodes.find_unlink (view h.fs) (key (baseName name))
  refine ⟨rfl, owner, ?_⟩
  constructor
  case inv => exact hinv
  case faults => exact hsim.faults
  case owned =>
    show (view s').Owned owner
    rw [hview]
    exact hsim.owned.unlink _
  case disk =>
    intro n hn
    show (view s').content _ = _
    rw [hview, Inodes.content_unlink, hsim.disk n hn, World.disk_call, Disk.apply]
    by_cases heq : n = name
    · rw [heq, if_pos rfl, Function.update_self]
      rfl
    · rw [if_neg (hV.key_ne hn hsmall heq), Function.update_of_ne heq]
  case writers =>
    intro n hn
    obtain ⟨i, hi, hw⟩ := hsim.writers n hn
    refine ⟨i, hi, ?_⟩
    show WritesAs key owner (view s') n i
    rw [hview]
    refine ⟨hw.small, hw.lt, hw.own, ?_⟩
    intro j hj
    rw [hfind] at hj
    split at hj
    · cases hj
    · exact hw.current j hj
  case readers =>
    show List.Forall₂ (ReadsAs key owner (view s')) c.readers h.readers
    rw [hview]
    exact hsim.readers
  case canonical =>
    show ∀ str, Numbered str → ((view s').find (key str)).isSome = true → _
    rw [hview]
    intro str hstr hsome
    rw [hfind] at hsome
    split at hsome
    · cases hsome
    · exact hsim.canonical str hstr hsome

/-! ### Reading -/

theorem openReadonly_nil {w : World} (hfaults : w.faults = []) (name : FileName) :
    Io.openReadonly name w = match w.disk name with
      | none => .error (.err (.io .notFound "missing file")) w
      | some f => .ok f.bytes w := by
  unfold Io.openReadonly
  rw [act_bind, perform_nil _ _ _ hfaults]
  simp only [id, act_bind, act_get]
  cases w.disk name <;> rfl

theorem Sim.openReadonly (hV : Hosting V dir view key Inv) (hsim : Sim view key Inv owner c h)
    (hok : Proper c (.openReadonly name)) :
    Matches view key Inv (c.step (.openReadonly name)) (h.step V dir (.openReadonly name)) := by
  have hsmall : Engine.number name < u64Size := hok
  have hdisk := hsim.disk name hsmall
  have hopen := openReadonly_nil hsim.faults name
  cases hd : c.world.disk name with
  | none =>
    rw [hd] at hdisk hopen
    have hnone : (view h.fs).find (key (baseName name)) = none := by
      cases hf : (view h.fs).find (key (baseName name)) with
      | none => rfl
      | some i =>
        -- a name that leads to no file
        have hlt := (hsim.owned _ i hf).1
        rw [Inodes.content, hf, Option.bind_some, Option.map_none, Inodes.blob,
          List.getElem?_eq_getElem hlt] at hdisk
        cases hdisk
    obtain ⟨msg, hcall⟩ := hV.missing h.fs name hsim.inv hsmall hnone
    simp only [Client.step, Client.call, hopen, Host.step, hcall]
    exact ⟨rfl, owner, hsim⟩
  | some f =>
    rw [hd] at hdisk hopen
    rw [Option.map_some, Inodes.content, Option.bind_eq_some_iff] at hdisk
    obtain ⟨i, hi, hblob⟩ := hdisk
    have hcall := hV.openReadonly h.fs name i hsim.inv hsmall hi
    simp only [Client.step, Client.call, hopen, Host.step, hcall]
    refine ⟨rfl, owner, ⟨hsim.inv, hsim.faults, hsim.owned, hsim.disk, hsim.writers, ?_,
      hsim.canonical⟩⟩
    refine List.rel_append hsim.readers (.cons ?_ .nil)
    exact ⟨hblob, (hsim.owned _ i hi).2, hsmall⟩

theorem Sim.reader (hsim : Sim view key Inv owner c h) (k : ℕ) :
    (c.readers[k]? = none ∧ h.readers[k]? = none) ∨
      ∃ r i, c.readers[k]? = some r ∧ h.readers[k]? = some i ∧ (view h.fs).blob i = some r.2 := by
  have hlen := hsim.readers.length_eq
  by_cases hk : k < c.readers.length
  · have hk' : k < h.readers.length := hlen ▸ hk
    refine .inr ⟨_, _, List.getElem?_eq_getElem hk, List.getElem?_eq_getElem hk', ?_⟩
    exact (List.forall₂_iff_get.mp hsim.readers).2 k hk hk' |>.1
  · refine .inl ⟨List.getElem?_eq_none (not_lt.mp hk), List.getElem?_eq_none ?_⟩
    rw [← hlen]
    exact not_lt.mp hk

theorem Sim.readAt (hV : Hosting V dir view key Inv) (hsim : Sim view key Inv owner c h)
    {k offset len : ℕ} (hok : Proper c (.readAt k offset len)) :
    Matches view key Inv (c.step (.readAt k offset len)) (h.step V dir (.readAt k offset len)) := by
  refine ⟨?_, owner, hsim⟩
  rcases hsim.reader k with ⟨hc, hh⟩ | ⟨r, i, hc, hh, hblob⟩
  · simp only [Client.step, Host.step, hc, hh]
  · simp only [Client.step, Host.step, hc, hh]
    exact (hV.readAt h.fs i offset len r.2 hsim.inv hblob hok.1 fun h0 => hok.2 h0 r hc).symm

theorem Sim.size (hV : Hosting V dir view key Inv) (hsim : Sim view key Inv owner c h) (k : ℕ) :
    Matches view key Inv (c.step (.size k)) (h.step V dir (.size k)) := by
  refine ⟨?_, owner, hsim⟩
  rcases hsim.reader k with ⟨hc, hh⟩ | ⟨r, i, hc, hh, hblob⟩
  · simp only [Client.step, Host.step, hc, hh]
  · simp only [Client.step, Host.step, hc, hh, hV.size h.fs i r.2 hsim.inv hblob, Answer.ofRes]

/-! ### Listing -/

theorem insertionSort_congr {r : ℕ → ℕ → Prop} [DecidableRel r] [Std.Total r] [IsTrans ℕ r]
    [Std.Antisymm r] {l l' : List ℕ} (hl : l.Nodup) (hl' : l'.Nodup) (hmem : ∀ n, n ∈ l ↔ n ∈ l') :
    l.insertionSort r = l'.insertionSort r := by
  have hperm : l.Perm l' := (List.perm_ext_iff_of_nodup hl hl').mpr hmem
  refine List.Perm.eq_of_pairwise (fun a b _ _ hab hba => antisymm hab hba)
    (List.pairwise_insertionSort r l) (List.pairwise_insertionSort r l') ?_
  exact (List.perm_insertionSort r l).trans (hperm.trans (List.perm_insertionSort r l').symm)

theorem Sim.there_iff (hsim : Sim view key Inv owner c h) (hsmall : Engine.number name < u64Size) :
    name ∈ c.world.list ↔ ((view h.fs).find (key (baseName name))).isSome = true := by
  rw [World.mem_list, ← Option.isSome_map (f := File.bytes), ← hsim.disk name hsmall, Inodes.content]
  cases hf : (view h.fs).find (key (baseName name)) with
  | none => rfl
  | some i =>
    have hlt := (hsim.owned _ i hf).1
    simp [Inodes.blob, hlt]

theorem Sim.numbers (hsim : Sim view key Inv owner c h) {names : List Str} (hnodup : names.Nodup)
    (hlist : ∀ str, Numbered str → (str ∈ names ↔ ((view h.fs).find (key str)).isSome = true))
    {parse : Str → Option ℕ} {number : FileName → Option ℕ}
    (hnumbered : ∀ str, (parse str).isSome = true → Numbered str)
    (hparse : ∀ n, Engine.number n < u64Size → parse (baseName n) = number n)
    (hinj : ∀ a b id, number a = some id → number b = some id → a = b)
    {r : ℕ → ℕ → Prop} [DecidableRel r] [Std.Total r] [IsTrans ℕ r] [Std.Antisymm r] :
    (c.world.list.filterMap number).insertionSort r =
      (names.filterMap parse).insertionSort r := by
  have hcanonical : ∀ str ∈ names, ∀ id, parse str = some id →
      ∃ n, str = baseName n ∧ Engine.number n < u64Size ∧ number n = some id := by
    intro str hstr id hid
    have hnum := hnumbered str (by rw [hid]; rfl)
    obtain ⟨n, rfl, hsmall⟩ := hsim.canonical str hnum ((hlist str hnum).mp hstr)
    exact ⟨n, rfl, hsmall, (hparse n hsmall).symm.trans hid⟩
  refine insertionSort_congr ?_ ?_ ?_
  · refine c.world.nodup_list.filterMap ?_
    intro a b id ha hb
    exact hinj a b id ha hb
  · refine List.Pairwise.filterMap _ ?_ (List.Pairwise.and_mem.mp hnodup)
    rintro a b ⟨ha, hb, hne⟩ id hida id' hidb heq
    obtain ⟨n, rfl, -, hn⟩ := hcanonical a ha id hida
    obtain ⟨n', rfl, -, hn'⟩ := hcanonical b hb id' hidb
    rw [heq] at hn
    exact hne (congrArg baseName (hinj n n' id' hn hn'))
  · intro id
    rw [List.mem_filterMap, List.mem_filterMap]
    constructor
    · rintro ⟨n, hn, hid⟩
      have hopened : n ∈ c.world.log.filterMap opened := opened_of_isSome (World.mem_list.mp hn)
      obtain ⟨i, -, hw⟩ := hsim.writers n hopened
      refine ⟨baseName n, ?_, (hparse n hw.small).trans hid⟩
      rw [hlist _ (numbered_baseName hw.small)]
      exact (hsim.there_iff hw.small).mp hn
    · rintro ⟨str, hstr, hid⟩
      obtain ⟨n, rfl, hsmall, hn⟩ := hcanonical str hstr id hid
      refine ⟨n, ?_, hn⟩
      rw [hsim.there_iff hsmall]
      exact (hlist _ (numbered_baseName hsmall)).mp hstr

theorem Sim.list (hV : Hosting V dir view key Inv) (hsim : Sim view key Inv owner c h) :
    Matches view key Inv (c.step .list) (h.step V dir .list) := by
  obtain ⟨names, hcall, hnodup, hlist⟩ := hV.list h.fs hsim.inv
  have hclient := Client.list_served hsim.faults
  refine ⟨?_, owner, ?_⟩
  · rw [hclient]
    simp only [Host.step, hcall, Answer.ofRes, Answer.ofNames, Answer.numbers.injEq]
    constructor
    · refine hsim.numbers hnodup hlist (fun _ => .inl) (fun n => parseWalSegmentName_baseName) ?_
      intro a b id ha hb
      cases a <;> cases b <;> simp_all [Engine.parseWalSegmentName]
    · refine hsim.numbers hnodup hlist (fun _ => .inr) (fun n => parseSstName_baseName) ?_
      intro a b id ha hb
      cases a <;> cases b <;> simp_all [Engine.parseSstName]
  · rw [hclient]
    exact hsim

/-! ### Runs -/

theorem Related.step (hV : Hosting V dir view key Inv) (hrel : Related view key Inv c h)
    {op : FileOp} (hok : Proper c op) :
    Matches view key Inv (c.step op) (h.step V dir op) := by
  obtain ⟨owner, hsim⟩ := hrel
  cases op with
  | openWritable name => exact hsim.openWritable hV hok
  | append name data => exact hsim.append hV hok
  | writeAt name data offset => exact hsim.writeAt hV hok
  | sync name => exact hsim.sync hV hok
  | remove name => exact hsim.remove hV hok
  | openReadonly name => exact hsim.openReadonly hV hok
  | readAt k offset len => exact hsim.readAt hV hok
  | size k => exact hsim.size hV k
  | list => exact hsim.list hV
  | closeAll =>
    exact ⟨rfl, owner, ⟨hsim.inv, hsim.faults, hsim.owned, hsim.disk, hsim.writers, .nil,
      hsim.canonical⟩⟩

theorem Hosting.answers (hV : Hosting V dir view key Inv) (hrel : Related view key Inv c h)
    {ops : List FileOp} (hok : ProperRun c ops) :
    answers (Host.step V dir) h ops = answers Client.step c ops := by
  induction ops generalizing c h with
  | nil => rfl
  | cons op ops ih =>
    obtain ⟨hanswer, hrel'⟩ := hrel.step hV hok.1
    rw [Vfs.answers, Vfs.answers, ← hanswer, ih hrel' hok.2]

/-- A file system in which every file has one name and nothing in the directory has a
name of the engine's is a start. -/
theorem related_start {fs : σ} (hinv : Inv fs) (howned : (view fs).Owned owner)
    (hforeign : ∀ str, Numbered str → (view fs).find (key str) = none) :
    Related view key Inv Client.start (Host.start fs) := by
  refine ⟨owner, hinv, rfl, howned, ?_, ?_, .nil, ?_⟩
  · intro name hsmall
    show (view fs).content _ = _
    rw [Inodes.content, hforeign _ (numbered_baseName hsmall)]
    rfl
  · intro name hname
    cases hname
  · intro str hstr hsome
    rw [show (view (Host.start fs).fs).find (key str) = none from hforeign str hstr] at hsome
    cases hsome

end

end PaddockKV.Vfs
