import PaddockKV.Sstable.TableRead

/-!
# Where a seek lands (`BlockReader::seek`, `SstReader::get`)

The search over the restarts stops at the first midpoint whose key is the
target. Where that is depends only on how many restarts there are and which of
them carry the target. From there a seek goes forward, so it misses the records
of the target in front; a lookup then misses whole blocks of versions when
several blocks end with the key.
-/

namespace PaddockKV.Sstable

open Io Crypto PaddockKV.Filter SstReader

/-! ### Halving -/

/-- Halving `lo..hi` until a midpoint lies in `a..b`, where it stops, or nothing
is left to halve. -/
def bisect (a b : ℕ) : ℕ → ℕ → ℕ → ℕ
  | 0, lo, _ => lo
  | fuel + 1, lo, hi =>
    if lo + 1 < hi then
      let mid := lo + (hi - lo) / 2
      if mid < a then bisect a b fuel mid hi
      else if mid < b then mid
      else bisect a b fuel lo mid
    else lo

theorem searchRestart_eq_bisect {keyAt : ℕ → Option Key} {target : Key} {a b n : ℕ}
    (hkey : ∀ i < n, ∃ k, keyAt i = some k ∧ (k < target ↔ i < a) ∧ (target < k ↔ b ≤ i))
    {fuel lo hi : ℕ} (hhi : hi ≤ n) (hlt : lo < hi) (hfuel : hi - lo ≤ fuel) :
    searchRestart keyAt target fuel lo hi = some (bisect a b fuel lo hi) := by
  induction fuel generalizing lo hi with
  | zero => omega
  | succ fuel ih =>
    rw [searchRestart, bisect]
    split
    · rename_i hgap
      dsimp only
      obtain ⟨k, hk, hless, hmore⟩ := hkey (lo + (hi - lo) / 2) (by omega)
      rw [hk]
      dsimp only
      rcases cmpKey_spec k target with ⟨h, hc⟩ | ⟨h, hc⟩ | ⟨h, hc⟩
      · rw [hc, if_pos (hless.mp h)]
        exact ih hhi (by omega) (by omega)
      · have hna : ¬ lo + (hi - lo) / 2 < a := fun hlt' => (hless.mpr hlt').ne h
        have hnb : lo + (hi - lo) / 2 < b := by
          by_contra hle
          exact (hmore.mpr (not_lt.mp hle)).ne' h
        rw [hc, if_neg hna, if_pos hnb]
        obtain ⟨fuel, rfl⟩ : ∃ f, fuel = f + 1 := ⟨fuel - 1, by omega⟩
        dsimp only
        rw [searchRestart, if_neg (by omega)]
      · have hnb := hmore.mp h
        have hna : ¬ lo + (hi - lo) / 2 < a := fun hlt' => lt_asymm (hless.mpr hlt') h
        rw [hc, if_neg hna, if_neg (by omega)]
        exact ih (by omega) (by omega) (by omega)
    · rfl

theorem findIdx_le_iff {keys : List Key} (hs : KeySorted keys) {p : Key → Bool}
    (hp : ∀ x y, x ≤ y → p x = true → p y = true) {i : ℕ} (hi : i < keys.length) :
    keys.findIdx p ≤ i ↔ p keys[i] = true := by
  constructor
  · intro hle
    have hlt : keys.findIdx p < keys.length := by omega
    have hat : p keys[keys.findIdx p] = true := List.findIdx_getElem
    rcases hle.eq_or_lt with heq | hlt'
    · simpa only [heq] using hat
    · exact hp _ _ (List.pairwise_iff_getElem.mp hs _ _ hlt hi hlt') hat
  · intro hat
    by_contra hgt
    have := List.not_of_lt_findIdx (not_le.mp hgt)
    rw [hat] at this
    cases this

/-- A search that has room in front of `a` comes to stop at `a` or behind it. -/
theorem le_bisect {a b : ℕ} (hab : a < b) {fuel lo hi : ℕ} (hlo : lo < a) (hhi : b ≤ hi)
    (hfuel : hi - lo ≤ fuel) : a ≤ bisect a b fuel lo hi := by
  induction fuel generalizing lo hi with
  | zero => omega
  | succ fuel ih =>
    rw [bisect, if_pos (by omega)]
    dsimp only
    split
    · rename_i hlow
      exact ih hlow hhi (by omega)
    · split
      · omega
      · exact ih hlo (by omega) (by omega)

section Landing

variable {keys : List Key} {target : Key}

/-- The keys of the restarts. -/
def restartKeys (keys : List Key) : List Key :=
  (List.range (restartCount keys.length)).map fun i => keys.getD (restartInterval * i) []

/-- The restart at which the search for `target` stops. -/
def stopRestart (keys : List Key) (target : Key) : ℕ :=
  bisect ((restartKeys keys).findIdx fun k => target ≤ k)
    ((restartKeys keys).findIdx fun k => target < k) (restartCount keys.length) 0
    (restartCount keys.length)

/-- The first key at or above `target` that does not stand before that restart. -/
def landing (keys : List Key) (target : Key) : ℕ :=
  max (restartInterval * stopRestart keys target) (keys.findIdx fun k => target ≤ k)

theorem restartKeys_length (keys : List Key) :
    (restartKeys keys).length = restartCount keys.length := by
  rw [restartKeys, List.length_map, List.length_range]

theorem restartKeys_getElem {i : ℕ} (hi : i < (restartKeys keys).length) :
    keys[restartInterval * i]? = some (restartKeys keys)[i] := by
  have hi' : i < restartCount keys.length := restartKeys_length keys ▸ hi
  rw [← List.getElem?_eq_getElem hi, restartKeys, List.getElem?_map, List.getElem?_range hi',
    Option.map_some, List.getD_eq_getElem?_getD, List.getElem?_eq_getElem (restart_lt hi'),
    Option.getD_some]

theorem restartKeys_sorted (hs : KeySorted keys) : KeySorted (restartKeys keys) := by
  refine List.pairwise_iff_getElem.mpr ?_
  intro i j hi hj hij
  have h₁ := restartKeys_getElem hi
  have h₂ := restartKeys_getElem hj
  obtain ⟨hi', h₁⟩ := List.getElem?_eq_some_iff.mp h₁
  obtain ⟨hj', h₂⟩ := List.getElem?_eq_some_iff.mp h₂
  rw [← h₁, ← h₂]
  exact List.pairwise_iff_getElem.mp hs _ _ hi' hj'
    (Nat.mul_lt_mul_of_pos_left hij (by decide))

theorem le_of_le_key (target x y : Key) (hxy : x ≤ y) (hx : decide (target ≤ x) = true) :
    decide (target ≤ y) = true := by
  rw [decide_eq_true_eq] at hx ⊢
  exact hx.trans hxy

theorem lt_of_le_key (target x y : Key) (hxy : x ≤ y) (hx : decide (target < x) = true) :
    decide (target < y) = true := by
  rw [decide_eq_true_eq] at hx ⊢
  exact hx.trans_le hxy

theorem searchRestart_eq_stop (target : Key) (hs : KeySorted keys)
    (hne : restartCount keys.length ≠ 0) :
    searchRestart (fun i => keys[restartInterval * i]?) target (restartCount keys.length) 0
      (restartCount keys.length) = some (stopRestart keys target) := by
  refine searchRestart_eq_bisect ?_ le_rfl (by omega) (by omega)
  intro i hi
  rw [← restartKeys_length] at hi
  have hrs := restartKeys_sorted hs
  refine ⟨_, restartKeys_getElem hi, ?_, ?_⟩
  · rw [← not_le, ← not_le, not_iff_not, findIdx_le_iff hrs (le_of_le_key target) hi,
      decide_eq_true_eq]
  · rw [findIdx_le_iff hrs (lt_of_le_key target) hi, decide_eq_true_eq]

theorem seekPos_eq_landing (hs : KeySorted keys) : seekPos keys target =
    if landing keys target < keys.length then some (landing keys target) else none := by
  unfold seekPos
  dsimp only
  split
  · rename_i hn
    have hlen : keys.length = 0 := by
      unfold restartCount restartInterval at hn
      omega
    rw [if_neg (by omega)]
  · rename_i hn
    have hstop := searchRestart_eq_stop target hs hn
    have hlt := restart_lt (searchRestart_lt (by omega) hstop)
    rw [hstop]
    unfold landing
    generalize stopRestart keys target = stop at *
    show Option.bind ((keys.drop (restartInterval * stop)).findIdx? _) _ = _
    by_cases hle : keys.findIdx (fun k => decide (target ≤ k)) ≤ restartInterval * stop
    · -- the restart itself is a hit
      have hat := (findIdx_le_iff hs (le_of_le_key target) hlt).mp hle
      rw [max_eq_left hle, if_pos hlt, List.drop_eq_getElem_cons hlt, List.findIdx?_cons, if_pos hat]
      rfl
    · -- the first hit stands behind the restart
      rw [max_eq_right (by omega)]
      have hiff := fun {i : ℕ} (hi : i < keys.length) =>
        findIdx_le_iff hs (le_of_le_key target) hi
      generalize keys.findIdx (fun k => decide (target ≤ k)) = first at *
      cases hidx : (keys.drop (restartInterval * stop)).findIdx? fun k => decide (target ≤ k) with
      | none =>
        rw [if_neg]
        · rfl
        intro hin
        have hmem : keys[first] ∈ keys.drop (restartInterval * stop) :=
          List.mem_drop_iff_getElem.mpr ⟨first - restartInterval * stop, by omega, by
            congr 1
            omega⟩
        have hno := List.findIdx?_eq_none_iff.mp hidx _ hmem
        rw [(hiff hin).mp le_rfl] at hno
        cases hno
      | some i =>
        obtain ⟨hi, hat, hfront⟩ := List.findIdx?_eq_some_iff_getElem.mp hidx
        rw [List.length_drop] at hi
        rw [List.getElem_drop] at hat
        have hle' := (hiff (show restartInterval * stop + i < keys.length by omega)).mpr hat
        have hge : restartInterval * stop + i ≤ first := by
          by_contra hgt
          have hno := hfront (first - restartInterval * stop) (by omega)
          rw [List.getElem_drop] at hno
          refine hno ((hiff (show restartInterval * stop + (first - restartInterval * stop) <
            keys.length by omega)).mp (by omega))
        have heq : first = restartInterval * stop + i := le_antisymm hle' hge
        rw [heq, if_pos (by omega)]
        rfl

theorem key_at_stop (hs : KeySorted keys)
    (h : (keys.findIdx fun k => target ≤ k) < restartInterval * stopRestart keys target) :
    keys[restartInterval * stopRestart keys target]? = some target := by
  have hn : restartCount keys.length ≠ 0 := by
    intro hn
    have hzero : stopRestart keys target = 0 := by
      rw [stopRestart, hn]
      rfl
    rw [hzero] at h
    omega
  have hstop := searchRestart_eq_stop target hs hn
  have hlt := restart_lt (searchRestart_lt (by omega) hstop)
  have hge := (findIdx_le_iff hs (le_of_le_key target) hlt).mp h.le
  rcases searchRestart_le hstop with hzero | ⟨k, hk, hle⟩
  · rw [hzero] at h
    omega
  · rw [List.getElem?_eq_getElem hlt, Option.some_inj] at hk ⊢
    rw [decide_eq_true_eq] at hge
    exact le_antisymm (hk ▸ hle) hge

end Landing

/-! ### Seeks in a block -/

theorem seekRecs_eq_landing {rs : List Rec} (hs : KeySorted (rs.map Rec.key)) (target : Key) :
    seekRecs rs target = rs[landing (rs.map Rec.key) target]? := by
  rw [seekRecs, seekPos_eq_landing hs, List.length_map]
  split
  · rfl
  · rename_i hge
    rw [List.getElem?_eq_none (not_lt.mp hge)]
    rfl

theorem find_key_eq (rs : List Rec) (target : Key) :
    (rs.find? fun r => target ≤ r.key) = rs[(rs.map Rec.key).findIdx fun k => target ≤ k]? := by
  induction rs with
  | nil => rfl
  | cons r rs ih =>
    rw [List.find?_cons, List.map_cons, List.findIdx_cons]
    cases decide (target ≤ r.key) with
    | true => rfl
    | false => exact ih

/-- The versions of `key` begin behind a restart and go on over the next. -/
def BeginsInside (keys : List Key) (key : Key) : Prop :=
  ∃ i < restartCount keys.length, 0 < i ∧ keys[restartInterval * (i - 1)]? ≠ some key ∧
    keys[restartInterval * i - 1]? = some key ∧ keys[restartInterval * i]? = some key

theorem le_stopRestart {keys : List Key} {target : Key} (hs : KeySorted keys) {i : ℕ}
    (hi : i < restartCount keys.length) (hpos : 0 < i)
    (hprev : keys[restartInterval * (i - 1)]? ≠ some target)
    (hhere : keys[restartInterval * i]? = some target) : i ≤ stopRestart keys target := by
  have hrs := restartKeys_sorted hs
  rw [← restartKeys_length] at hi
  have hi' : i - 1 < (restartKeys keys).length := by omega
  rw [restartKeys_getElem hi, Option.some_inj] at hhere
  rw [restartKeys_getElem hi', ne_eq, Option.some_inj] at hprev
  have hlt : (restartKeys keys)[i - 1] < target := by
    have hle := List.pairwise_iff_getElem.mp hrs (i - 1) i hi' hi (by omega)
    rw [hhere] at hle
    exact lt_of_le_of_ne hle hprev
  have hfirst : i ≤ (restartKeys keys).findIdx fun k => decide (target ≤ k) := by
    by_contra hgt
    have hat := (findIdx_le_iff hrs (le_of_le_key target) hi').mp (by omega)
    rw [decide_eq_true_eq] at hat
    exact absurd hat (not_le.mpr hlt)
  have hfirst' := (findIdx_le_iff hrs (le_of_le_key target) hi).mpr (decide_eq_true hhere.ge)
  have hlast : i < (restartKeys keys).findIdx fun k => decide (target < k) := by
    by_contra hle
    have hat := (findIdx_le_iff hrs (lt_of_le_key target) hi).mp (not_lt.mp hle)
    rw [decide_eq_true_eq, hhere] at hat
    exact lt_irrefl _ hat
  refine hfirst.trans (le_bisect (hfirst'.trans_lt hlast) (hpos.trans_le hfirst) ?_
    (Nat.sub_le _ _))
  rw [← restartKeys_length]
  exact List.findIdx_le_length

/-- Where the versions begin behind a restart and go on over the next, the seek
passes the first of them. -/
theorem seekRecs_ne {rs : List Rec} {target : Key} (hs : KeySorted (rs.map Rec.key))
    (hnodup : rs.Nodup) (h : BeginsInside (rs.map Rec.key) target) :
    seekRecs rs target ≠ rs.find? fun r => target ≤ r.key := by
  obtain ⟨i, hi, hpos, hfront, hprev, hhere⟩ := h
  have hstop := le_stopRestart hs hi hpos hfront hhere
  have hlt : restartInterval * stopRestart (rs.map Rec.key) target < rs.length := by
    have hfound := searchRestart_eq_stop target hs (by omega)
    have hin := restart_lt (searchRestart_lt (by omega) hfound)
    rwa [List.length_map] at hin
  have hmul : restartInterval * i ≤ restartInterval * stopRestart (rs.map Rec.key) target :=
    Nat.mul_le_mul_left _ hstop
  have h16 : 0 < restartInterval * i := Nat.mul_pos (by decide) hpos
  obtain ⟨hin, hat⟩ := List.getElem?_eq_some_iff.mp hprev
  have hfirst := (findIdx_le_iff hs (le_of_le_key target) hin).mpr (decide_eq_true hat.ge)
  rw [seekRecs_eq_landing hs, landing, max_eq_left (by omega), find_key_eq]
  intro heq
  have hsame := (List.getElem?_inj hlt hnodup).mp heq
  omega

/-- A block smaller than its offsets allow is finished and opened, and a seek
is the search on its records. -/
theorem seek_finish {rs : List Rec} (hq : ∀ r ∈ rs, r.seqno < u64Size)
    (hsize : (rs.foldl .add BlockBuilder.new).buffer.length < u32Size) :
    ∃ bytes b reader, (rs.foldl .add BlockBuilder.new).finish = .ok (bytes, b) ∧
      BlockReader.openBlock bytes = .ok reader ∧
      ∀ target, reader.seek target = seekRecs rs target := by
  have hbuilt := built_foldl built_new rs
  rw [List.nil_append] at hbuilt
  rw [hbuilt.buffer] at hsize
  have hlen := length_le_entries 0 [] rs
  have hrestarts := numRestartsOf_le rs
  rcases finish_ends hbuilt with ⟨b, hfin, -⟩ | hmany
  · exact ⟨_, b, _, hfin, openBlock_blockBytes (by omega),
      seek_readerOf (fits_of_entries hsize hq) hsize⟩
  · omega

/-- A seek in a block finds the first record at or above the target, and nothing if
there is none, unless the target stands on both sides of a restart; it fails to
where the records of the target begin behind a restart and go on over the next. -/
theorem seek_finish_first {rs : List Rec} (hs : KeySorted (rs.map Rec.key))
    (hq : ∀ r ∈ rs, r.seqno < u64Size)
    (hsize : (rs.foldl .add BlockBuilder.new).buffer.length < u32Size) :
    ∃ bytes b reader, (rs.foldl .add BlockBuilder.new).finish = .ok (bytes, b) ∧
      BlockReader.openBlock bytes = .ok reader ∧
      ∀ target, (¬ AcrossRestart (rs.map Rec.key) target →
          reader.seek target = rs.find? fun r => target ≤ r.key) ∧
        (rs.Nodup → BeginsInside (rs.map Rec.key) target →
          reader.seek target ≠ rs.find? fun r => target ≤ r.key) := by
  obtain ⟨bytes, b, reader, hfin, hopen, hseek⟩ := seek_finish hq hsize
  refine ⟨bytes, b, reader, hfin, hopen, ?_⟩
  intro target
  rw [hseek]
  exact ⟨seekRecs_eq hs, seekRecs_ne hs⟩

/-- `n` versions of one key, newest first. -/
def versions (n : ℕ) : List Rec := (List.range n).map fun i => ⟨[1], n - i, .put, []⟩

-- a key in front of sixteen versions of another one, the last of them at a restart
theorem seek_finish_first_versions : ∃ bytes b reader,
    ((⟨[], 1, .put, []⟩ :: versions 16).foldl .add BlockBuilder.new).finish = .ok (bytes, b) ∧
      BlockReader.openBlock bytes = .ok reader ∧
      reader.seek [] = some ⟨[], 1, .put, []⟩ ∧ reader.seek [1] ≠ some ⟨[1], 16, .put, []⟩ := by
  obtain ⟨bytes, b, reader, hfin, hopen, hseek⟩ :=
    @seek_finish_first (⟨[], 1, .put, []⟩ :: versions 16) (by decide) (by decide) (by decide +kernel)
  refine ⟨bytes, b, reader, hfin, hopen, ?_, ?_⟩
  · exact (hseek []).1 (by decide)
  · exact (hseek [1]).2 (by decide) ⟨1, by decide, by decide, by decide, rfl, rfl⟩

-- the second restart is the oldest of seventeen versions
theorem seek_misses_newest : ∃ bytes b reader,
    ((versions 17).foldl .add BlockBuilder.new).finish = .ok (bytes, b) ∧
      BlockReader.openBlock bytes = .ok reader ∧
      reader.seek [1] = some ⟨[1], 1, .put, []⟩ ∧
      ((versions 17).find? fun r => [1] ≤ r.key) = some ⟨[1], 17, .put, []⟩ := by
  obtain ⟨bytes, b, reader, hfin, hopen, hseek⟩ := @seek_finish (versions 17) (by decide)
    (by decide +kernel)
  exact ⟨bytes, b, reader, hfin, hopen, (hseek [1]).trans (by decide +kernel), by decide +kernel⟩

/-! ### Lookups in a table -/

theorem seekRecs_key {rs : List Rec} {r : Rec} (hs : KeySorted (rs.map Rec.key)) (hr : r ∈ rs) :
    ∃ r', seekRecs rs r.key = some r' ∧ r'.key = r.key := by
  rw [seekRecs_eq_landing hs, landing]
  by_cases hle : restartInterval * stopRestart (rs.map Rec.key) r.key ≤
      (rs.map Rec.key).findIdx fun k => decide (r.key ≤ k)
  · rw [max_eq_right hle, ← find_key_eq]
    cases hfind : rs.find? fun x => decide (r.key ≤ x.key) with
    | none => exact absurd (List.find?_eq_none.mp hfind r hr) (by simp)
    | some x =>
      obtain ⟨hx, A, B, rfl, hA⟩ := List.find?_eq_some_iff_append.mp hfind
      refine ⟨x, rfl, le_antisymm ?_ (by simpa using hx)⟩
      -- `r` does not stand before the first hit
      have hsorted := (List.pairwise_append.mp (List.pairwise_map.mp hs)).2.1
      rcases List.mem_append.mp hr with hr | hr
      · have := hA r hr
        simp at this
      · rcases List.mem_cons.mp hr with rfl | hr
        · exact le_rfl
        · exact List.rel_of_pairwise_cons hsorted hr
  · have hkey := key_at_stop hs (not_le.mp hle)
    rw [List.getElem?_map] at hkey
    obtain ⟨x, hx, hk⟩ := Option.map_eq_some_iff.mp hkey
    rw [max_eq_left (not_le.mp hle).le]
    exact ⟨x, hx, hk⟩

theorem blockGet_of_seek {rs : List Rec} {key : Key} {x : Rec} (hx : seekRecs rs key = some x)
    (hk : x.key = key) (snapshot : ℕ) :
    blockGet rs key snapshot = if x.seqno ≤ snapshot then some x else lookup rs key snapshot := by
  rw [blockGet, hx, skipNewer, if_neg (not_not.mpr hk)]
  split
  · rfl
  · rename_i hnew
    -- the versions older than the one found are gone through one by one
    have hx' := seekRecs_mem hx
    have hcount : rs.countP (fun y => decide (y.key = key ∧ y.seqno < x.seqno)) < rs.length := by
      rw [List.countP_lt_length_iff]
      exact ⟨x, hx', by simp⟩
    rw [hk]
    exact skipNewer_eq (not_le.mp hnew) hcount

theorem blockGet_isSome {rs : List Rec} {key : Key} {snapshot : ℕ} (hs : SortedRecs rs) {r : Rec}
    (hr : r ∈ rs) (hv : r.Visible key snapshot) : ∃ x, blockGet rs key snapshot = some x := by
  obtain ⟨rfl, hseq⟩ := hv
  obtain ⟨x, hx, hk⟩ := seekRecs_key (keySorted_of_sorted hs) hr
  rw [blockGet_of_seek hx hk]
  split
  · exact ⟨x, rfl⟩
  · cases hlook : lookup rs r.key snapshot with
    | some y => exact ⟨y, rfl⟩
    | none =>
      have := List.find?_eq_none.mp hlook r hr
      exact absurd (decide_eq_true (show r.Visible r.key snapshot from ⟨rfl, hseq⟩)) this

/-- What a lookup in a table with the records `rs` owes its caller. -/
def Found (rs : List Rec) (key : Key) (snapshot : ℕ) (hit : Option Rec) : Prop :=
  ((∃ r ∈ rs, r.Visible key snapshot) → ∃ r, hit = some r ∧ r.Visible key snapshot) ∧
    ((¬ ∃ r ∈ rs, r.Visible key snapshot) → hit = none)

/-- The block the index names for `key`: the first that ends at or above it, or a
later one that ends with `key` if the search in the index stops there. -/
def namedBlock (blocks : List (List Rec)) (key : Key) : List Rec :=
  blocks.getD (landing (blocks.map (lastKeyOf [])) key) []

theorem tableGet_eq_named {blocks : List (List Rec)} (hne : ∀ b ∈ blocks, b ≠ [])
    (hs : SortedRecs blocks.flatten) (key : Key) (snapshot : ℕ) :
    tableGet blocks key snapshot = blockGet (namedBlock blocks key) key snapshot := by
  unfold tableGet namedBlock
  rw [seekPos_eq_landing (lastKeys_sorted hne hs), List.length_map, List.getD_eq_getElem?_getD]
  split
  · rename_i hlt
    show Option.bind (some _) _ = _
    rw [Option.bind_some]
    show Option.bind (blocks[_]?) _ = _
    rw [List.getElem?_eq_getElem hlt]
    rfl
  · rename_i hge
    rw [List.getElem?_eq_none (not_lt.mp hge)]
    rfl

theorem namedBlock_sublist (blocks : List (List Rec)) (key : Key) :
    (namedBlock blocks key).Sublist blocks.flatten := by
  unfold namedBlock
  rw [List.getD_eq_getElem?_getD]
  cases hget : blocks[landing (blocks.map (lastKeyOf [])) key]? with
  | none => exact List.nil_sublist _
  | some b => exact List.sublist_flatten_of_mem (List.mem_of_getElem? hget)

theorem found_of_one {blocks : List (List Rec)} (hne : ∀ b ∈ blocks, b ≠ [])
    (hs : SortedRecs blocks.flatten) {key : Key} (hone : blocks.countP (hasKey key) ≤ 1)
    (snapshot : ℕ) : Found blocks.flatten key snapshot (tableGet blocks key snapshot) := by
  constructor
  · rintro ⟨r, hr, hv⟩
    have hsome : lookup blocks.flatten key snapshot ≠ none := by
      intro hnone
      exact absurd (decide_eq_true hv) (List.find?_eq_none.mp hnone r hr)
    rcases tableGet_one hne hs hone with ⟨hno, -⟩ | ⟨b, hb, hget, hlook⟩
    · exact absurd (lookup_eq_none hno snapshot) hsome
    · rw [hlook] at hsome
      obtain ⟨x, hx⟩ := Option.ne_none_iff_exists'.mp hsome
      unfold lookup at hx
      have hvis := List.find?_some hx
      rw [decide_eq_true_eq] at hvis
      obtain ⟨y, hy⟩ := blockGet_isSome (sorted_of_mem hs hb) (List.mem_of_find?_eq_some hx) hvis
      rw [← hget] at hy
      exact ⟨y, hy, (tableGet_some hy).2⟩
  · intro hnone
    cases hget : tableGet blocks key snapshot with
    | none => rfl
    | some r => exact absurd ⟨r, tableGet_some hget⟩ hnone

/-- With versions in two blocks, and their last keys not repeated over a restart of
the index, the older versions are not found. -/
theorem not_found_of_two {blocks : List (List Rec)} (hne : ∀ b ∈ blocks, b ≠ [])
    (hs : blocks.flatten.Pairwise Rec.Before) {key : Key}
    (hidx : ¬ AcrossRestart (blocks.map (lastKeyOf [])) key)
    (htwo : 2 ≤ blocks.countP (hasKey key)) :
    ∃ snapshot, ¬ Found blocks.flatten key snapshot (tableGet blocks key snapshot) := by
  have hsorted : SortedRecs blocks.flatten := hs.imp Rec.Before.asymm
  rcases tableGet_first hne hsorted hidx with ⟨hno, -⟩ | ⟨A, b, B, rfl, hA, -, hget⟩
  · have hpos : 0 < blocks.countP (hasKey key) := by omega
    obtain ⟨b, hb, hkey⟩ := List.countP_pos_iff.mp hpos
    obtain ⟨r, hr, hk⟩ := hasKey_iff.mp hkey
    rw [← Bool.not_eq_true, hasKey_iff] at hno
    exact absurd ⟨r, List.mem_flatten_of_mem hb hr, hk⟩ hno
  · have hfront : A.countP (hasKey key) = 0 := by
      rw [List.countP_eq_zero]
      intro x hx
      rw [hA x hx]
      decide
    have hlater : 0 < B.countP (hasKey key) := by
      rw [List.countP_append, List.countP_cons, hfront] at htwo
      split at htwo <;> omega
    obtain ⟨b', hb', hkey⟩ := List.countP_pos_iff.mp hlater
    obtain ⟨r, hr, rfl⟩ := hasKey_iff.mp hkey
    have hmem : r ∈ B.flatten := List.mem_flatten_of_mem hb' hr
    rw [List.flatten_append, List.flatten_cons] at hs
    have hcross := (List.pairwise_append.mp (List.pairwise_append.mp hs).2.1).2.2
    refine ⟨r.seqno, fun hfound => ?_⟩
    obtain ⟨x, hx, hv⟩ := hfound.1 ⟨r, by simp [hmem], rfl, le_rfl⟩
    -- the record found stands in the first block, so it is newer
    rw [hget] at hx
    have hxb := (skipNewer_some (fun _ hx => hx) (fun x hx => seekRecs_mem hx) hx).1
    rcases hcross x hxb r hmem with hlt | ⟨-, hlt⟩
    · exact absurd hv.1 hlt.ne
    · exact absurd hv.2 (not_le.mpr hlt)

/-- The lookup of `key` lands on the first record of the key in the table, and the
block it lands in has the newest version for every older snapshot. -/
def Locates (blocks : List (List Rec)) (key : Key) : Prop :=
  ∀ r, (blocks.flatten.find? fun r => r.key = key) = some r →
    (namedBlock blocks key)[landing ((namedBlock blocks key).map Rec.key) key]? = some r ∧
      ∀ snapshot < r.seqno,
        lookup (namedBlock blocks key) key snapshot = lookup blocks.flatten key snapshot

theorem seqno_le_first {l : List Rec} {key : Key} {r : Rec} (hs : SortedRecs l)
    (hr : (l.find? fun r => decide (r.key = key)) = some r) {x : Rec} (hx : x ∈ l)
    (hk : x.key = key) : x.seqno ≤ r.seqno := by
  obtain ⟨hrk, A, B, rfl, hA⟩ := List.find?_eq_some_iff_append.mp hr
  rw [decide_eq_true_eq] at hrk
  rcases List.mem_append.mp hx with hx | hx
  · have hno := hA x hx
    simp [hk] at hno
  rcases List.mem_cons.mp hx with rfl | hx
  · exact le_rfl
  have hrel := List.rel_of_pairwise_cons (List.pairwise_append.mp hs).2.1 hx
  rcases Rec.not_before_iff.mp hrel with hlt | ⟨-, hle⟩
  · rw [hrk, hk] at hlt
    exact absurd hlt (lt_irrefl _)
  · exact hle

theorem lookup_of_first {l : List Rec} {key : Key} {r : Rec}
    (hr : (l.find? fun r => decide (r.key = key)) = some r) {snapshot : ℕ}
    (hle : r.seqno ≤ snapshot) : lookup l key snapshot = some r := by
  have hk := List.find?_some hr
  rw [decide_eq_true_eq] at hk
  refine find_of_imp hr (decide_eq_true ⟨hk, hle⟩) ?_
  intro x hx
  rw [decide_eq_true_eq] at hx ⊢
  exact hx.1

/-- Lookups in a table find the newest visible version at every snapshot if and only
if they land where they should. -/
theorem tableGet_iff {blocks : List (List Rec)} (hne : ∀ b ∈ blocks, b ≠ [])
    (hs : SortedRecs blocks.flatten) (key : Key) :
    (∀ snapshot, tableGet blocks key snapshot = lookup blocks.flatten key snapshot) ↔
      Locates blocks key := by
  have hsub := namedBlock_sublist blocks key
  have hsorted := hs.sublist hsub
  have hland := seekRecs_eq_landing (keySorted_of_sorted hsorted) key
  constructor
  · intro h r hr
    have hk := List.find?_some hr
    rw [decide_eq_true_eq] at hk
    -- at its own number the first record is found
    have hself := h r.seqno
    rw [lookup_of_first hr le_rfl, tableGet_eq_named hne hs] at hself
    obtain ⟨x, hx, hxk⟩ : ∃ x, seekRecs (namedBlock blocks key) key = some x ∧ x.key = key := by
      obtain ⟨hmem, hv⟩ := skipNewer_some (P := (· ∈ namedBlock blocks key)) (fun _ hx => hx)
        (fun x hx => seekRecs_mem hx) hself
      obtain ⟨x, hx, hxk⟩ := seekRecs_key (keySorted_of_sorted hsorted) hmem
      rw [hk] at hx hxk
      exact ⟨x, hx, hxk⟩
    have hle := seqno_le_first hs hr (hsub.subset (seekRecs_mem hx)) hxk
    rw [blockGet_of_seek hx hxk, if_pos hle] at hself
    cases hself
    rw [← hland]
    refine ⟨hx, ?_⟩
    intro snapshot hlt
    rw [← h snapshot, tableGet_eq_named hne hs, blockGet_of_seek hx hxk, if_neg (not_le.mpr hlt)]
  · intro h snapshot
    cases hr : blocks.flatten.find? fun r => decide (r.key = key) with
    | none =>
      have hno : ∀ x ∈ blocks.flatten, ¬ x.Visible key snapshot := by
        intro x hx hv
        exact absurd (decide_eq_true hv.1) (List.find?_eq_none.mp hr x hx)
      have hlook : lookup blocks.flatten key snapshot = none := by
        rw [lookup, List.find?_eq_none]
        intro x hx hv
        exact hno x hx (of_decide_eq_true hv)
      rw [hlook]
      cases hget : tableGet blocks key snapshot with
      | none => rfl
      | some x => exact absurd (tableGet_some hget).2 (hno x (tableGet_some hget).1)
    | some r =>
      obtain ⟨hx, hbelow⟩ := h r hr
      have hk := List.find?_some hr
      rw [decide_eq_true_eq] at hk
      rw [← hland] at hx
      rw [tableGet_eq_named hne hs, blockGet_of_seek hx hk]
      split
      · rename_i hle
        exact (lookup_of_first hr hle).symm
      · rename_i hlt
        exact hbelow snapshot (not_le.mp hlt)

theorem locates_of_not_split {blocks : List (List Rec)} (hne : ∀ b ∈ blocks, b ≠ [])
    (hs : SortedRecs blocks.flatten) {key : Key} (hns : ¬ Split blocks key) :
    Locates blocks key :=
  (tableGet_iff hne hs key).mp fun snapshot => tableGet_eq hne hs hns snapshot

theorem tableGet_congr {blocks : List (List Rec)} (hne : ∀ b ∈ blocks, b ≠ [])
    (hs : SortedRecs blocks.flatten) {key : Key} {n n' : ℕ}
    (h : ∀ x ∈ blocks.flatten, x.key = key → (x.seqno ≤ n ↔ x.seqno ≤ n')) :
    tableGet blocks key n = tableGet blocks key n' := by
  have hsub := namedBlock_sublist blocks key
  have hlook : lookup (namedBlock blocks key) key n = lookup (namedBlock blocks key) key n' := by
    refine List.find?_congr ?_
    intro x hx
    refine decide_eq_decide.mpr ?_
    refine and_congr_right ?_
    intro hk
    exact h x (hsub.subset hx) hk
  rw [tableGet_eq_named hne hs, tableGet_eq_named hne hs]
  by_cases hx : ∃ x, seekRecs (namedBlock blocks key) key = some x ∧ x.key = key
  · obtain ⟨x, hx, hk⟩ := hx
    rw [blockGet_of_seek hx hk, blockGet_of_seek hx hk, hlook]
    exact if_congr (h x (hsub.subset (seekRecs_mem hx)) hk) rfl rfl
  · have hnone : ∀ m, blockGet (namedBlock blocks key) key m = none := by
      intro m
      cases hget : blockGet (namedBlock blocks key) key m with
      | none => rfl
      | some y =>
        obtain ⟨hmem, rfl, -⟩ := skipNewer_some (P := (· ∈ namedBlock blocks key)) (fun _ hx => hx)
          (fun x hx => seekRecs_mem hx) hget
        exact absurd (seekRecs_key (keySorted_of_sorted (hs.sublist hsub)) hmem) hx
    rw [hnone, hnone]

theorem writeTable_get {prims : Primitives} {name : FileName} {expectedKeys : ℕ}
    {params : BloomParams} {crypto : Option CryptoCtx} {blockSize : ℕ} {rs : List Rec} {wd : World}
    (hnew : wd.disk name = none) (hrs : ∀ r ∈ rs, r.seqno < u64Size) :
    Ends (SstWriter.writeTable prims name expectedKeys params crypto blockSize rs) wd
      (fun _ wd' => ∃ r, openInner (wd'.bytesOf name) crypto = .ok r ∧ scan prims r = .ok rs ∧
        ∀ key snapshot, SstReader.get prims r key snapshot =
          .ok (tableGet (cutBlocks blockSize [] rs) key snapshot))
      fun _ _ => TableTrouble prims crypto wd expectedKeys params (cutBlocks blockSize [] rs) := by
  refine Ends.mono (writeTable_ends hnew hrs) ?_ (fun _ _ h => h.2)
  rintro - wd' ⟨hmade, -⟩
  obtain ⟨file, s, hdisk, dataEnd, header, hbody, hheader, hat⟩ := disk_of_made hmade hnew
  have hbytes : wd'.bytesOf name = file := by
    unfold World.bytesOf
    rw [hdisk]
  obtain ⟨r, hopen, -⟩ := openInner_table hbody hheader hat
  obtain ⟨index, hreader⟩ := readerOf_openInner hbody hopen
  refine ⟨r, ?_, ?_, get_eq hreader⟩
  · rw [hbytes]
    exact hopen
  · rw [scan_eq hreader, cutBlocks_flatten, List.nil_append]

/-- A lookup in a table that was written finds a visible version whenever a scan
has one, and nothing otherwise, for every key whose versions lie in one block; where
no restart of the block parts them either, it is the newest visible one. With
distinct versions in two blocks some snapshot misses, unless the index repeats the
key over one of its own restarts. -/
theorem get_writeTable_one (prims : Primitives) (name : FileName) (expectedKeys : ℕ)
    (params : BloomParams) (crypto : Option CryptoCtx) (blockSize : ℕ) (rs : List Rec) (wd : World)
    (hnew : wd.disk name = none) (hrs : ∀ r ∈ rs, r.seqno < u64Size) (hs : SortedRecs rs) :
    Ends (SstWriter.writeTable prims name expectedKeys params crypto blockSize rs) wd
      (fun _ wd' => ∃ r, openInner (wd'.bytesOf name) crypto = .ok r ∧ scan prims r = .ok rs ∧
        ∃ hit : Key → ℕ → Option Rec,
          (∀ key snapshot, SstReader.get prims r key snapshot = .ok (hit key snapshot)) ∧
          ∀ key, ((cutBlocks blockSize [] rs).countP (hasKey key) ≤ 1 →
              ∀ snapshot, Found rs key snapshot (hit key snapshot)) ∧
            (¬ Split (cutBlocks blockSize [] rs) key →
              ∀ snapshot, hit key snapshot = lookup rs key snapshot) ∧
            (rs.Pairwise Rec.Before → 2 ≤ (cutBlocks blockSize [] rs).countP (hasKey key) →
              ¬ AcrossRestart ((cutBlocks blockSize [] rs).map (lastKeyOf [])) key →
              ∃ snapshot, ¬ Found rs key snapshot (hit key snapshot)))
      fun _ _ => TableTrouble prims crypto wd expectedKeys params (cutBlocks blockSize [] rs) := by
  refine Ends.mono (writeTable_get hnew hrs) ?_ (fun _ _ h => h)
  rintro - wd' ⟨r, hopen, hscan, hget⟩
  refine ⟨r, hopen, hscan, _, hget, fun key => ?_⟩
  have hne := cutBlocks_ne_nil blockSize [] rs
  have hflat : (cutBlocks blockSize [] rs).flatten = rs := by
    rw [cutBlocks_flatten, List.nil_append]
  generalize cutBlocks blockSize [] rs = blocks at hne hflat ⊢
  subst hflat
  exact ⟨found_of_one hne hs, tableGet_eq hne hs, fun hstrict htwo hidx =>
    not_found_of_two hne hstrict hidx htwo⟩

-- one block of two keys, and a block for each version
theorem get_writeTable_one_versions :
    Ends (SstWriter.writeTable .blank (.sst 3) 0 ⟨7, 10⟩ (some ⟨[], 3⟩) defaultBlockSize twoRecs)
      ⟨[], []⟩
      (fun _ wd' => ∃ r, openInner (wd'.bytesOf (.sst 3)) (some ⟨[], 3⟩) = .ok r ∧
        SstReader.get .blank r [2] 7 = .ok (some ⟨[2], 5, .put, [9]⟩) ∧
        SstReader.get .blank r [2] 4 = .ok none)
      (fun _ _ => False) ∧
    Ends (SstWriter.writeTable .blank (.sst 3) 0 ⟨7, 10⟩ none 0 (versions 2)) ⟨[], []⟩
      (fun _ wd' => ∃ r, openInner (wd'.bytesOf (.sst 3)) none = .ok r ∧
        ∃ snapshot hit, SstReader.get .blank r [1] snapshot = .ok hit ∧
          ¬ Found (versions 2) [1] snapshot hit)
      fun _ _ => False := by
  refine ⟨?_, ?_⟩
  · refine Ends.mono (get_writeTable_one .blank (.sst 3) 0 ⟨7, 10⟩ (some ⟨[], 3⟩) defaultBlockSize
      twoRecs ⟨[], []⟩ rfl (by decide) (by unfold SortedRecs; decide)) ?_ fun _ _ h => ?_
    · rintro - wd' ⟨r, hopen, -, hit, hget, hkeys⟩
      have hhit := (hkeys [2]).2.1 (by decide +kernel)
      refine ⟨r, hopen, (hget [2] 7).trans ?_, (hget [2] 4).trans ?_⟩
      · rw [hhit]
        rfl
      · rw [hhit]
        rfl
    · exact Writable.not_trouble (by decide +kernel) rfl (fun _ _ _ _ => not_sealFails_blank _ _) h
  · refine Ends.mono (get_writeTable_one .blank (.sst 3) 0 ⟨7, 10⟩ none 0 (versions 2) ⟨[], []⟩ rfl
      (by decide) (by unfold SortedRecs; decide)) ?_ fun _ _ h => ?_
    · rintro - wd' ⟨r, hopen, -, hit, hget, hkeys⟩
      obtain ⟨snapshot, hmiss⟩ := (hkeys [1]).2.2 (by decide) (by decide +kernel) (by decide +kernel)
      exact ⟨r, hopen, snapshot, _, hget [1] snapshot, hmiss⟩
    · exact Writable.not_trouble (by decide +kernel) rfl (fun _ _ _ _ => not_sealFails_blank _ _) h

-- the older version lies in the second block, the index names the first
theorem get_misses_older :
    Ends (SstWriter.writeTable .blank (.sst 3) 0 ⟨7, 10⟩ none 0 (versions 2)) ⟨[], []⟩
      (fun _ wd' => ∃ r, openInner (wd'.bytesOf (.sst 3)) none = .ok r ∧
        scan .blank r = .ok [⟨[1], 2, .put, []⟩, ⟨[1], 1, .put, []⟩] ∧
        SstReader.get .blank r [1] 1 = .ok none)
      fun _ _ => False := by
  refine Ends.mono (writeTable_get rfl (by decide)) ?_ ?_
  · rintro - wd' ⟨r, hopen, hscan, hget⟩
    refine ⟨r, hopen, hscan, (hget [1] 1).trans ?_⟩
    exact congrArg Except.ok (by decide +kernel)
  · exact fun _ _ h => Writable.not_trouble (by decide +kernel) rfl (fun _ _ _ _ => not_sealFails_blank _ _) h

end PaddockKV.Sstable
