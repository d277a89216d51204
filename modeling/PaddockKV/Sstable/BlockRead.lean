import PaddockKV.Sstable.Block

/-!
# Reading a block back

A finished block opens; iterating it gives the records that were added, and a
seek scans from the restart that the search over the restart keys picks.
-/

namespace PaddockKV.Sstable

open Varint Checksum Io

/-! ### One record -/

theorem drop_behind {file bs rest : Bytes} {pos pos' : ℕ} (h : file.drop pos = bs ++ rest)
    (hp : pos' = pos + bs.length) : file.drop pos' = rest := by
  rw [hp, ← List.drop_drop, h, List.drop_left]

section Entry

variable {records rest : Bytes} {cursor shared : ℕ} {r : Rec}

theorem entryBytes_pos (shared : ℕ) (r : Rec) : 0 < (entryBytes shared r).length := by
  unfold entryBytes
  simp only [List.length_append, leBytes_length]
  omega

theorem entryBytes_eq (hf : Fits r) (hs : shared ≤ r.key.length) :
    entryBytes shared r = varint shared ++ (varint (r.key.length - shared) ++
      (varint r.value.length ++ (leBytes 8 r.seqno ++ ([r.op.toByte] ++
        (r.key.drop shared ++ r.value))))) := by
  have h₁ : shared % u32Size = shared := Nat.mod_eq_of_lt (hs.trans_lt hf.key)
  have h₂ : (r.key.length - shared) % u32Size = r.key.length - shared :=
    Nat.mod_eq_of_lt ((Nat.sub_le _ _).trans_lt hf.key)
  rw [entryBytes, h₁, h₂, Nat.mod_eq_of_lt hf.value]

/-- Where the fields of an entry stand; `c₁`, `c₂` and `c₃` are the sizes of its
three lengths. -/
structure EntryAt (records : Bytes) (cursor shared : ℕ) (r : Rec) (c₁ c₂ c₃ : ℕ) : Prop where
  live : ¬ records.length ≤ cursor
  sharedLen : decodeU32 (records.drop cursor) = .ok (shared, c₁)
  unsharedLen : decodeU32 (records.drop (cursor + c₁)) = .ok (r.key.length - shared, c₂)
  valueLen : decodeU32 (records.drop (cursor + (c₁ + c₂))) = .ok (r.value.length, c₃)
  seqno : leVal ((records.drop (cursor + (c₁ + c₂ + c₃))).take 8) = r.seqno
  op : (records.drop (cursor + (c₁ + c₂ + c₃ + 8))).headD 0 = r.op.toByte
  suffix : (records.drop (cursor + (c₁ + c₂ + c₃ + 8 + 1))).take (r.key.length - shared) =
    r.key.drop shared
  value : (records.drop (cursor + (c₁ + c₂ + c₃ + 8 + 1) + (r.key.length - shared))).take
    r.value.length = r.value
  behind : cursor + (c₁ + c₂ + c₃ + 8 + 1) + (r.key.length - shared) + r.value.length =
    cursor + (entryBytes shared r).length
  bound : cursor + (entryBytes shared r).length ≤ records.length

theorem entryAt (hf : Fits r) (hs : shared ≤ r.key.length)
    (h : records.drop cursor = entryBytes shared r ++ rest) :
    ∃ c₁ c₂ c₃, EntryAt records cursor shared r c₁ c₂ c₃ := by
  have hpos := entryBytes_pos shared r
  have hlen := congrArg List.length h
  rw [List.length_drop, List.length_append] at hlen
  have hd₁ := decodeU32_varint (hs.trans_lt hf.key)
  have hd₂ := decodeU32_varint ((Nat.sub_le r.key.length shared).trans_lt hf.key)
  have hd₃ := decodeU32_varint hf.value
  have hsize := congrArg List.length (entryBytes_eq hf hs)
  rw [entryBytes_eq hf hs] at h
  simp only [List.append_assoc] at h
  generalize varint shared = v₁ at *
  generalize varint (r.key.length - shared) = v₂ at *
  generalize varint r.value.length = v₃ at *
  simp only [List.length_append, leBytes_length, List.length_singleton, List.length_drop] at hsize
  have r₁ := drop_behind h rfl
  have r₂ := @drop_behind _ _ _ _ (cursor + (v₁.length + v₂.length)) r₁ (by omega)
  have r₃ := @drop_behind _ _ _ _ (cursor + (v₁.length + v₂.length + v₃.length)) r₂ (by omega)
  have r₄ := @drop_behind _ _ _ _ (cursor + (v₁.length + v₂.length + v₃.length + 8)) r₃
    (by rw [leBytes_length]; omega)
  have r₅ := @drop_behind _ _ _ _ (cursor + (v₁.length + v₂.length + v₃.length + 8 + 1)) r₄
    (by rw [List.length_singleton]; omega)
  have r₆ := @drop_behind _ _ _ _ (cursor + (v₁.length + v₂.length + v₃.length + 8 + 1) +
    (r.key.length - shared)) r₅ (by rw [List.length_drop])
  refine ⟨v₁.length, v₂.length, v₃.length, ?_⟩
  constructor
  · omega
  · rw [h, hd₁]
  · rw [r₁, hd₂]
  · rw [r₂, hd₃]
  · rw [r₃, List.take_left' (leBytes_length _ _), leVal_u64 hf.seqno]
  · rw [r₄]
    rfl
  · rw [r₅, List.take_left' List.length_drop]
  · rw [r₆, List.take_left]
  · omega
  · omega

theorem nextEntry_at {lastKey : Key} (hf : Fits r) (hs : shared ≤ r.key.length)
    (hkey : lastKey.take shared = r.key.take shared)
    (h : records.drop cursor = entryBytes shared r ++ rest) :
    nextEntry records cursor lastKey = some (r, cursor + (entryBytes shared r).length) := by
  obtain ⟨c₁, c₂, c₃, he⟩ := entryAt hf hs h
  have hbound := he.bound
  have hheader : ¬ records.length - cursor < c₁ + c₂ + c₃ + 8 + 1 := by
    have := he.behind
    omega
  have hval : ¬ records.length < cursor + (entryBytes shared r).length := by omega
  simp only [nextEntry, if_neg he.live, List.drop_drop, he.sharedLen, he.unsharedLen,
    he.valueLen, Except.toOption, bind, Option.bind, List.length_drop, if_neg hheader, he.seqno,
    he.op, RecordOp.fromByte_toByte, he.behind, if_neg hval, he.suffix, he.value, hkey,
    List.take_append_drop, pure]

theorem keyAtRestart_at (hf : Fits r) (h : records.drop cursor = entryBytes 0 r ++ rest) :
    keyAtRestart records cursor = some r.key := by
  obtain ⟨c₁, c₂, c₃, he⟩ := entryAt hf (Nat.zero_le _) h
  have hbound := he.bound
  have hsuffix := he.suffix
  have hunshared := he.unsharedLen
  rw [List.drop_zero, Nat.sub_zero] at hsuffix
  rw [Nat.sub_zero] at hunshared
  have hend : ¬ records.length - cursor < c₁ + c₂ + c₃ + 8 + 1 + r.key.length := by
    have := he.behind
    omega
  simp only [keyAtRestart, if_neg he.live, List.drop_drop, he.sharedLen, hunshared,
    he.valueLen, Except.toOption, bind, Option.bind, List.length_drop, if_neg hend, ne_eq,
    not_true_eq_false, if_false, hsuffix, pure]

end Entry

/-! ### Iterating -/

theorem sharedAt_take {n : ℕ} {last lastKey key : Key}
    (hlast : n % restartInterval ≠ 0 → lastKey = last) :
    lastKey.take (sharedAt n last key) = key.take (sharedAt n last key) := by
  unfold sharedAt
  split
  · rfl
  · rename_i h
    rw [hlast h]
    exact take_sharedPrefixLen last key

theorem iterFrom_entries {records : Bytes} {rs : List Rec} {fuel cursor n : ℕ} {last lastKey : Key}
    (hrs : ∀ r ∈ rs, Fits r) (h : records.drop cursor = entries n last rs)
    (hlast : n % restartInterval ≠ 0 → lastKey = last) (hfuel : rs.length < fuel) :
    iterFrom records fuel cursor lastKey = rs := by
  induction rs generalizing fuel cursor n last lastKey with
  | nil =>
    obtain ⟨fuel, rfl⟩ : ∃ f, fuel = f + 1 := ⟨fuel - 1, by omega⟩
    have hend : records.length ≤ cursor := List.drop_eq_nil_iff.mp h
    simp only [iterFrom, nextEntry, if_pos hend]
  | cons r rs ih =>
    obtain ⟨fuel, rfl⟩ : ∃ f, fuel = f + 1 := ⟨fuel - 1, by omega⟩
    have hnext := nextEntry_at (hrs r List.mem_cons_self) (sharedAt_le n last r.key)
      (sharedAt_take hlast) h
    simp only [iterFrom, hnext]
    rw [List.length_cons] at hfuel
    rw [ih (fun x hx => hrs x (List.mem_cons_of_mem r hx)) (drop_behind h rfl) (fun _ => rfl)
      (by omega)]

theorem length_le_entries (n : ℕ) (last : Key) (rs : List Rec) :
    rs.length ≤ (entries n last rs).length := by
  induction rs generalizing n last with
  | nil => exact Nat.zero_le _
  | cons r rs ih =>
    have hpos := entryBytes_pos (sharedAt n last r.key) r
    have := ih (n + 1) r.key
    rw [entries, List.length_append, List.length_cons]
    omega

theorem drop_restartAt (rs : List Rec) (i : ℕ) :
    (entries 0 [] rs).drop (restartAt rs i) =
      entries (rs.take (restartInterval * i)).length (lastKeyOf [] (rs.take (restartInterval * i)))
        (rs.drop (restartInterval * i)) := by
  have hsplit := entries_append 0 [] (rs.take (restartInterval * i)) (rs.drop (restartInterval * i))
  rw [List.take_append_drop, Nat.zero_add] at hsplit
  rw [hsplit, restartAt, List.drop_left]

theorem iterFrom_restart {rs : List Rec} {i fuel : ℕ} (hrs : ∀ r ∈ rs, Fits r)
    (hi : restartInterval * i ≤ rs.length) (hfuel : rs.length < fuel) :
    iterFrom (entries 0 [] rs) fuel (restartAt rs i) [] = rs.drop (restartInterval * i) := by
  refine iterFrom_entries (fun r hr => hrs r (List.mem_of_mem_drop hr)) (drop_restartAt rs i) ?_ ?_
  · intro hne
    rw [List.length_take, Nat.min_eq_left hi, Nat.mul_mod_right] at hne
    exact absurd rfl hne
  · rw [List.length_drop]
    omega

theorem keyAtRestart_restart {rs : List Rec} {i : ℕ} (hrs : ∀ r ∈ rs, Fits r)
    (hi : restartInterval * i < rs.length) :
    keyAtRestart (entries 0 [] rs) (restartAt rs i) = (rs[restartInterval * i]?).map Rec.key := by
  have hdrop := drop_restartAt rs i
  rw [List.drop_eq_getElem_cons hi, entries, List.length_take, Nat.min_eq_left hi.le, sharedAt,
    if_pos (Nat.mul_mod_right _ _)] at hdrop
  rw [List.getElem?_eq_getElem hi]
  exact keyAtRestart_at (hrs _ (List.getElem_mem hi)) hdrop

/-! ### Opening -/

-- the bytes `finish` makes of the records, the restart array and its length
def sealedBytes (records restartBytes : Bytes) (n : ℕ) : Bytes :=
  records ++ (restartBytes ++ leBytes 4 n) ++
    leBytes 4 (crc32c (records ++ (restartBytes ++ leBytes 4 n)))

def readerOf (rs : List Rec) : BlockReader where
  records := entries 0 [] rs
  restartBytes :=
    ((List.range (numRestartsOf rs)).map fun i => restartAt rs i % u32Size).flatMap (leBytes 4)

/-- The finished bytes of a block. -/
def blockBytes (rs : List Rec) : Bytes :=
  sealedBytes (readerOf rs).records (readerOf rs).restartBytes (numRestartsOf rs)

theorem finish_eq {b b' : BlockBuilder} {rs : List Rec} {bytes : Bytes} (h : Built b rs)
    (hfin : b.finish = .ok (bytes, b')) :
    bytes = blockBytes rs ∧ b' = .new ∧ numRestartsOf rs < u32Size := by
  simp only [BlockBuilder.finish, res_bind_eq_ok, expectU32_ok] at hfin
  obtain ⟨n, ⟨hn, rfl⟩, hfin⟩ := hfin
  cases hfin
  rw [h.restarts, List.length_map, List.length_range] at hn
  refine ⟨?_, rfl, hn⟩
  rw [h.buffer, h.restarts, List.length_map, List.length_range]
  rfl

theorem flatMap_leBytes_length (l : List ℕ) : (l.flatMap (leBytes 4)).length = l.length * 4 := by
  induction l with
  | nil => rfl
  | cons x l ih =>
    rw [List.flatMap_cons, List.length_append, leBytes_length, ih, List.length_cons]
    omega

theorem openBlock_sealed {E R : Bytes} {n : ℕ} (hRlen : R.length = n * 4) (hn : n < u32Size) :
    BlockReader.openBlock (sealedBytes E R n) = .ok ⟨E, R⟩ := by
  unfold sealedBytes
  have hval : leVal (leBytes 4 n) = n := leVal_u32 hn
  have hcrc := leVal_u32 (crc32c_lt (E ++ (R ++ leBytes 4 n)))
  generalize hc : crc32c (E ++ (R ++ leBytes 4 n)) = c at *
  have htotal : (E ++ (R ++ leBytes 4 n) ++ leBytes 4 c).length = E.length + n * 4 + 8 := by
    simp only [List.length_append, leBytes_length, hRlen]
    omega
  have h4 : (E ++ (R ++ leBytes 4 n)).length = E.length + n * 4 + 8 - 4 := by
    simp only [List.length_append, leBytes_length, hRlen]
    omega
  have hstored : (E ++ (R ++ leBytes 4 n) ++ leBytes 4 c).drop (E.length + n * 4 + 8 - 4) =
      leBytes 4 c := List.drop_left' h4
  have hbody : (E ++ (R ++ leBytes 4 n) ++ leBytes 4 c).take (E.length + n * 4 + 8 - 4) =
      E ++ (R ++ leBytes 4 n) := List.take_left' h4
  have hcount : ((E ++ (R ++ leBytes 4 n) ++ leBytes 4 c).drop (E.length + n * 4 + 8 - 8)).take 4 =
      leBytes 4 n := by
    have hER : (E ++ R).length = E.length + n * 4 + 8 - 8 := by
      rw [List.length_append, hRlen]
      omega
    rw [← List.append_assoc E, List.append_assoc, List.drop_left' hER,
      List.take_left' (leBytes_length _ _)]
  have hrecs : E.length + n * 4 + 8 - blockTrailerSize - n * 4 = E.length := by
    unfold blockTrailerSize
    omega
  have hfits : ¬ E.length + n * 4 + 8 < n * 4 + blockTrailerSize := by
    unfold blockTrailerSize
    omega
  have hlong : ¬ E.length + n * 4 + 8 < blockTrailerSize := by
    unfold blockTrailerSize
    omega
  have hR' : ((E ++ (R ++ leBytes 4 n) ++ leBytes 4 c).drop E.length).take (n * 4) = R := by
    rw [List.append_assoc, List.drop_left, List.append_assoc, List.take_left' hRlen]
  have hE' : (E ++ (R ++ leBytes 4 n) ++ leBytes 4 c).take E.length = E := by
    rw [List.append_assoc, List.take_left]
  simp only [BlockReader.openBlock, htotal, if_neg hlong, hstored, hbody, hc, hcrc, hcount, hval,
    if_neg hfits, hrecs, hR', hE', ne_eq, not_true_eq_false, if_false]

theorem readerOf_restartBytes_length (rs : List Rec) :
    (readerOf rs).restartBytes.length = numRestartsOf rs * 4 := by
  rw [readerOf, flatMap_leBytes_length, List.length_map, List.length_range]

theorem openBlock_blockBytes {rs : List Rec} (hn : numRestartsOf rs < u32Size) :
    BlockReader.openBlock (blockBytes rs) = .ok (readerOf rs) :=
  openBlock_sealed (readerOf_restartBytes_length rs) hn

theorem iter_readerOf {rs : List Rec} (hrs : ∀ r ∈ rs, Fits r) : (readerOf rs).iter = rs := by
  unfold BlockReader.iter readerOf
  refine iterFrom_entries hrs List.drop_zero ?_ ?_
  · intro hne
    exact absurd rfl hne
  · exact Nat.lt_succ_of_le (length_le_entries 0 [] rs)

/-! ### Seeking -/

theorem flatMap_leBytes_drop {l : List ℕ} {i : ℕ} (hi : i < l.length) :
    ((l.flatMap (leBytes 4)).drop (i * 4)).take 4 = leBytes 4 l[i] := by
  induction l generalizing i with
  | nil => cases hi
  | cons x l ih =>
    rw [List.flatMap_cons]
    cases i with
    | zero =>
      rw [Nat.zero_mul, List.drop_zero, List.take_left' (leBytes_length _ _)]
      rfl
    | succ i =>
      have hpos : (i + 1) * 4 = (leBytes 4 x).length + i * 4 := by
        rw [leBytes_length]
        omega
      rw [hpos, ← List.drop_drop, List.drop_left, ih (by simpa using hi)]
      rfl

/-- `seek` on the keys of a block: the position of the record it finds. -/
def seekPos (keys : List Key) (target : Key) : Option ℕ :=
  let n := restartCount keys.length
  if n = 0 then none
  else do
    let lo ← searchRestart (fun i => keys[restartInterval * i]?) target n 0 n
    let i ← (keys.drop (restartInterval * lo)).findIdx? fun k => target ≤ k
    return restartInterval * lo + i

def seekRecs (rs : List Rec) (target : Key) : Option Rec :=
  (seekPos (rs.map Rec.key) target).bind (rs[·]?)

theorem restart_lt {n i : ℕ} (hi : i < restartCount n) : restartInterval * i < n := by
  unfold restartCount restartInterval at *
  omega

theorem restartOffset_readerOf {rs : List Rec} (hsize : (entries 0 [] rs).length < u32Size) {i : ℕ}
    (hi : i < numRestartsOf rs) : (readerOf rs).restartOffset i = restartAt rs i := by
  have hle : restartAt rs i ≤ (entries 0 [] rs).length := by
    have hsplit := entries_append 0 [] (rs.take (restartInterval * i))
      (rs.drop (restartInterval * i))
    rw [List.take_append_drop] at hsplit
    rw [hsplit, restartAt, List.length_append]
    omega
  have hlt : restartAt rs i < u32Size := hle.trans_lt hsize
  have hi' : i < ((List.range (numRestartsOf rs)).map fun i => restartAt rs i % u32Size).length := by
    rw [List.length_map, List.length_range]
    exact hi
  unfold BlockReader.restartOffset readerOf
  rw [flatMap_leBytes_drop hi', List.getElem_map, List.getElem_range,
    leVal_u32 (Nat.mod_lt _ (by decide)), Nat.mod_eq_of_lt hlt]

theorem numRestarts_readerOf (rs : List Rec) :
    (readerOf rs).numRestarts = restartCount rs.length := by
  rw [BlockReader.numRestarts, readerOf_restartBytes_length, Nat.mul_div_cancel _ (by decide)]
  rfl

theorem numRestartsOf_le (rs : List Rec) : numRestartsOf rs ≤ rs.length := by
  unfold numRestartsOf restartCount restartInterval
  omega

theorem finish_ends {b : BlockBuilder} {rs : List Rec} (h : Built b rs) :
    (∃ b', b.finish = .ok (blockBytes rs, b') ∧ b' = .new) ∨ u32Size ≤ numRestartsOf rs := by
  cases hfin : b.finish with
  | ok out =>
    obtain ⟨bytes, b'⟩ := out
    obtain ⟨rfl, rfl, -⟩ := finish_eq h hfin
    exact .inl ⟨_, rfl, rfl⟩
  | error e =>
    right
    by_contra hlt
    have hn : b.restarts.length = numRestartsOf rs := by
      rw [h.restarts, List.length_map, List.length_range]
    simp only [BlockBuilder.finish, expectU32, hn, if_pos (not_le.mp hlt)] at hfin
    cases hfin

/-- Records added in any order are read back as they were added: the finished
block opens, has a restart for every sixteen of them, gives all of them from its
start and the rest of them from any restart, and leaves a new builder. -/
theorem block_round_trip (rs : List Rec) (hq : ∀ r ∈ rs, r.seqno < u64Size)
    (hsize : (rs.foldl BlockBuilder.add .new).buffer.length < u32Size) :
    ∃ bytes reader, (rs.foldl BlockBuilder.add .new).finish = .ok (bytes, .new) ∧
      BlockReader.openBlock bytes = .ok reader ∧ reader.iter = rs ∧
      reader.numRestarts = (rs.length + 15) / 16 ∧
      ∀ i < reader.numRestarts, ∀ fuel, rs.length < fuel →
        iterFrom reader.records fuel (reader.restartOffset i) [] = rs.drop (16 * i) := by
  have hbuilt : Built (rs.foldl BlockBuilder.add .new) rs := built_foldl built_new rs
  rw [hbuilt.buffer] at hsize
  have hfits := fits_of_entries hsize hq
  have hn : numRestartsOf rs < u32Size := by
    have := numRestartsOf_le rs
    have := length_le_entries 0 [] rs
    omega
  have hfinish : (rs.foldl BlockBuilder.add .new).finish = .ok (blockBytes rs, .new) := by
    rcases finish_ends hbuilt with ⟨b, hfin, rfl⟩ | hmany
    · exact hfin
    · omega
  refine ⟨blockBytes rs, readerOf rs, hfinish, openBlock_blockBytes hn, iter_readerOf hfits,
    numRestarts_readerOf rs, ?_⟩
  intro i hi fuel hfuel
  rw [numRestarts_readerOf] at hi
  rw [restartOffset_readerOf hsize hi]
  exact iterFrom_restart hfits (restart_lt hi).le hfuel

-- an empty key, a key twice and a key that is a prefix of the one before it
def unordered : List Rec :=
  [⟨[], 3, .put, [9]⟩, ⟨[1, 2], 2, .put, []⟩, ⟨[1, 2], 1, .tombstone, []⟩, ⟨[1], 5, .put, [0, 0]⟩]

theorem block_round_trip_unordered :
    ∃ bytes reader, (unordered.foldl BlockBuilder.add .new).finish = .ok (bytes, .new) ∧
      BlockReader.openBlock bytes = .ok reader ∧ reader.iter = unordered ∧
      reader.numRestarts = (unordered.length + 15) / 16 ∧
      ∀ i < reader.numRestarts, ∀ fuel, unordered.length < fuel →
        iterFrom reader.records fuel (reader.restartOffset i) [] = unordered.drop (16 * i) :=
  block_round_trip unordered (by decide) (by decide)

theorem searchRestart_congr {keyAt keyAt' : ℕ → Option Key} {target : Key} {n : ℕ}
    (h : ∀ i < n, keyAt i = keyAt' i) {fuel lo hi : ℕ} (hhi : hi ≤ n) :
    searchRestart keyAt target fuel lo hi = searchRestart keyAt' target fuel lo hi := by
  induction fuel generalizing lo hi with
  | zero => rfl
  | succ fuel ih =>
    unfold searchRestart
    split
    · rename_i hlt
      dsimp only
      rw [h (lo + (hi - lo) / 2) (by omega)]
      cases keyAt' (lo + (hi - lo) / 2) with
      | none => rfl
      | some k =>
        dsimp only
        cases cmpKey k target with
        | lt => exact ih hhi
        | eq => exact ih (by omega)
        | gt => exact ih (by omega)
    · rfl

theorem searchRestart_lt {keyAt : ℕ → Option Key} {target : Key} {fuel lo hi i : ℕ}
    (hlt : lo < hi) (h : searchRestart keyAt target fuel lo hi = some i) : i < hi := by
  induction fuel generalizing lo hi with
  | zero => cases h
  | succ fuel ih =>
    unfold searchRestart at h
    split at h
    · rename_i hgap
      dsimp only at h
      split at h
      · cases h
      · split at h
        · exact ih (by omega) h
        · have := ih (by omega) h
          omega
        · have := ih (by omega) h
          omega
    · cases h
      exact hlt

theorem seek_readerOf {rs : List Rec} (hrs : ∀ r ∈ rs, Fits r)
    (hsize : (entries 0 [] rs).length < u32Size) (target : Key) :
    (readerOf rs).seek target = seekRecs rs target := by
  have hn := numRestarts_readerOf rs
  have hkeys : ∀ i < restartCount rs.length,
      keyAtRestart (readerOf rs).records ((readerOf rs).restartOffset i) =
        (rs.map Rec.key)[restartInterval * i]? := by
    intro i hi
    rw [restartOffset_readerOf hsize hi, List.getElem?_map]
    exact keyAtRestart_restart hrs (restart_lt hi)
  unfold BlockReader.seek seekRecs seekPos
  rw [hn, List.length_map]
  dsimp only
  rw [searchRestart_congr hkeys le_rfl]
  split
  · rfl
  · rename_i hne
    cases hlo : searchRestart (fun i => (rs.map Rec.key)[restartInterval * i]?) target
        (restartCount rs.length) 0 (restartCount rs.length) with
    | none => rfl
    | some lo =>
      have hlt := searchRestart_lt (by omega) hlo
      have hscan : iterFrom (readerOf rs).records ((readerOf rs).records.length + 1)
          ((readerOf rs).restartOffset lo) [] = rs.drop (restartInterval * lo) := by
        rw [restartOffset_readerOf hsize hlt]
        exact iterFrom_restart hrs (restart_lt hlt).le
          (Nat.lt_succ_of_le (length_le_entries 0 [] rs))
      show ((iterFrom _ _ _ _).find? _) = Option.bind (Option.bind
        (((rs.map Rec.key).drop (restartInterval * lo)).findIdx? fun k => decide (target ≤ k))
        fun i => some (restartInterval * lo + i)) _
      rw [hscan, List.find?_eq_bind_findIdx?_getElem?, ← List.map_drop, List.findIdx?_map,
        Option.bind_assoc]
      refine Option.bind_congr ?_
      intro i _
      rw [List.getElem?_drop]
      rfl

/-! ### When a seek finds the first record -/

def KeySorted (keys : List Key) : Prop := keys.Pairwise (· ≤ ·)

instance (keys : List Key) : Decidable (KeySorted keys) :=
  inferInstanceAs (Decidable (keys.Pairwise (· ≤ ·)))

theorem keySorted_of_sorted {rs : List Rec} (h : SortedRecs rs) : KeySorted (rs.map Rec.key) := by
  refine List.pairwise_map.mpr (h.imp ?_)
  intro a b hab
  rcases Rec.not_before_iff.mp hab with hlt | ⟨heq, -⟩
  · exact hlt.le
  · exact heq.le

/-- `key` stands on both sides of a restart. -/
def AcrossRestart (keys : List Key) (key : Key) : Prop :=
  ∃ i < restartCount keys.length, 0 < i ∧ keys[restartInterval * i]? = some key ∧
    keys[restartInterval * i - 1]? = some key

instance (keys : List Key) (key : Key) : Decidable (AcrossRestart keys key) :=
  inferInstanceAs (Decidable (∃ i < _, _))

theorem searchRestart_le {keyAt : ℕ → Option Key} {target : Key} {fuel lo hi i : ℕ}
    (h : searchRestart keyAt target fuel lo hi = some i) :
    i = lo ∨ ∃ k, keyAt i = some k ∧ k ≤ target := by
  induction fuel generalizing lo hi with
  | zero => cases h
  | succ fuel ih =>
    unfold searchRestart at h
    split at h
    · dsimp only at h
      split at h
      · cases h
      · rename_i k hk
        split at h
        · rename_i hcmp
          rcases ih h with rfl | hle
          · exact .inr ⟨k, hk, ((cmpKey_lt_iff _ _).mp hcmp).le⟩
          · exact .inr hle
        · rename_i hcmp
          rcases ih h with rfl | hle
          · exact .inr ⟨k, hk, ((cmpKey_eq_iff _ _).mp hcmp).le⟩
          · exact .inr hle
        · exact ih h
    · cases h
      exact .inl rfl

theorem searchRestart_isSome {keyAt : ℕ → Option Key} {target : Key} {fuel lo hi : ℕ}
    (hk : ∀ i < hi, (keyAt i).isSome) (hlt : lo < hi) (hfuel : hi - lo ≤ fuel) :
    ∃ i, searchRestart keyAt target fuel lo hi = some i := by
  induction fuel generalizing lo hi with
  | zero => omega
  | succ fuel ih =>
    unfold searchRestart
    split
    · dsimp only
      obtain ⟨k, hmid⟩ := Option.isSome_iff_exists.mp (hk (lo + (hi - lo) / 2) (by omega))
      rw [hmid]
      dsimp only
      cases cmpKey k target with
      | lt => exact ih hk (by omega) (by omega)
      | eq => exact ih (fun i hi => hk i (by omega)) (by omega) (by omega)
      | gt => exact ih (fun i hi => hk i (by omega)) (by omega) (by omega)
    · exact ⟨lo, rfl⟩

/-- Nothing in front of a restart whose key is at most `target` is a hit, unless
`target` itself stands there. -/
theorem key_lt_of_restart {keys : List Key} {target k : Key} {i : ℕ} (hs : KeySorted keys)
    (hi : i < restartCount keys.length) (hpos : 0 < i) (hk : keys[restartInterval * i]? = some k)
    (hle : k ≤ target) (hns : ¬ AcrossRestart keys target) {x : Key}
    (hx : x ∈ keys.take (restartInterval * i)) : x < target := by
  have hlt := restart_lt hi
  rw [List.getElem?_eq_getElem hlt, Option.some_inj] at hk
  have hat : ∀ a (ha : a < keys.length) b (hb : b < keys.length), a ≤ b → keys[a] ≤ keys[b] := by
    intro a ha b hb hab
    rcases hab.eq_or_lt with rfl | hab
    · exact le_rfl
    · exact List.pairwise_iff_getElem.mp hs a b ha hb hab
  obtain ⟨j, hj, rfl⟩ := List.getElem_of_mem hx
  rw [List.length_take] at hj
  rw [List.getElem_take]
  have h16 : 0 < restartInterval * i := Nat.mul_pos (by decide) hpos
  have h₁ := hat j (by omega) (restartInterval * i - 1) (by omega) (by omega)
  have h₂ := hat (restartInterval * i - 1) (by omega) (restartInterval * i) hlt (by omega)
  by_contra hge
  have hprev : keys[restartInterval * i - 1] = target :=
    le_antisymm (h₂.trans (hk ▸ hle)) ((not_lt.mp hge).trans h₁)
  have hhere : keys[restartInterval * i] = target := le_antisymm (hk ▸ hle) (hprev ▸ h₂)
  refine hns ⟨i, hi, hpos, ?_, ?_⟩
  · rw [List.getElem?_eq_getElem hlt, hhere]
  · rw [List.getElem?_eq_getElem (by omega), hprev]

theorem seekPos_eq {keys : List Key} {target : Key} (hs : KeySorted keys)
    (hns : ¬ AcrossRestart keys target) :
    seekPos keys target = keys.findIdx? fun k => target ≤ k := by
  unfold seekPos
  dsimp only
  split
  · rename_i hn
    have hlen : keys.length = 0 := by
      unfold restartCount restartInterval at hn
      omega
    rw [List.length_eq_zero_iff.mp hlen]
    rfl
  · rename_i hn
    have hkeys : ∀ i < restartCount keys.length, (keys[restartInterval * i]?).isSome = true := by
      intro i hi
      rw [List.getElem?_eq_getElem (restart_lt hi)]
      rfl
    obtain ⟨lo, hlo⟩ := @searchRestart_isSome _ target (restartCount keys.length) 0
      (restartCount keys.length) hkeys (by omega) (by omega)
    have hlt := searchRestart_lt (by omega) hlo
    rw [hlo]
    show Option.bind ((keys.drop (restartInterval * lo)).findIdx? _) _ = _
    have hfront : (keys.take (restartInterval * lo)).findIdx? (fun k => decide (target ≤ k)) =
        none := by
      rw [List.findIdx?_eq_none_iff]
      intro x hx
      rcases Nat.eq_zero_or_pos lo with rfl | hpos
      · cases hx
      · rcases searchRestart_le hlo with rfl | ⟨k, hk, hle⟩
        · omega
        · have := key_lt_of_restart hs hlt hpos hk hle hns hx
          simpa using this
    have hlen : (keys.take (restartInterval * lo)).length = restartInterval * lo := by
      rw [List.length_take]
      exact Nat.min_eq_left (restart_lt hlt).le
    nth_rewrite 2 [← List.take_append_drop (restartInterval * lo) keys]
    rw [List.findIdx?_append, hfront, hlen, Option.none_or]
    cases (keys.drop (restartInterval * lo)).findIdx? fun k => decide (target ≤ k) with
    | none => rfl
    | some i => exact congrArg some (Nat.add_comm _ _)

theorem seekRecs_eq {rs : List Rec} {target : Key} (hs : KeySorted (rs.map Rec.key))
    (hns : ¬ AcrossRestart (rs.map Rec.key) target) :
    seekRecs rs target = rs.find? fun r => target ≤ r.key := by
  rw [seekRecs, seekPos_eq hs hns, List.findIdx?_map, List.find?_eq_bind_findIdx?_getElem?]
  rfl

end PaddockKV.Sstable
