import PaddockKV.Sstable.BlockRead
import PaddockKV.Sstable.Reader

/-!
# What a lookup in a table returns

`tableGet` is the lookup of the reader on the records of the blocks. It finds
the newest visible version of a key unless the versions of the key are split:
over two blocks, or over a restart inside one.
-/

namespace PaddockKV.Sstable

open SstReader

def blockGet (rs : List Rec) (key : Key) (snapshot : ℕ) : Option Rec :=
  skipNewer rs key snapshot (rs.length + 1) (seekRecs rs key)

/-- The lookup over the blocks of a table, with the last keys of the blocks as
its index. -/
def tableGet (blocks : List (List Rec)) (key : Key) (snapshot : ℕ) : Option Rec := do
  let j ← seekPos (blocks.map (lastKeyOf [])) key
  let block ← blocks[j]?
  blockGet block key snapshot

def hasKey (key : Key) (rs : List Rec) : Bool := rs.any fun r => r.key = key

/-- The versions of `key` lie in two blocks, or on both sides of a restart. -/
def Split (blocks : List (List Rec)) (key : Key) : Prop :=
  2 ≤ blocks.countP (hasKey key) ∨ ∃ b ∈ blocks, AcrossRestart (b.map Rec.key) key

instance (blocks : List (List Rec)) (key : Key) : Decidable (Split blocks key) :=
  inferInstanceAs (Decidable (_ ∨ _))

/-! ### Inside a block -/

theorem find_of_imp {l : List Rec} {p q : Rec → Bool} {r : Rec} (h : l.find? p = some r)
    (hr : q r = true) (himp : ∀ x, q x = true → p x = true) : l.find? q = some r := by
  obtain ⟨-, A, B, rfl, hA⟩ := List.find?_eq_some_iff_append.mp h
  refine List.find?_eq_some_iff_append.mpr ⟨hr, A, B, rfl, ?_⟩
  intro x hx
  have hno := hA x hx
  cases hq : q x with
  | false => rfl
  | true => simp [himp x hq] at hno

theorem countP_below_lt {rs : List Rec} {key : Key} {bound : ℕ} {r : Rec}
    (h : nextAfter rs key bound = some r) :
    rs.countP (fun x => x.key = key ∧ x.seqno < r.seqno) <
      rs.countP fun x => x.key = key ∧ x.seqno < bound := by
  obtain ⟨hr, A, B, rfl, -⟩ := List.find?_eq_some_iff_append.mp h
  have hsub : ∀ l : List Rec, l.countP (fun x => decide (x.key = key ∧ x.seqno < r.seqno)) ≤
      l.countP fun x => decide (x.key = key ∧ x.seqno < bound) := by
    intro l
    refine List.countP_mono_left ?_
    intro x _ hx
    simp only [decide_eq_true_eq] at hx hr ⊢
    exact ⟨hx.1, hx.2.trans hr.2⟩
  have hA := hsub A
  have hB := hsub B
  simp only [List.countP_append, List.countP_cons]
  rw [if_neg (by simp), if_pos hr]
  omega

theorem skipNewer_eq {rs : List Rec} {key : Key} {snapshot fuel bound : ℕ}
    (hbound : snapshot < bound)
    (hfuel : rs.countP (fun r => r.key = key ∧ r.seqno < bound) < fuel) :
    skipNewer rs key snapshot fuel (nextAfter rs key bound) = lookup rs key snapshot := by
  induction fuel generalizing bound with
  | zero => omega
  | succ fuel ih =>
    have himp : ∀ x : Rec, decide (x.Visible key snapshot) = true →
        decide (x.key = key ∧ x.seqno < bound) = true := by
      intro x hx
      rw [decide_eq_true_eq] at hx ⊢
      exact ⟨hx.1, hx.2.trans_lt hbound⟩
    cases hnext : nextAfter rs key bound with
    | none =>
      rw [skipNewer]
      symm
      rw [lookup, List.find?_eq_none]
      intro x hx hv
      exact List.find?_eq_none.mp hnext x hx (himp x hv)
      exact Nat.succ_ne_zero fuel
    | some r =>
      have hr := List.find?_some hnext
      simp only [decide_eq_true_eq] at hr
      rw [skipNewer, if_neg (not_not.mpr hr.1)]
      split
      · rename_i hle
        symm
        exact find_of_imp hnext (decide_eq_true ⟨hr.1, hle⟩) himp
      · rename_i hgt
        rw [hr.1]
        refine ih (by omega) ?_
        have hlt := countP_below_lt hnext
        omega

theorem blockGet_eq {rs : List Rec} {key : Key} (hs : SortedRecs rs)
    (hns : ¬ AcrossRestart (rs.map Rec.key) key) (snapshot : ℕ) :
    blockGet rs key snapshot = lookup rs key snapshot := by
  rw [blockGet, seekRecs_eq (keySorted_of_sorted hs) hns]
  cases hseek : rs.find? fun r => decide (key ≤ r.key) with
  | none =>
    rw [skipNewer]
    symm
    rw [lookup, List.find?_eq_none]
    intro x hx hv
    have hge := List.find?_eq_none.mp hseek x hx
    rw [decide_eq_true_eq] at hv hge
    exact hge hv.1.ge
    exact Nat.succ_ne_zero _
  | some r =>
    obtain ⟨hr, A, B, hl, hA⟩ := List.find?_eq_some_iff_append.mp hseek
    simp only [decide_eq_true_eq] at hr
    by_cases hkey : r.key = key
    · have hnext : nextAfter rs key (snapshot + r.seqno + 1) = some r := by
        refine find_of_imp hseek ?_ ?_
        · simp only [decide_eq_true_eq]
          exact ⟨hkey, by omega⟩
        · intro x hx
          simp only [decide_eq_true_eq] at hx ⊢
          exact hx.1.ge
      rw [← hnext]
      refine skipNewer_eq (by omega) ?_
      exact Nat.lt_succ_of_le List.countP_le_length
    · -- the key is not in the block
      rw [skipNewer, if_pos hkey]
      symm
      rw [lookup, List.find?_eq_none]
      intro x hx hv
      rw [decide_eq_true_eq] at hv
      have hlt : key < r.key := lt_of_le_of_ne hr (Ne.symm hkey)
      rw [hl] at hs hx
      rcases List.mem_append.mp hx with hx | hx
      · have := hA x hx
        simp [hv.1] at this
      · rcases List.mem_cons.mp hx with rfl | hx
        · exact hkey hv.1
        · have hrx := List.rel_of_pairwise_cons (List.pairwise_append.mp hs).2.1 hx
          rcases Rec.not_before_iff.mp hrx with h | ⟨h, -⟩
          · rw [hv.1] at h
            exact lt_asymm h hlt
          · exact hkey (h.trans hv.1)

/-! ### Over the blocks -/

section Table

variable {blocks : List (List Rec)} {key : Key}

theorem hasKey_iff {rs : List Rec} : hasKey key rs = true ↔ ∃ r ∈ rs, r.key = key := by
  simp [hasKey]

theorem lookup_eq_none {rs : List Rec} (h : hasKey key rs = false) (snapshot : ℕ) :
    lookup rs key snapshot = none := by
  rw [lookup, List.find?_eq_none]
  intro x hx hv
  rw [decide_eq_true_eq] at hv
  rw [← Bool.not_eq_true, hasKey_iff] at h
  exact h ⟨x, hx, hv.1⟩

theorem lastKeyOf_mem {rs : List Rec} (h : rs ≠ []) : ∃ r ∈ rs, r.key = lastKeyOf [] rs := by
  refine ⟨rs.getLast h, List.getLast_mem h, ?_⟩
  rw [lastKeyOf, List.getLast?_eq_some_getLast h]
  rfl

theorem key_le_lastKeyOf {rs : List Rec} (hs : SortedRecs rs) {r : Rec} (hr : r ∈ rs) :
    r.key ≤ lastKeyOf [] rs := by
  have hne := List.ne_nil_of_mem hr
  have hlast : lastKeyOf [] rs = (rs.getLast hne).key := by
    rw [lastKeyOf, List.getLast?_eq_some_getLast hne]
    rfl
  rw [← List.dropLast_append_getLast hne] at hs hr
  rw [hlast]
  rcases List.mem_append.mp hr with hr | hr
  · have hrel := (List.pairwise_append.mp hs).2.2 r hr _ List.mem_cons_self
    rcases Rec.not_before_iff.mp hrel with h | ⟨h, -⟩
    · exact h.le
    · exact h.le
  · rw [List.mem_singleton.mp hr]

theorem key_le_of_blocks {A B : List (List Rec)} {b : List Rec}
    (hs : SortedRecs (A ++ b :: B).flatten) {r r' : Rec} (hr : r ∈ b) (hr' : r' ∈ B.flatten) :
    r.key ≤ r'.key := by
  rw [List.flatten_append, List.flatten_cons] at hs
  have hrel := (List.pairwise_append.mp (List.pairwise_append.mp hs).2.1).2.2 r hr r' hr'
  rcases Rec.not_before_iff.mp hrel with h | ⟨h, -⟩
  · exact h.le
  · exact h.le

theorem sorted_of_mem (hs : SortedRecs blocks.flatten) {b : List Rec} (hb : b ∈ blocks) :
    SortedRecs b := hs.sublist (List.sublist_flatten_of_mem hb)

theorem lastKeys_sorted (hne : ∀ b ∈ blocks, b ≠ []) (hs : SortedRecs blocks.flatten) :
    KeySorted (blocks.map (lastKeyOf [])) := by
  refine List.pairwise_map.mpr ?_
  induction blocks with
  | nil => exact .nil
  | cons b blocks ih =>
    rw [List.flatten_cons] at hs
    obtain ⟨-, hrest, hcross⟩ := List.pairwise_append.mp hs
    refine List.pairwise_cons.mpr ⟨?_, ih (fun x hx => hne x (List.mem_cons_of_mem b hx)) hrest⟩
    intro b' hb'
    obtain ⟨r, hr, hrk⟩ := lastKeyOf_mem (hne b List.mem_cons_self)
    obtain ⟨r', hr', hrk'⟩ := lastKeyOf_mem (hne b' (List.mem_cons_of_mem b hb'))
    have hrel := hcross r hr r' (List.mem_flatten_of_mem hb' hr')
    rw [← hrk, ← hrk']
    rcases Rec.not_before_iff.mp hrel with h | ⟨h, -⟩
    · exact h.le
    · exact h.le

theorem not_acrossRestart_index (hne : ∀ b ∈ blocks, b ≠ [])
    (hone : blocks.countP (hasKey key) ≤ 1) :
    ¬ AcrossRestart (blocks.map (lastKeyOf [])) key := by
  rintro ⟨i, hi, hpos, hhere, hprev⟩
  rw [List.length_map] at hi
  have hlt := restart_lt hi
  have h16 : 0 < restartInterval * i := Nat.mul_pos (by decide) hpos
  have hlt' : restartInterval * i - 1 < blocks.length := by omega
  rw [List.getElem?_map, List.getElem?_eq_getElem hlt, Option.map_some, Option.some_inj] at hhere
  rw [List.getElem?_map, List.getElem?_eq_getElem hlt', Option.map_some, Option.some_inj] at hprev
  have hhas : ∀ b ∈ blocks, lastKeyOf [] b = key → hasKey key b = true := by
    intro b hb hk
    obtain ⟨r, hr, hrk⟩ := lastKeyOf_mem (hne b hb)
    exact hasKey_iff.mpr ⟨r, hr, hrk.trans hk⟩
  have hsplit : blocks = blocks.take (restartInterval * i) ++ blocks.drop (restartInterval * i) :=
    (List.take_append_drop _ _).symm
  rw [hsplit, List.countP_append] at hone
  have h₁ : 0 < (blocks.take (restartInterval * i)).countP (hasKey key) := by
    refine List.countP_pos_iff.mpr ⟨blocks[restartInterval * i - 1], ?_,
      hhas _ (List.getElem_mem hlt') hprev⟩
    refine List.mem_take_iff_getElem.mpr ⟨restartInterval * i - 1, by omega, rfl⟩
  have h₂ : 0 < (blocks.drop (restartInterval * i)).countP (hasKey key) := by
    refine List.countP_pos_iff.mpr ⟨blocks[restartInterval * i], ?_,
      hhas _ (List.getElem_mem hlt) hhere⟩
    rw [List.drop_eq_getElem_cons hlt]
    exact List.mem_cons_self
  omega

theorem lookup_append_of_not_left {l l' : List Rec} (h : hasKey key l = false) (snapshot : ℕ) :
    lookup (l ++ l') key snapshot = lookup l' key snapshot := by
  have hnone := lookup_eq_none h snapshot
  unfold lookup at hnone ⊢
  rw [List.find?_append, hnone, Option.none_or]

theorem lookup_append_of_not_right {l l' : List Rec} (h : hasKey key l' = false) (snapshot : ℕ) :
    lookup (l ++ l') key snapshot = lookup l key snapshot := by
  have hnone := lookup_eq_none h snapshot
  unfold lookup at hnone ⊢
  rw [List.find?_append, hnone, Option.or_none]

theorem hasKey_flatten_false {bs : List (List Rec)} (h : ∀ b ∈ bs, hasKey key b = false) :
    hasKey key bs.flatten = false := by
  rw [← Bool.not_eq_true, hasKey_iff]
  rintro ⟨r, hr, hk⟩
  obtain ⟨b, hb, hrb⟩ := List.mem_flatten.mp hr
  have hno := h b hb
  rw [← Bool.not_eq_true, hasKey_iff] at hno
  exact hno ⟨r, hrb, hk⟩

/-- Where the last keys of the blocks do not repeat over a restart of the index, a
lookup goes to the first block that ends at or above the key. -/
theorem tableGet_first (hne : ∀ b ∈ blocks, b ≠ []) (hs : SortedRecs blocks.flatten)
    (hidx : ¬ AcrossRestart (blocks.map (lastKeyOf [])) key) :
    (hasKey key blocks.flatten = false ∧ ∀ snapshot, tableGet blocks key snapshot = none) ∨
      ∃ A b B, blocks = A ++ b :: B ∧ (∀ x ∈ A, hasKey key x = false) ∧ key ≤ lastKeyOf [] b ∧
        ∀ snapshot, tableGet blocks key snapshot = blockGet b key snapshot := by
  have hbelow : ∀ b ∈ blocks, lastKeyOf [] b < key → hasKey key b = false := by
    intro b hb hlt
    rw [← Bool.not_eq_true, hasKey_iff]
    rintro ⟨r, hr, rfl⟩
    exact absurd (key_le_lastKeyOf (sorted_of_mem hs hb) hr) (not_le.mpr hlt)
  unfold tableGet
  rw [seekPos_eq (lastKeys_sorted hne hs) hidx, List.findIdx?_map]
  cases hj : blocks.findIdx? ((fun k => decide (key ≤ k)) ∘ lastKeyOf []) with
  | none =>
    refine .inl ⟨hasKey_flatten_false ?_, fun _ => rfl⟩
    intro b hb
    have hno := List.findIdx?_eq_none_iff.mp hj b hb
    simp only [Function.comp_apply, decide_eq_false_iff_not, not_le] at hno
    exact hbelow b hb hno
  | some j =>
    obtain ⟨hlt, hge, hfront⟩ := List.findIdx?_eq_some_iff_getElem.mp hj
    simp only [Function.comp_apply, decide_eq_true_eq] at hge hfront
    refine .inr ⟨blocks.take j, blocks[j], blocks.drop (j + 1), ?_, ?_, hge, ?_⟩
    · rw [← List.drop_eq_getElem_cons hlt, List.take_append_drop]
    · intro b hb
      obtain ⟨i, hi, rfl⟩ := List.mem_take_iff_getElem.mp hb
      have hno := hfront i (by omega)
      simp only [not_le] at hno
      exact hbelow _ (List.getElem_mem _) hno
    · intro snapshot
      show Option.bind (some j) _ = _
      rw [Option.bind_some]
      show Option.bind blocks[j]? _ = _
      rw [List.getElem?_eq_getElem hlt, Option.bind_some]

/-- When one block holds all versions of the key, a lookup goes to it. -/
theorem tableGet_one (hne : ∀ b ∈ blocks, b ≠ []) (hs : SortedRecs blocks.flatten)
    (hone : blocks.countP (hasKey key) ≤ 1) :
    (hasKey key blocks.flatten = false ∧ ∀ snapshot, tableGet blocks key snapshot = none) ∨
      ∃ b ∈ blocks, (∀ snapshot, tableGet blocks key snapshot = blockGet b key snapshot) ∧
        ∀ snapshot, lookup blocks.flatten key snapshot = lookup b key snapshot := by
  rcases tableGet_first hne hs (not_acrossRestart_index hne hone) with
    hnone | ⟨A, b, B, rfl, hA, hge, hget⟩
  · exact .inl hnone
  have hmem : b ∈ A ++ b :: B := List.mem_append_right A List.mem_cons_self
  have hB : hasKey key B.flatten = false := by
    rw [← Bool.not_eq_true, hasKey_iff]
    rintro ⟨r', hr', hrk'⟩
    obtain ⟨r, hr, hrk⟩ := lastKeyOf_mem (hne b hmem)
    have hle := key_le_of_blocks hs hr hr'
    rw [hrk, hrk'] at hle
    -- both `b` and a later block hold the key
    obtain ⟨b', hb', hrb'⟩ := List.mem_flatten.mp hr'
    have hhere : hasKey key b = true := hasKey_iff.mpr ⟨r, hr, hrk.trans (le_antisymm hle hge)⟩
    have hlater : 0 < B.countP (hasKey key) :=
      List.countP_pos_iff.mpr ⟨b', hb', hasKey_iff.mpr ⟨r', hrb', hrk'⟩⟩
    rw [List.countP_append, List.countP_cons, if_pos hhere] at hone
    omega
  refine .inr ⟨b, hmem, hget, fun snapshot => ?_⟩
  rw [List.flatten_append, List.flatten_cons,
    lookup_append_of_not_left (hasKey_flatten_false hA), lookup_append_of_not_right hB]

theorem tableGet_eq (hne : ∀ b ∈ blocks, b ≠ []) (hs : SortedRecs blocks.flatten)
    (hns : ¬ Split blocks key) (snapshot : ℕ) :
    tableGet blocks key snapshot = lookup blocks.flatten key snapshot := by
  obtain ⟨htwo, hacross⟩ := not_or.mp hns
  rcases tableGet_one hne hs (Nat.le_of_lt_succ (not_le.mp htwo)) with
    ⟨hno, hnone⟩ | ⟨b, hb, hget, hlook⟩
  · rw [hnone, lookup_eq_none hno]
  · rw [hget, hlook, blockGet_eq (sorted_of_mem hs hb) fun h => hacross ⟨b, hb, h⟩]

end Table

end PaddockKV.Sstable
