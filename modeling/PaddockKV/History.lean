import PaddockKV.Records
import PaddockKV.Wal.Batch

/-!
# The versioned map

A history lists the commits in the order in which they were made, each with its
sequence number and its operations. What a reader at a snapshot should see of a
key is the last operation on it among the commits up to the snapshot.
-/

namespace PaddockKV

open Newest Wal

abbrev History := List (ℕ × WriteBatch)

/-- What `get_at` makes of the record it finds. -/
def hitValue (r : Rec) : Option Value :=
  match r.op with
  | .put => some r.value
  | .tombstone => none

namespace History

/-- The records of a history in the order in which they are applied. -/
def records (history : History) : List Rec := history.flatMap fun x => x.2.map (Op.toRec x.1)

def upTo (history : History) (snapshot : ℕ) : History := history.filter fun x => x.1 ≤ snapshot

/-- The last operation on `key` among the commits up to `snapshot`. -/
def lastOp (history : History) (key : Key) (snapshot : ℕ) : Option Rec :=
  (history.upTo snapshot).records.reverse.find? fun r => r.key = key

def valueAt (history : History) (key : Key) (snapshot : ℕ) : Option Value :=
  (history.lastOp key snapshot).bind hitValue

/-- Later commits have higher sequence numbers. -/
def Ascending (history : History) : Prop := history.Pairwise fun x y => x.1 ≤ y.1

theorem records_append (h h' : History) : records (h ++ h') = records h ++ records h' :=
  List.flatMap_append

theorem records_singleton (q : ℕ) (batch : WriteBatch) :
    records [(q, batch)] = batch.map (Op.toRec q) := List.flatMap_singleton ..

theorem toRec_seqno (q : ℕ) (op : Op) : (op.toRec q).seqno = q := by
  cases op <;> rfl

theorem mem_records {h : History} {r : Rec} :
    r ∈ records h ↔ ∃ x ∈ h, ∃ op ∈ x.2, r = op.toRec x.1 := by
  simp only [records, List.mem_flatMap, List.mem_map, eq_comm]

theorem records_upTo (h : History) (n : ℕ) :
    records (upTo h n) = (records h).filter fun r => r.seqno ≤ n := by
  induction h with
  | nil => rfl
  | cons x h ih =>
    have hx : ∀ r ∈ x.2.map (Op.toRec x.1), r.seqno = x.1 := by
      intro r hr
      obtain ⟨op, -, rfl⟩ := List.mem_map.mp hr
      exact toRec_seqno x.1 op
    have hsplit : records (x :: h) = x.2.map (Op.toRec x.1) ++ records h := rfl
    rw [hsplit, List.filter_append, ← ih]
    by_cases hn : x.1 ≤ n
    · have hall : (x.2.map (Op.toRec x.1)).filter (fun r => r.seqno ≤ n) =
          x.2.map (Op.toRec x.1) := by
        rw [List.filter_eq_self]
        intro r hr
        simpa [hx r hr] using hn
      rw [hall, upTo, List.filter_cons_of_pos (by simpa using hn)]
      rfl
    · have hnone : (x.2.map (Op.toRec x.1)).filter (fun r => r.seqno ≤ n) = [] := by
        rw [List.filter_eq_nil_iff]
        intro r hr
        simpa [hx r hr] using hn
      rw [hnone, upTo, List.filter_cons_of_neg (by simpa using hn)]
      rfl

theorem records_filter (h : History) : records (h.filter fun c => c.2 ≠ []) = records h := by
  induction h with
  | nil => rfl
  | cons c h ih =>
    by_cases hc : c.2 = []
    · rw [List.filter_cons_of_neg (by simpa using hc), ih]
      show _ = c.2.map _ ++ _
      rw [hc]
      rfl
    · rw [List.filter_cons_of_pos (by simpa using hc)]
      exact congrArg (c.2.map (Op.toRec c.1) ++ ·) ih

theorem records_sorted {h : History} (ha : Ascending h) :
    (records h).Pairwise fun r r' => r.seqno ≤ r'.seqno := by
  induction h with
  | nil => exact .nil
  | cons x h ih =>
    obtain ⟨hx, hh⟩ := List.pairwise_cons.mp ha
    refine List.pairwise_append.mpr ⟨?_, ih hh, ?_⟩
    · refine List.pairwise_map.mpr (List.pairwise_of_forall ?_)
      intro op op'
      rw [toRec_seqno, toRec_seqno]
    · intro r hr r' hr'
      obtain ⟨op, -, rfl⟩ := List.mem_map.mp hr
      obtain ⟨y, hy, op', -, rfl⟩ := mem_records.mp hr'
      rw [toRec_seqno, toRec_seqno]
      exact hx y hy

theorem lastOp_eq {h : History} (ha : Ascending h) (key : Key) (snapshot : ℕ) :
    lastOp h key snapshot = newestRec (records h).reverse key snapshot := by
  apply Option.ext
  intro r
  unfold lastOp newestRec
  rw [records_upTo, ← List.filter_reverse, List.find?_filter, List.find?_eq_some_iff_append,
    newest_eq_some_iff]
  have hvis : ∀ x : Rec,
      decide (decide (x.seqno ≤ snapshot) = true ∧ decide (x.key = key) = true) = true ↔
        x.Visible key snapshot := by
    intro x
    simp [Rec.Visible, and_comm]
  have hdesc : (records h).reverse.Pairwise fun r r' => r'.seqno ≤ r.seqno :=
    List.pairwise_reverse.mpr (records_sorted ha)
  constructor
  · rintro ⟨hr, A, B, hl, hA⟩
    rw [hl] at hdesc
    refine ⟨A, B, hl, (hvis r).mp hr, ?_, ?_⟩
    · intro x hx hv
      rw [← hvis] at hv
      have hno := hA x hx
      rw [hv] at hno
      cases hno
    · intro x hx _
      exact List.rel_of_pairwise_cons (List.pairwise_append.mp hdesc).2.1 hx
  · rintro ⟨A, B, hl, hr, hA, -⟩
    rw [hl] at hdesc
    refine ⟨(hvis r).mpr hr, A, B, hl, ?_⟩
    intro x hx
    have hle := (List.pairwise_append.mp hdesc).2.2 x hx r (by simp)
    -- a visible record in front would be of a lower number, against the order
    have hnot : ¬ x.Visible key snapshot := fun hv => absurd (hA x hx hv) hle.not_gt
    rw [← hvis, Bool.not_eq_true] at hnot
    rw [hnot]
    rfl

/-! ### Which commits a view depends on -/

section View

variable {h h' : History} {n : ℕ} {b : WriteBatch} {p : Rec → Bool}

theorem find_reverse_records_cons (c : ℕ × WriteBatch) (h : History) (p : Rec → Bool) :
    (records (c :: h)).reverse.find? p =
      ((records h).reverse.find? p).or ((c.2.map (Op.toRec c.1)).reverse.find? p) := by
  show (c.2.map (Op.toRec c.1) ++ records h).reverse.find? p = _
  rw [List.reverse_append, List.find?_append]

theorem find_commit_none {c : ℕ × WriteBatch} (hp : ∀ r, p r = true → r.seqno = n)
    (hc : c.2 ≠ [] → c.1 ≠ n) : (c.2.map (Op.toRec c.1)).reverse.find? p = none := by
  rw [List.find?_eq_none]
  intro r hr hpr
  obtain ⟨op, hop, rfl⟩ := List.mem_map.mp (List.mem_reverse.mp hr)
  have hseq := hp _ hpr
  rw [toRec_seqno] at hseq
  exact hc (List.ne_nil_of_mem hop) hseq

theorem find_records_none (hp : ∀ r, p r = true → r.seqno = n)
    (hno : ∀ c ∈ h, c.2 ≠ [] → c.1 ≠ n) : (records h).reverse.find? p = none := by
  induction h with
  | nil => rfl
  | cons c h ih =>
    rw [find_reverse_records_cons, ih fun d hd => hno d (List.mem_cons_of_mem c hd),
      find_commit_none hp (hno c List.mem_cons_self)]
    rfl

/-- Copies of a commit add nothing: the first record of the number `n` that is
found is the one in the commit itself. -/
theorem find_records_eq (hp : ∀ r, p r = true → r.seqno = n)
    (hsame : ∀ c ∈ h, c.2 ≠ [] → c.1 = n → c.2 = b) (hmem : (n, b) ∈ h) :
    (records h).reverse.find? p = (b.map (Op.toRec n)).reverse.find? p := by
  induction h with
  | nil => cases hmem
  | cons c h ih =>
    have hsame' : ∀ d ∈ h, d.2 ≠ [] → d.1 = n → d.2 = b :=
      fun d hd => hsame d (List.mem_cons_of_mem c hd)
    rw [find_reverse_records_cons]
    by_cases hin : (n, b) ∈ h
    · rw [ih hsame' hin]
      by_cases hc : c.2 ≠ [] ∧ c.1 = n
      · rw [hsame c List.mem_cons_self hc.1 hc.2, hc.2, Option.or_self]
      · rw [find_commit_none hp (fun hne heq => hc ⟨hne, heq⟩), Option.or_none]
    · rcases List.mem_cons.mp hmem with rfl | hmem
      · have hrest : (records h).reverse.find? p = none := by
          refine find_records_none hp ?_
          intro d hd hne heq
          have hb := hsame' d hd hne heq
          subst heq
          subst hb
          exact hin hd
        rw [hrest, Option.none_or]
      · exact absurd hmem hin

/-- What a reader sees depends only on which commits with operations there are,
provided that their numbers tell them apart. -/
theorem newestRec_congr (hsame : ∀ c : ℕ × WriteBatch, c.2 ≠ [] → (c ∈ h ↔ c ∈ h'))
    (hapart : ∀ c ∈ h, ∀ d ∈ h, c.2 ≠ [] → d.2 ≠ [] → c.1 = d.1 → c.2 = d.2) (key : Key)
    (snapshot : ℕ) :
    newestRec (records h).reverse key snapshot = newestRec (records h').reverse key snapshot := by
  refine newest_eq_of_ranks ?_
  intro n
  rw [newest_at_rank, newest_at_rank]
  have hp : ∀ r : Rec, decide (r.Visible key snapshot ∧ r.seqno = n) = true → r.seqno = n :=
    fun r hr => (of_decide_eq_true hr).2
  by_cases hex : ∃ c ∈ h, c.2 ≠ [] ∧ c.1 = n
  · obtain ⟨c, hc, hne, rfl⟩ := hex
    rw [find_records_eq (b := c.2) hp (fun d hd hd' heq => hapart d hd c hc hd' hne heq) hc,
      find_records_eq (b := c.2) hp ?_ ((hsame c hne).mp hc)]
    intro d hd hd' heq
    exact hapart d ((hsame d hd').mpr hd) c hc hd' hne heq
  · rw [find_records_none hp fun c hc hne heq => hex ⟨c, hc, hne, heq⟩,
      find_records_none hp fun c hc hne heq => hex ⟨c, (hsame c hne).mpr hc, hne, heq⟩]

theorem newestRec_same {acked : History} {key : Key} {snapshot : ℕ} {r r' : Rec}
    (hapart : ∀ c ∈ acked, ∀ d ∈ acked, c.2 ≠ [] → d.2 ≠ [] → c.1 = d.1 → c.2 = d.2)
    (hsub : ∀ c ∈ h, c.2 ≠ [] → c ∈ acked) (hsub' : ∀ c ∈ h', c.2 ≠ [] → c ∈ acked)
    (hr : newestRec (records h).reverse key snapshot = some r)
    (hr' : newestRec (records h').reverse key snapshot = some r') (heq : r.seqno = r'.seqno) :
    r = r' := by
  have hp : ∀ x : Rec, decide (x.Visible key snapshot ∧ x.seqno = r.seqno) = true →
      x.seqno = r.seqno := fun x hx => (of_decide_eq_true hx).2
  have hat := (newest_eq_some_iff_rank.mp hr).1
  have hat' := (newest_eq_some_iff_rank.mp hr').1
  rw [← heq, newest_at_rank] at hat'
  rw [newest_at_rank] at hat
  obtain ⟨c, hc, op, hop, hrc⟩ := mem_records.mp (List.mem_reverse.mp (newest_mem hr).1)
  obtain ⟨d, hd, op', hop', hrd⟩ := mem_records.mp (List.mem_reverse.mp (newest_mem hr').1)
  have hcne := List.ne_nil_of_mem hop
  have hdne := List.ne_nil_of_mem hop'
  have hcseq : r.seqno = c.1 := by rw [hrc, toRec_seqno]
  have hdseq : r.seqno = d.1 := by rw [heq, hrd, toRec_seqno]
  have hbatch : c.2 = d.2 :=
    hapart c (hsub c hc hcne) d (hsub' d hd hdne) hcne hdne (hcseq.symm.trans hdseq)
  have hmem : (r.seqno, c.2) ∈ h := by
    rw [hcseq]
    exact hc
  have hmem' : (r.seqno, c.2) ∈ h' := by
    rw [hdseq, hbatch]
    exact hd
  rw [find_records_eq hp ?_ hmem] at hat
  rw [find_records_eq hp ?_ hmem', hat] at hat'
  · exact Option.some.inj hat'
  · intro x hx hxne hxn
    exact hapart x (hsub' x hx hxne) c (hsub c hc hcne) hxne hcne (hxn.trans hcseq)
  · intro x hx hxne hxn
    exact hapart x (hsub x hx hxne) c (hsub c hc hcne) hxne hcne (hxn.trans hcseq)

end View

/-! ### Sources made from commits -/

/-- What a memtable lists after these commits: later operations stand in front of
earlier ones of the same internal key. -/
def sortedRecs (history : History) : List Rec := isort (records history).reverse

theorem sortedRecs_sorted (h : History) : SortedRecs (sortedRecs h) := sorted_isort _

theorem mem_sortedRecs {h : History} {r : Rec} : r ∈ sortedRecs h ↔ r ∈ records h := by
  rw [sortedRecs, mem_isort, List.mem_reverse]

theorem sortedRecs_append (h h' : History) :
    sortedRecs (h ++ h') = (records h').foldl (fun l r => insertRec r l) (sortedRecs h) := by
  unfold sortedRecs isort
  rw [records_append, List.reverse_append, List.foldr_append, List.foldr_reverse]

theorem reverse_records_flatten (sources : List History) :
    (records sources.reverse.flatten).reverse =
      (sources.map fun h => (records h).reverse).flatten := by
  induction sources with
  | nil => rfl
  | cons h sources ih =>
    rw [List.reverse_cons, List.flatten_append, List.flatten_singleton, records_append,
      List.reverse_append, ih, List.map_cons, List.flatten_cons]

theorem isort_sortedRecs (sources : List History) :
    isort (sources.map sortedRecs).flatten = sortedRecs sources.reverse.flatten := by
  have hsort := isort_flatten (sources.map fun h => (records h).reverse)
  rw [List.map_map] at hsort
  rw [sortedRecs, reverse_records_flatten]
  exact hsort

theorem newestRec_sortedRecs (sources : List History) (key : Key) (snapshot : ℕ) :
    newestRec (sources.map sortedRecs).flatten key snapshot =
      newestRec (records sources.reverse.flatten).reverse key snapshot := by
  rw [← newestRec_isort, isort_sortedRecs, sortedRecs, newestRec_isort]

/-- The highest sequence number among `start` and those of the commits. -/
def maxSeqno (start : ℕ) (history : History) : ℕ := history.foldl (fun n x => max n x.1) start

theorem maxSeqno_append (start : ℕ) (h h' : History) :
    maxSeqno start (h ++ h') = maxSeqno (maxSeqno start h) h' := List.foldl_append

theorem start_le_maxSeqno (start : ℕ) (h : History) : start ≤ maxSeqno start h := by
  induction h generalizing start with
  | nil => exact le_rfl
  | cons x h ih => exact (le_max_left _ _).trans (ih _)

theorem le_maxSeqno {start : ℕ} {h : History} {x : ℕ × WriteBatch} (hx : x ∈ h) :
    x.1 ≤ maxSeqno start h := by
  induction h generalizing start with
  | nil => cases hx
  | cons y h ih =>
    rcases List.mem_cons.mp hx with rfl | hx
    · exact (le_max_right _ _).trans (start_le_maxSeqno _ _)
    · exact ih hx

end History

end PaddockKV
