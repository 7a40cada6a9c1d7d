import Contextra.Mvcc.Coarsening

/-!
# What the commit register remembers

A write of `key` at `seq` is recorded while some bucket at an index of at least
`seq` covers the key, exactly or by a prefix.  Insertion records, coarsening and
merging only move records to later indices, and the two removals delete precisely
the buckets on their side of the bound.
-/

namespace Contextra.Mvcc

open List Option

open Std (TreeMap)

def SeqBucket.Covers : SeqBucket → Bytes → Prop
  | .exact keys, key => key ∈ keys
  | .coarsened prefixes _, key => ∃ p ∈ prefixes, p <+: key

namespace CommittedWrites

/-- The bucket at index `q` still speaks for the write of `key` at `seq`. -/
def RecordedAt (writes : CommittedWrites) (key : Bytes) (seq q : Nat) : Prop :=
  seq ≤ q ∧ ∃ bucket, writes.seqIndex[q]? = some bucket ∧ bucket.Covers key

def Recorded (writes : CommittedWrites) (key : Bytes) (seq : Nat) : Prop :=
  ∃ q, writes.RecordedAt key seq q

/-- Every index of the register lies before `bound`. -/
def Before (writes : CommittedWrites) (bound : Nat) : Prop :=
  ∀ q bucket, writes.seqIndex[q]? = some bucket → q < bound

/-- A key of an exact bucket is tracked, with that commit or a newer one. -/
def Tracked (writes : CommittedWrites) : Prop :=
  ∀ (q : Nat) keys key, writes.seqIndex[q]? = some (SeqBucket.exact keys) → key ∈ keys →
    ∃ newest, writes.keys[key]? = some newest ∧ q ≤ newest

def Coarse (writes : CommittedWrites) : Prop :=
  ∀ (q : Nat) keys, writes.seqIndex[q]? ≠ some (SeqBucket.exact keys)

variable {writes : CommittedWrites}

theorem Coarse.tracked (coarse : writes.Coarse) : writes.Tracked :=
  fun q keys _ found _ => absurd found (coarse q keys)

variable {β : Type}

theorem getElem?_foldl_erase (index : TreeMap Nat β) (seqs : List Nat) (q : Nat) :
    (seqs.foldl (·.erase ·) index)[q]? = if q ∈ seqs then none else index[q]? := by
  induction seqs generalizing index with
  | nil => simp
  | cons seq seqs ih =>
    rw [foldl_cons, ih, TreeMap.getElem?_erase]
    by_cases here : q = seq
    · simp [here]
    · have other : ¬ seq = q := fun same => here same.symm
      simp [here, other]

theorem getElem?_eraseFiltered (index : TreeMap Nat β) (side : Nat → Bool) (q : Nat) :
    (((index.toList.filter (fun entry => side entry.1)).map (·.1)).foldl
      (·.erase ·) index)[q]? = if side q then none else index[q]? := by
  have listed : q ∈ (index.toList.filter (fun entry => side entry.1)).map (·.1) ↔
      (∃ bucket, index[q]? = some bucket) ∧ side q = true := by
    simp only [List.mem_map, mem_filter, TreeMap.mem_toList_iff_getElem?_eq_some,
      Prod.exists, exists_and_right, exists_eq_right]
  rw [getElem?_foldl_erase]
  by_cases inList : q ∈ (index.toList.filter (fun entry => side entry.1)).map (·.1)
  · rw [if_pos inList, if_pos (listed.mp inList).2]
  · rw [if_neg inList]
    split
    · rename_i onSide
      cases found : index[q]? with
      | none => rfl
      | some bucket => exact absurd (listed.mpr ⟨⟨bucket, found⟩, onSide⟩) inList
    · rfl

theorem bucketWith_covers (key : Bytes) (old : Option SeqBucket)
    (fresh : old = none) : (bucketWith key old).Covers key := by
  subst fresh
  simp [bucketWith, SeqBucket.Covers]

variable {key : Bytes} {seq : Nat}

theorem insert_recorded_self (before : writes.Before seq) : (writes.insert key seq).Recorded key seq := by
  have vacant : writes.seqIndex[seq]? = none := by
    cases found : writes.seqIndex[seq]? with
    | none => rfl
    | some bucket => exact absurd (before seq bucket found) (lt_irrefl seq)
  refine ⟨seq, le_rfl, bucketWith key writes.seqIndex[seq]?, ?_, bucketWith_covers _ _ vacant⟩
  simp [insert]

theorem insert_recorded {key other : Bytes} {seq at' : Nat}
    (before : writes.Before at') (recorded : writes.Recorded key seq) :
    (writes.insert other at').Recorded key seq := by
  obtain ⟨q, atLeast, bucket, found, covers⟩ := recorded
  refine ⟨q, atLeast, bucket, ?_, covers⟩
  have older : ¬ at' = q := by
    have := before q bucket found
    omega
  simp [insert, TreeMap.getElem?_insert, older, found]

theorem insert_before {seq bound : Nat} (before : writes.Before seq) (within : seq < bound) :
    (writes.insert key seq).Before bound := by
  intro q bucket found
  simp only [insert, TreeMap.getElem?_insert] at found
  split at found
  · rename_i same
    have : seq = q := Std.LawfulEqOrd.eq_of_compare same
    omega
  · have := before q bucket found
    omega

theorem insert_tracked (before : writes.Before seq) (tracked : writes.Tracked) :
    (writes.insert key seq).Tracked := by
  intro q keys other found mem
  have vacant : writes.seqIndex[seq]? = none := by
    cases found : writes.seqIndex[seq]? with
    | none => rfl
    | some bucket => exact absurd (before seq bucket found) (lt_irrefl seq)
  simp only [insert, TreeMap.getElem?_insert, vacant, bucketWith] at found ⊢
  by_cases sameKey : key = other
  · refine ⟨seq, by simp [sameKey], ?_⟩
    split at found
    · rename_i same
      exact (Std.LawfulEqOrd.eq_of_compare same).symm.le
    · exact (before q _ found).le
  · split at found
    · simp only [Option.some.injEq, SeqBucket.exact.injEq] at found
      subst found
      simp only [mem_singleton] at mem
      exact absurd mem.symm sameKey
    · obtain ⟨newest, known, atLeast⟩ := tracked q keys other found mem
      exact ⟨newest, by simpa [sameKey] using known, atLeast⟩

theorem coarsenBucket_getElem? (state : CommittedWrites × Nat) (seq q : Nat) :
    (coarsenBucket state seq).1.seqIndex[q]? =
      if q = seq then
        (state.1.seqIndex[seq]?).map (fun bucket =>
          match bucket with
          | .exact keys => .coarsened (coarsenKeysToPrefixes keys 2) keys.length
          | .coarsened prefixes count => .coarsened prefixes count)
      else state.1.seqIndex[q]? := by
  unfold coarsenBucket
  split
  · rename_i keys found
    simp only [TreeMap.getElem?_insert, found, map_some, Nat.compare_eq_eq]
    by_cases same : q = seq
    · simp [same]
    · have other : ¬ seq = q := fun h => same h.symm
      simp [same, other]
  · rename_i notExact
    by_cases same : q = seq
    · subst same
      simp only [if_true]
      cases found : state.1.seqIndex[q]? with
      | none => rfl
      | some bucket =>
        cases bucket with
        | exact keys => exact absurd found (notExact keys)
        | coarsened prefixes count => rfl
    · simp [same]

theorem coarsenBucket_recordedAt {state : CommittedWrites × Nat} {seq q : Nat}
    (index : Nat) (recorded : state.1.RecordedAt key seq q) :
    (coarsenBucket state index).1.RecordedAt key seq q := by
  obtain ⟨atLeast, bucket, found, covers⟩ := recorded
  refine ⟨atLeast, ?_⟩
  rw [coarsenBucket_getElem?]
  by_cases same : q = index
  · subst same
    rw [if_pos rfl, found]
    cases bucket with
    | exact keys =>
      exact ⟨_, rfl, coarsenKeysToPrefixes_covers (by decide) covers⟩
    | coarsened prefixes count => exact ⟨_, rfl, covers⟩
  · rw [if_neg same]
    exact ⟨bucket, found, covers⟩

theorem foldl_coarsenBucket_recordedAt {seq q : Nat} (seqs : List Nat)
    (state : CommittedWrites × Nat) (recorded : state.1.RecordedAt key seq q) :
    (seqs.foldl coarsenBucket state).1.RecordedAt key seq q := by
  induction seqs generalizing state with
  | nil => exact recorded
  | cons index seqs ih =>
    exact ih _ (coarsenBucket_recordedAt index recorded)

variable {keys : List Bytes}

theorem foldl_coarsenBucket_exact {q : Nat} (seqs : List Nat) {state : CommittedWrites × Nat}
    (found : (seqs.foldl coarsenBucket state).1.seqIndex[q]? = some (SeqBucket.exact keys)) :
    q ∉ seqs ∧ state.1.seqIndex[q]? = some (SeqBucket.exact keys) := by
  induction seqs generalizing state with
  | nil => exact ⟨by simp, found⟩
  | cons index seqs ih =>
    obtain ⟨notLater, here⟩ := ih found
    rw [coarsenBucket_getElem?] at here
    by_cases same : q = index
    · rw [if_pos same] at here
      cases old : state.1.seqIndex[index]? with
      | none => simp [old] at here
      | some bucket => cases bucket <;> simp [old] at here
    · rw [if_neg same] at here
      exact ⟨by simp [same, notLater], here⟩

theorem coarsenBucket_isSome (state : CommittedWrites × Nat) (seq q : Nat) :
    ((coarsenBucket state seq).1.seqIndex[q]?).isSome = (state.1.seqIndex[q]?).isSome := by
  rw [coarsenBucket_getElem?]
  by_cases same : q = seq
  · simp [same]
  · simp [same]

theorem foldl_coarsenBucket_isSome (seqs : List Nat) (state : CommittedWrites × Nat) (q : Nat) :
    ((seqs.foldl coarsenBucket state).1.seqIndex[q]?).isSome =
      (state.1.seqIndex[q]?).isSome := by
  induction seqs generalizing state with
  | nil => rfl
  | cons index seqs ih =>
    exact (ih _).trans (coarsenBucket_isSome state index q)

theorem coarsenOldestBuckets_recorded (recorded : writes.Recorded key seq) :
    writes.coarsenOldestBuckets.1.Recorded key seq := by
  obtain ⟨q, here⟩ := recorded
  exact ⟨q, foldl_coarsenBucket_recordedAt _ (writes, 0) here⟩

theorem coarsenOldestBuckets_coarse (writes : CommittedWrites) :
    writes.coarsenOldestBuckets.1.Coarse := by
  intro q keys found
  obtain ⟨notListed, here⟩ := foldl_coarsenBucket_exact _ found
  refine notListed (TreeMap.mem_keys.mpr (TreeMap.mem_iff_isSome_getElem?.mpr ?_))
  simp only at here
  rw [here]
  rfl

variable {bound : Nat}

theorem coarsenOldestBuckets_before (before : writes.Before bound) : writes.coarsenOldestBuckets.1.Before bound := by
  intro q bucket found
  have present := foldl_coarsenBucket_isSome writes.seqIndex.keys (writes, 0) q
  rw [show (writes.seqIndex.keys.foldl coarsenBucket (writes, 0)).1.seqIndex[q]? = some bucket
    from found] at present
  obtain ⟨old, wasFound⟩ := isSome_iff_exists.mp present.symm
  exact before q old wasFound

theorem mergeParts_covers {bucket : SeqBucket} (covers : bucket.Covers key) :
    ∃ p ∈ (mergeParts bucket).1, p <+: key := by
  cases bucket with
  | exact keys => exact coarsenKeysToPrefixes_covers (by decide) covers
  | coarsened prefixes count => exact covers

theorem mergeBuckets_getElem? (writes : CommittedWrites) (s1 s2 q : Nat) (b1 b2 : SeqBucket) :
    (mergeBuckets writes s1 s2 b1 b2).seqIndex[q]? =
      if q = s2 then
        some (.coarsened (coarsenKeysToPrefixes ((mergeParts b1).1 ++ (mergeParts b2).1) 2)
          ((mergeParts b1).2 + (mergeParts b2).2))
      else if q = s1 then none else writes.seqIndex[q]? := by
  simp only [mergeBuckets, TreeMap.getElem?_insert, TreeMap.getElem?_erase, Nat.compare_eq_eq,
    eq_comm (b := q)]
  by_cases atSecond : q = s2
  · simp [atSecond]
  · simp [atSecond]

theorem mergeBuckets_recorded {s1 s2 : Nat} {b1 b2 : SeqBucket}
    (ordered : s1 < s2) (found1 : writes.seqIndex[s1]? = some b1)
    (found2 : writes.seqIndex[s2]? = some b2)
    (recorded : writes.Recorded key seq) : (mergeBuckets writes s1 s2 b1 b2).Recorded key seq := by
  obtain ⟨q, atLeast, bucket, found, covers⟩ := recorded
  -- a record in one of the two merged buckets moves to the later index
  have moved {part : List Bytes} (inMerged : part ⊆ (mergeParts b1).1 ++ (mergeParts b2).1)
      (summary : ∃ p ∈ part, p <+: key) (bound : seq ≤ s2) :
      (mergeBuckets writes s1 s2 b1 b2).Recorded key seq := by
    obtain ⟨p, inPart, starts⟩ := summary
    refine ⟨s2, bound, _, by rw [mergeBuckets_getElem?, if_pos rfl], ?_⟩
    exact coarsenKeysToPrefixes_covers_prefix (by decide) (inMerged inPart) starts
  by_cases atSecond : q = s2
  · subst atSecond
    rw [found2, Option.some.injEq] at found
    subst found
    exact moved (subset_append_right _ _) (mergeParts_covers covers) atLeast
  · by_cases atFirst : q = s1
    · subst atFirst
      rw [found1, Option.some.injEq] at found
      subst found
      exact moved (subset_append_left _ _) (mergeParts_covers covers) (by omega)
    · refine ⟨q, atLeast, bucket, ?_, covers⟩
      rw [mergeBuckets_getElem?, if_neg atSecond, if_neg atFirst, found]

theorem mergeBuckets_coarse (coarse : writes.Coarse) (s1 s2 : Nat)
    (b1 b2 : SeqBucket) : (mergeBuckets writes s1 s2 b1 b2).Coarse := by
  intro q keys found
  rw [mergeBuckets_getElem?] at found
  split at found
  · simp at found
  · split at found
    · simp at found
    · exact coarse q keys found

theorem mergeBuckets_before {bound s1 s2 : Nat} {b1 b2 : SeqBucket}
    (before : writes.Before bound) (found2 : writes.seqIndex[s2]? = some b2) :
    (mergeBuckets writes s1 s2 b1 b2).Before bound := by
  intro q bucket found
  rw [mergeBuckets_getElem?] at found
  split at found
  · rename_i same
    exact same ▸ before s2 b2 found2
  · split at found
    · simp at found
    · exact before q bucket found

theorem mergePairs_induction {motive : CommittedWrites → Prop}
    (merge : ∀ writes s1 s2 b1 b2, s1 < s2 → writes.seqIndex[s1]? = some b1 →
      writes.seqIndex[s2]? = some b2 → motive writes → motive (mergeBuckets writes s1 s2 b1 b2))
    (seqs : List Nat) (ascending : seqs.Pairwise (· < ·)) (state : CommittedWrites × Nat)
    (start : motive state.1) : motive (mergePairs seqs state).1 := by
  fun_induction mergePairs seqs state with
  | case1 s1 s2 seqs writes merged b1 b2 found2 found1 ih =>
    have pair := pairwise_cons.mp ascending
    have rest := (pairwise_cons.mp pair.2).2
    exact ih rest
      (merge writes s1 s2 _ _ (pair.1 s2 mem_cons_self) found1 found2 start)
  | case2 s1 s2 seqs writes merged missing ih =>
    have pair := pairwise_cons.mp ascending
    exact ih (pairwise_cons.mp pair.2).2 start
  | case3 => exact start

theorem keys_ascending (index : TreeMap Nat SeqBucket) : index.keys.Pairwise (· < ·) :=
  index.ordered_keys.imp Nat.compare_eq_lt.mp

theorem mergeAdjacentBuckets_induction {motive : CommittedWrites → Prop}
    (merge : ∀ writes s1 s2 b1 b2, s1 < s2 → writes.seqIndex[s1]? = some b1 →
      writes.seqIndex[s2]? = some b2 → motive writes → motive (mergeBuckets writes s1 s2 b1 b2))
    (start : motive writes) : motive writes.mergeAdjacentBuckets.1 := by
  unfold mergeAdjacentBuckets
  split
  · exact start
  · exact mergePairs_induction merge _ (keys_ascending _) _ start

theorem removeFromSeq_getElem? (writes : CommittedWrites) (first q : Nat) :
    (writes.removeFromSeq first).1.seqIndex[q]? =
      if first ≤ q then none else writes.seqIndex[q]? := by
  have erased := getElem?_eraseFiltered writes.seqIndex (fun seq => decide (first ≤ seq)) q
  rw [if_congr decide_eq_true_iff rfl rfl] at erased
  exact erased

theorem pruneThrough_getElem? (writes : CommittedWrites) (bound q : Nat) :
    (writes.pruneThrough bound).1.seqIndex[q]? =
      if q ≤ bound then none else writes.seqIndex[q]? := by
  have erased := getElem?_eraseFiltered writes.seqIndex (fun seq => decide (seq ≤ bound)) q
  rw [if_congr decide_eq_true_iff rfl rfl] at erased
  exact erased

theorem removeFromSeq_recorded {seq q first : Nat}
    (recorded : writes.RecordedAt key seq q) (older : q < first) :
    (writes.removeFromSeq first).1.Recorded key seq := by
  obtain ⟨atLeast, bucket, found, covers⟩ := recorded
  refine ⟨q, atLeast, bucket, ?_, covers⟩
  rw [removeFromSeq_getElem?, if_neg (by omega), found]

theorem pruneThrough_recorded {seq bound : Nat}
    (recorded : writes.Recorded key seq) (older : bound < seq) :
    (writes.pruneThrough bound).1.Recorded key seq := by
  obtain ⟨q, atLeast, bucket, found, covers⟩ := recorded
  refine ⟨q, atLeast, bucket, ?_, covers⟩
  rw [pruneThrough_getElem?, if_neg (by omega), found]

theorem removeFromSeq_before (before : writes.Before bound) (first : Nat) :
    (writes.removeFromSeq first).1.Before bound := by
  intro q bucket found
  rw [removeFromSeq_getElem?] at found
  split at found
  · simp at found
  · exact before q bucket found

theorem pruneThrough_before (before : writes.Before bound) (limit : Nat) :
    (writes.pruneThrough limit).1.Before bound := by
  intro q bucket found
  rw [pruneThrough_getElem?] at found
  split at found
  · simp at found
  · exact before q bucket found

theorem le_of_find?_descending {entries : List (Nat × β)}
    (descending : entries.Pairwise (fun left right => right.1 < left.1))
    {p : Nat × β → Bool} {found entry : Nat × β} (first : entries.find? p = some found)
    (mem : entry ∈ entries) (holds : p entry = true) : entry.1 ≤ found.1 := by
  obtain ⟨_, before, after, rfl, none⟩ := find?_eq_some_iff_append.mp first
  rcases mem_append.mp mem with inBefore | inRest
  · exact absurd holds (by simpa using none entry inBefore)
  · rcases mem_cons.mp inRest with rfl | inAfter
    · exact le_rfl
    · have tail := (pairwise_append.mp descending).2.1
      exact ((pairwise_cons.mp tail).1 entry inAfter).le

variable {index : TreeMap Nat SeqBucket}

theorem highestOldSeq_ge {first q : Nat}
    (found : index[q]? = some (SeqBucket.exact keys)) (mem : key ∈ keys)
    (older : q < first) : ∃ old, highestOldSeq index first key = some old ∧ q ≤ old := by
  have ascending := index.ordered_keys_toList.imp Nat.compare_eq_lt.mp
  have descending := pairwise_reverse.mpr
    (ascending.sublist (filter_sublist (p := fun entry => decide (entry.1 < first))))
  have candidate : (q, SeqBucket.exact keys) ∈
      (index.toList.filter (fun entry => decide (entry.1 < first))).reverse := by
    simp [TreeMap.mem_toList_iff_getElem?_eq_some, found, older]
  unfold highestOldSeq
  cases search : (index.toList.filter (fun entry => decide (entry.1 < first))).reverse.find?
      (fun entry => match entry.2 with
        | .exact keys => keys.contains key
        | .coarsened _ _ => false) with
  | none =>
    have refused := find?_eq_none.mp search _ candidate
    simp [mem] at refused
  | some newest =>
    refine ⟨newest.1, rfl, ?_⟩
    exact le_of_find?_descending descending search candidate (by simpa using mem)

variable {state : TreeMap Bytes Nat × Nat}

theorem restoreKey_keeps {first q seq : Nat} (found : index[q]? = some (SeqBucket.exact keys))
    (mem : key ∈ keys) (older : q < first)
    (known : ∃ newest, state.1[key]? = some newest ∧ q ≤ newest) (other : Bytes) :
    ∃ newest, (restoreKey index first seq state other).1[key]? = some newest ∧ q ≤ newest := by
  unfold restoreKey
  split
  · by_cases same : other = key
    · subst same
      obtain ⟨old, isOld, atLeast⟩ := highestOldSeq_ge found mem older
      exact ⟨old, by simp [isOld], atLeast⟩
    · obtain ⟨newest, here, atLeast⟩ := known
      refine ⟨newest, ?_, atLeast⟩
      split <;> simp [TreeMap.getElem?_insert, TreeMap.getElem?_erase, same, here]
  · exact known

theorem forgetBucket_keeps {first q : Nat}
    (found : index[q]? = some (SeqBucket.exact keys)) (mem : key ∈ keys) (older : q < first)
    (known : ∃ newest, state.1[key]? = some newest ∧ q ≤ newest) (entry : Nat × SeqBucket) :
    ∃ newest, (forgetBucket index first state entry).1[key]? = some newest ∧ q ≤ newest := by
  unfold forgetBucket
  split
  · rename_i bucketKeys isExact
    clear isExact
    induction bucketKeys generalizing state with
    | nil => exact known
    | cons head tail ih =>
      exact ih (restoreKey_keeps found mem older known head)
  · exact known

theorem removeFromSeq_tracked (tracked : writes.Tracked)
    (first : Nat) : (writes.removeFromSeq first).1.Tracked := by
  intro q keys key found mem
  rw [removeFromSeq_getElem?] at found
  split at found
  · simp at found
  · rename_i older
    have folded (doomed : List (Nat × SeqBucket)) (state : TreeMap Bytes Nat × Nat)
        (known : ∃ newest, state.1[key]? = some newest ∧ q ≤ newest) :
        ∃ newest, (doomed.foldl (forgetBucket writes.seqIndex first) state).1[key]? =
          some newest ∧ q ≤ newest := by
      induction doomed generalizing state with
      | nil => exact known
      | cons entry doomed ih =>
        exact ih _
          (forgetBucket_keeps found mem (not_le.mp older) known entry)
    exact folded _ (writes.keys, 0) (tracked q keys key found mem)

theorem pruneBucket_keeps {bound newest : Nat} (newer : bound < newest)
    (known : state.1[key]? = some newest) {entry : Nat × SeqBucket} (doomed : entry.1 ≤ bound) :
    (pruneBucket state entry).1[key]? = some newest := by
  unfold pruneBucket
  split
  · rename_i bucketKeys isExact
    clear isExact
    induction bucketKeys generalizing state with
    | nil => exact known
    | cons head tail ih =>
      have kept : (pruneKey entry.1 state head).1[key]? = some newest := by
        unfold pruneKey
        split
        · rename_i own
          have different : ¬ head = key := by
            rintro rfl
            rw [known, Option.some.injEq] at own
            omega
          simp [TreeMap.getElem?_erase, different, known]
        · exact known
      exact ih kept
  · exact known

theorem pruneThrough_keeps {newest bound : Nat}
    (known : writes.keys[key]? = some newest) (newer : bound < newest) :
    (writes.pruneThrough bound).1.keys[key]? = some newest := by
  have folded (doomed : List (Nat × SeqBucket)) (state : TreeMap Bytes Nat × Nat)
      (below : ∀ entry ∈ doomed, entry.1 ≤ bound) (here : state.1[key]? = some newest) :
      (doomed.foldl pruneBucket state).1[key]? = some newest := by
    induction doomed generalizing state with
    | nil => exact here
    | cons entry doomed ih =>
      exact ih _ (fun later inLater => below later (.tail _ inLater))
        (pruneBucket_keeps newer here (below entry mem_cons_self))
  refine folded _ (writes.keys, 0) (fun entry inDoomed => ?_) known
  simpa using (mem_filter.mp inDoomed).2

theorem pruneThrough_tracked (tracked : writes.Tracked)
    (bound : Nat) : (writes.pruneThrough bound).1.Tracked := by
  intro q keys key found mem
  rw [pruneThrough_getElem?] at found
  split at found
  · simp at found
  · rename_i newer
    obtain ⟨newest, known, atLeast⟩ := tracked q keys key found mem
    exact ⟨newest, pruneThrough_keeps known (by omega), atLeast⟩

end CommittedWrites

namespace SsiValidator

open CommittedWrites

/-- The register still knows of the write of `key` at `seq`. -/
def Recorded (validator : SsiValidator) (key : Bytes) (seq : Nat) : Prop :=
  validator.committedWrites.Recorded key seq

/-- The record of the write survives the removal of every bucket from `first` on. -/
def RecordedBefore (validator : SsiValidator) (key : Bytes) (seq first : Nat) : Prop :=
  ∃ q < first, validator.committedWrites.RecordedAt key seq q

/-- The register's invariant: every index lies before `bound` and exact keys are tracked. -/
structure Sound (validator : SsiValidator) (bound : Nat) : Prop where
  before : validator.committedWrites.Before bound
  tracked : validator.committedWrites.Tracked

variable {validator : SsiValidator}

theorem Sound.mono {bound larger : Nat}
    (sound : validator.Sound bound) (le : bound ≤ larger) : validator.Sound larger :=
  ⟨fun q bucket found => (sound.before q bucket found).trans_le le, sound.tracked⟩

theorem newWithBounds_sound (maxTrackedKeys bound : Nat) :
    (newWithBounds maxTrackedKeys).Sound bound := by
  constructor
  · intro q bucket found
    simp [newWithBounds, CommittedWrites.empty] at found
  · intro q keys key found
    simp [newWithBounds, CommittedWrites.empty] at found

theorem coarsenRound_coarse (writes : CommittedWrites) :
    writes.coarsenOldestBuckets.1.mergeAdjacentBuckets.1.Coarse :=
  mergeAdjacentBuckets_induction (motive := Coarse) (fun _ s1 s2 b1 b2 _ _ _ coarse =>
    mergeBuckets_coarse coarse s1 s2 b1 b2) (coarsenOldestBuckets_coarse writes)

variable {writes : CommittedWrites} {key : Bytes}

theorem coarsenRound_recorded {seq : Nat} (recorded : writes.Recorded key seq) :
    writes.coarsenOldestBuckets.1.mergeAdjacentBuckets.1.Recorded key seq :=
  mergeAdjacentBuckets_induction (motive := fun writes => writes.Recorded key seq)
    (fun _ _ _ _ _ ordered found1 found2 kept =>
    mergeBuckets_recorded ordered found1 found2 kept) (coarsenOldestBuckets_recorded recorded)

variable {bound : Nat}

theorem coarsenRound_before (before : writes.Before bound) :
    writes.coarsenOldestBuckets.1.mergeAdjacentBuckets.1.Before bound :=
  mergeAdjacentBuckets_induction (motive := fun writes => writes.Before bound)
    (fun _ _ _ _ _ _ _ found2 kept =>
    mergeBuckets_before kept found2) (coarsenOldestBuckets_before before)

theorem coarsenRounds_induction {motive : CommittedWrites → Prop}
    (round : ∀ writes, motive writes →
      motive writes.coarsenOldestBuckets.1.mergeAdjacentBuckets.1)
    (threshold rounds : Nat) (start : motive writes) :
    motive (coarsenRounds threshold rounds writes) := by
  induction rounds generalizing writes with
  | zero => exact start
  | succ rounds ih =>
    simp only [coarsenRounds]
    split
    · split
      · exact round writes start
      · exact ih (round writes start)
    · exact start

theorem recordCommitKey_recorded_self {seq : Nat}
    (before : validator.committedWrites.Before seq) :
    (validator.recordCommitKey key seq).Recorded key seq :=
  coarsenRounds_induction (motive := fun writes => writes.Recorded key seq)
    (fun _ => coarsenRound_recorded) _ _ (insert_recorded_self before)

theorem recordCommitKey_recorded {key other : Bytes}
    {seq at' : Nat} (before : validator.committedWrites.Before at')
    (recorded : validator.Recorded key seq) :
    (validator.recordCommitKey other at').Recorded key seq :=
  coarsenRounds_induction (motive := fun writes => writes.Recorded key seq)
    (fun _ => coarsenRound_recorded) _ _ (insert_recorded before recorded)

theorem recordCommitKey_sound {seq bound : Nat}
    (before : validator.committedWrites.Before seq) (tracked : validator.committedWrites.Tracked)
    (within : seq < bound) : (validator.recordCommitKey key seq).Sound bound where
  before := coarsenRounds_induction (motive := fun writes => writes.Before bound)
    (fun _ => coarsenRound_before) _ _ (insert_before before within)
  tracked := coarsenRounds_induction (motive := Tracked)
    (fun writes _ => (coarsenRound_coarse writes).tracked) _ _ (insert_tracked before tracked)

theorem forgetFrom_sound (sound : validator.Sound bound) (first : Nat) : (validator.forgetFrom first).Sound bound :=
  ⟨removeFromSeq_before sound.before first, removeFromSeq_tracked sound.tracked first⟩

theorem forgetFrom_recorded {seq first : Nat}
    (recorded : validator.RecordedBefore key seq first) :
    (validator.forgetFrom first).Recorded key seq := by
  obtain ⟨q, older, here⟩ := recorded
  exact removeFromSeq_recorded here older

theorem pruneThrough_sound (sound : validator.Sound bound) (limit : Nat) :
    (validator.pruneThrough limit).Sound bound := by
  unfold pruneThrough
  split
  · exact sound
  · exact ⟨pruneThrough_before sound.before limit, pruneThrough_tracked sound.tracked limit⟩

theorem pruneThrough_recorded {seq limit : Nat}
    (unpruned : (validator.pruneThrough limit).prunedThrough < seq)
    (recorded : validator.Recorded key seq) :
    (validator.pruneThrough limit).Recorded key seq := by
  unfold pruneThrough at unpruned ⊢
  split
  · exact recorded
  · rename_i accepted
    rw [if_neg accepted] at unpruned
    exact CommittedWrites.pruneThrough_recorded recorded (by simp at unpruned; omega)

theorem prunedThrough_le_pruneThrough (validator : SsiValidator) (limit : Nat) :
    validator.prunedThrough ≤ (validator.pruneThrough limit).prunedThrough := by
  unfold pruneThrough
  split
  · exact le_rfl
  · exact le_max_left _ _

theorem pruneThrough_prunedThrough_lt {limit seq : Nat}
    (unpruned : validator.prunedThrough < seq) (lower : limit < seq) :
    (validator.pruneThrough limit).prunedThrough < seq := by
  unfold pruneThrough
  split
  · exact unpruned
  · exact max_lt unpruned lower

theorem coarsenedPointConflict_isSome {key p : Bytes}
    {snapshot q count : Nat} {prefixes : List Bytes}
    (found : writes.seqIndex[q]? = some (SeqBucket.coarsened prefixes count))
    (newer : snapshot < q) (mem : p ∈ prefixes) (starts : p <+: key) :
    (coarsenedPointConflict writes key snapshot).isSome := by
  have listed : (q, SeqBucket.coarsened prefixes count) ∈ writes.seqIndex.toList :=
    TreeMap.mem_toList_iff_getElem?_eq_some.mpr found
  have hit : (prefixes.find? (·.isPrefixOf key)).isSome :=
    find?_isSome.mpr ⟨p, mem, isPrefixOf_iff_prefix.mpr starts⟩
  refine findSome?_isSome_iff.mpr ⟨_, listed, ?_⟩
  simpa [newer] using hit

theorem pointConflict_isSome {snapshot seq : Nat}
    (tracked : writes.Tracked) (recorded : writes.Recorded key seq) (newer : snapshot < seq)
    (prunedThrough : Nat) : (pointConflict writes prunedThrough (key, snapshot)).isSome := by
  obtain ⟨q, atLeast, bucket, found, covers⟩ := recorded
  simp only [pointConflict]
  split
  · rfl
  · cases bucket with
    | exact keys =>
      obtain ⟨newest, known, newestAtLeast⟩ := tracked q keys key found covers
      have modified : snapshot < newest := by omega
      simp [known, modified]
    | coarsened prefixes count =>
      obtain ⟨p, mem, starts⟩ := covers
      have refused := coarsenedPointConflict_isSome found (newer.trans_le atLeast)
        mem starts
      split
      · split
        · rfl
        · exact refused
      · exact refused

theorem validate_conflict (sound : validator.Sound bound) {seq snapshot : Nat}
    (recorded : validator.Recorded key seq) {reads : ReadSet}
    (contains : reads.keys[key]? = some snapshot) (older : snapshot < seq) (tx : TxId) :
    ∃ reason, validator.validate tx reads = .error (.conflict tx reason) := by
  have listed : (key, snapshot) ∈ reads.keys.toList :=
    TreeMap.mem_toList_iff_getElem?_eq_some.mpr contains
  have nonempty : reads.isEmpty = false := by
    have : reads.keys.isEmpty = false := by
      rw [← TreeMap.isEmpty_toList]
      exact isEmpty_eq_false_iff.mpr (ne_nil_of_mem listed)
    simp [ReadSet.isEmpty, this]
  have refused : (reads.keys.toList.findSome?
      (pointConflict validator.committedWrites validator.prunedThrough)).isSome :=
    findSome?_isSome_iff.mpr
      ⟨_, listed, pointConflict_isSome sound.tracked recorded older _⟩
  obtain ⟨reason, isReason⟩ : ∃ reason, validator.conflictReason reads = some reason := by
    refine isSome_iff_exists.mp ?_
    simp only [conflictReason, nonempty, Bool.false_eq_true, if_false]
    split
    · rfl
    · rw [isSome_or, refused, Bool.true_or]
  exact ⟨reason, by simp [validate, isReason]⟩

end SsiValidator

end Contextra.Mvcc
