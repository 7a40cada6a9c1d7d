import Contextra.Mvcc.Register

/-!
# Validation after any sequence of calls

Recording, batches, recording after validation and pruning, in any order with commit sequences that
do not go down.  A write into a bucket that is coarse already is not covered by the bucket, but then
the key itself stays tracked.
-/

namespace Contextra.Mvcc

open Option
open List hiding keys

open Std (TreeMap)

namespace CommittedWrites

/-- The register still refuses a read of `key` that is older than `seq`. -/
def Remembers (writes : CommittedWrites) (key : Bytes) (seq : Nat) : Prop :=
  (∃ newest, writes.keys[key]? = some newest ∧ seq ≤ newest) ∨
    ∃ q prefixes count, writes.seqIndex[q]? = some (SeqBucket.coarsened prefixes count) ∧
      seq ≤ q ∧ ∃ p ∈ prefixes, p <+: key

variable {writes : CommittedWrites} {key : Bytes} {seq : Nat}

theorem insert_remembers_self (writes : CommittedWrites) (key : Bytes) (seq : Nat) :
    (writes.insert key seq).Remembers key seq :=
  .inl ⟨seq, by simp [insert], le_rfl⟩

theorem insert_remembers {other : Bytes} {at' : Nat} (notOlder : seq ≤ at')
    (remembers : writes.Remembers key seq) : (writes.insert other at').Remembers key seq := by
  rcases remembers with ⟨newest, known, atLeast⟩ | ⟨q, prefixes, count, found, atLeast, covers⟩
  · by_cases same : other = key
    · exact .inl ⟨at', by simp [insert, same], notOlder⟩
    · exact .inl ⟨newest, by simpa [insert, TreeMap.getElem?_insert, same] using known, atLeast⟩
  · by_cases same : at' = q
    · -- a coarse bucket counts the new key but keeps its prefixes
      subst same
      exact .inr ⟨at', prefixes, count + 1, by simp [insert, found, bucketWith], atLeast, covers⟩
    · refine .inr ⟨q, prefixes, count, ?_, atLeast, covers⟩
      simpa [insert, TreeMap.getElem?_insert, same] using found

theorem dropOwnKeys_getElem? (keys : TreeMap Bytes Nat) (seq : Nat) (bucketKeys : List Bytes)
    (key : Bytes) :
    (dropOwnKeys keys seq bucketKeys)[key]? =
      if key ∈ bucketKeys ∧ keys[key]? = some seq then none else keys[key]? := by
  induction bucketKeys generalizing keys with
  | nil => simp [dropOwnKeys]
  | cons head tail ih =>
    have step : dropOwnKeys keys seq (head :: tail) =
        dropOwnKeys (if keys[head]? = some seq then keys.erase head else keys) seq tail := rfl
    rw [step, ih]
    by_cases same : key = head
    · subst same
      by_cases own : keys[key]? = some seq
      · simp [own]
      · simp [own]
    · have other : ¬ head = key := fun h => same h.symm
      split <;> simp [TreeMap.getElem?_erase, same, other]

theorem dropOwnKeys_keeps {keys : TreeMap Bytes Nat} {newest : Nat} (bucketKeys : List Bytes)
    (known : keys[key]? = some newest) (seq : Nat) :
    (dropOwnKeys keys seq bucketKeys)[key]? = some newest ∨ (key ∈ bucketKeys ∧ newest = seq) := by
  rw [dropOwnKeys_getElem?]
  by_cases own : key ∈ bucketKeys ∧ keys[key]? = some seq
  · refine .inr ⟨own.1, ?_⟩
    rw [known] at own
    exact some.inj own.2
  · exact .inl (by rw [if_neg own, known])

theorem coarsenBucket_remembers {state : CommittedWrites × Nat} (index : Nat)
    (remembers : state.1.Remembers key seq) :
    (coarsenBucket state index).1.Remembers key seq := by
  rcases remembers with ⟨newest, known, atLeast⟩ | ⟨q, prefixes, count, found, atLeast, covers⟩
  · unfold coarsenBucket
    split
    · rename_i keys isExact
      rcases dropOwnKeys_keeps keys known index with stays | ⟨mem, rfl⟩
      · exact .inl ⟨newest, stays, atLeast⟩
      · exact .inr ⟨newest, coarsenKeysToPrefixes keys 2, keys.length, by simp, atLeast,
          coarsenKeysToPrefixes_covers (by decide) mem⟩
    · exact .inl ⟨newest, known, atLeast⟩
  · refine .inr ⟨q, prefixes, count, ?_, atLeast, covers⟩
    rw [coarsenBucket_getElem?]
    by_cases same : q = index
    · subst same
      simp [found]
    · rw [if_neg same, found]

theorem coarsenOldestBuckets_remembers (remembers : writes.Remembers key seq) :
    writes.coarsenOldestBuckets.1.Remembers key seq := by
  have folded (seqs : List Nat) (state : CommittedWrites × Nat)
      (here : state.1.Remembers key seq) :
      (seqs.foldl coarsenBucket state).1.Remembers key seq := by
    induction seqs generalizing state with
    | nil => exact here
    | cons index seqs ih =>
      exact ih _ (coarsenBucket_remembers index here)
  exact folded _ (writes, 0) remembers

theorem mergeBuckets_remembers {s1 s2 : Nat} {b1 b2 : SeqBucket} (ordered : s1 < s2)
    (found1 : writes.seqIndex[s1]? = some b1) (found2 : writes.seqIndex[s2]? = some b2)
    (remembers : writes.Remembers key seq) :
    (mergeBuckets writes s1 s2 b1 b2).Remembers key seq := by
  have summarized {part : List Bytes} (inMerged : part ⊆ (mergeParts b1).1 ++ (mergeParts b2).1)
      (summary : ∃ p ∈ part, p <+: key) (bound : seq ≤ s2) :
      (mergeBuckets writes s1 s2 b1 b2).Remembers key seq := by
    obtain ⟨p, inPart, starts⟩ := summary
    refine .inr ⟨s2, _, _, by rw [mergeBuckets_getElem?, if_pos rfl], bound, ?_⟩
    exact coarsenKeysToPrefixes_covers_prefix (by decide) (inMerged inPart) starts
  have ownCovered {bucket : SeqBucket} (mem : key ∈ ownKeysOf bucket) :
      bucket.Covers key := by
    cases bucket with
    | exact keys => exact mem
    | coarsened prefixes count => simp [ownKeysOf] at mem
  rcases remembers with ⟨newest, known, atLeast⟩ | ⟨q, prefixes, count, found, atLeast, covers⟩
  · rcases dropOwnKeys_keeps (ownKeysOf b1) known s1 with first | ⟨inFirst, rfl⟩
    · rcases dropOwnKeys_keeps (ownKeysOf b2) first s2 with second | ⟨inSecond, rfl⟩
      · exact .inl ⟨newest, second, atLeast⟩
      · exact summarized (subset_append_right _ _)
          (mergeParts_covers (ownCovered inSecond)) atLeast
    · exact summarized (subset_append_left _ _)
        (mergeParts_covers (ownCovered inFirst)) (by omega)
  · by_cases atSecond : q = s2
    · subst atSecond
      rw [found2, Option.some.injEq] at found
      subst found
      exact summarized (subset_append_right _ _) covers atLeast
    · by_cases atFirst : q = s1
      · subst atFirst
        rw [found1, Option.some.injEq] at found
        subst found
        exact summarized (subset_append_left _ _) covers (by omega)
      · refine .inr ⟨q, prefixes, count, ?_, atLeast, covers⟩
        rw [mergeBuckets_getElem?, if_neg atSecond, if_neg atFirst, found]

theorem pruneThrough_remembers {bound : Nat} (remembers : writes.Remembers key seq)
    (newer : bound < seq) : (writes.pruneThrough bound).1.Remembers key seq := by
  rcases remembers with ⟨newest, known, atLeast⟩ | ⟨q, prefixes, count, found, atLeast, covers⟩
  · exact .inl ⟨newest, pruneThrough_keeps known (by omega), atLeast⟩
  · refine .inr ⟨q, prefixes, count, ?_, atLeast, covers⟩
    rw [pruneThrough_getElem?, if_neg (by omega), found]

end CommittedWrites

def ReadSet.Overlaps (reads : ReadSet) (key : Bytes) (snapshot : Nat) : Prop :=
  reads.keys[key]? = some snapshot ∨
    ∃ range, range <+: key ∧ reads.prefixes[range]? = some snapshot

namespace SsiValidator

open CommittedWrites

/-- `record_commit_keys`: one capacity check after the whole batch. -/
def recordCommitKeys (validator : SsiValidator) (keys : List Bytes) (commitSeq : Nat) :
    SsiValidator :=
  { validator with
    committedWrites := checkAndCoarsenIfNeeded validator.maxTrackedKeys
      (keys.foldl (fun writes key => writes.insert key commitSeq) validator.committedWrites) }

/-- `validate_and_record`: nothing is recorded after a conflict, and there is no
capacity check. -/
def validateAndRecord (validator : SsiValidator) (tx : TxId) (reads : ReadSet)
    (writeKeys : List Bytes) (commitSeq : Nat) : Except ContextraError SsiValidator :=
  match validator.validate tx reads with
  | .error conflict => .error conflict
  | .ok () =>
    .ok { validator with
      committedWrites :=
        writeKeys.foldl (fun writes key => writes.insert key commitSeq)
          validator.committedWrites }

inductive Call where
  | recordCommitKey (key : Bytes) (commitSeq : SeqNo)
  | recordCommitKeys (keys : List Bytes) (commitSeq : SeqNo)
  | validateAndRecord (tx : TxId) (reads : ReadSet) (writeKeys : List Bytes) (commitSeq : SeqNo)
  | pruneThrough (bound : Nat)

/-- The commit sequence of a recording call, its tombstone bit masked. -/
def Call.commitSeq : Call → Option Nat
  | .recordCommitKey _ seq => some seq.raw
  | .recordCommitKeys _ seq => some seq.raw
  | .validateAndRecord _ _ _ seq => some seq.raw
  | .pruneThrough _ => none

structure Session where
  validator : SsiValidator
  recorded : List (Bytes × Nat)

namespace Session

/-- A validator of the given capacity that has seen no call. -/
def start (maxTrackedKeys : Nat) : Session := ⟨newWithBounds maxTrackedKeys, []⟩

def perform (session : Session) : Call → Session
  | .recordCommitKey key seq =>
    ⟨session.validator.recordCommitKey key seq.raw, session.recorded ++ [(key, seq.raw)]⟩
  | .recordCommitKeys keys seq =>
    ⟨session.validator.recordCommitKeys keys seq.raw,
      session.recorded ++ keys.map (·, seq.raw)⟩
  | .validateAndRecord tx reads writeKeys seq =>
    match session.validator.validateAndRecord tx reads writeKeys seq.raw with
    | .ok validator => ⟨validator, session.recorded ++ writeKeys.map (·, seq.raw)⟩
    | .error _ => session
  | .pruneThrough bound => { session with validator := session.validator.pruneThrough bound }

/-- The write is remembered, or it is at or below the prune watermark. -/
def Knows (session : Session) (key : Bytes) (seq : Nat) : Prop :=
  seq ≤ session.validator.prunedThrough ∨ session.validator.committedWrites.Remembers key seq

/-- Every recorded write is known and none is newer than `last`. -/
def Complete (session : Session) (last : Nat) : Prop :=
  ∀ key seq, (key, seq) ∈ session.recorded → seq ≤ last ∧ session.Knows key seq

end Session

theorem checkAndCoarsen_remembers {writes : CommittedWrites} {key : Bytes} {seq : Nat}
    (maxTrackedKeys : Nat) (remembers : writes.Remembers key seq) :
    (checkAndCoarsenIfNeeded maxTrackedKeys writes).Remembers key seq :=
  coarsenRounds_induction (motive := fun writes => writes.Remembers key seq)
    (fun _ here => mergeAdjacentBuckets_induction
      (motive := fun writes => writes.Remembers key seq)
      (fun _ _ _ _ _ ordered found1 found2 kept =>
        mergeBuckets_remembers ordered found1 found2 kept)
      (coarsenOldestBuckets_remembers here)) _ _ remembers

theorem insertAll_remembers {writes : CommittedWrites} {key : Bytes} {seq at' : Nat}
    (keys : List Bytes) (notOlder : seq ≤ at')
    (known : writes.Remembers key seq ∨ (key ∈ keys ∧ seq = at')) :
    (keys.foldl (fun writes key => writes.insert key at') writes).Remembers key seq := by
  induction keys generalizing writes with
  | nil => exact known.resolve_right (by simp)
  | cons head tail ih =>
    apply ih
    rcases known with remembers | ⟨mem, rfl⟩
    · exact .inl (insert_remembers notOlder remembers)
    · rcases mem_cons.mp mem with rfl | later
      · exact .inl (insert_remembers_self writes key seq)
      · exact .inr ⟨later, rfl⟩

namespace Session

variable {session : Session} {last : Nat}

theorem Complete.record (complete : session.Complete last) (keys : List Bytes) {seq : Nat}
    {validator : SsiValidator} (notOlder : last ≤ seq)
    (pruned : validator.prunedThrough = session.validator.prunedThrough)
    (remembers : ∀ key old, old ≤ seq →
      session.validator.committedWrites.Remembers key old ∨ (key ∈ keys ∧ old = seq) →
        validator.committedWrites.Remembers key old) :
    Complete ⟨validator, session.recorded ++ keys.map (·, seq)⟩ seq := by
  intro key old mem
  rcases mem_append.mp mem with before | added
  · obtain ⟨bounded, known⟩ := complete key old before
    have below : old ≤ seq := bounded.trans notOlder
    refine ⟨below, ?_⟩
    rcases known with covered | kept
    · exact .inl (pruned ▸ covered)
    · exact .inr (remembers key old below (.inl kept))
  · obtain ⟨_, inKeys, same⟩ := List.mem_map.mp added
    cases same
    exact ⟨le_rfl, .inr (remembers key seq le_rfl (.inr ⟨inKeys, rfl⟩))⟩

theorem Complete.perform (complete : session.Complete last) (call : Call)
    (notOlder : ∀ seq ∈ call.commitSeq, last ≤ seq) :
    (session.perform call).Complete (call.commitSeq.getD last) := by
  cases call with
  | recordCommitKey key seq =>
    refine complete.record [key] (notOlder seq.raw rfl) rfl ?_
    intro other old below known
    exact checkAndCoarsen_remembers _ (insertAll_remembers [key] below known)
  | recordCommitKeys keys seq =>
    refine complete.record keys (notOlder seq.raw rfl) rfl ?_
    intro other old below known
    exact checkAndCoarsen_remembers _ (insertAll_remembers keys below known)
  | validateAndRecord tx reads writeKeys seq =>
    have newer : last ≤ seq.raw := notOlder seq.raw rfl
    simp only [Session.perform, validateAndRecord, Call.commitSeq, getD_some]
    cases session.validator.validate tx reads with
    | error conflict =>
      exact fun key old mem =>
        ⟨(complete key old mem).1.trans newer, (complete key old mem).2⟩
    | ok _ => exact complete.record _ newer rfl fun other old below known =>
      insertAll_remembers _ below known
  | pruneThrough bound =>
    intro key old mem
    obtain ⟨bounded, known⟩ := complete key old mem
    refine ⟨bounded, ?_⟩
    rcases known with covered | kept
    · exact .inl (covered.trans (prunedThrough_le_pruneThrough session.validator bound))
    · simp only [Session.perform, Knows, SsiValidator.pruneThrough]
      split
      · exact .inr kept
      · by_cases below : old ≤ bound
        · exact .inl (below.trans (le_max_right _ _))
        · exact .inr (pruneThrough_remembers kept (not_le.mp below))

theorem complete_calls {calls : List Call} (complete : session.Complete last)
    (ascending : (last :: calls.filterMap Call.commitSeq).Pairwise (· ≤ ·)) :
    ∃ final, (calls.foldl Session.perform session).Complete final := by
  induction calls generalizing session last with
  | nil => exact ⟨last, complete⟩
  | cons call calls ih =>
    cases seqOf : call.commitSeq with
    | none =>
      rw [filterMap_cons_none seqOf] at ascending
      have next := complete.perform call (by simp [seqOf])
      rw [seqOf] at next
      exact ih next ascending
    | some seq =>
      rw [filterMap_cons_some seqOf] at ascending
      obtain ⟨first, rest⟩ := pairwise_cons.mp ascending
      have next := complete.perform call (by simpa [seqOf] using first seq mem_cons_self)
      rw [seqOf] at next
      exact ih next rest

end Session

theorem coarsenedRangeConflict_isSome {writes : CommittedWrites} {key p range : Bytes}
    {snapshot q count : Nat} {prefixes : List Bytes}
    (found : writes.seqIndex[q]? = some (SeqBucket.coarsened prefixes count))
    (newer : snapshot < q) (mem : p ∈ prefixes) (starts : p <+: key)
    (inRange : range <+: key) : (coarsenedRangeConflict writes range snapshot).isSome := by
  have listed : (q, SeqBucket.coarsened prefixes count) ∈ writes.seqIndex.toList :=
    TreeMap.mem_toList_iff_getElem?_eq_some.mpr found
  -- two prefixes of one key are comparable
  have comparable : (range.isPrefixOf p || p.isPrefixOf range) = true := by
    simp only [Bool.or_eq_true, isPrefixOf_iff_prefix]
    exact prefix_or_prefix_of_prefix inRange starts
  have hit : (prefixes.find? fun coarse =>
      range.isPrefixOf coarse || coarse.isPrefixOf range).isSome :=
    find?_isSome.mpr ⟨p, mem, comparable⟩
  refine findSome?_isSome_iff.mpr ⟨_, listed, ?_⟩
  simpa [newer] using hit

section Remembered

variable {writes : CommittedWrites} {key : Bytes} {seq snapshot : Nat}

theorem pointConflict_of_remembers (remembers : writes.Remembers key seq) (newer : snapshot < seq)
    (prunedThrough : Nat) : (pointConflict writes prunedThrough (key, snapshot)).isSome := by
  simp only [pointConflict]
  split
  · rfl
  · rcases remembers with ⟨newest, known, atLeast⟩ |
      ⟨q, prefixes, count, found, atLeast, p, mem, starts⟩
    · have modified : snapshot < newest := newer.trans_le atLeast
      simp [known, modified]
    · have refused := coarsenedPointConflict_isSome found (newer.trans_le atLeast)
        mem starts
      split
      · split
        · rfl
        · exact refused
      · exact refused

theorem rangeConflict_of_remembers {range : Bytes} (remembers : writes.Remembers key seq)
    (newer : snapshot < seq) (inRange : range <+: key) (prunedThrough : Nat) :
    (rangeConflict writes prunedThrough (range, snapshot)).isSome := by
  simp only [rangeConflict]
  split
  · rfl
  · rcases remembers with ⟨newest, known, atLeast⟩ |
      ⟨q, prefixes, count, found, atLeast, p, mem, starts⟩
    · have listed : (key, newest) ∈ writes.keys.toList :=
        TreeMap.mem_toList_iff_getElem?_eq_some.mpr known
      have modified : snapshot < newest := newer.trans_le atLeast
      have phantom : (committedRangeConflict writes range snapshot).isSome :=
        findSome?_isSome_iff.mpr
          ⟨_, listed, by simp [List.isPrefixOf_iff_prefix.mpr inRange, modified]⟩
      rw [isSome_or, phantom, Bool.true_or]
    · have refused := coarsenedRangeConflict_isSome found (newer.trans_le atLeast)
        mem starts inRange
      rw [isSome_or, refused, Bool.or_true]

end Remembered

theorem isEmpty_of_overlaps {reads : ReadSet} {key : Bytes} {snapshot : Nat}
    (overlaps : reads.Overlaps key snapshot) : reads.isEmpty = false := by
  have filled {map : TreeMap Bytes Nat} {entry : Bytes} (found : map[entry]? = some snapshot) :
      map.isEmpty = false := by
    rw [← TreeMap.isEmpty_toList]
    exact isEmpty_eq_false_iff.mpr
      (ne_nil_of_mem (TreeMap.mem_toList_iff_getElem?_eq_some.mpr found))
  rcases overlaps with found | ⟨range, -, found⟩
  · simp [ReadSet.isEmpty, filled found]
  · simp [ReadSet.isEmpty, filled found]

theorem readConflict_of_pruned {writes : CommittedWrites} {prunedThrough : Nat}
    {read : Bytes × Nat} (tooOld : read.2 < prunedThrough) :
    (pointConflict writes prunedThrough read).isSome ∧
      (rangeConflict writes prunedThrough read).isSome := by
  simp [pointConflict, rangeConflict, tooOld]

theorem Session.Knows.refused {session : Session} {key : Bytes} {seq snapshot : Nat}
    (known : session.Knows key seq) (tx : TxId) {reads : ReadSet}
    (overlaps : reads.Overlaps key snapshot) (newer : snapshot < seq) :
    ∃ reason, session.validator.validate tx reads = .error (.conflict tx reason) := by
  obtain ⟨reason, isReason⟩ :
      ∃ reason, session.validator.conflictReason reads = some reason := by
    refine isSome_iff_exists.mp ?_
    simp only [conflictReason, isEmpty_of_overlaps overlaps, Bool.false_eq_true, if_false]
    split
    · rfl
    · rw [isSome_or, Bool.or_eq_true]
      rcases overlaps with point | ⟨range, inRange, found⟩
      · refine .inl (findSome?_isSome_iff.mpr
          ⟨_, TreeMap.mem_toList_iff_getElem?_eq_some.mpr point, ?_⟩)
        rcases known with covered | remembers
        · exact (readConflict_of_pruned (newer.trans_le covered)).1
        · exact pointConflict_of_remembers remembers newer _
      · refine .inr (findSome?_isSome_iff.mpr
          ⟨_, TreeMap.mem_toList_iff_getElem?_eq_some.mpr found, ?_⟩)
        rcases known with covered | remembers
        · exact (readConflict_of_pruned (newer.trans_le covered)).2
        · exact rangeConflict_of_remembers remembers newer inRange _
  exact ⟨reason, by simp [validate, isReason]⟩

/-- Coarsening has no false negatives: after calls whose commit sequences do not go down, a read set
that read a recorded key, or a range around it, at an older snapshot is refused. -/
theorem validate_refuses_recorded (maxTrackedKeys : Nat) (calls : List Call)
    (ascending : (calls.filterMap Call.commitSeq).Pairwise (· ≤ ·))
    (key : Bytes) (seq : Nat)
    (recorded : (key, seq) ∈ (calls.foldl Session.perform (Session.start maxTrackedKeys)).recorded)
    (tx : TxId) (reads : ReadSet) (snapshot : Nat) (overlaps : reads.Overlaps key snapshot)
    (newer : snapshot < seq) :
    ∃ reason, (calls.foldl Session.perform (Session.start maxTrackedKeys)).validator.validate
      tx reads = .error (.conflict tx reason) := by
  have fresh : (Session.start maxTrackedKeys).Complete 0 := by
    intro other old mem
    simp [Session.start] at mem
  obtain ⟨final, complete⟩ := Session.complete_calls fresh
    (pairwise_cons.mpr ⟨fun _ _ => Nat.zero_le _, ascending⟩)
  obtain ⟨-, known⟩ := complete key seq recorded
  exact known.refused tx overlaps newer

/-- A register of capacity 5 that has coarsened the bucket at 7 and then gets another
key at 7: a read of that key at 6 is refused. -/
theorem validate_refuses_coarseBucketKey :
    let calls : List Call := [.recordCommitKeys [[1, 1], [1, 2], [2], [3]] ⟨7, false⟩,
      .recordCommitKey [9] ⟨7, false⟩]
    ∃ reason, (calls.foldl Session.perform (Session.start 5)).validator.validate 4
      ⟨(∅ : TreeMap Bytes Nat).insert [9] 6, ∅⟩ = .error (.conflict 4 reason) :=
  validate_refuses_recorded 5 _ (by decide) [9] 7 (by simp [Session.perform, Session.start]) 4 _ 6
    (.inl (by simp)) (by decide)

end SsiValidator

end Contextra.Mvcc
