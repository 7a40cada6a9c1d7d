import Contextra.Mvcc.RegisterRuns

/-!
# What pruning gives back

Pruning walks the buckets, so it frees a tracked key only if the exact bucket of its newest commit
lists it.  A key that is recorded into a bucket which is coarse already is tracked and not listed.
-/

namespace Contextra.Mvcc

open List Option

open Std (TreeMap)

namespace CommittedWrites

variable {writes : CommittedWrites} {key : Bytes} {seq bound : Nat}

/-- The exact bucket at the sequence contains the key. -/
def Lists (writes : CommittedWrites) (key : Bytes) (seq : Nat) : Prop :=
  ∃ listed, writes.seqIndex[seq]? = some (.exact listed) ∧ key ∈ listed

/-- The key map and the buckets are in step: every tracked key is listed at its newest commit. -/
def InStep (writes : CommittedWrites) : Prop :=
  ∀ key seq, writes.keys[key]? = some seq → writes.Lists key seq

def CoarseAt (writes : CommittedWrites) (seq : Nat) : Prop :=
  ∃ prefixes count, writes.seqIndex[seq]? = some (.coarsened prefixes count)

theorem foldl_pruneKey (seq : Nat) (listed : List Bytes) (state : TreeMap Bytes Nat × Nat) :
    (listed.foldl (pruneKey seq) state).1 = dropOwnKeys state.1 seq listed := by
  induction listed generalizing state with
  | nil => rfl
  | cons head tail ih =>
    rw [foldl_cons, ih]
    change _ = dropOwnKeys (if state.1[head]? = some seq then state.1.erase head else state.1)
      seq tail
    unfold pruneKey
    split
    · rfl
    · rfl

theorem pruneBucket_getElem? (state : TreeMap Bytes Nat × Nat) (entry : Nat × SeqBucket) :
    (pruneBucket state entry).1[key]? =
      if key ∈ ownKeysOf entry.2 ∧ state.1[key]? = some entry.1 then none else state.1[key]? := by
  obtain ⟨seq, bucket⟩ := entry
  cases bucket with
  | coarsened prefixes count => simp [pruneBucket, ownKeysOf]
  | exact listed =>
    change (listed.foldl (pruneKey seq) state).1[key]? = _
    rw [foldl_pruneKey, dropOwnKeys_getElem?]
    rfl

theorem foldl_pruneBucket (doomed : List (Nat × SeqBucket)) (state : TreeMap Bytes Nat × Nat) :
    (doomed.foldl pruneBucket state).1[key]? =
      if ∃ entry ∈ doomed, key ∈ ownKeysOf entry.2 ∧ state.1[key]? = some entry.1 then none
      else state.1[key]? := by
  induction doomed generalizing state with
  | nil => simp
  | cons entry doomed ih =>
    rw [foldl_cons, ih, pruneBucket_getElem?]
    by_cases own : key ∈ ownKeysOf entry.2 ∧ state.1[key]? = some entry.1
    · have listed : ∃ listed ∈ entry :: doomed,
          key ∈ ownKeysOf listed.2 ∧ state.1[key]? = some listed.1 :=
        ⟨entry, mem_cons_self, own⟩
      rw [if_pos own, if_pos listed]
      exact ite_self none
    · rw [if_neg own]
      apply if_congr _ rfl rfl
      rw [exists_mem_cons_iff, or_iff_right own]

theorem pruneThrough_keys_getElem? (writes : CommittedWrites) (key : Bytes) (bound : Nat) :
    (writes.pruneThrough bound).1.keys[key]? = none ∧
        (∃ seq, writes.keys[key]? = some seq ∧ seq ≤ bound ∧ writes.Lists key seq) ∨
      (writes.pruneThrough bound).1.keys[key]? = writes.keys[key]? ∧
        ∀ seq, writes.keys[key]? = some seq → seq ≤ bound → ¬ writes.Lists key seq := by
  have listed : (∃ entry ∈ writes.seqIndex.toList.filter (fun entry => entry.1 ≤ bound),
      key ∈ ownKeysOf entry.2 ∧ writes.keys[key]? = some entry.1) ↔
      ∃ seq, writes.keys[key]? = some seq ∧ seq ≤ bound ∧ writes.Lists key seq := by
    constructor
    · rintro ⟨⟨seq, bucket⟩, mem, isListed, isSeq⟩
      obtain ⟨found, within⟩ := mem_filter.mp mem
      rw [TreeMap.mem_toList_iff_getElem?_eq_some] at found
      cases bucket with
      | coarsened prefixes count => cases isListed
      | exact keys => exact ⟨seq, isSeq, of_decide_eq_true within, keys, found, isListed⟩
    · rintro ⟨seq, isSeq, within, keys, found, isListed⟩
      refine ⟨(seq, .exact keys), mem_filter.mpr ⟨?_, decide_eq_true within⟩, isListed, isSeq⟩
      exact TreeMap.mem_toList_iff_getElem?_eq_some.mpr found
  have folded : (writes.pruneThrough bound).1.keys[key]? = _ :=
    foldl_pruneBucket (writes.seqIndex.toList.filter fun entry => entry.1 ≤ bound) (writes.keys, 0)
  split at folded
  · rename_i owned
    exact .inl ⟨folded, listed.mp owned⟩
  · rename_i notOwned
    refine .inr ⟨folded, ?_⟩
    intro seq isSeq within isListed
    exact notOwned (listed.mpr ⟨seq, isSeq, within, isListed⟩)

/-- With no bucket above the bound, pruning frees everything if and only if nothing was out of
step. -/
theorem pruneThrough_trackedCount (before : writes.Before (bound + 1)) :
    (writes.pruneThrough bound).1.trackedCount = 0 ↔ writes.InStep := by
  have noBucket : (writes.pruneThrough bound).1.coarsenedPrefixCount = 0 := by
    have none : ∀ q : Nat, (writes.pruneThrough bound).1.seqIndex[q]? = none := by
      intro q
      rw [pruneThrough_getElem?]
      split
      · rfl
      · rename_i above
        apply eq_none_iff_forall_ne_some.mpr
        intro bucket found
        exact above (Nat.le_of_lt_succ (before q bucket found))
    have empty : (writes.pruneThrough bound).1.seqIndex.toList = [] := by
      apply eq_nil_iff_forall_not_mem.mpr
      rintro ⟨q, bucket⟩ mem
      rw [TreeMap.mem_toList_iff_getElem?_eq_some, none] at mem
      cases mem
    rw [coarsenedPrefixCount, empty]
    rfl
  have noKey : (writes.pruneThrough bound).1.trackedCount = 0 ↔
      ∀ key : Bytes, (writes.pruneThrough bound).1.keys[key]? = none := by
    rw [trackedCount, noBucket, Nat.add_zero, ← TreeMap.length_toList, length_eq_zero_iff,
      eq_nil_iff_forall_not_mem]
    constructor
    · intro empty key
      apply eq_none_iff_forall_ne_some.mpr
      intro seq isSeq
      exact empty (key, seq) (TreeMap.mem_toList_iff_getElem?_eq_some.mpr isSeq)
    · rintro none ⟨key, seq⟩ mem
      rw [TreeMap.mem_toList_iff_getElem?_eq_some, none] at mem
      cases mem
  rw [noKey]
  constructor
  · intro none key seq isSeq
    rcases pruneThrough_keys_getElem? writes key bound with
      ⟨-, other, isOther, -, isListed⟩ | ⟨stays, -⟩
    · obtain rfl := some.inj (isOther.symm.trans isSeq)
      exact isListed
    · exact absurd ((none key).symm.trans (stays.trans isSeq)) nofun
  · intro inStep key
    rcases pruneThrough_keys_getElem? writes key bound with
      ⟨gone, -⟩ | ⟨stays, notListed⟩
    · exact gone
    · rw [stays]
      apply eq_none_iff_forall_ne_some.mpr
      intro seq isSeq
      obtain ⟨listed, found, isListed⟩ := inStep key seq isSeq
      exact notListed seq isSeq (Nat.le_of_lt_succ (before seq _ found)) ⟨listed, found, isListed⟩

theorem insert_before_of_lt {key : Bytes} (before : writes.Before bound) (within : seq < bound) :
    (writes.insert key seq).Before bound := by
  intro q bucket found
  simp only [insert, TreeMap.getElem?_insert] at found
  split at found
  · rename_i same
    exact Std.LawfulEqOrd.eq_of_compare same ▸ within
  · exact before q bucket found

theorem insert_inStep {key : Bytes} (inStep : writes.InStep) (notCoarse : ¬ writes.CoarseAt seq) :
    (writes.insert key seq).InStep := by
  have bucket : ∃ listed, (writes.insert key seq).seqIndex[seq]? = some (.exact listed) ∧
      key ∈ listed ∧ ∀ other, writes.Lists other seq → other ∈ listed := by
    simp only [insert, TreeMap.getElem?_insert_self]
    cases found : writes.seqIndex[seq]? with
    | none =>
      refine ⟨[key], rfl, mem_singleton_self _, ?_⟩
      rintro other ⟨listed, isFound, -⟩
      exact absurd (found.symm.trans isFound) (some_ne_none _).symm
    | some bucket =>
      cases bucket with
      | coarsened prefixes count => exact absurd ⟨prefixes, count, found⟩ notCoarse
      | exact listed =>
        have old : ∀ other, writes.Lists other seq → other ∈ listed := by
          rintro other ⟨others, isFound, isListed⟩
          obtain rfl := SeqBucket.exact.inj (some.inj (found.symm.trans isFound))
          exact isListed
        by_cases known : key ∈ listed
        · exact ⟨listed, by rw [bucketWith, if_pos known], known, old⟩
        · refine ⟨listed ++ [key], by rw [bucketWith, if_neg known], by simp, ?_⟩
          intro other isListed
          exact mem_append_left _ (old other isListed)
  obtain ⟨listed, found, isListed, old⟩ := bucket
  have kept : ∀ other at', writes.Lists other at' → (writes.insert key seq).Lists other at' := by
    rintro other at' ⟨others, isFound, isOther⟩
    by_cases same : at' = seq
    · subst same
      exact ⟨listed, found, old other ⟨others, isFound, isOther⟩⟩
    · have different : ¬ seq = at' := fun here => same here.symm
      refine ⟨others, ?_, isOther⟩
      simpa [insert, TreeMap.getElem?_insert, different] using isFound
  intro other at' isSeq
  by_cases same : key = other
  · subst same
    have isAt : at' = seq := by simpa [insert] using isSeq.symm
    exact ⟨listed, isAt ▸ found, isListed⟩
  · apply kept
    apply inStep
    simpa [insert, TreeMap.getElem?_insert, same] using isSeq

theorem insert_coarseAt {key : Bytes} {at' : Nat} (coarse : (writes.insert key seq).CoarseAt at') :
    writes.CoarseAt at' := by
  obtain ⟨prefixes, count, found⟩ := coarse
  simp only [insert, TreeMap.getElem?_insert] at found
  split at found
  · rename_i same
    obtain rfl := Std.LawfulEqOrd.eq_of_compare same
    cases old : writes.seqIndex[seq]? with
    | none =>
      rw [old] at found
      cases found
    | some bucket =>
      cases bucket with
      | coarsened others total => exact ⟨others, total, old⟩
      | exact listed =>
        rw [old, bucketWith] at found
        split at found
        · cases found
        · cases found
  · exact ⟨prefixes, count, found⟩

theorem InStep.dropOwnKeys {index : TreeMap Nat SeqBucket} {bucket : SeqBucket}
    (inStep : writes.InStep) (found : writes.seqIndex[seq]? = some bucket)
    (others : ∀ q, q ≠ seq → index[q]? = writes.seqIndex[q]?) :
    InStep ⟨CommittedWrites.dropOwnKeys writes.keys seq (ownKeysOf bucket), index⟩ := by
  intro key at' isSeq
  simp only [dropOwnKeys_getElem?] at isSeq
  split at isSeq
  · cases isSeq
  · rename_i notOwn
    obtain ⟨listed, isFound, isListed⟩ := inStep key at' isSeq
    by_cases same : at' = seq
    · subst same
      obtain rfl := some.inj (found.symm.trans isFound)
      exact absurd ⟨isListed, isSeq⟩ notOwn
    · exact ⟨listed, (others at' same).trans isFound, isListed⟩

theorem coarsenBucket_inStep {state : CommittedWrites × Nat} (index : Nat)
    (inStep : state.1.InStep) : (coarsenBucket state index).1.InStep := by
  unfold coarsenBucket
  split
  · rename_i listed found
    apply inStep.dropOwnKeys found
    intro q different
    have other : ¬ index = q := fun same => different same.symm
    simp [TreeMap.getElem?_insert, other]
  · exact inStep

theorem mergeBuckets_inStep {s1 s2 : Nat} {b1 b2 : SeqBucket} (ordered : s1 < s2)
    (found1 : writes.seqIndex[s1]? = some b1) (found2 : writes.seqIndex[s2]? = some b2)
    (inStep : writes.InStep) : (mergeBuckets writes s1 s2 b1 b2).InStep := by
  have first : InStep ⟨dropOwnKeys writes.keys s1 (ownKeysOf b1), writes.seqIndex.erase s1⟩ := by
    apply inStep.dropOwnKeys found1
    intro q different
    have other : ¬ s1 = q := fun same => different same.symm
    simp [TreeMap.getElem?_erase, other]
  have stillThere : (writes.seqIndex.erase s1)[s2]? = some b2 := by
    simp [TreeMap.getElem?_erase, ordered.ne, found2]
  apply first.dropOwnKeys stillThere
  intro q different
  have other : ¬ s2 = q := fun same => different same.symm
  simp [TreeMap.getElem?_insert, TreeMap.getElem?_erase, other]

theorem checkAndCoarsen_inStep (maxTrackedKeys : Nat) (inStep : writes.InStep) :
    (SsiValidator.checkAndCoarsenIfNeeded maxTrackedKeys writes).InStep := by
  have coarsened : ∀ (seqs : List Nat) (state : CommittedWrites × Nat), state.1.InStep →
      (seqs.foldl coarsenBucket state).1.InStep := by
    intro seqs state here
    induction seqs generalizing state with
    | nil => exact here
    | cons index seqs ih =>
      exact ih _ (coarsenBucket_inStep index here)
  apply SsiValidator.coarsenRounds_induction (motive := InStep) _ _ _ inStep
  intro writes here
  apply mergeAdjacentBuckets_induction (motive := InStep)
  · intro writes s1 s2 b1 b2 ordered found1 found2 kept
    exact mergeBuckets_inStep ordered found1 found2 kept
  · exact coarsened _ (writes, 0) here

theorem pruneThrough_inStep (inStep : writes.InStep) (bound : Nat) :
    (writes.pruneThrough bound).1.InStep := by
  intro key seq isSeq
  rcases pruneThrough_keys_getElem? writes key bound with
    ⟨gone, -⟩ | ⟨stays, notListed⟩
  · exact absurd (gone.symm.trans isSeq) nofun
  · have known : writes.keys[key]? = some seq := stays.symm.trans isSeq
    obtain ⟨listed, found, isListed⟩ := inStep key seq known
    refine ⟨listed, ?_, isListed⟩
    rw [pruneThrough_getElem?, if_neg, found]
    intro within
    exact notListed seq known within ⟨listed, found, isListed⟩

end CommittedWrites

namespace SsiValidator

open CommittedWrites

variable {session : Session} {bound : Nat}

theorem conflictReason_ne_capacityReached {validator : SsiValidator}
    (free : validator.committedWrites.trackedCount < validator.maxTrackedKeys) (reads : ReadSet)
    (tracked limit : Nat) :
    validator.conflictReason reads ≠ some (.capacityReached tracked limit) := by
  have point : ∀ read, pointConflict validator.committedWrites validator.prunedThrough read ≠
      some (.capacityReached tracked limit) := by
    intro read
    have coarse : ∀ key snapshot, coarsenedPointConflict validator.committedWrites key snapshot ≠
        some (.capacityReached tracked limit) := by
      intro key snapshot found
      obtain ⟨entry, -, isConflict⟩ := exists_of_findSome?_eq_some found
      split at isConflict
      · split at isConflict
        · obtain ⟨covering, -, isReason⟩ := map_eq_some_iff.mp isConflict
          cases isReason
        · cases isConflict
      · cases isConflict
    unfold pointConflict
    dsimp only
    split
    · nofun
    · split
      · split
        · nofun
        · exact coarse _ _
      · exact coarse _ _
  have range : ∀ read, rangeConflict validator.committedWrites validator.prunedThrough read ≠
      some (.capacityReached tracked limit) := by
    intro read
    unfold rangeConflict
    dsimp only
    split
    · nofun
    · intro found
      rcases or_eq_some_iff.mp found with committed | ⟨-, coarse⟩
      · obtain ⟨entry, -, isConflict⟩ := exists_of_findSome?_eq_some committed
        split at isConflict
        · cases isConflict
        · cases isConflict
      · obtain ⟨entry, -, isConflict⟩ := exists_of_findSome?_eq_some coarse
        split at isConflict
        · split at isConflict
          · obtain ⟨covering, -, isReason⟩ := map_eq_some_iff.mp isConflict
            cases isReason
          · cases isConflict
        · cases isConflict
  unfold conflictReason
  dsimp only
  split
  · nofun
  · rw [if_neg (Nat.not_le_of_lt free)]
    intro found
    rcases or_eq_some_iff.mp found with isPoint | ⟨-, isRange⟩
    · obtain ⟨read, -, isConflict⟩ := exists_of_findSome?_eq_some isPoint
      exact point read isConflict
    · obtain ⟨read, -, isConflict⟩ := exists_of_findSome?_eq_some isRange
      exact range read isConflict

theorem insertAll_before {writes : CommittedWrites} {seq : Nat} (keys : List Bytes)
    (before : writes.Before bound) (within : keys ≠ [] → seq < bound) :
    (keys.foldl (fun writes key => writes.insert key seq) writes).Before bound := by
  induction keys generalizing writes with
  | nil => exact before
  | cons key keys ih =>
    have here := within (cons_ne_nil _ _)
    exact ih (insert_before_of_lt before here) fun _ => here

theorem checkAndCoarsen_before {writes : CommittedWrites} (maxTrackedKeys : Nat)
    (before : writes.Before bound) :
    (checkAndCoarsenIfNeeded maxTrackedKeys writes).Before bound :=
  coarsenRounds_induction (motive := fun writes => writes.Before bound)
    (fun _ => coarsenRound_before) _ _ before

theorem insertAll_inStep {writes : CommittedWrites} {seq : Nat} (keys : List Bytes)
    (inStep : writes.InStep) (notCoarse : ¬ writes.CoarseAt seq) :
    (keys.foldl (fun writes key => writes.insert key seq) writes).InStep := by
  induction keys generalizing writes with
  | nil => exact inStep
  | cons key keys ih =>
    apply ih (insert_inStep inStep notCoarse)
    intro coarse
    exact notCoarse (insert_coarseAt coarse)

namespace Session

theorem perform_before (call : Call)
    (before : (∀ entry ∈ session.recorded, entry.2 < bound) →
      session.validator.committedWrites.Before bound)
    (recorded : ∀ entry ∈ (session.perform call).recorded, entry.2 < bound) :
    (session.perform call).validator.committedWrites.Before bound := by
  have record : ∀ (keys : List Bytes) (seq : Nat),
      (∀ entry ∈ session.recorded ++ keys.map (·, seq), entry.2 < bound) →
      (keys.foldl (fun writes key => writes.insert key seq)
        session.validator.committedWrites).Before bound := by
    intro keys seq all
    apply insertAll_before
    · apply before
      intro entry mem
      exact all entry (mem_append_left _ mem)
    · intro some
      obtain ⟨key, isKey⟩ := exists_mem_of_ne_nil keys some
      exact all (key, seq) (mem_append_right _ (List.mem_map_of_mem isKey))
  cases call with
  | recordCommitKey key seq => exact checkAndCoarsen_before _ (record [key] seq.raw recorded)
  | recordCommitKeys keys seq => exact checkAndCoarsen_before _ (record keys seq.raw recorded)
  | validateAndRecord tx reads writeKeys seq =>
    simp only [perform, validateAndRecord] at recorded ⊢
    cases accepted : session.validator.validate tx reads with
    | error conflict =>
      simp only [accepted] at recorded ⊢
      exact before recorded
    | ok _ =>
      simp only [accepted] at recorded ⊢
      exact record writeKeys seq.raw recorded
  | pruneThrough limit =>
    have kept := before recorded
    simp only [perform, SsiValidator.pruneThrough]
    split
    · exact kept
    · exact CommittedWrites.pruneThrough_before kept limit

theorem before_of_recorded (maxTrackedKeys : Nat) (calls : List Call)
    (recorded : ∀ entry ∈ (calls.foldl perform (start maxTrackedKeys)).recorded,
      entry.2 < bound) :
    (calls.foldl perform (start maxTrackedKeys)).validator.committedWrites.Before bound := by
  induction calls using reverseRecOn with
  | nil =>
    intro q bucket found
    simp [start, newWithBounds, CommittedWrites.empty] at found
  | append_singleton calls call ih =>
    rw [foldl_concat] at recorded ⊢
    exact perform_before call ih recorded

/-- A call that records nothing at a sequence whose bucket is coarse. -/
def AvoidsCoarse (session : Session) (call : Call) : Prop :=
  ∀ seq ∈ call.commitSeq, ¬ session.validator.committedWrites.CoarseAt seq

theorem perform_inStep (call : Call) (inStep : session.validator.committedWrites.InStep)
    (avoids : session.AvoidsCoarse call) :
    (session.perform call).validator.committedWrites.InStep := by
  cases call with
  | recordCommitKey key seq =>
    apply checkAndCoarsen_inStep
    exact insertAll_inStep [key] inStep (avoids seq.raw rfl)
  | recordCommitKeys keys seq =>
    apply checkAndCoarsen_inStep
    exact insertAll_inStep keys inStep (avoids seq.raw rfl)
  | validateAndRecord tx reads writeKeys seq =>
    simp only [perform, validateAndRecord]
    cases session.validator.validate tx reads with
    | error conflict => exact inStep
    | ok _ => exact insertAll_inStep writeKeys inStep (avoids seq.raw rfl)
  | pruneThrough limit =>
    simp only [perform, SsiValidator.pruneThrough]
    split
    · exact inStep
    · exact pruneThrough_inStep inStep limit

theorem inStep_of_avoids (maxTrackedKeys : Nat) (calls : List Call)
    (avoids : ∀ before call after, calls = before ++ call :: after →
      (before.foldl perform (start maxTrackedKeys)).AvoidsCoarse call) :
    (calls.foldl perform (start maxTrackedKeys)).validator.committedWrites.InStep := by
  induction calls using reverseRecOn with
  | nil =>
    intro key seq isSeq
    simp [start, newWithBounds, CommittedWrites.empty] at isSeq
  | append_singleton calls call ih =>
    rw [foldl_concat]
    apply perform_inStep call _ (avoids calls call [] rfl)
    apply ih
    rintro before earlier after rfl
    apply avoids before earlier (after ++ [call])
    rw [append_assoc, cons_append]

end Session

/-- What pruning is for: nothing is tracked any more, and no validation is refused for capacity. -/
structure Freed (validator : SsiValidator) : Prop where
  untracked : validator.committedWrites.trackedCount = 0
  unblocked : ∀ reads tracked limit,
    validator.conflictReason reads ≠ some (.capacityReached tracked limit)

theorem maxTrackedKeys_pos_of_unblocked {validator : SsiValidator} (freed : validator.Freed) :
    0 < validator.maxTrackedKeys := by
  apply Nat.pos_of_ne_zero
  intro isZero
  apply freed.unblocked ⟨(∅ : TreeMap Bytes Nat).insert [] 0, ∅⟩ 0 0
  have reads : (ReadSet.mk ((∅ : TreeMap Bytes Nat).insert [] 0) ∅).isEmpty = false := by
    simp [ReadSet.isEmpty]
  simp [conflictReason, reads, isZero, freed.untracked]

/-- After a history of calls a valid bound at or above everything recorded frees a register of
positive capacity if and only if key map and buckets are in step, as they are unless a call has
recorded at a sequence whose bucket was coarse already. -/
theorem pruneThrough_freed_iff (maxTrackedKeys : Nat) (calls : List Call) (bound : Nat)
    (valid : bound < tombstoneBit - 1)
    (recorded : ∀ entry ∈ (calls.foldl Session.perform (.start maxTrackedKeys)).recorded,
      entry.2 ≤ bound) :
    let session := calls.foldl Session.perform (.start maxTrackedKeys)
    ((session.validator.pruneThrough bound).Freed ↔
      session.validator.committedWrites.InStep ∧ 0 < session.validator.maxTrackedKeys) ∧
    ((∀ before call after, calls = before ++ call :: after →
        (before.foldl Session.perform (.start maxTrackedKeys)).AvoidsCoarse call) →
      session.validator.committedWrites.InStep) := by
  intro session
  refine ⟨?_, Session.inStep_of_avoids maxTrackedKeys calls⟩
  have before : session.validator.committedWrites.Before (bound + 1) :=
    Session.before_of_recorded maxTrackedKeys calls fun entry mem =>
      Nat.lt_succ_of_le (recorded entry mem)
  have pruned : session.validator.pruneThrough bound =
      { session.validator with
        committedWrites := (session.validator.committedWrites.pruneThrough bound).1
        prunedThrough := max session.validator.prunedThrough bound } :=
    if_neg (Nat.not_le_of_lt valid)
  have untracked := pruneThrough_trackedCount before
  rw [pruned]
  constructor
  · intro freed
    have positive := maxTrackedKeys_pos_of_unblocked freed
    exact ⟨untracked.mp freed.untracked, positive⟩
  · rintro ⟨inStep, positive⟩
    have none := untracked.mpr inStep
    refine ⟨none, ?_⟩
    apply conflictReason_ne_capacityReached
    exact none.symm ▸ positive

/-- A register of capacity 1 coarsens its first bucket at once.  A second key at that sequence is
never freed, and from then on every validation is refused. -/
theorem pruneThrough_freed_lost :
    let calls : List Call := [.recordCommitKey [1] ⟨5, false⟩, .recordCommitKey [2] ⟨5, false⟩]
    let validator := (calls.foldl Session.perform (.start 1)).validator.pruneThrough 5
    validator.committedWrites.trackedCount = 1 ∧
      validator.conflictReason ⟨(∅ : TreeMap Bytes Nat).insert [3] 6, ∅⟩ =
        some (.capacityReached 1 1) := by
  decide +kernel

/-- Two keys at one sequence that is not coarse. -/
theorem pruneThrough_freed_iff_batch :
    let calls : List Call := [.recordCommitKeys [[1], [2]] ⟨5, false⟩]
    let session := calls.foldl Session.perform (.start 9)
    ((session.validator.pruneThrough 5).Freed ↔
      session.validator.committedWrites.InStep ∧ 0 < session.validator.maxTrackedKeys) ∧
    ((∀ before call after, calls = before ++ call :: after →
        (before.foldl Session.perform (.start 9)).AvoidsCoarse call) →
      session.validator.committedWrites.InStep) :=
  pruneThrough_freed_iff 9 _ 5 (by decide) (by decide +kernel)

end SsiValidator

end Contextra.Mvcc
