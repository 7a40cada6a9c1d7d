import Contextra.Mvcc.RegisterPruning

/-!
# What forgetting spares

`forget_from` removes buckets, and a bucket may speak for commits that are older than its index.
A commit below the bound is spared if its key stays tracked, if an older exact bucket gives the key
back, or if a coarse bucket below the bound covers it.
-/

namespace Contextra.Mvcc

open List hiding keys

open Std (TreeMap)

namespace CommittedWrites

variable {writes : CommittedWrites} {key : Bytes} {seq first : Nat}

/-- A coarse bucket at or after the sequence covers the key. -/
def Summarizes (writes : CommittedWrites) (key : Bytes) (seq : Nat) : Prop :=
  ∃ q prefixes count, writes.seqIndex[q]? = some (SeqBucket.coarsened prefixes count) ∧ seq ≤ q ∧
    ∃ p ∈ prefixes, p <+: key

/-- The register still refuses older reads of the key once everything from `first` on is forgotten:
a coarse bucket before `first` covers the key; or the key is tracked, and if its own bucket is
removed, an exact bucket before `first` lists it. -/
def Spares (writes : CommittedWrites) (first : Nat) (key : Bytes) (seq : Nat) : Prop :=
  (∃ q prefixes count, writes.seqIndex[q]? = some (SeqBucket.coarsened prefixes count) ∧ seq ≤ q ∧
    q < first ∧ ∃ p ∈ prefixes, p <+: key) ∨
  ∃ newest, writes.keys[key]? = some newest ∧
    ((first ≤ newest ∧ writes.Lists key newest) ∧ (∃ q < first, seq ≤ q ∧ writes.Lists key q) ∨
      ¬ (first ≤ newest ∧ writes.Lists key newest) ∧ seq ≤ newest)

variable {index : TreeMap Nat SeqBucket}

theorem highestOldSeq_lists {old : Nat} (isOld : highestOldSeq index first key = some old) :
    old < first ∧ ∃ listed, index[old]? = some (.exact listed) ∧ key ∈ listed := by
  obtain ⟨⟨at', bucket⟩, found, rfl⟩ := Option.map_eq_some_iff.mp isOld
  obtain ⟨isEntry, older⟩ :=
    mem_filter.mp (mem_reverse.mp (mem_of_find?_eq_some found))
  rw [TreeMap.mem_toList_iff_getElem?_eq_some] at isEntry
  have contains := find?_some found
  cases bucket with
  | coarsened prefixes count => cases contains
  | exact listed => exact ⟨of_decide_eq_true older, listed, isEntry, by simpa using contains⟩

theorem highestOldSeq_le_iff : (∃ old, highestOldSeq writes.seqIndex first key = some old ∧
    seq ≤ old) ↔ ∃ q < first, seq ≤ q ∧ writes.Lists key q := by
  constructor
  · rintro ⟨old, isOld, le⟩
    obtain ⟨older, listed⟩ := highestOldSeq_lists isOld
    exact ⟨old, older, le, listed⟩
  · rintro ⟨q, older, le, listed, found, isListed⟩
    obtain ⟨old, isOld, atLeast⟩ := highestOldSeq_ge found isListed older
    exact ⟨old, isOld, le.trans atLeast⟩

theorem restoreKey_getElem? (state : TreeMap Bytes Nat × Nat)
    (other : Bytes) : (restoreKey index first seq state other).1[key]? =
      if other = key ∧ state.1[key]? = some seq then highestOldSeq index first key
      else state.1[key]? := by
  unfold restoreKey
  by_cases same : other = key
  · subst same
    by_cases own : state.1[other]? = some seq
    · rw [if_pos own, if_pos ⟨rfl, own⟩]
      cases highestOldSeq index first other with
      | none => simp
      | some old => simp
    · have notBoth : ¬ (other = other ∧ state.1[other]? = some seq) := fun both => own both.2
      rw [if_neg own, if_neg notBoth]
  · have notBoth : ¬ (other = key ∧ state.1[key]? = some seq) := fun both => same both.1
    rw [if_neg notBoth]
    split
    · cases highestOldSeq index first other with
      | none => simp [TreeMap.getElem?_erase, same]
      | some old => simp [TreeMap.getElem?_insert, same]
    · rfl

theorem foldl_restoreKey (within : first ≤ seq)
    (listed : List Bytes) (state : TreeMap Bytes Nat × Nat) :
    (listed.foldl (restoreKey index first seq) state).1[key]? =
      if key ∈ listed ∧ state.1[key]? = some seq then highestOldSeq index first key
      else state.1[key]? := by
  have notOld : highestOldSeq index first key ≠ some seq := fun isOld =>
    absurd (highestOldSeq_lists isOld).1 (Nat.not_lt_of_le within)
  induction listed generalizing state with
  | nil => simp
  | cons head tail ih =>
    rw [foldl_cons, ih, restoreKey_getElem?]
    by_cases own : head = key ∧ state.1[key]? = some seq
    · have isListed : key ∈ head :: tail ∧ state.1[key]? = some seq :=
        ⟨own.1 ▸ mem_cons_self, own.2⟩
      rw [if_pos own, if_pos isListed, if_neg fun again => notOld again.2]
    · rw [if_neg own]
      apply if_congr _ rfl rfl
      rw [mem_cons]
      constructor
      · exact fun ⟨isTail, isSeq⟩ => ⟨.inr isTail, isSeq⟩
      · rintro ⟨isHead | isTail, isSeq⟩
        · exact absurd ⟨isHead.symm, isSeq⟩ own
        · exact ⟨isTail, isSeq⟩

theorem forgetBucket_getElem? (state : TreeMap Bytes Nat × Nat)
    {entry : Nat × SeqBucket} (within : first ≤ entry.1) :
    (forgetBucket index first state entry).1[key]? =
      if key ∈ ownKeysOf entry.2 ∧ state.1[key]? = some entry.1 then
        highestOldSeq index first key
      else state.1[key]? := by
  obtain ⟨at', bucket⟩ := entry
  cases bucket with
  | coarsened prefixes count => simp [forgetBucket, ownKeysOf]
  | exact listed => exact foldl_restoreKey within listed state

theorem foldl_forgetBucket (doomed : List (Nat × SeqBucket))
    (within : ∀ entry ∈ doomed, first ≤ entry.1) (state : TreeMap Bytes Nat × Nat) :
    (doomed.foldl (forgetBucket index first) state).1[key]? =
      if ∃ entry ∈ doomed, key ∈ ownKeysOf entry.2 ∧ state.1[key]? = some entry.1 then
        highestOldSeq index first key
      else state.1[key]? := by
  induction doomed generalizing state with
  | nil => simp
  | cons entry doomed ih =>
    have later : ∀ entry ∈ doomed, first ≤ entry.1 := fun other mem =>
      within other (mem_cons_of_mem _ mem)
    rw [foldl_cons, ih later,
      forgetBucket_getElem? state (within entry mem_cons_self)]
    by_cases own : key ∈ ownKeysOf entry.2 ∧ state.1[key]? = some entry.1
    · have listed : ∃ listed ∈ entry :: doomed,
          key ∈ ownKeysOf listed.2 ∧ state.1[key]? = some listed.1 :=
        ⟨entry, mem_cons_self, own⟩
      have settled : ¬ ∃ other ∈ doomed, key ∈ ownKeysOf other.2 ∧
          highestOldSeq index first key = some other.1 := by
        rintro ⟨other, mem, -, isOld⟩
        exact absurd (highestOldSeq_lists isOld).1 (Nat.not_lt_of_le (later other mem))
      rw [if_pos own, if_pos listed, if_neg settled]
    · rw [if_neg own]
      apply if_congr _ rfl rfl
      rw [exists_mem_cons_iff, or_iff_right own]

theorem removeFromSeq_keys_getElem? {newest : Nat} (first : Nat) (known : writes.keys[key]? = some newest) :
    (first ≤ newest ∧ writes.Lists key newest) ∧
        (writes.removeFromSeq first).1.keys[key]? = highestOldSeq writes.seqIndex first key ∨
      ¬ (first ≤ newest ∧ writes.Lists key newest) ∧
        (writes.removeFromSeq first).1.keys[key]? = some newest := by
  have owned : (∃ entry ∈ writes.seqIndex.toList.filter (fun entry => first ≤ entry.1),
      key ∈ ownKeysOf entry.2 ∧ writes.keys[key]? = some entry.1) ↔
      first ≤ newest ∧ writes.Lists key newest := by
    constructor
    · rintro ⟨⟨at', bucket⟩, mem, isListed, isSeq⟩
      obtain rfl := Option.some.inj (known.symm.trans isSeq)
      obtain ⟨found, within⟩ := mem_filter.mp mem
      rw [TreeMap.mem_toList_iff_getElem?_eq_some] at found
      cases bucket with
      | coarsened prefixes count => cases isListed
      | exact keys => exact ⟨of_decide_eq_true within, keys, found, isListed⟩
    · rintro ⟨within, keys, found, isListed⟩
      refine ⟨(newest, .exact keys), mem_filter.mpr ⟨?_, decide_eq_true within⟩, isListed,
        known⟩
      exact TreeMap.mem_toList_iff_getElem?_eq_some.mpr found
  have within : ∀ entry ∈ writes.seqIndex.toList.filter (fun entry => first ≤ entry.1),
      first ≤ entry.1 := fun entry mem =>
    of_decide_eq_true (mem_filter.mp mem).2
  have folded : (writes.removeFromSeq first).1.keys[key]? = _ :=
    foldl_forgetBucket _ within (writes.keys, 0)
  split at folded
  · rename_i isOwned
    exact .inl ⟨owned.mp isOwned, folded⟩
  · rename_i notOwned
    exact .inr ⟨fun isOwned => notOwned (owned.mpr isOwned), folded.trans known⟩

theorem removeFromSeq_keys_eq_none (unknown : writes.keys[key]? = none) :
    (writes.removeFromSeq first).1.keys[key]? = none := by
  have within : ∀ entry ∈ writes.seqIndex.toList.filter (fun entry => first ≤ entry.1),
      first ≤ entry.1 := fun entry mem =>
    of_decide_eq_true (mem_filter.mp mem).2
  have folded : (writes.removeFromSeq first).1.keys[key]? = _ :=
    foldl_forgetBucket _ within (writes.keys, 0)
  rw [folded, if_neg, unknown]
  rintro ⟨entry, -, -, isSeq⟩
  exact absurd (unknown.symm.trans isSeq) nofun

theorem removeFromSeq_remembers_iff :
    (writes.removeFromSeq first).1.Remembers key seq ↔ writes.Spares first key seq := by
  have summarized : (∃ q prefixes count,
        (writes.removeFromSeq first).1.seqIndex[q]? = some (SeqBucket.coarsened prefixes count) ∧
          seq ≤ q ∧ ∃ p ∈ prefixes, p <+: key) ↔
      ∃ q prefixes count, writes.seqIndex[q]? = some (SeqBucket.coarsened prefixes count) ∧
        seq ≤ q ∧ q < first ∧ ∃ p ∈ prefixes, p <+: key := by
    constructor
    · rintro ⟨q, prefixes, count, found, le, covers⟩
      rw [removeFromSeq_getElem?] at found
      split at found
      · cases found
      · rename_i before
        exact ⟨q, prefixes, count, found, le, Nat.lt_of_not_le before, covers⟩
    · rintro ⟨q, prefixes, count, found, le, before, covers⟩
      refine ⟨q, prefixes, count, ?_, le, covers⟩
      rw [removeFromSeq_getElem?, if_neg (Nat.not_le_of_lt before), found]
  have tracked : (∃ newest, (writes.removeFromSeq first).1.keys[key]? = some newest ∧
        seq ≤ newest) ↔
      ∃ newest, writes.keys[key]? = some newest ∧
        ((first ≤ newest ∧ writes.Lists key newest) ∧ (∃ q < first, seq ≤ q ∧ writes.Lists key q) ∨
          ¬ (first ≤ newest ∧ writes.Lists key newest) ∧ seq ≤ newest) := by
    cases known : writes.keys[key]? with
    | none => simp [removeFromSeq_keys_eq_none known]
    | some newest =>
      rcases removeFromSeq_keys_getElem? first known with ⟨owned, restored⟩ |
        ⟨notOwned, stays⟩
      · rw [restored, highestOldSeq_le_iff]
        simp [owned]
      · rw [stays]
        simp only [Option.some.injEq, exists_eq_left', notOwned, false_and, false_or,
          not_false_eq_true, true_and]
  rw [Remembers, Spares, or_comm]
  exact or_congr summarized tracked

variable {at' : Nat}

theorem insert_summarizes {other : Bytes} (summarizes : writes.Summarizes key seq) :
    (writes.insert other at').Summarizes key seq := by
  obtain ⟨q, prefixes, count, found, atLeast, covers⟩ := summarizes
  by_cases same : at' = q
  · subst same
    exact ⟨at', prefixes, count + 1, by simp [insert, found, bucketWith], atLeast, covers⟩
  · refine ⟨q, prefixes, count, ?_, atLeast, covers⟩
    simpa [insert, TreeMap.getElem?_insert, same] using found

theorem insert_remembers_of_ne {other : Bytes} (different : other ≠ key)
    (remembers : writes.Remembers key seq) : (writes.insert other at').Remembers key seq := by
  rcases remembers with ⟨newest, known, atLeast⟩ | summarizes
  · exact .inl ⟨newest, by simpa [insert, TreeMap.getElem?_insert, different] using known, atLeast⟩
  · exact .inr (insert_summarizes summarizes)

/-- A batch keeps a write that it does not record again at a lower sequence, unless a coarse bucket
speaks for it. -/
theorem insertAll_keeps (keys : List Bytes)
    (safe : key ∈ keys → seq ≤ at' ∨ writes.Summarizes key seq)
    (remembers : writes.Remembers key seq) :
    (keys.foldl (fun writes key => writes.insert key at') writes).Remembers key seq := by
  induction keys generalizing writes with
  | nil => exact remembers
  | cons head tail ih =>
    apply ih
    · intro isTail
      exact (safe (mem_cons_of_mem _ isTail)).imp_right insert_summarizes
    · by_cases same : head = key
      · rcases safe (same ▸ mem_cons_self) with notOlder | summarizes
        · exact insert_remembers notOlder remembers
        · exact .inr (insert_summarizes summarizes)
      · exact insert_remembers_of_ne same remembers

end CommittedWrites

namespace SsiValidator

open CommittedWrites

inductive HistoryCall where
  | call (call : Call)
  | forgetFrom (first : SeqNo)

namespace Session

variable {session : Session}

def additions (session : Session) : Call → List (Bytes × Nat)
  | .recordCommitKey key seq => [(key, seq.raw)]
  | .recordCommitKeys keys seq => keys.map (·, seq.raw)
  | .validateAndRecord tx reads writeKeys seq =>
    match session.validator.validate tx reads with
    | .ok _ => writeKeys.map (·, seq.raw)
    | .error _ => []
  | .pruneThrough _ => []

/-- One call of the history; forgetting drops the forgotten writes from the record. -/
def advance (session : Session) : HistoryCall → Session
  | .call call => session.perform call
  | .forgetFrom first =>
    ⟨session.validator.forgetFrom first.raw,
      session.recorded.filter fun entry => entry.2 < first.raw⟩

/-- A call after which nothing that is not forgotten is lost: a key is recorded again at a lower
sequence only if a coarse bucket speaks for its newer writes, and forgetting spares every older
write. -/
def Careful (session : Session) : HistoryCall → Prop
  | .call call => ∀ key at' seq, (key, at') ∈ session.additions call →
      (key, seq) ∈ session.recorded → seq ≤ at' ∨ seq ≤ session.validator.prunedThrough ∨
        session.validator.committedWrites.Summarizes key seq
  | .forgetFrom first => ∀ key seq, (key, seq) ∈ session.recorded → seq < first.raw →
      seq ≤ session.validator.prunedThrough ∨
        session.validator.committedWrites.Spares first.raw key seq

def Informed (session : Session) : Prop :=
  ∀ key seq, (key, seq) ∈ session.recorded → session.Knows key seq

theorem Informed.record (informed : session.Informed) (keys : List Bytes) {at' : Nat}
    {validator : SsiValidator}
    (safe : ∀ key seq, key ∈ keys → (key, seq) ∈ session.recorded → seq ≤ at' ∨
      seq ≤ session.validator.prunedThrough ∨
        session.validator.committedWrites.Summarizes key seq)
    (pruned : validator.prunedThrough = session.validator.prunedThrough)
    (remembers : ∀ key seq, (keys.foldl (fun writes key => writes.insert key at')
        session.validator.committedWrites).Remembers key seq →
      validator.committedWrites.Remembers key seq) :
    Informed ⟨validator, session.recorded ++ keys.map (·, at')⟩ := by
  intro key seq mem
  rcases mem_append.mp mem with before | added
  · rcases informed key seq before with covered | kept
    · exact .inl (pruned ▸ covered)
    · by_cases isPruned : seq ≤ session.validator.prunedThrough
      · exact .inl (pruned ▸ isPruned)
      · refine .inr (remembers key seq (insertAll_keeps keys ?_ kept))
        intro isKey
        exact (safe key seq isKey before).imp_right fun either => either.resolve_left isPruned
  · obtain ⟨_, inKeys, same⟩ := mem_map.mp added
    cases same
    exact .inr (remembers key at' (insertAll_remembers keys le_rfl (.inr ⟨inKeys, rfl⟩)))

theorem Informed.perform (informed : session.Informed) (call : Call)
    (careful : session.Careful (.call call)) : (session.perform call).Informed := by
  cases call with
  | recordCommitKey key seq =>
    refine informed.record [key] ?_ rfl ?_
    · intro other old isKey mem
      obtain rfl := mem_singleton.mp isKey
      exact careful other seq.raw old (mem_singleton_self _) mem
    · intro other old inserted
      exact checkAndCoarsen_remembers _ inserted
  | recordCommitKeys keys seq =>
    refine informed.record keys ?_ rfl ?_
    · intro other old isKey mem
      exact careful other seq.raw old (mem_map_of_mem isKey) mem
    · intro other old inserted
      exact checkAndCoarsen_remembers _ inserted
  | validateAndRecord tx reads writeKeys seq =>
    have safe := careful
    simp only [Careful, additions] at safe
    simp only [Session.perform, validateAndRecord]
    cases accepted : session.validator.validate tx reads with
    | error conflict => exact informed
    | ok _ =>
      simp only [accepted] at safe
      refine informed.record writeKeys ?_ rfl ?_
      · intro other old isKey mem
        exact safe other seq.raw old (mem_map_of_mem isKey) mem
      · intro other old inserted
        exact inserted
  | pruneThrough bound =>
    intro key seq mem
    rcases informed key seq mem with covered | kept
    · exact .inl (covered.trans (prunedThrough_le_pruneThrough session.validator bound))
    · simp only [Session.perform, Knows, SsiValidator.pruneThrough]
      split
      · exact .inr kept
      · by_cases below : seq ≤ bound
        · exact .inl (below.trans (le_max_right _ _))
        · exact .inr (pruneThrough_remembers kept (Nat.lt_of_not_le below))

theorem Informed.advance (informed : session.Informed) (call : HistoryCall)
    (careful : session.Careful call) : (session.advance call).Informed := by
  cases call with
  | call call => exact informed.perform call careful
  | forgetFrom first =>
    intro key seq mem
    obtain ⟨recorded, older⟩ := mem_filter.mp mem
    rcases careful key seq recorded (of_decide_eq_true older) with pruned | spared
    · exact .inl pruned
    · exact .inr (removeFromSeq_remembers_iff.mpr spared)

theorem informed_history (maxTrackedKeys : Nat) (calls : List HistoryCall)
    (careful : ∀ before call after, calls = before ++ call :: after →
      (before.foldl advance (start maxTrackedKeys)).Careful call) :
    (calls.foldl advance (start maxTrackedKeys)).Informed := by
  induction calls using reverseRecOn with
  | nil =>
    intro key seq mem
    cases mem
  | append_singleton calls call ih =>
    rw [foldl_concat]
    apply Informed.advance _ call (careful calls call [] rfl)
    apply ih
    rintro before earlier after rfl
    apply careful before earlier (after ++ [call])
    rw [append_assoc, cons_append]

end Session

/-- In a history of careful calls every write that has been recorded and not forgotten refuses the
read sets with an older read of its key. -/
theorem forgetFrom_refuses_recorded (maxTrackedKeys : Nat) (calls : List HistoryCall)
    (careful : ∀ before call after, calls = before ++ call :: after →
      (before.foldl Session.advance (Session.start maxTrackedKeys)).Careful call)
    (key : Bytes) (seq : Nat)
    (recorded : (key, seq) ∈ (calls.foldl Session.advance (Session.start maxTrackedKeys)).recorded)
    (tx : TxId) (reads : ReadSet) (snapshot : Nat) (overlaps : reads.Overlaps key snapshot)
    (newer : snapshot < seq) :
    ∃ reason, (calls.foldl Session.advance (Session.start maxTrackedKeys)).validator.validate
      tx reads = .error (.conflict tx reason) :=
  (Session.informed_history maxTrackedKeys calls careful key seq recorded).refused tx overlaps newer

/-- A commit below the bound whose key has not been recorded again. -/
theorem forgetFrom_refuses_older :
    let calls : List HistoryCall := [.call (.recordCommitKey [1] ⟨1, false⟩),
      .forgetFrom ⟨2, false⟩]
    ∃ reason, (calls.foldl Session.advance (Session.start 9)).validator.validate 4
      ⟨(∅ : TreeMap Bytes Nat).insert [1] 0, ∅⟩ = .error (.conflict 4 reason) := by
  intro calls
  apply forgetFrom_refuses_recorded 9 calls _ [1] 1 (by decide +kernel) 4 _ 0 (.inl (by simp))
    (by decide)
  intro before call after split
  match before, split with
  | [], split =>
    obtain ⟨rfl, -⟩ := List.cons.inj split
    intro key at' seq _ mem
    cases mem
  | [first], split =>
    obtain ⟨rfl, rest⟩ := List.cons.inj split
    obtain ⟨rfl, -⟩ := List.cons.inj rest
    intro key seq mem _
    obtain ⟨rfl, rfl⟩ := Prod.mk.inj (mem_singleton.mp mem)
    refine .inr (.inr ⟨1, by decide +kernel, .inr ⟨?_, le_rfl⟩⟩)
    intro doomed
    exact absurd doomed.1 (by decide)
  | first :: second :: others, split =>
    obtain ⟨-, rest⟩ := List.cons.inj split
    obtain ⟨-, none⟩ := List.cons.inj rest
    exact absurd none.symm (append_ne_nil_of_right_ne_nil _ (cons_ne_nil _ _))

/-- A register of capacity 2 merges the commits at 1 and 2 into one coarse bucket at 2.  Forgetting
from 2 on removes it, and the commit at 1 no longer refuses a read at 0. -/
theorem forgetFrom_loses_merged :
    let calls : List HistoryCall := [.call (.recordCommitKey [1] ⟨1, false⟩),
      .call (.recordCommitKey [2] ⟨2, false⟩), .forgetFrom ⟨2, false⟩]
    let session := calls.foldl Session.advance (Session.start 2)
    ([1], 1) ∈ session.recorded ∧
      session.validator.conflictReason ⟨(∅ : TreeMap Bytes Nat).insert [1] 0, ∅⟩ = none := by
  decide +kernel

end SsiValidator

end Contextra.Mvcc
