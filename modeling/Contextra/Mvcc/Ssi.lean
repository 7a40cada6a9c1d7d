import Contextra.Types

/-!
# The SSI validator

The commit register of `SequenceLogSsiValidator`: the newest commit sequence of
every tracked key, and an index of buckets by commit sequence which are exact key
lists until the register fills up and coarse prefixes after that.  `validate`
compares a read set with the register.
-/

namespace Contextra.Mvcc

open Std (TreeMap)

/-- The point and range reads of a transaction, each with its snapshot sequence. -/
structure ReadSet where
  keys : TreeMap Bytes Nat
  prefixes : TreeMap Bytes Nat

def ReadSet.isEmpty (reads : ReadSet) : Bool :=
  reads.keys.isEmpty && reads.prefixes.isEmpty

/-- `ReadSet::record_read`: a repeated read keeps the older snapshot. -/
def ReadSet.recordRead (reads : ReadSet) (key : Bytes) (snapshot : Nat) : ReadSet :=
  { reads with keys := reads.keys.insert key (min (reads.keys.getD key snapshot) snapshot) }

inductive SeqBucket where
  | exact (keys : List Bytes)
  | coarsened (prefixes : List Bytes) (originalKeyCount : Nat)
  deriving DecidableEq, Repr

def SeqBucket.prefixCount : SeqBucket → Nat
  | .exact _ => 0
  | .coarsened prefixes _ => prefixes.length

def chunks (size : Nat) (keys : List Bytes) : List (List Bytes) :=
  (List.range ((keys.length + size - 1) / size)).map fun i => (keys.drop (i * size)).take size

def commonPrefix : Bytes → Bytes → Bytes
  | first :: left, second :: right =>
    if first = second then first :: commonPrefix left right else []
  | _, _ => []

local instance bytesLawful : LawfulBEq Bytes := inferInstanceAs (LawfulBEq (List UInt8))

def chunkPrefixes : List (List Bytes) → List Bytes → List Bytes
  | [], found => found
  | [] :: later, found => chunkPrefixes later found
  | (first :: rest) :: later, found =>
    let lcp := rest.foldl commonPrefix first
    chunkPrefixes later (if lcp ∈ found then found else found ++ [lcp])

/-- `coarsen_keys_to_prefixes`: sort, split into at most `maxPrefixes` chunks and
keep one common prefix for each. -/
def coarsenKeysToPrefixes (keys : List Bytes) (maxPrefixes : Nat) : List Bytes :=
  if keys.isEmpty then []
  else if keys.length ≤ maxPrefixes then keys
  else
    let sorted := keys.insertionSort (· ≤ ·)
    chunkPrefixes (chunks ((sorted.length + maxPrefixes - 1) / maxPrefixes) sorted) []

structure CommittedWrites where
  keys : TreeMap Bytes Nat
  seqIndex : TreeMap Nat SeqBucket

namespace CommittedWrites

def empty : CommittedWrites := ⟨∅, ∅⟩

def coarsenedPrefixCount (writes : CommittedWrites) : Nat :=
  (writes.seqIndex.toList.map (fun entry => entry.2.prefixCount)).sum

/-- `tracked_count`, also `len`. -/
def trackedCount (writes : CommittedWrites) : Nat :=
  writes.keys.size + writes.coarsenedPrefixCount

/-- What `insert` leaves at the index of its commit sequence. -/
def bucketWith (key : Bytes) : Option SeqBucket → SeqBucket
  | none => .exact [key]
  | some (.exact keys) => if key ∈ keys then .exact keys else .exact (keys ++ [key])
  | some (.coarsened prefixes count) => .coarsened prefixes (count + 1)

def insert (writes : CommittedWrites) (key : Bytes) (commitSeq : Nat) : CommittedWrites where
  keys := writes.keys.insert key commitSeq
  seqIndex := writes.seqIndex.insert commitSeq (bucketWith key writes.seqIndex[commitSeq]?)

/-- Drop the tracked keys whose newest commit is the bucket's own sequence. -/
def dropOwnKeys (keys : TreeMap Bytes Nat) (seq : Nat) (bucketKeys : List Bytes) :
    TreeMap Bytes Nat :=
  bucketKeys.foldl (fun keys key => if keys[key]? = some seq then keys.erase key else keys) keys

/-- One round of `coarsen_oldest_buckets` for the bucket at `seq`. -/
def coarsenBucket (state : CommittedWrites × Nat) (seq : Nat) : CommittedWrites × Nat :=
  match state.1.seqIndex[seq]? with
  | some (.exact keys) =>
    ({ keys := dropOwnKeys state.1.keys seq keys
       seqIndex := state.1.seqIndex.insert seq
         (.coarsened (coarsenKeysToPrefixes keys 2) keys.length) }, state.2 + 1)
  | _ => state

def coarsenOldestBuckets (writes : CommittedWrites) : CommittedWrites × Nat :=
  writes.seqIndex.keys.foldl coarsenBucket (writes, 0)

/-- The prefixes and the key count a bucket contributes to a merged one. -/
def mergeParts : SeqBucket → List Bytes × Nat
  | .exact keys => (coarsenKeysToPrefixes keys 2, keys.length)
  | .coarsened prefixes count => (prefixes, count)

def ownKeysOf : SeqBucket → List Bytes
  | .exact keys => keys
  | .coarsened _ _ => []

/-- Merge the buckets at `s1` and `s2` into one coarse bucket at `s2`. -/
def mergeBuckets (writes : CommittedWrites) (s1 s2 : Nat) (b1 b2 : SeqBucket) :
    CommittedWrites :=
  let keys := dropOwnKeys (dropOwnKeys writes.keys s1 (ownKeysOf b1)) s2 (ownKeysOf b2)
  let (p1, n1) := mergeParts b1
  let (p2, n2) := mergeParts b2
  { keys
    seqIndex := ((writes.seqIndex.erase s1).erase s2).insert s2
      (.coarsened (coarsenKeysToPrefixes (p1 ++ p2) 2) (n1 + n2)) }

/-- The loop over `seqs.chunks(2)`; an odd last bucket stays as it is. -/
def mergePairs : List Nat → CommittedWrites × Nat → CommittedWrites × Nat
  | s1 :: s2 :: seqs, (writes, merged) =>
    match writes.seqIndex[s1]?, writes.seqIndex[s2]? with
    | some b1, some b2 => mergePairs seqs (mergeBuckets writes s1 s2 b1 b2, merged + 1)
    | _, _ => mergePairs seqs (writes, merged)
  | _, state => state

def mergeAdjacentBuckets (writes : CommittedWrites) : CommittedWrites × Nat :=
  if writes.seqIndex.size < 2 then (writes, 0)
  else mergePairs writes.seqIndex.keys (writes, 0)

/-- The newest exact bucket before `first` that contains the key. -/
def highestOldSeq (index : TreeMap Nat SeqBucket) (first : Nat) (key : Bytes) : Option Nat :=
  ((index.toList.filter (fun entry => entry.1 < first)).reverse.find? (fun entry =>
    match entry.2 with
    | .exact keys => keys.contains key
    | .coarsened _ _ => false)).map (·.1)

/-- Give a key of a forgotten bucket its newest older commit sequence back. -/
def restoreKey (index : TreeMap Nat SeqBucket) (first seq : Nat)
    (state : TreeMap Bytes Nat × Nat) (key : Bytes) : TreeMap Bytes Nat × Nat :=
  if state.1[key]? = some seq then
    match highestOldSeq index first key with
    | some old => (state.1.insert key old, state.2 + 1)
    | none => (state.1.erase key, state.2 + 1)
  else state

def forgetBucket (index : TreeMap Nat SeqBucket) (first : Nat)
    (state : TreeMap Bytes Nat × Nat) (entry : Nat × SeqBucket) : TreeMap Bytes Nat × Nat :=
  match entry.2 with
  | .exact keys => keys.foldl (restoreKey index first entry.1) state
  | .coarsened _ count => (state.1, state.2 + count)

/-- Remove every bucket at or after `first`; the count is that of the source. -/
def removeFromSeq (writes : CommittedWrites) (first : Nat) : CommittedWrites × Nat :=
  let doomed := writes.seqIndex.toList.filter (fun entry => first ≤ entry.1)
  let (keys, removed) := doomed.foldl (forgetBucket writes.seqIndex first) (writes.keys, 0)
  ({ keys, seqIndex := (doomed.map (·.1)).foldl (·.erase ·) writes.seqIndex }, removed)

def pruneKey (seq : Nat) (state : TreeMap Bytes Nat × Nat) (key : Bytes) :
    TreeMap Bytes Nat × Nat :=
  if state.1[key]? = some seq then (state.1.erase key, state.2 + 1) else state

def pruneBucket (state : TreeMap Bytes Nat × Nat) (entry : Nat × SeqBucket) :
    TreeMap Bytes Nat × Nat :=
  match entry.2 with
  | .exact keys => keys.foldl (pruneKey entry.1) state
  | .coarsened _ count => (state.1, state.2 + count)

def pruneThrough (writes : CommittedWrites) (bound : Nat) : CommittedWrites × Nat :=
  let doomed := writes.seqIndex.toList.filter (fun entry => entry.1 ≤ bound)
  let (keys, removed) := doomed.foldl pruneBucket (writes.keys, 0)
  ({ keys, seqIndex := (doomed.map (·.1)).foldl (·.erase ·) writes.seqIndex }, removed)

end CommittedWrites

/-- `SequenceLogSsiValidator` as the store builds it: no sequence log is attached. -/
structure SsiValidator where
  committedWrites : CommittedWrites
  prunedThrough : Nat
  maxTrackedKeys : Nat

namespace SsiValidator

open CommittedWrites

def newWithBounds (maxTrackedKeys : Nat) : SsiValidator := ⟨.empty, 0, maxTrackedKeys⟩

def defaultMaxTrackedKeys : Nat := 1000000

/-- The loop of `check_and_coarsen_if_needed` with its remaining rounds. -/
def coarsenRounds (threshold : Nat) : Nat → CommittedWrites → CommittedWrites
  | 0, writes => writes
  | rounds + 1, writes =>
    if threshold ≤ writes.trackedCount then
      let (coarse, coarsened) := writes.coarsenOldestBuckets
      let (next, merged) := coarse.mergeAdjacentBuckets
      if coarsened = 0 ∧ merged = 0 then next else coarsenRounds threshold rounds next
    else writes

def checkAndCoarsenIfNeeded (maxTrackedKeys : Nat) (writes : CommittedWrites) :
    CommittedWrites :=
  coarsenRounds (maxTrackedKeys * 80 / 100) 10 writes

/-- `record_commit_key` with the raw commit sequence. -/
def recordCommitKey (validator : SsiValidator) (key : Bytes) (commitSeq : Nat) :
    SsiValidator :=
  { validator with
    committedWrites := checkAndCoarsenIfNeeded validator.maxTrackedKeys
      (validator.committedWrites.insert key commitSeq) }

def forgetFrom (validator : SsiValidator) (first : Nat) : SsiValidator :=
  { validator with committedWrites := (validator.committedWrites.removeFromSeq first).1 }

/-- `prune_through`: sentinels, words with the tombstone bit and everything else
from `i64::MAX` on are not a bound and are ignored. -/
def pruneThrough (validator : SsiValidator) (bound : Nat) : SsiValidator :=
  if tombstoneBit - 1 ≤ bound then validator
  else
    { validator with
      committedWrites := (validator.committedWrites.pruneThrough bound).1
      prunedThrough := max validator.prunedThrough bound }

/-- The first coarse prefix newer than the snapshot that covers the key. -/
def coarsenedPointConflict (writes : CommittedWrites) (key : Bytes) (snapshot : Nat) :
    Option ConflictReason :=
  writes.seqIndex.toList.findSome? fun entry =>
    if snapshot < entry.1 then
      match entry.2 with
      | .coarsened prefixes _ =>
        (prefixes.find? (·.isPrefixOf key)).map (.coarsenedPrefix key · entry.1 snapshot)
      | .exact _ => none
    else none

/-- The body of the loop in `validate_point_reads`. -/
def pointConflict (writes : CommittedWrites) (prunedThrough : Nat) (read : Bytes × Nat) :
    Option ConflictReason :=
  let (key, snapshot) := read
  if snapshot < prunedThrough then some (.snapshotTooOld key snapshot prunedThrough)
  else
    match writes.keys[key]? with
    | some commitSeq =>
      if snapshot < commitSeq then some (.keyModified key commitSeq snapshot)
      else coarsenedPointConflict writes key snapshot
    | none => coarsenedPointConflict writes key snapshot

def committedRangeConflict (writes : CommittedWrites) (range : Bytes) (snapshot : Nat) :
    Option ConflictReason :=
  writes.keys.toList.findSome? fun entry =>
    if range.isPrefixOf entry.1 && decide (snapshot < entry.2) then
      some (.phantomKey entry.1 range entry.2 snapshot)
    else none

def coarsenedRangeConflict (writes : CommittedWrites) (range : Bytes) (snapshot : Nat) :
    Option ConflictReason :=
  writes.seqIndex.toList.findSome? fun entry =>
    if snapshot < entry.1 then
      match entry.2 with
      | .coarsened prefixes _ =>
        (prefixes.find? (fun coarse => range.isPrefixOf coarse || coarse.isPrefixOf range)).map
          (.phantomPrefix · range entry.1 snapshot)
      | .exact _ => none
    else none

/-- The body of the loop in `validate_range_reads`. -/
def rangeConflict (writes : CommittedWrites) (prunedThrough : Nat) (read : Bytes × Nat) :
    Option ConflictReason :=
  let (range, snapshot) := read
  if snapshot < prunedThrough then some (.rangeTooOld range snapshot prunedThrough)
  else
    (committedRangeConflict writes range snapshot).or
      (coarsenedRangeConflict writes range snapshot)

/-- `validate_internal`; the entries of the maps come in key order, as sorted there. -/
def conflictReason (validator : SsiValidator) (reads : ReadSet) : Option ConflictReason :=
  let writes := validator.committedWrites
  if reads.isEmpty then none
  else if validator.maxTrackedKeys ≤ writes.trackedCount then
    some (.capacityReached writes.trackedCount validator.maxTrackedKeys)
  else
    (reads.keys.toList.findSome? (pointConflict writes validator.prunedThrough)).or
      (reads.prefixes.toList.findSome? (rangeConflict writes validator.prunedThrough))

def validate (validator : SsiValidator) (tx : TxId) (reads : ReadSet) :
    Except ContextraError Unit :=
  match validator.conflictReason reads with
  | some reason => .error (.conflict tx reason)
  | none => .ok ()

end SsiValidator

end Contextra.Mvcc
