import Contextra.Library.Kway
import Contextra.Store.Retention

/-!
# Compaction merge

`merge_sstables_inner`: the streams of the input tables are merged through a heap of their heads,
versions no snapshot can read are dropped, and a merge operator may fold two versions into one.  A
round takes the heap's maximum, keeps its own stream back until it ends, and adds at most one entry.
-/

/-!
## SSTables

A table is the list of its entries with the invariant its builder enforces, and
the footer data are functions of the entries.  The builder refuses an entry that
would break the order, so a table that exists is sorted.
-/

namespace Contextra.Store

open Library List

structure Sstable where
  entries : List Entry
  sorted : entries.Pairwise Entry.Before
  small : ∀ entry ∈ entries, entry.value.length ≤ maxValueSize

/-- The rejections of `SstableBuilder::add`, with what their messages print. -/
inductive BuilderError where
  | valueTooLarge (keySize valueSize : Nat)
  | outOfOrder (previous current : Key)
  | duplicateVersion (previousSeq currentSeq : Nat)
  deriving DecidableEq

namespace Sstable

def empty : Sstable := ⟨[], List.Pairwise.nil, by simp⟩

variable {entry : Entry}

theorem sorted_concat {entries : List Entry} (sorted : entries.Pairwise Entry.Before)
    (after : ∀ last ∈ entries.getLast?, last.Before entry) :
    (entries ++ [entry]).Pairwise Entry.Before := by
  refine pairwise_append.mpr ⟨sorted, pairwise_singleton _ _, ?_⟩
  intro earlier mem added isAdded
  obtain rfl := mem_singleton.mp isAdded
  have inhabited : entries ≠ [] := ne_nil_of_mem mem
  have last := after (entries.getLast inhabited) (getLast?_eq_some_getLast inhabited)
  -- every entry is the last one or stands before it
  rw [← dropLast_append_getLast inhabited] at mem sorted
  rcases mem_append.mp mem with inInit | isLast
  · have beforeLast := (pairwise_append.mp sorted).2.2 earlier inInit
      (entries.getLast inhabited) (mem_singleton.mpr rfl)
    exact Entry.before_trans _ _ _ beforeLast last
  · rw [mem_singleton.mp isLast]
    exact last

theorem before_of_not_rejected {last entry : Entry} (inOrder : ¬ entry.key < last.key)
    (newVersion : ¬ (entry.key = last.key ∧ last.raw ≤ entry.raw)) : last.Before entry := by
  rcases lt_or_eq_of_le (not_lt.mp inOrder) with less | same
  · exact .inl less
  · exact .inr ⟨same, not_le.mp fun notNewer => newVersion ⟨same.symm, notNewer⟩⟩

/-- `SstableBuilder::add` on the entries written so far. -/
def add (built : Sstable) (entry : Entry) : Except BuilderError Sstable :=
  if fits : entry.value.length ≤ maxValueSize then
    have small : ∀ other ∈ built.entries ++ [entry], other.value.length ≤ maxValueSize := by
      intro other mem
      rcases mem_append.mp mem with old | new
      · exact built.small other old
      · exact mem_singleton.mp new ▸ fits
    match found : built.entries.getLast? with
    | none =>
      .ok ⟨built.entries ++ [entry], sorted_concat built.sorted (by simp [found]), small⟩
    | some last =>
      if disordered : entry.key < last.key then .error (.outOfOrder last.key entry.key)
      else if repeated : entry.key = last.key ∧ last.raw ≤ entry.raw then
        .error (.duplicateVersion last.raw entry.raw)
      else
        .ok ⟨built.entries ++ [entry], sorted_concat built.sorted (by
          intro other isLast
          rw [found, Option.mem_some_iff] at isLast
          exact isLast ▸ before_of_not_rejected disordered repeated), small⟩
  else .error (.valueTooLarge entry.key.bytes.length entry.value.length)

theorem add_entries {built next : Sstable} (added : built.add entry = .ok next) :
    next.entries = built.entries ++ [entry] := by
  unfold add at added
  split at added
  · split at added
    · exact (Except.ok.inj added) ▸ rfl
    · split at added
      · cases added
      · split at added
        · cases added
        · exact (Except.ok.inj added) ▸ rfl
  · cases added

theorem add_ok {built : Sstable} (fits : entry.value.length ≤ maxValueSize)
    (after : ∀ last ∈ built.entries.getLast?, last.Before entry) :
    ∃ next, built.add entry = .ok next := by
  unfold add
  rw [dif_pos fits]
  split
  · exact ⟨_, rfl⟩
  · rename_i last found
    have ordered := after last found
    have inOrder : ¬ entry.key < last.key := by
      rcases ordered with less | ⟨same, -⟩
      · exact less.asymm
      · exact same ▸ lt_irrefl _
    have newVersion : ¬ (entry.key = last.key ∧ last.raw ≤ entry.raw) := by
      rintro ⟨same, notNewer⟩
      exact absurd (Entry.raw_lt_of_before ordered same.symm) (not_lt.mpr notNewer)
    rw [dif_neg inOrder, dif_neg newVersion]
    exact ⟨_, rfl⟩

end Sstable

end Contextra.Store

namespace Contextra.Store

open Library List

/-- A merge operator with its wall clock: the result of its `n`-th call on an
existing and a new value, `none` for an error or an exceeded timeout. -/
abbrev MergeOperator := Nat → Bytes → Bytes → Option Bytes

structure MergeConfig where
  mergeOperator : Option MergeOperator
  /-- `key_manager.is_some()`: values are ciphertexts and are not merged. -/
  encrypted : Bool
  minSnapshotSeq : Nat
  isFullCompaction : Bool

/-- The two versions an operator call combines, the older one first. -/
structure MergeCall where
  existing : Entry
  new : Entry
  deriving DecidableEq

/-- The loop's variables.  A heap item is the head of its source. -/
structure MergeState where
  sources : List (List Entry)
  lastKey : Option Key
  floorEmitted : Bool
  builder : Sstable
  calls : List MergeCall

/-- A failed merge: the builder's error and the operator calls made before it. -/
structure MergeFailure where
  error : BuilderError
  calls : List MergeCall

namespace MergeState

def initial (inputs : List Sstable) : MergeState where
  sources := inputs.map (·.entries)
  lastKey := none
  floorEmitted := false
  builder := .empty
  calls := []

/-- `heap.iter().any(..)`: a tombstone of the key is among the heads. -/
def tombstoneInHeap (heap : List (List Entry)) (key : Key) : Bool :=
  heap.any fun source =>
    match source.head? with
    | some head => head.key = key && head.seq.tombstone
    | none => false

/-- The heap's next item, when the merge branch applies to it and `item`. -/
def mergePartner (config : MergeConfig) (heap : List (List Entry)) (item : Entry) :
    Option (Nat × Entry) :=
  if config.encrypted = false ∧ item.seq.tombstone = false ∧ item.raw < config.minSnapshotSeq then
    match firstHead Entry.Before heap with
    | some (index, next) =>
      if next.key = item.key ∧ next.seq.tombstone = false ∧
          next.raw < config.minSnapshotSeq ∧ tombstoneInHeap heap item.key = false then
        some (index, next)
      else none
    | none => none
  else none

/-- The retention branch: `merged` is false. -/
def retain (config : MergeConfig) (state : MergeState) (item : Entry) (failedMergeKeep : Bool) :
    Except MergeFailure MergeState :=
  let (keep, floorEmitted) :=
    if config.minSnapshotSeq < item.raw then (true, state.floorEmitted)
    else if state.floorEmitted = false then
      (true, if failedMergeKeep then state.floorEmitted else true)
    else (false, state.floorEmitted)
  if keep then
    let shouldGcTombstone :=
      item.seq.tombstone && config.isFullCompaction && decide (item.raw < config.minSnapshotSeq)
    if shouldGcTombstone then
      .ok { state with lastKey := some item.key, floorEmitted }
    else
      match state.builder.add item with
      | .ok builder => .ok { state with lastKey := some item.key, floorEmitted, builder }
      | .error error => .error ⟨error, state.calls⟩
  else .ok { state with floorEmitted }

/-- The merge branch on `item` and its partner; the partner's source moves on. -/
def merge (config : MergeConfig) (operator : MergeOperator) (state : MergeState) (item : Entry)
    (index : Nat) (next : Entry) : Except MergeFailure MergeState :=
  let called : MergeState := { state with calls := state.calls ++ [⟨next, item⟩] }
  match operator state.calls.length next.value item.value with
  | some mergedVal =>
    match state.builder.add { item with value := mergedVal } with
    | .ok builder =>
      .ok { called with
        sources := advance state.sources index
        lastKey := some item.key
        floorEmitted := true
        builder }
    | .error error => .error ⟨error, called.calls⟩
  | none => called.retain config item true

/-- The flag `floor_emitted` as a round sees it: reset when another key comes. -/
def flagOf (state : MergeState) (item : Entry) : Bool :=
  if state.lastKey = some item.key then state.floorEmitted else false

/-- The heap while the item is out and its stream not yet asked again. -/
def heapDuring (state : MergeState) (index : Nat) : List (List Entry) :=
  state.sources.set index []

/-- The variables after `heap.pop()`. -/
def opened (state : MergeState) (index : Nat) (item : Entry) : MergeState :=
  { state with sources := state.heapDuring index, floorEmitted := state.flagOf item }

/-- The end of the round: the next item of the popped item's stream is pushed. -/
def closed (state : MergeState) (index : Nat) (next : MergeState) : MergeState :=
  { next with sources := next.sources.set index (state.sources.getD index []).tail }

/-- The body of the loop for the popped `item` of the source `index`. -/
def body (config : MergeConfig) (state : MergeState) (index : Nat) (item : Entry) :
    Except MergeFailure MergeState :=
  let taken :=
    match config.mergeOperator, mergePartner config (state.heapDuring index) item with
    | some operator, some (partner, next) =>
      (state.opened index item).merge config operator item partner next
    | _, _ => (state.opened index item).retain config item false
  taken.map (state.closed index)

/-- `while let Some(item) = heap.pop()`, for at most `fuel` rounds. -/
def loop (config : MergeConfig) : Nat → MergeState → Except MergeFailure MergeState
  | 0, state => .ok state
  | fuel + 1, state =>
    match firstHead Entry.Before state.sources with
    | none => .ok state
    | some (index, item) =>
      match state.body config index item with
      | .ok next => loop config fuel next
      | .error failure => .error failure

end MergeState

def union (inputs : List Sstable) : List Entry := inputs.flatMap (·.entries)

/-- `merge_sstables_inner`.  Every round takes at least one entry from the sources. -/
def mergeSstables (config : MergeConfig) (inputs : List Sstable) :
    Except MergeFailure MergeState :=
  (MergeState.initial inputs).loop config (union inputs).length

end Contextra.Store
