import Contextra.Library.SortedMap
import Contextra.Mvcc.TxBuffer
import Contextra.Store.SstableReads

/-!
# The memtable

The versions in memory, `memtable.rs`, in shards by key.  Keys of the system are spread by a hash
of what stands behind their reserved prefix, other keys by their first two bytes; the scans visit
only the shards that may hold a key of theirs.  The size is a number without a bound.
-/

namespace Contextra.Store

open Library
open scoped Library.ByteOrder

def shardCount : Nat := 16

instance : NeZero shardCount := ⟨by decide⟩

/-- A version of a key: `(seq_no, value, tx_id)`. -/
structure MemTableEntry where
  seqNo : UInt64
  value : Bytes
  txId : UInt64
  deriving DecidableEq, Repr

namespace MemTableEntry

def raw (version : MemTableEntry) : Nat := rawSeq version.seqNo

/-- `tx <= max_tx || tx >= TxId::INTERNAL_BASE`. -/
def seenBy (maxTx : UInt64) (version : MemTableEntry) : Bool :=
  decide (version.txId ≤ maxTx ∨ internalBase ≤ version.txId.toNat)

def row (key : Bytes) (version : MemTableEntry) : TableEntry :=
  ⟨key, version.value, version.seqNo, version.txId⟩

end MemTableEntry

def ascii (text : String) : Bytes := text.toUTF8.toList

def reservedPrefixes : List Bytes :=
  [ascii "__col:", ascii "__col_idx:", ascii "__meta:", ascii "__rel:", ascii "__idx:",
    ascii "__graph:", ascii "__txt:", ascii "__docid:", ascii "__tx_intent:",
    ascii "__kv_spill:", ascii "__session_dag:", ascii "__maintenance_intent:"]

def underscore : UInt8 := 0x5F

def matchingReservedPrefix (key : Bytes) : Option Bytes :=
  if [underscore, underscore] <+: key then
    some ((reservedPrefixes.find? fun reserved => decide (reserved <+: key)).getD
      [underscore, underscore])
  else none

def hashRemainder (remainder : Bytes) : Fin shardCount :=
  let hash : UInt64 := remainder.foldl
    (fun hash byte => (hash ^^^ byte.toUInt64) * 0x100000001b3) 0xcbf29ce484222325
  Fin.ofNat shardCount hash.toNat

/-- The first two bytes of a key as a number; a missing byte counts as 0. -/
def leadingBytes (key : Bytes) : Nat :=
  ((key[0]?).getD 0).toNat * 256 + ((key[1]?).getD 0).toNat

theorem leadingBytes_lt (key : Bytes) : leadingBytes key < 65536 := by
  have first := ((key[0]?).getD 0).toNat_lt
  have second := ((key[1]?).getD 0).toNat_lt
  rw [leadingBytes]
  omega

def rangeShard (key : Bytes) : Fin shardCount :=
  ⟨leadingBytes key * shardCount / 65536, by
    have bounded := leadingBytes_lt key
    rw [shardCount]
    omega⟩

def shardFor (key : Bytes) : Fin shardCount :=
  match matchingReservedPrefix key with
  | some reserved => hashRemainder (key.drop reserved.length)
  | none => rangeShard key

def shardsBetween (first last : Fin shardCount) : List (Fin shardCount) :=
  (List.finRange shardCount).filter fun index => decide (first ≤ index ∧ index ≤ last)

def allShards : List (Fin shardCount) := List.finRange shardCount

def shardRangeForPrefix (keyPrefix : Bytes) : List (Fin shardCount) :=
  if keyPrefix.head? = some underscore then allShards
  else
    match keyPrefix with
    | [] => allShards
    | [first] => shardsBetween (shardFor [first, 0x00]) (shardFor [first, 0xFF])
    | _ => [shardFor keyPrefix]

namespace Bound

def key? : Bound → Option Bytes
  | included key => some key
  | excluded key => some key
  | unbounded => none

/-- `s.first() == Some(&b'_')`. -/
def startsSystem (bound : Bound) : Bool :=
  bound.key?.any fun key => decide (key.head? = some underscore)

end Bound

def shardRangeForBounds (start stop : Bound) : List (Fin shardCount) :=
  let isSystem := start.startsSystem || stop.startsSystem ||
    match start.key?, stop.key? with
    | some first, some last =>
      decide (first ≤ [underscore, underscore] ∧ [underscore, underscore] ≤ last)
    | _, _ => true
  if isSystem then allShards
  else
    shardsBetween ((start.key?.map shardFor).getD 0)
      ((stop.key?.map shardFor).getD ⟨shardCount - 1, by decide⟩)

/-- A `BTreeMap` of versions by key. -/
abbrev MemTableMap := SortedMap Bytes (List MemTableEntry)

structure MemTable where
  shards : Fin shardCount → MemTableMap
  size : Nat
  minTx : UInt64
  maxTx : UInt64

/-- What a scan has collected: the value and the sequence number of each key. -/
abbrev ScanTarget := SortedMap Bytes (Bytes × UInt64)

def entrySize (row : TableEntry) : Nat :=
  row.key.length + row.value.length + Mvcc.stagingEntryOverheadBytes

section Versions

variable (versions : List MemTableEntry)

/-- The version at a position against a sequence number. -/
def rawOrder (target position : Nat) : Ordering :=
  compare (((versions[position]?).map MemTableEntry.raw).getD 0) target

/-- `binary_search_by_key` on the raw sequence numbers. -/
def searchRaw (target : Nat) : SearchResult :=
  let probe (position : Nat) : Except Empty Ordering := .ok (rawOrder versions target position)
  match binarySearch probe 0 versions.length with
  | .ok result => result
  | .error impossible => impossible.elim

/-- From a position onwards, over the versions with the sequence number. -/
def passEqual (target position : Nat) : Nat :=
  position + ((versions.drop position).takeWhile fun version => version.raw = target).length

/-- Where a version with the sequence number is put in. -/
def insertPosition (target : Nat) : Nat :=
  match searchRaw versions target with
  | .found position => passEqual versions target (position + 1)
  | .missing position => position

def insertVersion (version : MemTableEntry) : List MemTableEntry :=
  if versions.getLast?.all fun last => decide (last.raw ≤ version.raw) then versions ++ [version]
  else
    let position := insertPosition versions version.raw
    versions.take position ++ version :: versions.drop position

/-- How many versions are at most as new as the bound. -/
def upperPosition (bound : Nat) : Nat :=
  match searchRaw versions bound with
  | .found position => passEqual versions bound position
  | .missing position => position

/-- The search backwards from the newest version within the bound. -/
def findVisible (bound : Nat) (maxTx : UInt64) : Option MemTableEntry :=
  (versions.take (upperPosition versions bound)).reverse.find? (MemTableEntry.seenBy maxTx)

/-- The loop of the scans over the versions of a key. -/
def bestVersion (matching : MemTableEntry → Bool) : Option MemTableEntry :=
  versions.foldl
    (fun best version =>
      if matching version then
        match best with
        | some found => if found.raw < version.raw then some version else best
        | none => some version
      else best) none

end Versions

def mergeInto (target : ScanTarget) (key : Bytes) (version : MemTableEntry) : ScanTarget :=
  match target.lookup key with
  | none => target.insert key (version.value, version.seqNo)
  | some (_, seqNo) =>
    if rawSeq seqNo < version.raw then target.insert key (version.value, version.seqNo)
    else target

/-- An additional predicate of a scan, on key, raw sequence number and transaction. -/
abbrev ScanPredicate := Bytes → Nat → UInt64 → Bool

def matchingVersion (seqNo maxTx : UInt64) (predicate : ScanPredicate) (key : Bytes)
    (version : MemTableEntry) : Bool :=
  decide (version.raw ≤ rawSeq seqNo) && version.seenBy maxTx &&
    predicate key version.raw version.txId

def mergeKey (seqNo maxTx : UInt64) (predicate : ScanPredicate) (target : ScanTarget)
    (entry : Bytes × List MemTableEntry) : ScanTarget :=
  match bestVersion entry.2 (matchingVersion seqNo maxTx predicate entry.1) with
  | some version => mergeInto target entry.1 version
  | none => target

def isValidRangeBounds : Bound → Bound → Bool
  | .included start, .included stop => decide (start ≤ stop)
  | .included start, .excluded stop => decide (start < stop)
  | .excluded start, .included stop => decide (start < stop)
  | .excluded start, .excluded stop => decide (start < stop)
  | _, _ => true

/-- `BTreeMap::range` panics: the start is behind the end, or both are the same excluded key. -/
def rangePanics : Bound → Bound → Bool
  | .included start, .included stop => decide (stop < start)
  | .included start, .excluded stop => decide (stop < start)
  | .excluded start, .included stop => decide (stop < start)
  | .excluded start, .excluded stop => decide (stop ≤ start)
  | _, _ => false

/-- `BTreeMap::range`, without a result where it panics. -/
def rangeOf (entries : MemTableMap) (start stop : Bound) :
    Option (List (Bytes × List MemTableEntry)) :=
  if rangePanics start stop then none
  else some (entries.entries.filter fun entry =>
    decide (start.AboveStart entry.1) && decide (stop.BelowEnd entry.1))

namespace MemTable

def new : MemTable := ⟨fun _ => .empty, 0, .ofNat (2 ^ 64 - 1), 0⟩

variable (table : MemTable)

/-- All versions, in the order in which `rollback` visits them. -/
def allVersions : List TableEntry :=
  allShards.flatMap fun index => (table.shards index).entries.flatMap fun entry =>
    entry.2.map (MemTableEntry.row entry.1)

def put (key value : Bytes) (seqNo txId : UInt64) : MemTable :=
  let entries := table.shards (shardFor key)
  let version : MemTableEntry := ⟨seqNo, value, txId⟩
  { shards := Function.update table.shards (shardFor key)
      (entries.insert key (insertVersion ((entries.lookup key).getD []) version))
    size := table.size + entrySize (version.row key)
    minTx := if table.minTx ≤ txId then table.minTx else txId
    maxTx := if txId ≤ table.maxTx then table.maxTx else txId }

def retained (txId : UInt64) (_ : Bytes) (versions : List MemTableEntry) :
    Option (List MemTableEntry) :=
  let kept := versions.filter fun version => version.txId ≠ txId
  if kept.isEmpty then none else some kept

def rollback (txId : UInt64) : MemTable :=
  let freed := ((table.allVersions.filter fun row => row.txId = txId).map entrySize).sum
  let stays := (table.allVersions.filter fun row => row.txId ≠ txId).map TableEntry.txId
  { shards := fun index => (table.shards index).retain (retained txId)
    size := if 0 < freed then table.size - freed else table.size
    minTx := if stays.isEmpty then .ofNat (2 ^ 64 - 1) else stays.foldl min (.ofNat (2 ^ 64 - 1))
    maxTx := if stays.isEmpty then 0 else stays.foldl max 0 }

def txRange : UInt64 × UInt64 := (table.minTx, table.maxTx)

def getAtSeq (key : Bytes) (seqNo maxTx : UInt64) : Option (Bytes × UInt64 × UInt64) :=
  match (table.shards (shardFor key)).lookup key with
  | none => none
  | some versions =>
    (findVisible versions (rawSeq seqNo) maxTx).map fun version =>
      (version.value, version.seqNo, version.txId)

section Scans

variable (seqNo maxTx : UInt64) (target : ScanTarget) (predicate : ScanPredicate)

def prefixRange (keyPrefix : Bytes) (index : Fin shardCount) :
    List (Bytes × List MemTableEntry) :=
  ((table.shards index).entries.filter fun entry => decide (keyPrefix ≤ entry.1)).takeWhile
    fun entry => decide (keyPrefix <+: entry.1)

def scanPrefixIntoMatching (keyPrefix : Bytes) : ScanTarget :=
  (shardRangeForPrefix keyPrefix).foldl
    (fun target index =>
      (table.prefixRange keyPrefix index).foldl (mergeKey seqNo maxTx predicate) target)
    target

def scanPrefixInto (keyPrefix : Bytes) : ScanTarget :=
  table.scanPrefixIntoMatching seqNo maxTx target (fun _ _ _ => true) keyPrefix

/-- Without a result where a call panics. -/
def scanRangeIntoMatching (start stop : Bound) : Option ScanTarget :=
  if isValidRangeBounds start stop then
    (shardRangeForBounds start stop).foldlM
      (fun target index =>
        (rangeOf (table.shards index) start stop).map fun entries =>
          entries.foldl (mergeKey seqNo maxTx predicate) target)
      target
  else some target

def scanRangeInto (start stop : Bound) : Option ScanTarget :=
  table.scanRangeIntoMatching seqNo maxTx target (fun _ _ _ => true) start stop

end Scans

end MemTable

inductive MemTableCall where
  | put (key value : Bytes) (seqNo txId : UInt64)
  | rollback (txId : UInt64)
  deriving DecidableEq, Repr

def MemTable.perform (table : MemTable) : MemTableCall → MemTable
  | .put key value seqNo txId => table.put key value seqNo txId
  | .rollback txId => table.rollback txId

def MemTable.performAll (table : MemTable) (calls : List MemTableCall) : MemTable :=
  calls.foldl MemTable.perform table

end Contextra.Store
