import Contextra.Library.Accumulator
import Contextra.Library.Paging
import Contextra.Store.MemTableRuns
import Contextra.Store.TenantScoped

/-!
# Scans of the store

`collect_visible_entries`, which merges the tables and memtables of a store, and the scans that
read from what it has collected.  The paged scans guard the accumulator of the merge, the others do
not.
-/

namespace Contextra.Store

open Library
open scoped Library.ByteOrder

def maxScanMergeAccumulator : Nat := 100000

inductive ScanError where
  | table (error : SstableError)
  | limitExceeded (limit : Nat) (context : String)
  | rangePanic
  deriving Repr

def accumulatorExceeded (contextName : String) : ScanError :=
  .limitExceeded maxScanMergeAccumulator
    (contextName ++ ": internal merge accumulator exceeded — range too wide, narrow the scan range")

inductive SstableScanMode where
  | byPrefix (keyPrefix : Bytes)
  | range (start stop : Bound)
  deriving DecidableEq, Repr

/-- The tables from the oldest, the memtables that are being flushed from the oldest, and the
memtable that takes the writes. -/
structure LsmStorage where
  sstables : List SstableReader
  immutableMemtables : List MemTable
  memtable : MemTable
  lastCommittedTx : UInt64

namespace SstableScanMode

def isValid : SstableScanMode → Bool
  | .byPrefix _ => true
  | .range start stop => isValidRangeBounds start stop

/-- The first and the last key of the table show that no key has the prefix. -/
def skips : SstableScanMode → SstableReader → Bool
  | .byPrefix keyPrefix, reader =>
    let first := reader.metadata.firstKey
    let last := reader.metadata.lastKey
    !first.isEmpty && !last.isEmpty &&
      (decide (last < keyPrefix) ||
        (upperBoundForPrefix keyPrefix).any fun prefixEnd => decide (prefixEnd ≤ first))
  | .range _ _, _ => false

def scanTable : SstableScanMode → SstableReader → Except SstableError (List TableEntry)
  | .byPrefix keyPrefix, reader => SstableReader.scanPrefix reader keyPrefix
  | .range start stop, reader => SstableReader.scanRange reader start stop

end SstableScanMode

section Collect

variable (mode : SstableScanMode) (entryFilter : ScanPredicate) (checkAccumulator : Bool)
  (contextName : String) (lastTx : UInt64)

def checkSize (map : ScanTarget) : Except ScanError ScanTarget :=
  if checkAccumulator then
    bounded (fun map : ScanTarget => map.entries.length) maxScanMergeAccumulator
      (accumulatorExceeded contextName) map
  else .ok map

def mergeRow (map : ScanTarget) (row : TableEntry) : ScanTarget :=
  mergeInto map row.key row.version

def collectRow (map : ScanTarget) (row : TableEntry) : Except ScanError ScanTarget :=
  if row.version.seenBy lastTx && entryFilter row.key row.version.raw row.version.txId then
    checkSize checkAccumulator contextName (mergeRow map row)
  else .ok map

def collectTable (map : ScanTarget) (reader : SstableReader) : Except ScanError ScanTarget :=
  if mode.skips reader then .ok map
  else
    match mode.scanTable reader with
    | .error error => .error (.table error)
    | .ok rows => rows.foldlM (collectRow entryFilter checkAccumulator contextName lastTx) map

/-- `scan_memtable`, without a result where it panics. -/
def scanMemtable (map : ScanTarget) (table : MemTable) : Option ScanTarget :=
  match mode with
  | .byPrefix keyPrefix =>
    some (table.scanPrefixIntoMatching (.ofNat (2 ^ 64 - 1)) lastTx map entryFilter keyPrefix)
  | .range start stop =>
    table.scanRangeIntoMatching (.ofNat (2 ^ 64 - 1)) lastTx map entryFilter start stop

def collectMemtable (map : ScanTarget) (table : MemTable) : Except ScanError ScanTarget :=
  match scanMemtable mode entryFilter lastTx map table with
  | none => .error .rangePanic
  | some map => checkSize checkAccumulator contextName map

end Collect

def liveEntries (entries : List (Bytes × (Bytes × UInt64))) : List KeyValue :=
  entries.filterMap fun entry =>
    if tombstoneBit ≤ entry.2.2.toNat then none else some (entry.1, entry.2.1)

namespace LsmStorage

variable (storage : LsmStorage)

def collectVisibleEntries (mode : SstableScanMode) (entryFilter : ScanPredicate)
    (checkAccumulator : Bool) (contextName : String) : Except ScanError ScanTarget :=
  if mode.isValid then do
    let map ← storage.sstables.foldlM
      (collectTable mode entryFilter checkAccumulator contextName storage.lastCommittedTx) .empty
    let map ← storage.immutableMemtables.foldlM
      (collectMemtable mode entryFilter checkAccumulator contextName storage.lastCommittedTx) map
    collectMemtable mode entryFilter checkAccumulator contextName storage.lastCommittedTx map
      storage.memtable
  else .ok .empty

def scanPrefixAt (keyPrefix : Bytes) (seqNo : UInt64) : Except ScanError (List KeyValue) := do
  let map ← storage.collectVisibleEntries (.byPrefix keyPrefix)
    (fun key raw _ => decide (raw ≤ seqNo.toNat) && decide (keyPrefix <+: key)) false
    "scan_prefix_at()"
  return liveEntries map.entries

def scanPrefix (keyPrefix : Bytes) : Except ScanError (List KeyValue) :=
  storage.scanPrefixAt keyPrefix (.ofNat (2 ^ 64 - 1))

def scanPrefixBounded (keyPrefix : Bytes) (limit : Nat) (cursor : Option Bytes) :
    Except ScanError (List KeyValue × Option Bytes) := do
  let map ← storage.collectVisibleEntries (.byPrefix keyPrefix)
    (fun key _ _ => cursor.all (fun last => decide (last < key)) && decide (keyPrefix <+: key)) true
    "scan_prefix_bounded()"
  return page limit (liveEntries (behind cursor map.entries))

def scan (start stop : Bound) (limit : Option Nat) : Except ScanError (List KeyValue) := do
  let map ← storage.collectVisibleEntries (.range start stop)
    (fun key _ _ => checkInRange start stop key) false "scan()"
  return limited (limit.getD 0) (liveEntries map.entries)

def scanBounded (start stop : Bound) (limit : Nat) (cursor : Option Bytes) :
    Except ScanError (List KeyValue × Option Bytes) := do
  let effectiveStart := (cursor.map Bound.excluded).getD start
  let map ← storage.collectVisibleEntries (.range effectiveStart stop)
    (fun key _ _ => checkInRange effectiveStart stop key) true "scan_bounded()"
  return page limit (liveEntries map.entries)

end LsmStorage

end Contextra.Store
