import Contextra.Library.StableSort
import Contextra.Types

/-!
# The sequence log

An entry is the life of one version of a document, from its insertion to its deletion.  Snapshots
can be pinned; a pin is the time at which it was taken.
-/

namespace Contextra.Mvcc

open Contextra.Library

/-- A document, the inner `u64` of `DocId`. -/
abbrev DocNumber := Nat

structure SeqLogEntry where
  docId : DocNumber
  insertSeq : Nat
  deleteSeq : Option Nat
  deriving DecidableEq, Repr

inductive SeqLogChange where
  | insert (docId : DocNumber) (seq : Nat)
  | delete (docId : DocNumber) (seq : Nat)
  deriving DecidableEq, Repr

def SeqLogChange.seq : SeqLogChange → Nat
  | insert _ seq | delete _ seq => seq

def SeqLogChange.docId : SeqLogChange → DocNumber
  | insert docId _ | delete docId _ => docId

/-- The entries hold masked sequence numbers only. -/
structure SequenceLog where
  entries : List SeqLogEntry
  pinnedSnapshots : AList fun _ : Nat => List UInt64
  compactedBelow : Option Nat
  deletions : AList fun _ : DocNumber => Nat
  /-- In nanoseconds. -/
  maxPinDuration : Nat

def maskSeq (word : UInt64) : Nat := word.toNat % tombstoneBit

def closeLast (docId : DocNumber) (seq : Nat) : List SeqLogEntry → Option (List SeqLogEntry)
  | [] => none
  | entry :: entries =>
    match closeLast docId seq entries with
    | some closed => some (entry :: closed)
    | none =>
      if entry.docId = docId ∧ entry.deleteSeq = none then
        some ({ entry with deleteSeq := some seq } :: entries)
      else none

namespace SequenceLog

def defaultMaxPinDuration : Nat := 300000000000

def new : SequenceLog := ⟨[], ∅, none, ∅, defaultMaxPinDuration⟩

variable (log : SequenceLog)

def recordInsert (docId : DocNumber) (word : UInt64) : SequenceLog :=
  let seq := maskSeq word
  { log with
    entries := (closeLast docId seq log.entries).getD log.entries ++ [⟨docId, seq, none⟩]
    deletions := log.deletions.erase docId }

def recordDelete (docId : DocNumber) (word : UInt64) : SequenceLog :=
  let seq := maskSeq word
  match closeLast docId seq log.entries with
  | some closed =>
    { log with
      entries := closed
      deletions := log.deletions.insert docId seq }
  | none => log

/-- One entry of the scan, with the flags `inserted` and `deleted`. -/
def scanEntry (docId : DocNumber) (seqNo : Nat) (flags : Bool × Bool) (entry : SeqLogEntry) :
    Bool × Bool :=
  if entry.docId = docId ∧ entry.insertSeq ≤ seqNo then
    (true, entry.deleteSeq.any fun deleteSeq => deleteSeq ≤ seqNo)
  else flags

def isVisible (docId : DocNumber) (word : UInt64) : Bool :=
  let (inserted, deleted) := log.entries.foldl (scanEntry docId (maskSeq word)) (false, false)
  inserted && !deleted

def compact (word : UInt64) : SequenceLog :=
  let minActiveSeqno := maskSeq word
  { log with
    compactedBelow := some (max (log.compactedBelow.getD minActiveSeqno) minActiveSeqno)
    entries := log.entries.filter fun entry =>
      entry.deleteSeq.all fun deleteSeq => minActiveSeqno ≤ deleteSeq
    deletions := (log.deletions.entries.filter fun entry => minActiveSeqno ≤ entry.2).toAList }

def changesOf (snapshotSeq : Nat) (entry : SeqLogEntry) : List SeqLogChange :=
  (if snapshotSeq < entry.insertSeq then [.insert entry.docId entry.insertSeq] else []) ++
    match entry.deleteSeq with
    | some deleteSeq => if snapshotSeq < deleteSeq then [.delete entry.docId deleteSeq] else []
    | none => []

def changesSince (word : UInt64) : List SeqLogChange :=
  sortByKey SeqLogChange.seq (log.entries.flatMap (changesOf (maskSeq word)))

def pinSnapshotAt (word at' : UInt64) : SequenceLog :=
  let seqNo := maskSeq word
  { log with
    pinnedSnapshots := log.pinnedSnapshots.insert seqNo
      ((log.pinnedSnapshots.lookup seqNo).getD [] ++ [at']) }

/-- The release of the pin that was taken last on the sequence number. -/
def unpin (seqNo : Nat) : SequenceLog :=
  match log.pinnedSnapshots.lookup seqNo with
  | some timestamps =>
    if timestamps.dropLast = [] then
      { log with pinnedSnapshots := log.pinnedSnapshots.erase seqNo }
    else { log with pinnedSnapshots := log.pinnedSnapshots.insert seqNo timestamps.dropLast }
  | none => log

def unpinSnapshot (word : UInt64) : SequenceLog := log.unpin (maskSeq word)

/-- `max_nanos`, the longest duration that a 64-bit number can hold at most. -/
def maxNanos : Nat := min log.maxPinDuration (2 ^ 64 - 1)

def isExpired (now timestamp : UInt64) : Bool := log.maxNanos < now.toNat - timestamp.toNat

def expiredPinsAt (now : UInt64) : List Nat :=
  ((log.pinnedSnapshots.entries.filter fun entry => entry.2.any (log.isExpired now)).map
    (·.1)).insertionSort (· ≤ ·)

def reapExpiredPinsAt (now : UInt64) : List Nat × SequenceLog :=
  let expired := log.expiredPinsAt now
  (expired, expired.foldl unpin log)

end SequenceLog

end Contextra.Mvcc
