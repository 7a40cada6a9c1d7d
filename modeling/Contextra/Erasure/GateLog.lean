import Contextra.Erasure.Types
import Contextra.Library.Bytes
import Contextra.Library.LexPrefix
import Contextra.Library.StableSort

/-!
# The gate log and its compaction

A gate that is replayed from the log goes into the set under an id of its own: a range with
65-byte bounds under the id of its record, a range of 16-byte keys under the zero id, and a
prefix gate under none.  The set removes by that id; compaction cancels records by theirs.
-/

/-!
## The set of active gates

`ErasedSet` holds erased and restricted ranges, each sorted by its lower bound, and the gates
over a prefix and a sequence number.  A range that is given by 16-byte keys gets the zero gate
id; only a range with 65-byte bounds keeps its own.
-/

namespace Contextra.Erasure

open Contextra.Library
open scoped Contextra.Library.ByteOrder

abbrev KeyBuf := FixedBytes 16

/-- A bound over the first 65 bytes of a stored key. -/
abbrev Bound65 := FixedBytes 65

/-- A stored key in its canonical form. -/
abbrev RawKey := FixedBytes 78

abbrev GateId := FixedBytes 16

def GateId.zero : GateId := ⟨List.replicate 16 0, by simp⟩

inductive GateDecision where
  | isOpen
  | erased
  | restricted
  deriving DecidableEq, Repr

inductive RangeGate where
  | containsErased
  | restrictedNeverDiscard
  | entirelyOpen
  deriving DecidableEq, Repr

inductive KeyBound where
  | exact (key : KeyBuf)
  | unboundedLower
  | unboundedUpper
  deriving DecidableEq

structure KeyRange where
  start : KeyBuf
  finish : KeyBuf
  deriving DecidableEq

def KeyBuf.front {size : Nat} (raw : FixedBytes size) : KeyBuf := .copied raw.val 0 16

structure GateEntry where
  gateId : GateId
  lo : KeyBuf
  hi : KeyBuf
  bounds65 : Option (Bound65 × Bound65)
  gatedSeq : Nat
  deriving DecidableEq

namespace GateEntry

def contains16 (entry : GateEntry) (k : KeyBuf) : Bool :=
  entry.lo.val ≤ k.val && k.val < entry.hi.val

def contains78 (entry : GateEntry) (raw : RawKey) : Bool :=
  match entry.bounds65 with
  | some (lo, hi) => lo.val ≤ raw.val.take 65 && raw.val.take 65 ≤ hi.val
  | none => entry.contains16 (.front raw)

end GateEntry

structure PrefixSeqEntry where
  keyPrefix : Bound65
  seqLt : Nat
  gatedSeq : Nat
  deriving DecidableEq

/-- The commit sequence number is kept complemented in the last eight bytes of the key. -/
def commitSeq (raw : RawKey) : Nat :=
  2 ^ 64 - 1 - fromLeBytes (raw.val.drop 70).reverse

def PrefixSeqEntry.matches78 (entry : PrefixSeqEntry) (raw : RawKey) : Bool :=
  raw.val.take 65 = entry.keyPrefix.val && commitSeq raw < entry.seqLt

structure ErasedSet where
  gateEpoch : Nat
  erased : List GateEntry
  restricted : List GateEntry
  prefixSeq : List PrefixSeqEntry
  deriving DecidableEq

namespace ErasedSet

def new : ErasedSet := ⟨0, [], [], []⟩

/-- `fetch_add` on an atomic wraps around. -/
def incrementEpoch (set : ErasedSet) : ErasedSet :=
  { set with gateEpoch := (set.gateEpoch + 1) % 2 ^ 64 }

def pushed (entries : List GateEntry) (entry : GateEntry) : List GateEntry :=
  sortByKey (·.lo.val) (entries ++ [entry])

def keyEntry (lo hi : KeyBuf) (gatedSeq : Nat) : GateEntry :=
  ⟨.zero, lo, hi, none, gatedSeq⟩

def boundsEntry (gateId : GateId) (lo hi : Bound65) (gatedSeq : Nat) : GateEntry :=
  ⟨gateId, .front lo, .front hi, some (lo, hi), gatedSeq⟩

def addErased (set : ErasedSet) (lo hi : KeyBuf) (gatedSeq : Nat) : ErasedSet :=
  { set.incrementEpoch with erased := pushed set.erased (keyEntry lo hi gatedSeq) }

def addRestricted (set : ErasedSet) (lo hi : KeyBuf) (gatedSeq : Nat) : ErasedSet :=
  { set.incrementEpoch with restricted := pushed set.restricted (keyEntry lo hi gatedSeq) }

def addErasedWithBounds (set : ErasedSet) (gateId : GateId) (lo hi : Bound65) (gatedSeq : Nat) :
    ErasedSet :=
  { set.incrementEpoch with erased := pushed set.erased (boundsEntry gateId lo hi gatedSeq) }

def addRestrictedWithBounds (set : ErasedSet) (gateId : GateId) (lo hi : Bound65)
    (gatedSeq : Nat) : ErasedSet :=
  { set.incrementEpoch with
    restricted := pushed set.restricted (boundsEntry gateId lo hi gatedSeq) }

def addPrefixSeq (set : ErasedSet) (keyPrefix : Bound65) (seqLt gatedSeq : Nat) : ErasedSet :=
  { set.incrementEpoch with prefixSeq := set.prefixSeq ++ [⟨keyPrefix, seqLt, gatedSeq⟩] }

def removeGate (set : ErasedSet) (gateId : GateId) : ErasedSet :=
  { set.incrementEpoch with
    erased := set.erased.filter (·.gateId ≠ gateId)
    restricted := set.restricted.filter (·.gateId ≠ gateId) }

def check (set : ErasedSet) (k : KeyBuf) : GateDecision :=
  if set.restricted.any (·.contains16 k) then .restricted
  else if set.erased.any (·.contains16 k) then .erased
  else .isOpen

def checkRaw (set : ErasedSet) (raw : RawKey) : GateDecision :=
  if set.restricted.any (·.contains78 raw) then .restricted
  else if set.erased.any (·.contains78 raw) then .erased
  else if set.prefixSeq.any (·.matches78 raw) then .erased
  else .isOpen

def covers (set : ErasedSet) (k : KeyBuf) : Bool :=
  match set.check k with
  | .erased | .restricted => true
  | .isOpen => false

def coversRaw (set : ErasedSet) (raw : RawKey) : Bool :=
  match set.checkRaw raw with
  | .erased | .restricted => true
  | .isOpen => false

def gatedSeq (set : ErasedSet) (k : KeyBuf) : Option Nat :=
  ((set.restricted ++ set.erased).find? (·.contains16 k)).map (·.gatedSeq)

def gatedSeqRaw (set : ErasedSet) (raw : RawKey) : Option Nat :=
  match (set.restricted ++ set.erased).find? (·.contains78 raw) with
  | some entry => some entry.gatedSeq
  | none => (set.prefixSeq.find? (·.matches78 raw)).map (·.gatedSeq)

def checkBound (set : ErasedSet) : KeyBound → GateDecision
  | .exact k => set.check k
  | .unboundedLower | .unboundedUpper => .isOpen

def variantForRange (set : ErasedSet) (range : KeyRange) : RangeGate :=
  let meets (entry : GateEntry) : Bool :=
    entry.lo.val < range.finish.val && range.start.val < entry.hi.val
  if set.restricted.any meets then .restrictedNeverDiscard
  else if set.erased.any meets then .containsErased
  else .entirelyOpen

/-- Two sets that answer every question about keys and ranges alike. -/
structure SameAnswers (set other : ErasedSet) : Prop where
  check : ∀ k, set.check k = other.check k
  checkRaw : ∀ raw, set.checkRaw raw = other.checkRaw raw
  covers : ∀ k, set.covers k = other.covers k
  coversRaw : ∀ raw, set.coversRaw raw = other.coversRaw raw
  gatedSeq : ∀ k, set.gatedSeq k = other.gatedSeq k
  gatedSeqRaw : ∀ raw, set.gatedSeqRaw raw = other.gatedSeqRaw raw
  checkBound : ∀ bound, set.checkBound bound = other.checkBound bound
  variantForRange : ∀ range, set.variantForRange range = other.variantForRange range

theorem sameAnswers_of_gates {set other : ErasedSet} (erased : set.erased = other.erased)
    (restricted : set.restricted = other.restricted)
    (prefixSeq : set.prefixSeq = other.prefixSeq) : set.SameAnswers other := by
  obtain ⟨epoch, _, _, _⟩ := set
  cases erased
  cases restricted
  cases prefixSeq
  constructor <;> intro question <;> rfl

end ErasedSet

end Contextra.Erasure

namespace Contextra.Erasure

open Contextra.Library

inductive GatePredicate where
  | range (lo hi : Bytes)
  | prefixSeq (keyPrefix : Bytes) (seqLt : Nat)
  deriving DecidableEq

/-- The fields of an `Add` entry. -/
structure GateRecord where
  gateId : GateId
  isErased : Bool
  lo : KeyBuf
  hi : KeyBuf
  predicate : Option GatePredicate
  gatedSeq : Nat
  erasureId : ErasureId
  deriving DecidableEq

inductive GateLogEntry where
  | add (record : GateRecord)
  | remove (gateId : GateId)
  deriving DecidableEq

abbrev GateLog := List GateLogEntry

namespace GateLog

/-- Backwards over the log, with the ids that are removed later. -/
def compactScan : GateLog → List GateLogEntry × List GateId
  | [] => ([], [])
  | .remove gateId :: rest => ((compactScan rest).1, gateId :: (compactScan rest).2)
  | .add record :: rest =>
    if record.gateId ∈ (compactScan rest).2 then compactScan rest
    else (.add record :: (compactScan rest).1, (compactScan rest).2)

def compact (log : GateLog) : GateLog := (compactScan log).1

end GateLog

/-- How a record is replayed: a predicate of another length than 65 bytes counts for nothing. -/
inductive GateForm where
  | range (lo hi : Bound65)
  | prefixSeq (keyPrefix : Bound65) (seqLt : Nat)
  | keys
  deriving DecidableEq

def GateRecord.form (record : GateRecord) : GateForm :=
  match record.predicate with
  | some (.range lo hi) =>
    if bounds : lo.length = 65 ∧ hi.length = 65 then .range ⟨lo, bounds.1⟩ ⟨hi, bounds.2⟩
    else .keys
  | some (.prefixSeq keyPrefix seqLt) =>
    if bounds : keyPrefix.length = 65 then .prefixSeq ⟨keyPrefix, bounds⟩ seqLt else .keys
  | none => .keys

namespace ErasedSet

def addRecord (set : ErasedSet) (record : GateRecord) : ErasedSet :=
  match record.form with
  | .range lo hi =>
    if record.isErased then set.addErasedWithBounds record.gateId lo hi record.gatedSeq
    else set.addRestrictedWithBounds record.gateId lo hi record.gatedSeq
  | .prefixSeq keyPrefix seqLt => set.addPrefixSeq keyPrefix seqLt record.gatedSeq
  | .keys =>
    if record.isErased then set.addErased record.lo record.hi record.gatedSeq
    else set.addRestricted record.lo record.hi record.gatedSeq

def replayEntry (set : ErasedSet) : GateLogEntry → ErasedSet
  | .add record => set.addRecord record
  | .remove gateId => set.removeGate gateId

end ErasedSet

def GateLog.replayInto (log : GateLog) (set : ErasedSet) : ErasedSet :=
  log.foldl ErasedSet.replayEntry set

structure BatchGateRequest where
  gateId : GateId
  lo : KeyBuf
  hi : KeyBuf
  bounds65 : Option (Bound65 × Bound65)
  isErased : Bool
  erasureId : ErasureId
  deriving DecidableEq

/-- The set and the log that a coordinator writes together. -/
structure GateState where
  set : ErasedSet
  log : GateLog

namespace BatchGateRequest

def record (request : BatchGateRequest) (gatedSeq : Nat) : GateRecord where
  gateId := request.gateId
  isErased := request.isErased
  lo := request.lo
  hi := request.hi
  predicate := request.bounds65.map fun bounds => .range bounds.1.val bounds.2.val
  gatedSeq := gatedSeq
  erasureId := request.erasureId

def apply (set : ErasedSet) (gatedSeq : Nat) (request : BatchGateRequest) : ErasedSet :=
  match request.bounds65 with
  | some (lo, hi) =>
    if request.isErased then set.addErasedWithBounds request.gateId lo hi gatedSeq
    else set.addRestrictedWithBounds request.gateId lo hi gatedSeq
  | none =>
    if request.isErased then set.addErased request.lo request.hi gatedSeq
    else set.addRestricted request.lo request.hi gatedSeq

end BatchGateRequest

def GateState.executeBatch (state : GateState) (requests : List BatchGateRequest)
    (gatedSeq : Nat) : GateState :=
  if requests.isEmpty then state
  else
    { set := requests.foldl (fun set request => request.apply set gatedSeq)
        state.set.incrementEpoch
      log := state.log ++ requests.map fun request => .add (request.record gatedSeq) }

/-- What is done to the live set and recorded: batches of ranges, prefix gates and removals. -/
inductive GateStep where
  | batch (requests : List BatchGateRequest) (gatedSeq : Nat)
  | prefixGate (gateId : GateId) (keyPrefix : Bound65) (seqLt gatedSeq : Nat)
      (erasureId : ErasureId)
  | removeGate (gateId : GateId)

def GateState.step (state : GateState) : GateStep → GateState
  | .batch requests gatedSeq => state.executeBatch requests gatedSeq
  | .prefixGate gateId keyPrefix seqLt gatedSeq erasureId =>
    { set := state.set.addPrefixSeq keyPrefix seqLt gatedSeq
      log := state.log ++ [.add ⟨gateId, true, .front keyPrefix, .front keyPrefix,
        some (.prefixSeq keyPrefix.val seqLt), gatedSeq, erasureId⟩] }
  | .removeGate gateId =>
    { set := state.set.removeGate gateId, log := state.log ++ [.remove gateId] }

def GateState.live (steps : List GateStep) : GateState :=
  steps.foldl GateState.step ⟨.new, []⟩

end Contextra.Erasure
