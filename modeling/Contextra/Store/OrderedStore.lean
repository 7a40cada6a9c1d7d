import Contextra.Library.VersionedMap
import Contextra.Store.KeyRange
import Contextra.Store.PutIfAbsent

/-!
# A storage engine over an ordered versioned map

The operations of a storage engine, each as one step.  What is committed is an ordered versioned
map; the operations of open transactions, their key staging map and the intent locks stand beside
it.  Commits do not conflict, and keys, values, batches and scans have no limits.
-/

namespace Contextra.Store

open Library
open scoped Library.ByteOrder

abbrev KeyVersion := Version Bytes Bytes

abbrev KeyValue := Bytes × Bytes

def checkInRange (start finish : Bound) (key : Bytes) : Bool :=
  decide (start.AboveStart key) && decide (finish.BelowEnd key)

/-- The first `limit` entries; a limit of zero is never met. -/
def limited (limit : Nat) (entries : List KeyValue) : List KeyValue :=
  if limit = 0 then entries else entries.take limit

def page (limit : Nat) (entries : List KeyValue) : List KeyValue × Option Bytes :=
  let results := limited limit entries
  (results,
    if results.length = limit ∧ limit < entries.length then results.getLast?.map Prod.fst else none)

/-- The committed versions, and the operations of the open transactions in the order they
were staged. -/
structure OrderedStore where
  versions : List KeyVersion
  buffer : List KeyVersion
  /-- `key_shards`: per key the transactions that staged it, and whether they insert. -/
  staged : Bytes → List (TxId × Bool)
  intentLocks : Bytes → Option TxId

namespace OrderedStore

def empty : OrderedStore := ⟨[], [], fun _ => [], fun _ => none⟩

def entries (store : OrderedStore) : List KeyValue := VersionedMap.entries store.versions

def get (store : OrderedStore) (key : Bytes) : Option Bytes :=
  VersionedMap.lookup store.versions key

def stageKv (store : OrderedStore) (tx : TxId) (key : Bytes) (value : Option Bytes) :
    OrderedStore :=
  { store with
    buffer := store.buffer ++ [⟨tx, key, value⟩]
    staged := Intents.trackKeyStage store.staged tx key value.isSome }

def putBatch (store : OrderedStore) (tx : TxId) (batch : List KeyValue) : OrderedStore :=
  batch.foldl (fun store entry => store.stageKv tx entry.1 (some entry.2)) store

/-- `delete_many`, which does not track the keys it stages. -/
def deleteMany (store : OrderedStore) (tx : TxId) (keys : List Bytes) : Nat × OrderedStore :=
  (keys.length, { store with buffer := store.buffer ++ keys.map fun key => ⟨tx, key, none⟩ })

def scanPrefix (store : OrderedStore) (start : Bytes) : List KeyValue :=
  store.entries.filter fun entry => start <+: entry.1

def deletePrefix (store : OrderedStore) (tx : TxId) (start : Bytes) : Nat × OrderedStore :=
  store.deleteMany tx ((store.scanPrefix start).map Prod.fst)

def lockIntent (store : OrderedStore) (key : Bytes) (holder : Option TxId) : OrderedStore :=
  { store with intentLocks := Function.update store.intentLocks key holder }

def putIfAbsent (store : OrderedStore) (tx : TxId) (key value : Bytes) : Bool × OrderedStore :=
  if Intents.stagedStatus store.staged key = some true then (false, store)
  else if ∃ holder ∈ store.intentLocks key, holder ≠ tx then (false, store)
  else if (store.get key).isSome then (false, store.lockIntent key none)
  else (true, (store.lockIntent key (some tx)).stageKv tx key (some value))

def opsOf (store : OrderedStore) (tx : TxId) : List KeyVersion :=
  store.buffer.filter fun op => op.tx = tx

local instance bytesLawful : LawfulBEq Bytes := inferInstanceAs (LawfulBEq (List UInt8))

/-- `drain_kv` and `discard_kv`, and the release of the intent locks. -/
def finish (store : OrderedStore) (tx : TxId) : OrderedStore :=
  { store with
    buffer := store.buffer.filter fun op => op.tx ≠ tx
    staged := fun key =>
      if key ∈ (store.opsOf tx).map Version.key then (store.staged key).filter (·.1 ≠ tx)
      else store.staged key
    intentLocks := fun key => (store.intentLocks key).filter (· ≠ tx) }

def commit (store : OrderedStore) (tx : TxId) : OrderedStore :=
  { store.finish tx with versions := store.versions ++ store.opsOf tx }

/-- The whole store goes back to the versions of transactions up to `target`. -/
def rollbackToTx (store : OrderedStore) (target : TxId) : OrderedStore :=
  { store with
    versions := store.versions.filter fun version => version.tx ≤ target
    intentLocks := fun key => (store.intentLocks key).filter (· ≤ target) }

def scanPrefixBounded (store : OrderedStore) (start : Bytes) (limit : Nat) (cursor : Option Bytes) :
    List KeyValue × Option Bytes :=
  page limit (store.entries.filter fun entry =>
    start <+: entry.1 ∧ ∀ after ∈ cursor, after < entry.1)

def scan (store : OrderedStore) (start finish : Bound) (limit : Option Nat) : List KeyValue :=
  limited (limit.getD 0) (store.entries.filter fun entry => checkInRange start finish entry.1)

def scanBounded (store : OrderedStore) (start finish : Bound) (limit : Nat)
    (cursor : Option Bytes) : List KeyValue × Option Bytes :=
  let effectiveStart := match cursor with
    | some after => .excluded after
    | none => start
  page limit (store.entries.filter fun entry => checkInRange effectiveStart finish entry.1)

end OrderedStore

inductive StorageOp where
  | get (key : Bytes)
  | put (tx : TxId) (key value : Bytes)
  | putIfAbsent (tx : TxId) (key value : Bytes)
  | putBatch (tx : TxId) (batch : List KeyValue)
  | delete (tx : TxId) (key : Bytes)
  | deleteMany (tx : TxId) (keys : List Bytes)
  | deletePrefix (tx : TxId) (start : Bytes)
  | commit (tx : TxId)
  | rollback (tx : TxId)
  | rollbackToTx (target : TxId)
  | scanPrefix (start : Bytes)
  | scanPrefixBounded (start : Bytes) (limit : Nat) (cursor : Option Bytes)
  | scan (start finish : Bound) (limit : Option Nat)
  | scanBounded (start finish : Bound) (limit : Nat) (cursor : Option Bytes)
  deriving DecidableEq, Repr

inductive OpResult where
  | done
  | value (found : Option Bytes)
  | inserted (inserted : Bool)
  | count (deleted : Nat)
  | entries (batch : List KeyValue)
  | page (batch : List KeyValue) (nextCursor : Option Bytes)
  deriving DecidableEq, Repr

namespace OrderedStore

def call (store : OrderedStore) : StorageOp → OpResult × OrderedStore
  | .get key => (.value (store.get key), store)
  | .put tx key value => (.done, store.stageKv tx key (some value))
  | .putIfAbsent tx key value =>
    (.inserted (store.putIfAbsent tx key value).1, (store.putIfAbsent tx key value).2)
  | .putBatch tx batch => (.done, store.putBatch tx batch)
  | .delete tx key => (.done, store.stageKv tx key none)
  | .deleteMany tx keys => (.count (store.deleteMany tx keys).1, (store.deleteMany tx keys).2)
  | .deletePrefix tx start =>
    (.count (store.deletePrefix tx start).1, (store.deletePrefix tx start).2)
  | .commit tx => (.done, store.commit tx)
  | .rollback tx => (.done, store.finish tx)
  | .rollbackToTx target => (.done, store.rollbackToTx target)
  | .scanPrefix start => (.entries (store.scanPrefix start), store)
  | .scanPrefixBounded start limit cursor =>
    (.page (store.scanPrefixBounded start limit cursor).1
      (store.scanPrefixBounded start limit cursor).2, store)
  | .scan start finish limit => (.entries (store.scan start finish limit), store)
  | .scanBounded start finish limit cursor =>
    (.page (store.scanBounded start finish limit cursor).1
      (store.scanBounded start finish limit cursor).2, store)

end OrderedStore

namespace StorageOp

/-- The transaction an operation is made in; the target of `rollback_to_tx` is none. -/
def tx : StorageOp → Option TxId
  | put tx _ _ | putIfAbsent tx _ _ | putBatch tx _ | delete tx _ | deleteMany tx _
  | deletePrefix tx _ | commit tx | rollback tx => some tx
  | _ => none

/-- The keys an operation may stage or lock. -/
def Writes (key : Bytes) : StorageOp → Prop
  | put _ written _ | putIfAbsent _ written _ | delete _ written => key = written
  | putBatch _ batch => key ∈ batch.map Prod.fst
  | deleteMany _ keys => key ∈ keys
  | deletePrefix _ start => start <+: key
  | _ => False

end StorageOp

end Contextra.Store
