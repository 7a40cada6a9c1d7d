import Contextra.Library.LruCache
import Contextra.Mvcc.Ssi
import Contextra.Mvcc.SeqLog

/-!
# The transaction buffer

The staged operations of open transactions, `tx_buffer.rs`, in shards by transaction id, with the
keys of staged operations in shards by a hash.  A call holds one shard at a time, so it is a step.
Where the source walks through a hash map, the order is an argument of the call.  Byte counts have
no bound, but a subtraction below zero wraps around.
-/

namespace Contextra.Mvcc

open Contextra.Library

def stagingEntryOverheadBytes : Nat := 32

inductive IndexOp (Payload : Type) where
  | insert (docId : DocNumber) (data : Payload)
  | delete (docId : DocNumber) (data : Option Payload)
  deriving DecidableEq

class StagedOpSize (Payload : Type) where
  stagedBytes : Payload → Nat

/-- A key and a value. -/
instance : StagedOpSize (Bytes × Bytes) where
  stagedBytes data := data.1.length + data.2.length

variable {Payload : Type}

def IndexOp.estimatedBytes [StagedOpSize Payload] (op : IndexOp Payload) : Nat :=
  stagingEntryOverheadBytes +
    match op with
    | .insert _ data => StagedOpSize.stagedBytes data
    | .delete _ (some data) => StagedOpSize.stagedBytes data
    | .delete _ none => 0

def totalBytes [StagedOpSize Payload] (ops : List (IndexOp Payload)) : Nat :=
  (ops.map IndexOp.estimatedBytes).sum

inductive StagingError where
  | storage (message : String)
  | transaction (message : String)
  | limitExceeded (limit : Nat) (message : String)
  deriving DecidableEq

structure TrackedReads extends ReadSet where
  minSnapshotSeq : Option Nat

namespace TrackedReads

def empty : TrackedReads := ⟨⟨∅, ∅⟩, none⟩

def len (reads : TrackedReads) : Nat := reads.keys.size + reads.prefixes.size

def recordRead (reads : TrackedReads) (key : Bytes) (snapshotSeq : Nat) : TrackedReads :=
  let snapshot := snapshotSeq % tombstoneBit
  ⟨reads.toReadSet.recordRead key snapshot,
    some (match reads.minSnapshotSeq with
      | some current => min current snapshot
      | none => snapshot)⟩

end TrackedReads

abbrev TxMap (Value : Type) := AList fun _ : TxId => Value

structure TxShard (Payload : Type) where
  /-- The operations of a transaction, and when it was registered. -/
  ops : TxMap (List (IndexOp Payload) × Nat)
  readSets : TxMap TrackedReads
  stagedBytes : TxMap Nat

/-- `HashMap::entry` with `or_insert`. -/
def orInsert {Key Value : Type} [DecidableEq Key] (map : AList fun _ : Key => Value) (key : Key)
    (value : Value) : AList fun _ : Key => Value :=
  if key ∈ map then map else map.insert key value

namespace TxShard

section Maps

variable (shard : TxShard Payload) (tx : TxId)

def entryOf (now : Nat) : List (IndexOp Payload) × Nat := (shard.ops.lookup tx).getD ([], now)

def txBytes : Nat := (shard.stagedBytes.lookup tx).getD 0

def touch : TxShard Payload := { shard with stagedBytes := orInsert shard.stagedBytes tx 0 }

def register (now : Nat) : TxShard Payload :=
  { shard.touch tx with ops := orInsert shard.ops tx ([], now) }

def push [StagedOpSize Payload] (ops : List (IndexOp Payload)) (now : Nat) : TxShard Payload :=
  { shard with
    ops := shard.ops.insert tx ((shard.entryOf tx now).1 ++ ops, (shard.entryOf tx now).2)
    stagedBytes := shard.stagedBytes.insert tx (shard.txBytes tx + totalBytes ops) }

def release : TxShard Payload :=
  ⟨shard.ops.erase tx, shard.readSets.erase tx, shard.stagedBytes.erase tx⟩

end Maps

end TxShard

structure KeyShard where
  /-- Whether the last operation of a transaction on a key is an insert. -/
  staged : AList fun _ : Bytes => TxMap Bool

structure TxBufferConfig where
  /-- In nanoseconds. -/
  txTimeout : Nat
  maxOpsPerTx : Nat
  maxTxStagedBytes : Nat
  maxTotalStagedBytes : Nat

structure TxBuffer (Payload : Type) (lastShard : Nat) where
  shards : Fin (lastShard + 1) → TxShard Payload
  keyShards : Fin (lastShard + 1) → KeyShard
  config : TxBufferConfig
  /-- The `AHasher` of the keys. -/
  keyHash : Bytes → Nat
  globalStagedBytes : Nat
  /-- Some subtraction from the counter went below zero. -/
  underflowed : Bool

namespace TxBuffer

variable {lastShard : Nat}

def new (lastShard : Nat) (config : TxBufferConfig) (keyHash : Bytes → Nat) :
    TxBuffer Payload lastShard where
  shards _ := ⟨∅, ∅, ∅⟩
  keyShards _ := ⟨∅⟩
  config := config
  keyHash := keyHash
  globalStagedBytes := 0
  underflowed := false

variable (buffer : TxBuffer Payload lastShard)

def shardIdx (_ : TxBuffer Payload lastShard) (tx : TxId) : Fin (lastShard + 1) :=
  Fin.ofNat (lastShard + 1) tx

def keyShardIdx (key : Bytes) : Fin (lastShard + 1) :=
  Fin.ofNat (lastShard + 1) (buffer.keyHash key)

def shardOf (tx : TxId) : TxShard Payload := buffer.shards (buffer.shardIdx tx)

def setShard (index : Fin (lastShard + 1)) (shard : TxShard Payload) :
    TxBuffer Payload lastShard :=
  { buffer with shards := Function.update buffer.shards index shard }

theorem shards_setShard (index other : Fin (lastShard + 1)) (shard : TxShard Payload) :
    (buffer.setShard index shard).shards other =
      if other = index then shard else buffer.shards other :=
  Function.update_apply _ _ _ _

def hasTx (tx : TxId) : Prop := tx ∈ (buffer.shardOf tx).ops

instance (tx : TxId) : Decidable (buffer.hasTx tx) :=
  inferInstanceAs (Decidable (tx ∈ (buffer.shardOf tx).ops))

def getOps (tx : TxId) : Option (List (IndexOp Payload)) :=
  ((buffer.shardOf tx).ops.lookup tx).map Prod.fst

def validatePendingOps (tx : TxId) : Except StagingError Unit :=
  match buffer.getOps tx with
  | some [] =>
    .error (.transaction
      ("Transaction " ++ toString tx ++ " was registered but has no pending operations"))
  | _ => .ok ()

def beginAt (tx : TxId) (atNanos : Nat) : TxBuffer Payload lastShard :=
  let shard := buffer.shardOf tx
  buffer.setShard (buffer.shardIdx tx)
    { shard.register tx atNanos with readSets := orInsert shard.readSets tx .empty }

def readSetOf (tx : TxId) : TrackedReads := ((buffer.shardOf tx).readSets.lookup tx).getD .empty

def setReads (tx : TxId) (reads : TrackedReads) : TxBuffer Payload lastShard :=
  let shard := buffer.shardOf tx
  buffer.setShard (buffer.shardIdx tx) { shard with readSets := shard.readSets.insert tx reads }

/-- `register_read`, also `record_read`. -/
def registerRead (tx : TxId) (key : Bytes) (snapshotSeq : Nat) : TxBuffer Payload lastShard :=
  buffer.setReads tx ((buffer.readSetOf tx).recordRead key snapshotSeq)

/-- An empty read set is registered also when the read is refused. -/
def tryRegisterRead (tx : TxId) (key : Bytes) (snapshotSeq maxKeys : Nat) :
    Except StagingError Unit × TxBuffer Payload lastShard :=
  let reads := buffer.readSetOf tx
  if reads.keys.contains key = false ∧ maxKeys ≤ reads.len then
    (.error (.limitExceeded maxKeys
      ("Read set size limit exceeded for transaction " ++ toString tx)),
      buffer.setReads tx reads)
  else (.ok (), buffer.setReads tx (reads.recordRead key snapshotSeq))

/-- `min_read_snapshot`, the minimum over the read sets of all shards. -/
def minReadSnapshot : Option Nat :=
  ((List.finRange (lastShard + 1)).flatMap fun index =>
    (buffer.shards index).readSets.entries.filterMap fun entry => entry.2.minSnapshotSeq).min?

section Stage

variable [StagedOpSize Payload]

/-- `stage_many`; `now` is the time of the clock. -/
def stageMany (tx : TxId) (ops : List (IndexOp Payload)) (now : Nat) :
    Except StagingError Unit × TxBuffer Payload lastShard :=
  let opBytes := totalBytes ops
  let shard := buffer.shardOf tx
  let currTxBytes := shard.txBytes tx
  if buffer.config.maxTxStagedBytes < currTxBytes + opBytes then
    (.error (.storage ("Transaction " ++ toString tx ++ " staging budget exceeded: " ++
      toString currTxBytes ++ " + " ++ toString opBytes ++ " > " ++
      toString buffer.config.maxTxStagedBytes)),
      buffer.setShard (buffer.shardIdx tx) (shard.touch tx))
  else if buffer.config.maxTotalStagedBytes < buffer.globalStagedBytes + opBytes then
    (.error (.storage ("Global staging budget exceeded: " ++
      toString buffer.globalStagedBytes ++ " + " ++ toString opBytes ++ " > " ++
      toString buffer.config.maxTotalStagedBytes)),
      buffer.setShard (buffer.shardIdx tx) (shard.touch tx))
  else if buffer.config.maxOpsPerTx < (shard.entryOf tx now).1.length + ops.length then
    (.error (.transaction ("Transaction " ++ toString tx ++ " exceeded max staging capacity (" ++
      toString buffer.config.maxOpsPerTx ++ " ops)")),
      buffer.setShard (buffer.shardIdx tx) (shard.register tx now))
  else
    (.ok (),
      { buffer.setShard (buffer.shardIdx tx) (shard.push tx ops now) with
        globalStagedBytes := buffer.globalStagedBytes + opBytes })

/-- `stage_bounded`: the checks are those of `stage_many` with one operation. -/
def stageBounded (tx : TxId) (op : IndexOp Payload) (now : Nat) :
    Except StagingError Unit × TxBuffer Payload lastShard :=
  buffer.stageMany tx [op] now

end Stage

/-- `fetch_sub` on the global counter. -/
def fetchSub (bytes : Nat) : TxBuffer Payload lastShard :=
  if bytes ≤ buffer.globalStagedBytes then
    { buffer with globalStagedBytes := buffer.globalStagedBytes - bytes }
  else
    { buffer with
      globalStagedBytes := buffer.globalStagedBytes + 2 ^ 64 - bytes
      underflowed := true }

/-- A transaction is taken out of the maps of a shard, and its bytes off the counter. -/
def releaseFrom (index : Fin (lastShard + 1)) (tx : TxId) : TxBuffer Payload lastShard :=
  (buffer.setShard index ((buffer.shards index).release tx)).fetchSub
    ((buffer.shards index).txBytes tx)

def discard (tx : TxId) : TxBuffer Payload lastShard := buffer.releaseFrom (buffer.shardIdx tx) tx

def drain (tx : TxId) : List (IndexOp Payload) × TxBuffer Payload lastShard :=
  ((buffer.getOps tx).getD [], buffer.discard tx)

structure VisitOrder where
  order : List TxId → List TxId
  perm : ∀ keys, (order keys).Perm keys

/-- A call of the reaper: at most how many transactions (`none` for `usize::MAX`), the time, the
shards whose lock is taken, and the order of each map. -/
structure ReapCall (lastShard : Nat) where
  max : Option Nat
  now : Nat
  contended : Fin (lastShard + 1) → Bool
  visit : Fin (lastShard + 1) → VisitOrder

def isOrphan (now : Nat) (entry : List (IndexOp Payload) × Nat) : Bool :=
  decide (min buffer.config.txTimeout (2 ^ 64 - 1) < now - entry.2)

/-- The transactions that `retain` takes out of a shard. -/
def shardExpired (call : ReapCall lastShard) (expired : Nat) (index : Fin (lastShard + 1)) :
    List TxId :=
  let orphans := ((call.visit index).order (buffer.shards index).ops.keys).filter fun tx =>
    ((buffer.shards index).ops.lookup tx).any (buffer.isOrphan call.now)
  match call.max with
  | some max => orphans.take (max - expired)
  | none => orphans

def reapShard (call : ReapCall lastShard) (reaped : List TxId × TxBuffer Payload lastShard)
    (index : Fin (lastShard + 1)) : List TxId × TxBuffer Payload lastShard :=
  if call.contended index then reaped
  else
    let expired := reaped.2.shardExpired call reaped.1.length index
    (reaped.1 ++ expired,
      expired.foldl (fun buffer tx => buffer.releaseFrom index tx) reaped.2)

/-- `reap_orphans_bounded_at`; the shards behind the bound have nothing taken out. -/
def reapOrphansBoundedAt (call : ReapCall lastShard) : List TxId × TxBuffer Payload lastShard :=
  (List.finRange (lastShard + 1)).foldl (reapShard call) ([], buffer)

def isEmpty : Prop := ∀ index, (buffer.shards index).ops = ∅

end TxBuffer

def IndexOp.keyed : IndexOp (Bytes × Bytes) → Option (Bytes × Bool)
  | .insert _ data => some (data.1, true)
  | .delete _ (some data) => some (data.1, false)
  | .delete _ none => none

namespace TxBuffer

section Keys

variable {lastShard : Nat} (buffer : TxBuffer Payload lastShard)

def keyShardOf (key : Bytes) : KeyShard := buffer.keyShards (buffer.keyShardIdx key)

def trackedBy (key : Bytes) : TxMap Bool := ((buffer.keyShardOf key).staged.lookup key).getD ∅

def setKeyShard (key : Bytes) (shard : KeyShard) : TxBuffer Payload lastShard :=
  { buffer with keyShards := Function.update buffer.keyShards (buffer.keyShardIdx key) shard }

def trackKeyStage (tx : TxId) (key : Bytes) (isInsert : Bool) : TxBuffer Payload lastShard :=
  buffer.setKeyShard key
    ⟨(buffer.keyShardOf key).staged.insert key ((buffer.trackedBy key).insert tx isInsert)⟩

/-- An entry of a key without a transaction is removed. -/
def untrackKey (tx : TxId) (key : Bytes) : TxBuffer Payload lastShard :=
  let staged := (buffer.keyShardOf key).staged
  if key ∈ staged then
    let others := (buffer.trackedBy key).erase tx
    buffer.setKeyShard key
      ⟨if others.entries.isEmpty then staged.erase key else staged.insert key others⟩
  else buffer

/-- The transaction with the largest id, as the loop of `staged_status` finds it. -/
def largest (map : TxMap Bool) : Option (Sigma fun _ : TxId => Bool) :=
  map.entries.foldl
    (fun found entry =>
      match found with
      | none => some entry
      | some best => if best.1 < entry.1 then some entry else some best) none

def stagedStatus (key : Bytes) : Option Bool := (largest (buffer.trackedBy key)).map Sigma.snd

end Keys

section KeyValue

variable {lastShard : Nat} (buffer : TxBuffer (Bytes × Bytes) lastShard)

def untrackKeyOpsKv (tx : TxId) (ops : List (IndexOp (Bytes × Bytes))) :
    TxBuffer (Bytes × Bytes) lastShard :=
  ops.foldl
    (fun buffer op =>
      match op.keyed with
      | some (key, _) => buffer.untrackKey tx key
      | none => buffer) buffer

def stageKv (tx : TxId) (op : IndexOp (Bytes × Bytes)) (now : Nat) :
    Except StagingError Unit × TxBuffer (Bytes × Bytes) lastShard :=
  match op.keyed with
  | none => buffer.stageBounded tx op now
  | some (key, isInsert) =>
    match (buffer.trackKeyStage tx key isInsert).stageBounded tx op now with
    | (.ok (), after) => (.ok (), after)
    | (.error error, after) => (.error error, after.untrackKey tx key)

def drainKv (tx : TxId) : List (IndexOp (Bytes × Bytes)) × TxBuffer (Bytes × Bytes) lastShard :=
  let (ops, after) := buffer.drain tx
  (ops, after.untrackKeyOpsKv tx ops)

def discardKv (tx : TxId) : TxBuffer (Bytes × Bytes) lastShard :=
  (buffer.untrackKeyOpsKv tx ((buffer.getOps tx).getD [])).discard tx

end KeyValue

end TxBuffer

inductive TxCall (Payload : Type) (lastShard : Nat) where
  | beginAt (tx : TxId) (atNanos : Nat)
  | registerRead (tx : TxId) (key : Bytes) (snapshotSeq now : Nat)
  | tryRegisterRead (tx : TxId) (key : Bytes) (snapshotSeq maxKeys now : Nat)
  | stage (tx : TxId) (op : IndexOp Payload) (now : Nat)
  | stageMany (tx : TxId) (ops : List (IndexOp Payload)) (now : Nat)
  | drain (tx : TxId) (now : Nat)
  | discard (tx : TxId) (now : Nat)
  | reapOrphansBounded (call : TxBuffer.ReapCall lastShard)

def TxCall.time {lastShard : Nat} : TxCall Payload lastShard → Nat
  | .beginAt _ atNanos => atNanos
  | .registerRead _ _ _ now => now
  | .tryRegisterRead _ _ _ _ now => now
  | .stage _ _ now => now
  | .stageMany _ _ now => now
  | .drain _ now => now
  | .discard _ now => now
  | .reapOrphansBounded call => call.now

def TxBuffer.perform {lastShard : Nat} [StagedOpSize Payload]
    (buffer : TxBuffer Payload lastShard) : TxCall Payload lastShard → TxBuffer Payload lastShard
  | .beginAt tx atNanos => buffer.beginAt tx atNanos
  | .registerRead tx key snapshotSeq _ => buffer.registerRead tx key snapshotSeq
  | .tryRegisterRead tx key snapshotSeq maxKeys _ =>
    (buffer.tryRegisterRead tx key snapshotSeq maxKeys).2
  | .stage tx op now => (buffer.stageBounded tx op now).2
  | .stageMany tx ops now => (buffer.stageMany tx ops now).2
  | .drain tx _ => (buffer.drain tx).2
  | .discard tx _ => buffer.discard tx
  | .reapOrphansBounded call => (buffer.reapOrphansBoundedAt call).2

def TxBuffer.performAll {lastShard : Nat} [StagedOpSize Payload]
    (buffer : TxBuffer Payload lastShard) (calls : List (TxCall Payload lastShard)) :
    TxBuffer Payload lastShard :=
  calls.foldl TxBuffer.perform buffer

end Contextra.Mvcc
