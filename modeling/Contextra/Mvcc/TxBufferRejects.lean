import Contextra.Mvcc.TxBufferAccounting
import Contextra.Mvcc.TxBufferKeys

/-!
# Rejected calls

What a rejected stage leaves behind: a transaction that was not registered is, when only its
number of operations is refused; and the key of a refused operation is no longer tracked for the
transaction, also when an earlier operation had staged it.
-/

namespace Contextra.Mvcc

open Contextra.Library

namespace TxBuffer

variable {Payload : Type} {lastShard : Nat} {buffer before after : TxBuffer Payload lastShard}
  {tx : TxId} {ops : List (IndexOp Payload)} {now : Nat} {error : StagingError}

structure SameObservables (before after : TxBuffer Payload lastShard) : Prop where
  hasTx : ∀ tx, after.hasTx tx ↔ before.hasTx tx
  getOps : ∀ tx, after.getOps tx = before.getOps tx
  validated : ∀ tx, after.validatePendingOps tx = before.validatePendingOps tx
  stagedBytes : after.globalStagedBytes = before.globalStagedBytes
  stagedStatus : ∀ key, after.stagedStatus key = before.stagedStatus key

theorem hasTx_iff (buffer : TxBuffer Payload lastShard) (tx : TxId) :
    buffer.hasTx tx ↔ (buffer.getOps tx).isSome = true := by
  rw [hasTx, getOps, Option.isSome_map]
  exact AList.lookup_isSome.symm

theorem SameObservables.of_getOps (getOps : ∀ tx, after.getOps tx = before.getOps tx)
    (stagedBytes : after.globalStagedBytes = before.globalStagedBytes)
    (stagedStatus : ∀ key, after.stagedStatus key = before.stagedStatus key) :
    SameObservables before after where
  hasTx := by
    intro tx
    rw [hasTx_iff, hasTx_iff, getOps tx]
  getOps := getOps
  validated := by
    intro tx
    rw [validatePendingOps, validatePendingOps, getOps tx]
  stagedBytes := stagedBytes
  stagedStatus := stagedStatus

theorem getOps_setShard (buffer : TxBuffer Payload lastShard) (tx other : TxId)
    (shard : TxShard Payload) :
    (buffer.setShard (buffer.shardIdx tx) shard).getOps other =
      if buffer.shardIdx other = buffer.shardIdx tx then (shard.ops.lookup other).map Prod.fst
      else buffer.getOps other := by
  have found : (buffer.setShard (buffer.shardIdx tx) shard).shardOf other =
      if buffer.shardIdx other = buffer.shardIdx tx then shard else buffer.shardOf other :=
    buffer.shards_setShard _ _ shard
  rw [getOps, found]
  split <;> rfl

theorem getOps_setShard_of_same {shard : TxShard Payload}
    (same : shard.ops = (buffer.shardOf tx).ops) (other : TxId) :
    (buffer.setShard (buffer.shardIdx tx) shard).getOps other = buffer.getOps other := by
  rw [getOps_setShard]
  split
  · rename_i sameShard
    rw [same, getOps, shardOf, ← sameShard]
    rfl
  · rfl

theorem getOps_register (buffer : TxBuffer Payload lastShard) (tx other : TxId) (now : Nat) :
    (buffer.setShard (buffer.shardIdx tx) ((buffer.shardOf tx).register tx now)).getOps other =
      if other = tx then some ((buffer.getOps tx).getD []) else buffer.getOps other := by
  rw [getOps_setShard, TxShard.register, lookup_orInsert]
  by_cases same : other = tx
  · rw [same, if_pos rfl, if_pos rfl, if_pos rfl, getOps]
    cases (buffer.shardOf tx).ops.lookup tx with
    | none => rfl
    | some entry => rfl
  · rw [if_neg same, if_neg same]
    split
    · rename_i sameShard
      rw [getOps, shardOf, shardOf, ← sameShard]
    · rfl

section Stage

variable [StagedOpSize Payload]

/-- The budgets allow the operations, and the transaction is not registered. -/
def RegistersUnasked (buffer : TxBuffer Payload lastShard) (tx : TxId)
    (ops : List (IndexOp Payload)) : Prop :=
  ¬ buffer.hasTx tx ∧
    (buffer.shardOf tx).txBytes tx + totalBytes ops ≤ buffer.config.maxTxStagedBytes ∧
    buffer.globalStagedBytes + totalBytes ops ≤ buffer.config.maxTotalStagedBytes

/-- A rejected call leaves the keys and the counter, and may register the transaction. -/
structure LeavesRest (buffer after : TxBuffer Payload lastShard) (tx : TxId)
    (ops : List (IndexOp Payload)) : Prop where
  keyShards : after.keyShards = buffer.keyShards
  keyHash : after.keyHash = buffer.keyHash
  stagedBytes : after.globalStagedBytes = buffer.globalStagedBytes
  kept : ¬ RegistersUnasked buffer tx ops → ∀ other, after.getOps other = buffer.getOps other
  registered : RegistersUnasked buffer tx ops → after.hasTx tx

theorem stageMany_rejected (rejected : buffer.stageMany tx ops now = (.error error, after)) :
    LeavesRest buffer after tx ops := by
  rw [stageMany] at rejected
  dsimp only at rejected
  split at rejected
  · rename_i exceeds
    cases rejected
    refine ⟨rfl, rfl, rfl, fun _ => getOps_setShard_of_same rfl, ?_⟩
    rintro ⟨_, within, _⟩
    exact absurd within (not_le.mpr exceeds)
  · rename_i txBudget
    split at rejected
    · rename_i exceeds
      cases rejected
      refine ⟨rfl, rfl, rfl, fun _ => getOps_setShard_of_same rfl, ?_⟩
      rintro ⟨_, _, within⟩
      exact absurd within (not_le.mpr exceeds)
    · rename_i totalBudget
      split at rejected
      · cases rejected
        refine ⟨rfl, rfl, rfl, ?_, ?_⟩
        · intro notUnasked other
          have isRegistered : buffer.hasTx tx := not_not.mp fun isNew =>
            notUnasked ⟨isNew, not_lt.mp txBudget, not_lt.mp totalBudget⟩
          obtain ⟨found, isFound⟩ :=
            Option.isSome_iff_exists.mp ((buffer.hasTx_iff tx).mp isRegistered)
          rw [getOps_register]
          by_cases same : other = tx
          · rw [if_pos same, same, isFound]
            rfl
          · rw [if_neg same]
        · intro _
          rw [hasTx_iff, getOps_register, if_pos rfl]
          rfl
      · cases rejected

theorem LeavesRest.stagedStatus (leaves : LeavesRest buffer after tx ops) (key : Bytes) :
    after.trackedBy key = buffer.trackedBy key := by
  rw [trackedBy, trackedBy, keyShardOf, keyShardOf, keyShardIdx, keyShardIdx, leaves.keyShards,
    leaves.keyHash]

theorem LeavesRest.same_iff (leaves : LeavesRest buffer after tx ops) :
    SameObservables buffer after ↔ ¬ RegistersUnasked buffer tx ops := by
  constructor
  · intro same unasked
    exact unasked.1 ((same.hasTx tx).mp (leaves.registered unasked))
  · intro notUnasked
    exact .of_getOps (leaves.kept notUnasked) leaves.stagedBytes
      fun key => stagedStatus_congr (leaves.stagedStatus key)

end Stage

section KeyValue

variable {buffer after : TxBuffer (Bytes × Bytes) lastShard} {op : IndexOp (Bytes × Bytes)}

theorem untrackKey_shards (buffer : TxBuffer Payload lastShard) (tx : TxId) (key : Bytes) :
    (buffer.untrackKey tx key).shards = buffer.shards ∧
      (buffer.untrackKey tx key).globalStagedBytes = buffer.globalStagedBytes := by
  rw [untrackKey]
  dsimp only
  split
  · exact ⟨rfl, rfl⟩
  · exact ⟨rfl, rfl⟩

theorem getOps_untrackKey (buffer : TxBuffer Payload lastShard) (tx other : TxId) (key : Bytes) :
    (buffer.untrackKey tx key).getOps other = buffer.getOps other := by
  rw [getOps, shardOf, (buffer.untrackKey_shards tx key).1]
  rfl

def KeepsStatus (buffer : TxBuffer (Bytes × Bytes) lastShard) (tx : TxId)
    (op : IndexOp (Bytes × Bytes)) : Prop :=
  ∀ key ∈ op.keyed.map Prod.fst,
    (largest ((buffer.trackedBy key).erase tx)).map Sigma.snd = buffer.stagedStatus key

theorem stageKv_rejected {key : Bytes} {isInsert : Bool} (isKeyed : op.keyed = some (key, isInsert))
    (rejected : buffer.stageKv tx op now = (.error error, after)) :
    (∀ other, (after.hasTx other ↔ (after.getOps other).isSome = true)) ∧
      (¬ RegistersUnasked buffer tx [op] → ∀ other, after.getOps other = buffer.getOps other) ∧
      (RegistersUnasked buffer tx [op] → after.hasTx tx) ∧
      after.globalStagedBytes = buffer.globalStagedBytes ∧
      ∀ other, after.trackedBy other =
        if other = key then (buffer.trackedBy key).erase tx else buffer.trackedBy other := by
  rw [stageKv, isKeyed] at rejected
  dsimp only at rejected
  split at rejected
  · cases rejected
  · rename_i failure staged isStaged
    cases rejected
    have leaves := stageMany_rejected isStaged
    refine ⟨fun other => hasTx_iff _ other, ?_, ?_, ?_, ?_⟩
    · intro notUnasked other
      rw [getOps_untrackKey]
      exact leaves.kept notUnasked other
    · intro unasked
      rw [hasTx_iff, getOps_untrackKey, ← hasTx_iff]
      exact leaves.registered unasked
    · rw [(staged.untrackKey_shards tx key).2]
      exact leaves.stagedBytes
    · intro other
      rw [trackedBy_untrackKey]
      by_cases same : other = key
      · rw [if_pos same, if_pos same, leaves.stagedStatus, trackedBy_trackKeyStage, if_pos rfl,
          erase_insert_same]
      · rw [if_neg same, if_neg same, leaves.stagedStatus, trackedBy_trackKeyStage, if_neg same]

theorem stageKv_same_iff (rejected : buffer.stageKv tx op now = (.error error, after)) :
    SameObservables buffer after ↔
      ¬ RegistersUnasked buffer tx [op] ∧ KeepsStatus buffer tx op := by
  cases isKeyed : op.keyed with
  | none =>
    rw [stageKv, isKeyed] at rejected
    rw [(stageMany_rejected rejected).same_iff, KeepsStatus, isKeyed]
    exact (and_iff_left fun key impossible => by cases impossible).symm
  | some keyed =>
    obtain ⟨_, kept, registered, stagedBytes, tracked⟩ := stageKv_rejected isKeyed rejected
    constructor
    · intro same
      refine ⟨fun unasked => unasked.1 ((same.hasTx tx).mp (registered unasked)), ?_⟩
      intro key isKey
      rw [isKeyed] at isKey
      cases isKey
      rw [← same.stagedStatus, stagedStatus, tracked, if_pos rfl]
    · rintro ⟨notUnasked, keepsStatus⟩
      refine .of_getOps (kept notUnasked) stagedBytes fun key => ?_
      rw [stagedStatus, tracked]
      by_cases same : key = keyed.1
      · rw [if_pos same, same]
        exact keepsStatus keyed.1 (by rw [isKeyed]; rfl)
      · rw [if_neg same]
        rfl

end KeyValue

/-- A rejected call changes nothing that is seen exactly when it does not come to register its
transaction, and when the status of its key does not depend on its transaction. -/
theorem rejected_same_iff (lastShard : Nat) :
    (∀ (Payload : Type) [StagedOpSize Payload] (buffer after : TxBuffer Payload lastShard)
        (tx : TxId) (ops : List (IndexOp Payload)) (now : Nat) (error : StagingError),
      buffer.stageMany tx ops now = (.error error, after) →
        (SameObservables buffer after ↔ ¬ RegistersUnasked buffer tx ops)) ∧
    (∀ (Payload : Type) [StagedOpSize Payload] (buffer after : TxBuffer Payload lastShard)
        (tx : TxId) (op : IndexOp Payload) (now : Nat) (error : StagingError),
      buffer.stageBounded tx op now = (.error error, after) →
        (SameObservables buffer after ↔ ¬ RegistersUnasked buffer tx [op])) ∧
    ∀ (buffer after : TxBuffer (Bytes × Bytes) lastShard) (tx : TxId)
        (op : IndexOp (Bytes × Bytes)) (now : Nat) (error : StagingError),
      buffer.stageKv tx op now = (.error error, after) →
        (SameObservables buffer after ↔
          ¬ RegistersUnasked buffer tx [op] ∧ KeepsStatus buffer tx op) := by
  refine ⟨?_, ?_, ?_⟩
  · intro Payload _ buffer after tx ops now error rejected
    exact (stageMany_rejected rejected).same_iff
  · intro Payload _ buffer after tx op now error rejected
    exact (stageMany_rejected rejected).same_iff
  · intro buffer after tx op now error rejected
    exact stageKv_same_iff rejected

/-- A transaction may have one operation and 100 bytes. -/
def oneOpConfig : TxBufferConfig := ⟨30, 1, 100, 1000⟩

def putSeven : IndexOp (Bytes × Bytes) := .insert 7 ([7], [1])

/-- An operation that no budget allows. -/
def putLong : IndexOp (Bytes × Bytes) := .insert 8 ([8], List.replicate 80 1)

def stagedOnce : TxBuffer (Bytes × Bytes) 0 :=
  ((new 0 oneOpConfig fun _ => 0).stageKv 1 putSeven 0).2

theorem eq_of_fst {α β : Type} {result : α × β} {a : α} (first : result.1 = a) :
    result = (a, result.2) :=
  Prod.ext first rfl

theorem rejected_same_iff_long :
    (stagedOnce.stageKv 2 putLong 0).1 =
        .error (.storage "Transaction 2 staging budget exceeded: 0 + 113 > 100") ∧
      SameObservables stagedOnce (stagedOnce.stageKv 2 putLong 0).2 := by
  have rejected : (stagedOnce.stageKv 2 putLong 0).1 =
      .error (.storage "Transaction 2 staging budget exceeded: 0 + 113 > 100") := by
    decide +kernel
  refine ⟨rejected, ?_⟩
  apply ((rejected_same_iff 0).2.2 stagedOnce _ 2 putLong 0 _ (eq_of_fst rejected)).mpr
  constructor
  · rintro ⟨_, within, _⟩
    revert within
    decide +kernel
  · intro key isKey
    cases isKey
    decide +kernel

/-- The second operation of the transaction on the key is refused, and the first one is not
seen any more. -/
theorem stageKv_forgets :
    ¬ ∀ (buffer after : TxBuffer (Bytes × Bytes) 0) (tx : TxId) (op : IndexOp (Bytes × Bytes))
        (now : Nat) (error : StagingError),
      buffer.stageKv tx op now = (.error error, after) → SameObservables buffer after := by
  intro same
  have rejected : (stagedOnce.stageKv 1 putSeven 0).1 = .error (.transaction
      "Transaction 1 exceeded max staging capacity (1 ops)") := by decide +kernel
  have status := (same stagedOnce (stagedOnce.stageKv 1 putSeven 0).2 1 putSeven 0 _
    (eq_of_fst rejected)).stagedStatus [7]
  have forgotten : (stagedOnce.stageKv 1 putSeven 0).2.stagedStatus [7] = none := by
    decide +kernel
  have seen : stagedOnce.stagedStatus [7] = some true := by decide +kernel
  rw [forgotten, seen] at status
  cases status

end TxBuffer

end Contextra.Mvcc
