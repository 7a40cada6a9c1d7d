import Contextra.Mvcc.TxBuffer

/-!
# The bytes of staged operations

The counter of a transaction is the size of its operations, and the global counter is the sum of
their sizes.  A refused call leaves both as they are, and what is released is subtracted once.
-/

namespace Contextra.Mvcc

open Contextra.Library

variable {Payload : Type} [StagedOpSize Payload] {lastShard : Nat}
  {buffer : TxBuffer Payload lastShard} {shard : TxShard Payload} {config : TxBufferConfig}

theorem totalBytes_append (first second : List (IndexOp Payload)) :
    totalBytes (first ++ second) = totalBytes first + totalBytes second := by
  rw [totalBytes, List.map_append, List.sum_append]
  rfl

def entryBytes (_ : TxId) (entry : List (IndexOp Payload) × Nat) : Nat := totalBytes entry.1

namespace TxShard

def bytesOf (shard : TxShard Payload) : Nat := sumOf entryBytes shard.ops

/-- The counters of a shard are right, and its transactions within their limits. -/
structure Exact (config : TxBufferConfig) (shard : TxShard Payload) : Prop where
  counted : ∀ tx, shard.txBytes tx = weightAt entryBytes shard.ops tx
  limited : ∀ tx entry, shard.ops.lookup tx = some entry →
    totalBytes entry.1 ≤ config.maxTxStagedBytes ∧ entry.1.length ≤ config.maxOpsPerTx

end TxShard

omit [StagedOpSize Payload] in
theorem lookup_orInsert {Value : Type} (map : TxMap Value) (tx other : TxId) (value : Value) :
    (orInsert map tx value).lookup other =
      if other = tx then some ((map.lookup tx).getD value) else map.lookup other := by
  rw [orInsert]
  by_cases same : other = tx
  · rw [if_pos same, same]
    split
    · rename_i isEntry
      obtain ⟨found, isFound⟩ := Option.isSome_iff_exists.mp (AList.lookup_isSome.mpr isEntry)
      rw [isFound]
      rfl
    · rename_i isNew
      rw [AList.lookup_insert, AList.lookup_eq_none.mpr isNew]
      rfl
  · rw [if_neg same]
    split
    · rfl
    · exact AList.lookup_insert_ne same

theorem weightAt_orInsert_empty (map : TxMap (List (IndexOp Payload) × Nat)) (tx other : TxId)
    (now : Nat) :
    weightAt entryBytes (orInsert map tx ([], now)) other = weightAt entryBytes map other := by
  rw [weightAt, weightAt, lookup_orInsert]
  by_cases same : other = tx
  · rw [if_pos same, same]
    cases map.lookup tx with
    | none => rfl
    | some entry => rfl
  · rw [if_neg same]

theorem sumOf_orInsert_empty (map : TxMap (List (IndexOp Payload) × Nat)) (tx : TxId) (now : Nat) :
    sumOf entryBytes (orInsert map tx ([], now)) = sumOf entryBytes map := by
  rw [orInsert]
  split
  · rfl
  · rename_i isNew
    have erased : sumOf entryBytes map =
        sumOf entryBytes (map.erase tx) + weightAt entryBytes map tx := sumOf_erase map tx
    rw [weightAt, AList.lookup_eq_none.mpr isNew] at erased
    rw [sumOf_insert]
    exact erased.symm

namespace TxShard

theorem totalBytes_entryOf (shard : TxShard Payload) (tx : TxId) (now : Nat) :
    totalBytes (shard.entryOf tx now).1 = weightAt entryBytes shard.ops tx := by
  rw [entryOf, weightAt]
  cases shard.ops.lookup tx with
  | none => rfl
  | some entry => rfl

theorem bytesOf_register (shard : TxShard Payload) (tx : TxId) (now : Nat) :
    (shard.register tx now).bytesOf = shard.bytesOf :=
  sumOf_orInsert_empty shard.ops tx now

theorem bytesOf_push (shard : TxShard Payload) (tx : TxId) (ops : List (IndexOp Payload))
    (now : Nat) : (shard.push tx ops now).bytesOf = shard.bytesOf + totalBytes ops := by
  rw [bytesOf, push, sumOf_insert, entryBytes, totalBytes_append, totalBytes_entryOf, bytesOf,
    sumOf_erase shard.ops tx, Nat.add_assoc]

theorem bytesOf_release (shard : TxShard Payload) (tx : TxId) :
    shard.bytesOf = (shard.release tx).bytesOf + weightAt entryBytes shard.ops tx :=
  sumOf_erase shard.ops tx

omit [StagedOpSize Payload] in
theorem txBytes_touch (shard : TxShard Payload) (tx other : TxId) :
    (shard.touch tx).txBytes other = shard.txBytes other := by
  rw [txBytes, touch, lookup_orInsert]
  by_cases same : other = tx
  · rw [if_pos same, same]
    rfl
  · rw [if_neg same]
    rfl

namespace Exact

theorem touch (exact : shard.Exact config) (tx : TxId) : (shard.touch tx).Exact config where
  counted := fun other => (txBytes_touch shard tx other).trans (exact.counted other)
  limited := exact.limited

theorem register (exact : shard.Exact config) (tx : TxId) (now : Nat) :
    (shard.register tx now).Exact config where
  counted := by
    intro other
    have counter := (txBytes_touch shard tx other).trans (exact.counted other)
    exact counter.trans (weightAt_orInsert_empty shard.ops tx other now).symm
  limited := by
    intro other entry found
    rw [TxShard.register, lookup_orInsert] at found
    by_cases same : other = tx
    · rw [if_pos same] at found
      cases found
      cases isEntry : shard.ops.lookup tx with
      | none => exact ⟨Nat.zero_le _, Nat.zero_le _⟩
      | some entry => exact exact.limited tx entry isEntry
    · rw [if_neg same] at found
      exact exact.limited other entry found

theorem push (exact : shard.Exact config) {tx : TxId} {ops : List (IndexOp Payload)} {now : Nat}
    (bytes : shard.txBytes tx + totalBytes ops ≤ config.maxTxStagedBytes)
    (count : (shard.entryOf tx now).1.length + ops.length ≤ config.maxOpsPerTx) :
    (shard.push tx ops now).Exact config := by
  rw [exact.counted tx, ← totalBytes_entryOf shard tx now, ← totalBytes_append] at bytes
  constructor
  · intro other
    rw [txBytes, TxShard.push, weightAt]
    by_cases same : other = tx
    · rw [same, AList.lookup_insert, AList.lookup_insert, exact.counted tx,
        ← totalBytes_entryOf shard tx now]
      exact (totalBytes_append _ _).symm
    · rw [AList.lookup_insert_ne same, AList.lookup_insert_ne same]
      exact exact.counted other
  · intro other entry found
    rw [TxShard.push] at found
    by_cases same : other = tx
    · rw [same, AList.lookup_insert] at found
      cases found
      rw [List.length_append]
      exact ⟨bytes, count⟩
    · rw [AList.lookup_insert_ne same] at found
      exact exact.limited other entry found

theorem release (exact : shard.Exact config) (tx : TxId) : (shard.release tx).Exact config where
  counted := by
    intro other
    rw [txBytes, TxShard.release, weightAt]
    by_cases same : other = tx
    · rw [same, AList.lookup_erase, AList.lookup_erase]
      rfl
    · rw [AList.lookup_erase_ne same, AList.lookup_erase_ne same]
      exact exact.counted other
  limited := by
    intro other entry found
    rw [TxShard.release] at found
    by_cases same : other = tx
    · rw [same, AList.lookup_erase] at found
      cases found
    · rw [AList.lookup_erase_ne same] at found
      exact exact.limited other entry found

end Exact

end TxShard

namespace TxBuffer

def bytesOf (buffer : TxBuffer Payload lastShard) : Nat :=
  ∑ index, (buffer.shards index).bytesOf

structure Accounted (buffer : TxBuffer Payload lastShard) : Prop where
  exact : ∀ index, (buffer.shards index).Exact buffer.config
  total : buffer.globalStagedBytes = buffer.bytesOf
  bounded : buffer.globalStagedBytes ≤ buffer.config.maxTotalStagedBytes
  noUnderflow : buffer.underflowed = false

theorem bytesOf_setShard (buffer : TxBuffer Payload lastShard) (index : Fin (lastShard + 1))
    (shard : TxShard Payload) :
    (buffer.setShard index shard).bytesOf + (buffer.shards index).bytesOf =
      buffer.bytesOf + shard.bytesOf := by
  have updated : (fun other => ((buffer.setShard index shard).shards other).bytesOf) =
      Function.update (fun other => (buffer.shards other).bytesOf) index shard.bytesOf := by
    funext other
    rw [shards_setShard, Function.update_apply]
    split <;> rfl
  have before := Finset.add_sum_erase Finset.univ (fun other => (buffer.shards other).bytesOf)
    (Finset.mem_univ index)
  have after := Finset.sum_update_of_mem (Finset.mem_univ index)
    (fun other => (buffer.shards other).bytesOf) shard.bytesOf
  rw [bytesOf, bytesOf, updated, after, ← before, Finset.sdiff_singleton_eq_erase]
  omega

theorem exact_setShard (accounted : buffer.Accounted) {index : Fin (lastShard + 1)}
    (exact : shard.Exact buffer.config) (other : Fin (lastShard + 1)) :
    ((buffer.setShard index shard).shards other).Exact buffer.config := by
  rw [shards_setShard]
  split
  · exact exact
  · exact accounted.exact other

namespace Accounted

theorem setShard (accounted : buffer.Accounted) {index : Fin (lastShard + 1)}
    (exact : shard.Exact buffer.config) (same : shard.bytesOf = (buffer.shards index).bytesOf) :
    (buffer.setShard index shard).Accounted where
  exact := exact_setShard accounted exact
  total := by
    have bytes := buffer.bytesOf_setShard index shard
    rw [same] at bytes
    exact accounted.total.trans (Nat.add_right_cancel bytes).symm
  bounded := accounted.bounded
  noUnderflow := accounted.noUnderflow

theorem setReads (accounted : buffer.Accounted) (tx : TxId) (reads : TrackedReads) :
    (buffer.setReads tx reads).Accounted := by
  have exact := accounted.exact (buffer.shardIdx tx)
  exact accounted.setShard ⟨exact.counted, exact.limited⟩ rfl

theorem beginAt (accounted : buffer.Accounted) (tx : TxId) (atNanos : Nat) :
    (buffer.beginAt tx atNanos).Accounted := by
  have exact := (accounted.exact (buffer.shardIdx tx)).register tx atNanos
  apply accounted.setShard
  · exact ⟨exact.counted, exact.limited⟩
  · exact TxShard.bytesOf_register _ tx atNanos

theorem stageMany (accounted : buffer.Accounted) (tx : TxId) (ops : List (IndexOp Payload))
    (now : Nat) : (buffer.stageMany tx ops now).2.Accounted := by
  have exact : (buffer.shardOf tx).Exact buffer.config := accounted.exact (buffer.shardIdx tx)
  rw [TxBuffer.stageMany]
  dsimp only
  split
  · exact accounted.setShard (exact.touch tx) rfl
  · rename_i txBudget
    split
    · exact accounted.setShard (exact.touch tx) rfl
    · rename_i totalBudget
      split
      · exact accounted.setShard (exact.register tx now) (TxShard.bytesOf_register _ tx now)
      · rename_i count
        have pushed := exact.push (not_lt.mp txBudget) (not_lt.mp count)
        refine ⟨exact_setShard accounted pushed, ?_, not_lt.mp totalBudget,
          accounted.noUnderflow⟩
        have bytes := buffer.bytesOf_setShard (buffer.shardIdx tx)
          ((buffer.shardOf tx).push tx ops now)
        have grown := (buffer.shardOf tx).bytesOf_push tx ops now
        have total := accounted.total
        rw [grown, shardOf] at bytes
        have moved : buffer.bytesOf + totalBytes ops =
            (buffer.setShard (buffer.shardIdx tx) ((buffer.shardOf tx).push tx ops now)).bytesOf := by
          rw [shardOf]
          omega
        rw [total]
        exact moved

theorem releaseFrom (accounted : buffer.Accounted) (index : Fin (lastShard + 1)) (tx : TxId) :
    (buffer.releaseFrom index tx).Accounted := by
  have exact := accounted.exact index
  have bytes := buffer.bytesOf_setShard index ((buffer.shards index).release tx)
  have released := (buffer.shards index).bytesOf_release tx
  have total := accounted.total
  rw [← exact.counted tx] at released
  have balance : buffer.globalStagedBytes =
      (buffer.setShard index ((buffer.shards index).release tx)).bytesOf +
        (buffer.shards index).txBytes tx := by
    omega
  have counted : (buffer.shards index).txBytes tx ≤
      (buffer.setShard index ((buffer.shards index).release tx)).globalStagedBytes :=
    (Nat.le_add_left _ _).trans balance.ge
  rw [TxBuffer.releaseFrom, fetchSub, if_pos counted]
  refine ⟨exact_setShard accounted (exact.release tx), ?_, ?_, accounted.noUnderflow⟩
  · exact (Nat.sub_eq_of_eq_add balance)
  · exact (Nat.sub_le _ _).trans accounted.bounded

theorem reapOrphansBoundedAt (accounted : buffer.Accounted) (call : ReapCall lastShard) :
    (buffer.reapOrphansBoundedAt call).2.Accounted := by
  have releaseAll (index : Fin (lastShard + 1)) (expired : List TxId)
      (start : TxBuffer Payload lastShard) (isAccounted : start.Accounted) :
      (expired.foldl (fun buffer tx => buffer.releaseFrom index tx) start).Accounted := by
    induction expired generalizing start with
    | nil => exact isAccounted
    | cons tx expired ih =>
      exact ih _ (isAccounted.releaseFrom index tx)
  have reapAll (indices : List (Fin (lastShard + 1)))
      (reaped : List TxId × TxBuffer Payload lastShard) (isAccounted : reaped.2.Accounted) :
      (indices.foldl (reapShard call) reaped).2.Accounted := by
    induction indices generalizing reaped with
    | nil => exact isAccounted
    | cons index indices ih =>
      apply ih
      rw [reapShard]
      split
      · exact isAccounted
      · exact releaseAll index _ _ isAccounted
  exact reapAll _ _ accounted

theorem perform (accounted : buffer.Accounted) (call : TxCall Payload lastShard) :
    (buffer.perform call).Accounted := by
  cases call with
  | beginAt tx atNanos => exact accounted.beginAt tx atNanos
  | registerRead tx key snapshotSeq now => exact accounted.setReads tx _
  | tryRegisterRead tx key snapshotSeq maxKeys now =>
    rw [TxBuffer.perform, tryRegisterRead]
    split
    · exact accounted.setReads tx _
    · exact accounted.setReads tx _
  | stage tx op now => exact accounted.stageMany tx [op] now
  | stageMany tx ops now => exact accounted.stageMany tx ops now
  | drain tx now => exact accounted.releaseFrom _ tx
  | discard tx now => exact accounted.releaseFrom _ tx
  | reapOrphansBounded call => exact accounted.reapOrphansBoundedAt call

theorem performAll (accounted : buffer.Accounted) (calls : List (TxCall Payload lastShard)) :
    (buffer.performAll calls).Accounted := by
  induction calls generalizing buffer with
  | nil => exact accounted
  | cons call calls ih => exact ih (accounted.perform call)

end Accounted

theorem accounted_new (config : TxBufferConfig) (keyHash : Bytes → Nat) :
    (new lastShard config keyHash : TxBuffer Payload lastShard).Accounted where
  exact := fun index => ⟨fun tx => rfl, fun tx entry impossible => by cases impossible⟩
  total := by
    apply Eq.symm
    apply Finset.sum_eq_zero
    exact fun index _ => rfl
  bounded := Nat.zero_le _
  noUnderflow := rfl

/-- The counter is the sum of the bytes of the buffered operations, every transaction and the
counter are within their limits, and no subtraction went below zero. -/
structure StagingExact (buffer : TxBuffer Payload lastShard) : Prop where
  total : buffer.globalStagedBytes = ∑ index,
    ((buffer.shards index).ops.entries.map fun entry => totalBytes entry.2.1).sum
  perTx : ∀ tx ops, buffer.getOps tx = some ops →
    totalBytes ops ≤ buffer.config.maxTxStagedBytes ∧ ops.length ≤ buffer.config.maxOpsPerTx
  bounded : buffer.globalStagedBytes ≤ buffer.config.maxTotalStagedBytes
  noUnderflow : buffer.underflowed = false

theorem performAll_stagingExact (config : TxBufferConfig) (keyHash : Bytes → Nat)
    (calls : List (TxCall Payload lastShard)) :
    ((new lastShard config keyHash).performAll calls).StagingExact := by
  have accounted := (accounted_new config keyHash).performAll calls
  refine ⟨accounted.total, ?_, accounted.bounded, accounted.noUnderflow⟩
  intro tx ops isOps
  obtain ⟨entry, found, rfl⟩ := Option.map_eq_some_iff.mp isOps
  exact (accounted.exact _).limited tx entry found

end TxBuffer

end Contextra.Mvcc
