import Contextra.Library.StagedMap
import Contextra.Library.Run
import Contextra.Mvcc.TxBufferReaping
import Contextra.Mvcc.TxBufferRejects

/-!
# The status of a staged key

The key map is a copy of what the transactions have buffered.  It stays one over every run in
which no call changes the buffers behind its back: a batch that stages keys, a refused operation
on a key that the transaction has staged before, and a reaped transaction with keys.
-/

namespace Contextra.Mvcc

open Library List Option

namespace TxBuffer

section Buffered

variable {Payload : Type} {lastShard : Nat} (buffer : TxBuffer Payload lastShard)

def opsOf (tx : TxId) : List (IndexOp Payload) := (buffer.getOps tx).getD []

theorem opsOf_setShard (tx other : TxId) (shard : TxShard Payload) :
    (buffer.setShard (buffer.shardIdx tx) shard).opsOf other =
      if buffer.shardIdx other = buffer.shardIdx tx
      then ((shard.ops.lookup other).map Prod.fst).getD []
      else buffer.opsOf other := by
  rw [opsOf, getOps_setShard]
  split <;> rfl

theorem opsOf_touch (tx other : TxId) :
    (buffer.setShard (buffer.shardIdx tx) ((buffer.shardOf tx).touch tx)).opsOf other =
      buffer.opsOf other := by
  have same : ((buffer.shardOf tx).touch tx).ops = (buffer.shardOf tx).ops := rfl
  exact congrArg (Option.getD · []) (getOps_setShard_of_same same other)

theorem opsOf_register (tx other : TxId) (now : Nat) :
    (buffer.setShard (buffer.shardIdx tx) ((buffer.shardOf tx).register tx now)).opsOf other =
      buffer.opsOf other := by
  rw [opsOf, getOps_register]
  by_cases same : other = tx
  · rw [if_pos same, same]
    rfl
  · rw [if_neg same]
    rfl

theorem opsOf_beginAt (tx other : TxId) (atNanos : Nat) :
    (buffer.beginAt tx atNanos).opsOf other = buffer.opsOf other := by
  have registered := buffer.opsOf_register tx other atNanos
  rw [opsOf_setShard] at registered
  rw [beginAt, opsOf_setShard]
  exact registered

theorem entryOf_ops (tx : TxId) (now : Nat) :
    ((buffer.shardOf tx).entryOf tx now).1 = buffer.opsOf tx := by
  rw [TxShard.entryOf, opsOf, getOps]
  cases (buffer.shardOf tx).ops.lookup tx with
  | none => rfl
  | some entry => rfl

theorem opsOf_push [StagedOpSize Payload] (tx other : TxId) (ops : List (IndexOp Payload))
    (now : Nat) :
    (buffer.setShard (buffer.shardIdx tx) ((buffer.shardOf tx).push tx ops now)).opsOf other =
      if other = tx then buffer.opsOf tx ++ ops else buffer.opsOf other := by
  rw [opsOf_setShard, TxShard.push, entryOf_ops]
  by_cases same : other = tx
  · rw [same, if_pos rfl, if_pos rfl, AList.lookup_insert]
    rfl
  · rw [if_neg same]
    split
    · rename_i sameShard
      rw [AList.lookup_insert_ne same, opsOf, getOps, shardOf, shardOf, sameShard]
    · rfl

theorem opsOf_releaseFrom (index : Fin (lastShard + 1)) (tx other : TxId) :
    (buffer.releaseFrom index tx).opsOf other =
      if other = tx ∧ buffer.shardIdx other = index then [] else buffer.opsOf other := by
  have shards : (buffer.releaseFrom index tx).shards =
      (buffer.setShard index ((buffer.shards index).release tx)).shards := by
    rw [releaseFrom, fetchSub]
    split <;> rfl
  have found : (buffer.releaseFrom index tx).shardOf other =
      if buffer.shardIdx other = index then (buffer.shards index).release tx
      else buffer.shardOf other := by
    rw [shardOf, shards]
    exact buffer.shards_setShard _ _ _
  rw [opsOf, getOps, found]
  by_cases sameShard : buffer.shardIdx other = index
  · rw [if_pos sameShard, TxShard.release]
    by_cases same : other = tx
    · rw [if_pos ⟨same, sameShard⟩, same, AList.lookup_erase]
      rfl
    · rw [if_neg (mt And.left same), AList.lookup_erase_ne same, opsOf, getOps, shardOf, sameShard]
  · rw [if_neg sameShard, if_neg (mt And.right sameShard)]
    rfl

theorem releaseFrom_keyShards (index : Fin (lastShard + 1)) (tx : TxId) (key : Bytes) :
    (buffer.releaseFrom index tx).trackedBy key = buffer.trackedBy key := by
  rw [releaseFrom, fetchSub]
  split <;> rfl

variable [StagedOpSize Payload]

def WithinLimits (tx : TxId) (ops : List (IndexOp Payload)) : Prop :=
  (buffer.shardOf tx).txBytes tx + totalBytes ops ≤ buffer.config.maxTxStagedBytes ∧
    buffer.globalStagedBytes + totalBytes ops ≤ buffer.config.maxTotalStagedBytes ∧
    (buffer.opsOf tx).length + ops.length ≤ buffer.config.maxOpsPerTx

instance (tx : TxId) (ops : List (IndexOp Payload)) : Decidable (buffer.WithinLimits tx ops) :=
  inferInstanceAs (Decidable (_ ∧ _))

/-- What `stage_many` does to the buffered operations. -/
structure Stages (buffer : TxBuffer Payload lastShard) (tx : TxId) (ops : List (IndexOp Payload))
    (result : Except StagingError Unit × TxBuffer Payload lastShard) : Prop where
  isOk : result.1 = .ok () ↔ buffer.WithinLimits tx ops
  tracked : ∀ key, result.2.trackedBy key = buffer.trackedBy key
  opsOf : ∀ other, result.2.opsOf other =
    if buffer.WithinLimits tx ops ∧ other = tx then buffer.opsOf tx ++ ops else buffer.opsOf other

theorem stageMany_stages (tx : TxId) (ops : List (IndexOp Payload)) (now : Nat) :
    Stages buffer tx ops (buffer.stageMany tx ops now) := by
  rw [stageMany, entryOf_ops]
  dsimp only
  split
  · rename_i exceeds
    have beyond : ¬ buffer.WithinLimits tx ops := fun within => absurd within.1 (not_le.mpr exceeds)
    refine ⟨iff_of_false (fun isOk => by cases isOk) beyond, fun key => rfl, fun other => ?_⟩
    rw [if_neg (mt And.left beyond)]
    exact buffer.opsOf_touch tx other
  · rename_i txBudget
    split
    · rename_i exceeds
      have beyond : ¬ buffer.WithinLimits tx ops :=
        fun within => absurd within.2.1 (not_le.mpr exceeds)
      refine ⟨iff_of_false (fun isOk => by cases isOk) beyond, fun key => rfl, fun other => ?_⟩
      rw [if_neg (mt And.left beyond)]
      exact buffer.opsOf_touch tx other
    · rename_i totalBudget
      split
      · rename_i exceeds
        have beyond : ¬ buffer.WithinLimits tx ops :=
          fun within => absurd within.2.2 (not_le.mpr exceeds)
        refine ⟨iff_of_false (fun isOk => by cases isOk) beyond, fun key => rfl, fun other => ?_⟩
        rw [if_neg (mt And.left beyond)]
        exact buffer.opsOf_register tx other now
      · rename_i count
        have within : buffer.WithinLimits tx ops :=
          ⟨not_lt.mp txBudget, not_lt.mp totalBudget, not_lt.mp count⟩
        refine ⟨iff_of_true rfl within, fun key => rfl, fun other => ?_⟩
        have pushed := buffer.opsOf_push tx other ops now
        by_cases same : other = tx
        · rw [if_pos same] at pushed
          rw [if_pos ⟨within, same⟩]
          exact pushed
        · rw [if_neg same] at pushed
          rw [if_neg (mt And.right same)]
          exact pushed

end Buffered

section KeyValue

variable {lastShard : Nat} {buffer after : TxBuffer (Bytes × Bytes) lastShard}

/-- Whether the last operation on each key is an insert. -/
def keyedEntries (ops : List (IndexOp (Bytes × Bytes))) : List (Bytes × Bool) :=
  ops.filterMap IndexOp.keyed

def lastStaged (buffer : TxBuffer (Bytes × Bytes) lastShard) (tx : TxId) (key : Bytes) :
    Option Bool :=
  lastEntry (keyedEntries (buffer.opsOf tx)) key

/-- The status of a key is that of the largest transaction which buffers an operation on it. -/
structure StatusRight (buffer : TxBuffer (Bytes × Bytes) lastShard) : Prop where
  isSome : ∀ key, (buffer.stagedStatus key).isSome = true ↔
    ∃ tx, (buffer.lastStaged tx key).isSome = true
  ofLargest : ∀ key isInsert, buffer.stagedStatus key = some isInsert →
    ∃ tx, buffer.lastStaged tx key = some isInsert ∧
      ∀ other, (buffer.lastStaged other key).isSome = true → other ≤ tx

def Tracks (buffer : TxBuffer (Bytes × Bytes) lastShard) : Prop :=
  ∀ key tx, (buffer.trackedBy key).lookup tx = buffer.lastStaged tx key

theorem Tracks.ofLargest (tracks : buffer.Tracks) {key : Bytes} {isInsert : Bool}
    (isStatus : buffer.stagedStatus key = some isInsert) :
    ∃ tx, buffer.lastStaged tx key = some isInsert ∧
      ∀ other, (buffer.lastStaged other key).isSome = true → other ≤ tx := by
  obtain ⟨best, isLargest, isBest⟩ := map_eq_some_iff.mp isStatus
  obtain ⟨isStaged, greatest⟩ := largest_eq_some isLargest
  refine ⟨best.1, by rw [← tracks key best.1, isStaged, isBest], fun other isOther => ?_⟩
  obtain ⟨isFound, found⟩ := isSome_iff_exists.mp isOther
  exact greatest other isFound ((tracks key other).trans found)

theorem Tracks.statusRight (tracks : buffer.Tracks) : buffer.StatusRight where
  isSome := by
    intro key
    constructor
    · intro isStaged
      obtain ⟨isInsert, isStatus⟩ := isSome_iff_exists.mp isStaged
      obtain ⟨tx, isLast, _⟩ := tracks.ofLargest isStatus
      exact ⟨tx, by rw [isLast]; rfl⟩
    · rintro ⟨tx, isStaged⟩
      rw [stagedStatus, isSome_map]
      cases isLargest : largest (buffer.trackedBy key) with
      | none =>
        rw [← tracks key tx, largest_eq_none isLargest tx] at isStaged
        cases isStaged
      | some best => rfl
  ofLargest := fun _ _ => tracks.ofLargest

theorem Tracks.of_same (tracks : buffer.Tracks)
    (tracked : ∀ key, after.trackedBy key = buffer.trackedBy key)
    (ops : ∀ tx, keyedEntries (after.opsOf tx) = keyedEntries (buffer.opsOf tx)) :
    after.Tracks := by
  intro key tx
  rw [lastStaged, tracked, ops]
  exact tracks key tx

theorem keyedEntries_append (first second : List (IndexOp (Bytes × Bytes))) :
    keyedEntries (first ++ second) = keyedEntries first ++ keyedEntries second :=
  filterMap_append

/-- The keys of a batch are staged in the same way already. -/
def BatchTracked (buffer : TxBuffer (Bytes × Bytes) lastShard) (tx : TxId)
    (ops : List (IndexOp (Bytes × Bytes))) : Prop :=
  ∀ key ∈ (keyedEntries ops).map Prod.fst,
    (buffer.trackedBy key).lookup tx = lastEntry (keyedEntries ops) key

instance (tx : TxId) (ops : List (IndexOp (Bytes × Bytes))) :
    Decidable (buffer.BatchTracked tx ops) :=
  inferInstanceAs (Decidable (∀ key ∈ _, _))

variable {tx : TxId}

theorem Tracks.stageMany (tracks : buffer.Tracks)
    {ops : List (IndexOp (Bytes × Bytes))} (now : Nat)
    (inOrder : buffer.WithinLimits tx ops → buffer.BatchTracked tx ops) :
    (buffer.stageMany tx ops now).2.Tracks := by
  have stages := buffer.stageMany_stages tx ops now
  intro key other
  rw [lastStaged, stages.tracked, stages.opsOf]
  by_cases pushed : buffer.WithinLimits tx ops ∧ other = tx
  · obtain ⟨within, rfl⟩ := pushed
    rw [if_pos ⟨within, rfl⟩, keyedEntries_append, lastEntry_append]
    by_cases isKeyed : key ∈ (keyedEntries ops).map Prod.fst
    · rw [inOrder within key isKeyed]
      obtain ⟨isInsert, found⟩ := isSome_iff_exists.mp (lastEntry_isSome.mpr isKeyed)
      rw [found]
      rfl
    · rw [lastEntry_eq_none.mpr isKeyed]
      exact tracks key other
  · rw [if_neg pushed]
    exact tracks key other

variable {op : IndexOp (Bytes × Bytes)}

theorem stageKv_eq_of_unkeyed (unkeyed : op.keyed = none)
    (tx : TxId) (now : Nat) : buffer.stageKv tx op now = buffer.stageMany tx [op] now := by
  rw [stageKv, unkeyed]
  rfl

theorem stageKv_keyed {key : Bytes} {isInsert : Bool}
    (isKeyed : op.keyed = some (key, isInsert)) (tx : TxId) (now : Nat) :
    (∀ other, (buffer.stageKv tx op now).2.opsOf other =
      if buffer.WithinLimits tx [op] ∧ other = tx then buffer.opsOf tx ++ [op]
      else buffer.opsOf other) ∧
    ∀ other, (buffer.stageKv tx op now).2.trackedBy other =
      if other = key then
        if buffer.WithinLimits tx [op] then (buffer.trackedBy key).insert tx isInsert
        else (buffer.trackedBy key).erase tx
      else buffer.trackedBy other := by
  have stages := (buffer.trackKeyStage tx key isInsert).stageMany_stages tx [op] now
  cases isResult : (buffer.trackKeyStage tx key isInsert).stageBounded tx op now with
  | mk result after =>
    cases result with
    | ok done =>
      have staged : buffer.stageKv tx op now = (.ok (), after) := by
        rw [stageKv, isKeyed]
        dsimp only
        rw [isResult]
      rw [stageBounded] at isResult
      rw [isResult] at stages
      have within : buffer.WithinLimits tx [op] := stages.isOk.mp rfl
      rw [staged]
      refine ⟨stages.opsOf, fun other => ?_⟩
      rw [stages.tracked, trackedBy_trackKeyStage, if_pos within]
    | error error =>
      have staged : buffer.stageKv tx op now = (.error error, after.untrackKey tx key) := by
        rw [stageKv, isKeyed]
        dsimp only
        rw [isResult]
      rw [stageBounded] at isResult
      rw [isResult] at stages
      have beyond : ¬ buffer.WithinLimits tx [op] := by
        intro within
        cases stages.isOk.mpr within
      rw [staged]
      constructor
      · intro other
        have kept := stages.opsOf other
        rw [opsOf, getOps_untrackKey]
        exact kept
      · intro other
        rw [trackedBy_untrackKey, if_neg beyond, stages.tracked, stages.tracked,
          trackedBy_trackKeyStage, trackedBy_trackKeyStage, if_pos rfl, erase_insert_same]
        by_cases same : other = key
        · rw [if_pos same, if_pos same]
        · rw [if_neg same, if_neg same, if_neg same]

/-- A refused operation is on a key that the transaction has not staged. -/
def RefusalUntracked (buffer : TxBuffer (Bytes × Bytes) lastShard) (tx : TxId)
    (op : IndexOp (Bytes × Bytes)) : Prop :=
  ∀ key ∈ op.keyed.map Prod.fst, (buffer.trackedBy key).lookup tx = none

instance (tx : TxId) (op : IndexOp (Bytes × Bytes)) : Decidable (buffer.RefusalUntracked tx op) :=
  inferInstanceAs (Decidable (∀ key ∈ _, _))

theorem Tracks.stageKv (tracks : buffer.Tracks) (now : Nat) (inOrder : ¬ buffer.WithinLimits tx [op] → buffer.RefusalUntracked tx op) :
    (buffer.stageKv tx op now).2.Tracks := by
  cases isKeyed : op.keyed with
  | none =>
    rw [stageKv_eq_of_unkeyed isKeyed]
    apply tracks.stageMany
    intro _ key isKey
    rw [keyedEntries, filterMap_cons_none isKeyed] at isKey
    exact absurd isKey not_mem_nil
  | some keyed =>
    obtain ⟨key, isInsert⟩ := keyed
    obtain ⟨opsOf, trackedBy⟩ := buffer.stageKv_keyed isKeyed tx now
    have entry : keyedEntries [op] = [(key, isInsert)] := filterMap_cons_some isKeyed
    intro found other
    rw [lastStaged, opsOf, trackedBy]
    by_cases within : buffer.WithinLimits tx [op]
    · rw [if_pos within]
      by_cases same : found = key
      · rw [if_pos same]
        by_cases sameTx : other = tx
        · rw [if_pos ⟨within, sameTx⟩, keyedEntries_append, entry, lastEntry_concat, if_pos same,
            sameTx, AList.lookup_insert]
        · rw [if_neg (mt And.right sameTx), AList.lookup_insert_ne sameTx, same]
          exact tracks key other
      · rw [if_neg same]
        by_cases sameTx : other = tx
        · rw [if_pos ⟨within, sameTx⟩, keyedEntries_append, entry, lastEntry_concat, if_neg same,
            sameTx]
          exact tracks found tx
        · rw [if_neg (mt And.right sameTx)]
          exact tracks found other
    · rw [if_neg within, if_neg (mt And.left within)]
      split
      · rename_i same
        rw [same]
        by_cases sameTx : other = tx
        · rw [sameTx, AList.lookup_erase, ← inOrder within key (by rw [isKeyed]; rfl)]
          exact tracks key tx
        · rw [AList.lookup_erase_ne sameTx]
          exact tracks key other
      · exact tracks found other

theorem untrackKeyOpsKv_cons (buffer : TxBuffer (Bytes × Bytes) lastShard) (tx : TxId)
    (op : IndexOp (Bytes × Bytes)) (ops : List (IndexOp (Bytes × Bytes))) :
    buffer.untrackKeyOpsKv tx (op :: ops) =
      (match op.keyed with
      | some (key, _) => buffer.untrackKey tx key
      | none => buffer).untrackKeyOpsKv tx ops := rfl

theorem opsOf_untrackKeyOpsKv (buffer : TxBuffer (Bytes × Bytes) lastShard) (tx other : TxId)
    (ops : List (IndexOp (Bytes × Bytes))) :
    (buffer.untrackKeyOpsKv tx ops).opsOf other = buffer.opsOf other := by
  induction ops generalizing buffer with
  | nil => rfl
  | cons op ops ih =>
    rw [untrackKeyOpsKv_cons, ih]
    cases op.keyed with
    | none => rfl
    | some keyed => exact congrArg (Option.getD · []) (buffer.getOps_untrackKey tx other keyed.1)

theorem trackedBy_untrackKeyOpsKv (buffer : TxBuffer (Bytes × Bytes) lastShard) (tx other : TxId)
    (ops : List (IndexOp (Bytes × Bytes))) (key : Bytes) :
    ((buffer.untrackKeyOpsKv tx ops).trackedBy key).lookup other =
      if other = tx ∧ key ∈ (keyedEntries ops).map Prod.fst then none
      else (buffer.trackedBy key).lookup other := by
  induction ops generalizing buffer with
  | nil => exact (if_neg fun both => not_mem_nil both.2).symm
  | cons op ops ih =>
    rw [untrackKeyOpsKv_cons, ih]
    cases isKeyed : op.keyed with
    | none =>
      have entries : keyedEntries (op :: ops) = keyedEntries ops :=
        filterMap_cons_none isKeyed
      rw [entries]
    | some keyed =>
      have entries : (keyedEntries (op :: ops)).map Prod.fst =
          keyed.1 :: (keyedEntries ops).map Prod.fst := by
        rw [keyedEntries, filterMap_cons_some isKeyed]
        rfl
      rw [entries, trackedBy_untrackKey]
      by_cases isRest : other = tx ∧ key ∈ (keyedEntries ops).map Prod.fst
      · rw [if_pos isRest, if_pos ⟨isRest.1, mem_cons_of_mem _ isRest.2⟩]
      · rw [if_neg isRest]
        by_cases same : key = keyed.1
        · rw [if_pos same]
          by_cases sameTx : other = tx
          · rw [if_pos ⟨sameTx, same ▸ mem_cons_self⟩, sameTx, AList.lookup_erase]
          · rw [if_neg (mt And.left sameTx), AList.lookup_erase_ne sameTx, same]
        · rw [if_neg same, if_neg]
          rintro ⟨sameTx, isKey⟩
          rcases mem_cons.mp isKey with isFirst | isLater
          · exact same isFirst
          · exact isRest ⟨sameTx, isLater⟩

theorem opsOf_discard {Payload : Type} (buffer : TxBuffer Payload lastShard) (tx other : TxId) :
    (buffer.discard tx).opsOf other = if other = tx then [] else buffer.opsOf other := by
  rw [discard, opsOf_releaseFrom]
  by_cases same : other = tx
  · rw [if_pos ⟨same, same ▸ rfl⟩, if_pos same]
  · rw [if_neg (mt And.left same), if_neg same]

theorem Tracks.released (tracks : buffer.Tracks) (tx : TxId)
    (ops : ∀ other, after.opsOf other = if other = tx then [] else buffer.opsOf other)
    (tracked : ∀ key other, (after.trackedBy key).lookup other =
      if other = tx ∧ key ∈ (keyedEntries (buffer.opsOf tx)).map Prod.fst then none
      else (buffer.trackedBy key).lookup other) : after.Tracks := by
  intro key other
  rw [lastStaged, ops, tracked]
  by_cases same : other = tx
  · rw [if_pos same, same]
    split
    · rfl
    · rename_i unkeyed
      rw [tracks key tx]
      exact lastEntry_eq_none.mpr fun isKey => unkeyed ⟨rfl, isKey⟩
  · rw [if_neg same, if_neg (mt And.left same)]
    exact tracks key other

theorem Tracks.drainKv (tracks : buffer.Tracks) (tx : TxId) : (buffer.drainKv tx).2.Tracks := by
  apply tracks.released tx
  · intro other
    exact (opsOf_untrackKeyOpsKv _ tx other _).trans (buffer.opsOf_discard tx other)
  · intro key other
    refine (trackedBy_untrackKeyOpsKv (buffer.discard tx) tx other (buffer.opsOf tx) key).trans ?_
    rw [discard, releaseFrom_keyShards]

theorem Tracks.discardKv (tracks : buffer.Tracks) (tx : TxId) : (buffer.discardKv tx).Tracks := by
  apply tracks.released tx
  · intro other
    rw [TxBuffer.discardKv, opsOf_discard, opsOf_untrackKeyOpsKv]
  · intro key other
    rw [TxBuffer.discardKv, discard, releaseFrom_keyShards]
    exact trackedBy_untrackKeyOpsKv buffer tx other _ key

theorem Tracks.beginAt (tracks : buffer.Tracks) (tx : TxId) (atNanos : Nat) :
    (buffer.beginAt tx atNanos).Tracks := by
  apply tracks.of_same
  · exact fun key => rfl
  · exact fun other => congrArg keyedEntries (buffer.opsOf_beginAt tx other atNanos)

def transactions {Payload : Type} (buffer : TxBuffer Payload lastShard) : List TxId :=
  (finRange (lastShard + 1)).flatMap fun index => (buffer.shards index).ops.keys

def OrphansUnkeyed (buffer : TxBuffer (Bytes × Bytes) lastShard) (call : ReapCall lastShard) :
    Prop :=
  ∀ tx ∈ buffer.transactions, call.contended (buffer.shardIdx tx) = false →
    buffer.IsOrphanAt call.now (buffer.shardIdx tx) tx → keyedEntries (buffer.opsOf tx) = []

instance (call : ReapCall lastShard) : Decidable (buffer.OrphansUnkeyed call) :=
  inferInstanceAs (Decidable (∀ tx ∈ buffer.transactions,
    call.contended (buffer.shardIdx tx) = false →
      ((buffer.shards (buffer.shardIdx tx)).ops.lookup tx).any (buffer.isOrphan call.now) = true →
        keyedEntries (buffer.opsOf tx) = []))

theorem opsOf_released {Payload : Type} {before after : TxBuffer Payload lastShard}
    {gone : Fin (lastShard + 1) → List TxId} (released : Released before after gone) (tx : TxId) :
    after.opsOf tx = if tx ∈ gone (before.shardIdx tx) then [] else before.opsOf tx := by
  have found : (after.shardOf tx).ops.lookup tx =
      if tx ∈ gone (before.shardIdx tx) then none else (before.shardOf tx).ops.lookup tx :=
    released.ops _ tx
  rw [opsOf, getOps, found]
  split <;> rfl

theorem IsOrphanAt.mem_transactions {Payload : Type} {buffer : TxBuffer Payload lastShard}
    {now : Nat} {index : Fin (lastShard + 1)}
    (isOrphan : buffer.IsOrphanAt now index tx) : tx ∈ buffer.transactions := by
  apply mem_flatMap.mpr
  refine ⟨index, mem_finRange index, AList.mem_keys.mp ?_⟩
  exact isOrphan.mem_ops

theorem Tracks.reapOrphans (tracks : buffer.Tracks) {call : ReapCall lastShard}
    (inOrder : buffer.OrphansUnkeyed call) : (buffer.reapOrphansBoundedAt call).2.Tracks := by
  obtain ⟨expired, reaps⟩ := reapOrphans_reaps call buffer
  apply tracks.of_same
  · intro key
    rw [trackedBy, trackedBy, keyShardOf, keyShardOf, keyShardIdx, keyShardIdx, reaps.keyShards,
      reaps.keyHash]
  · intro tx
    rw [opsOf_released reaps.toReleased]
    split
    · rename_i isExpired
      obtain ⟨_, free, isOrphan⟩ := reaps.orphans _ tx isExpired
      exact (inOrder tx isOrphan.mem_transactions free isOrphan).symm
    · rfl

end KeyValue

end TxBuffer

inductive KvCall (lastShard : Nat) where
  | beginAt (tx : TxId) (atNanos : Nat)
  | stageKv (tx : TxId) (op : IndexOp (Bytes × Bytes)) (now : Nat)
  | stageMany (tx : TxId) (ops : List (IndexOp (Bytes × Bytes))) (now : Nat)
  | drainKv (tx : TxId)
  | discardKv (tx : TxId)
  | reapOrphans (call : TxBuffer.ReapCall lastShard)

namespace TxBuffer

variable {lastShard : Nat} {buffer after : TxBuffer (Bytes × Bytes) lastShard}

def performKv (buffer : TxBuffer (Bytes × Bytes) lastShard) :
    KvCall lastShard → TxBuffer (Bytes × Bytes) lastShard
  | .beginAt tx atNanos => buffer.beginAt tx atNanos
  | .stageKv tx op now => (buffer.stageKv tx op now).2
  | .stageMany tx ops now => (buffer.stageMany tx ops now).2
  | .drainKv tx => (buffer.drainKv tx).2
  | .discardKv tx => buffer.discardKv tx
  | .reapOrphans call => (buffer.reapOrphansBoundedAt call).2

def stepKv (buffer : TxBuffer (Bytes × Bytes) lastShard) (call : KvCall lastShard) :
    Option (TxBuffer (Bytes × Bytes) lastShard) :=
  .some (buffer.performKv call)

theorem run_stepKv (buffer : TxBuffer (Bytes × Bytes) lastShard) (calls : List (KvCall lastShard)) :
    run stepKv buffer calls = .some (calls.foldl performKv buffer) := by
  induction calls generalizing buffer with
  | nil => rfl
  | cons call calls ih =>
    exact run_cons_eq_some.mpr ⟨buffer.performKv call, rfl, ih _⟩

/-- No call changes the buffered operations behind the back of the key map. -/
def KeysInOrder (buffer : TxBuffer (Bytes × Bytes) lastShard) : KvCall lastShard → Prop
  | .stageKv tx op _ => buffer.WithinLimits tx [op] ∨ buffer.RefusalUntracked tx op
  | .stageMany tx ops _ => buffer.WithinLimits tx ops → buffer.BatchTracked tx ops
  | .reapOrphans call => buffer.OrphansUnkeyed call
  | .beginAt _ _ | .drainKv _ | .discardKv _ => True

instance : ∀ (buffer : TxBuffer (Bytes × Bytes) lastShard) (call : KvCall lastShard),
    Decidable (buffer.KeysInOrder call)
  | buffer, .stageKv tx op _ =>
    inferInstanceAs (Decidable (buffer.WithinLimits tx [op] ∨ buffer.RefusalUntracked tx op))
  | buffer, .stageMany tx ops _ =>
    inferInstanceAs (Decidable (buffer.WithinLimits tx ops → buffer.BatchTracked tx ops))
  | buffer, .reapOrphans call => inferInstanceAs (Decidable (buffer.OrphansUnkeyed call))
  | _, .beginAt _ _ => .isTrue trivial
  | _, .drainKv _ => .isTrue trivial
  | _, .discardKv _ => .isTrue trivial

theorem Tracks.performKv (tracks : buffer.Tracks) {call : KvCall lastShard}
    (inOrder : buffer.KeysInOrder call) : (buffer.performKv call).Tracks := by
  cases call with
  | beginAt tx atNanos => exact tracks.beginAt tx atNanos
  | stageKv tx op now => exact tracks.stageKv now inOrder.resolve_left
  | stageMany tx ops now => exact tracks.stageMany now inOrder
  | drainKv tx => exact tracks.drainKv tx
  | discardKv tx => exact tracks.discardKv tx
  | reapOrphans call => exact tracks.reapOrphans inOrder

theorem tracks_new (config : TxBufferConfig) (keyHash : Bytes → Nat) :
    (new lastShard config keyHash : TxBuffer (Bytes × Bytes) lastShard).Tracks :=
  fun _ _ => rfl

/-- Along a run in order the status of every key is that of the buffered operations. -/
theorem run_statusRight {config : TxBufferConfig} {keyHash : Bytes → Nat}
    {calls : List (KvCall lastShard)}
    (inOrder : Along stepKv KeysInOrder (new lastShard config keyHash) calls)
    (finished : run stepKv (new lastShard config keyHash) calls = some after) :
    after.StatusRight := by
  apply Tracks.statusRight
  refine run_invariant ?_ (tracks_new config keyHash) inOrder finished
  intro before call next tracks isOrdered taken
  cases some.inj taken
  exact tracks.performKv isOrdered

def twoOpsConfig : TxBufferConfig := ⟨30, 2, 100, 1000⟩

def anyOrder : VisitOrder := ⟨id, fun txs => List.Perm.refl txs⟩

/-- A batch that stages a key again, a refused operation, and an orphan without operations. -/
def orderlyCalls : List (KvCall 0) :=
  [.beginAt 1 0, .stageKv 1 putSeven 1, .stageMany 1 [putSeven] 2, .stageKv 1 putLong 3,
    .stageKv 2 putSeven 20, .beginAt 3 0, .drainKv 1,
    .reapOrphans ⟨.none, 40, fun _ => false, fun _ => anyOrder⟩, .discardKv 2]

theorem run_statusRight_orderly :
    (orderlyCalls.foldl performKv (new 0 twoOpsConfig fun _ => 0)).StatusRight := by
  have inOrder : Along stepKv KeysInOrder (new 0 twoOpsConfig fun _ => 0) orderlyCalls := by
    decide +kernel
  have finished := run_stepKv (new 0 twoOpsConfig fun _ => 0) orderlyCalls
  exact run_statusRight inOrder finished

/-- What `delete_many` stages for a key. -/
def deleteSeven : IndexOp (Bytes × Bytes) := .delete 7 (.some ([7], []))

theorem stageMany_unseen :
    ¬ ∀ after, run stepKv (new 0 twoOpsConfig fun _ => 0) [.stageMany 1 [deleteSeven] 0] =
      .some after → after.StatusRight := by
  intro allRight
  have isRight := (allRight _ (run_stepKv _ _)).isSome [7]
  have isStaged : (([.stageMany 1 [deleteSeven] 0].foldl performKv
      (new 0 twoOpsConfig fun _ => 0)).lastStaged 1 [7]).isSome = true := by decide +kernel
  have isNone : (([.stageMany 1 [deleteSeven] 0].foldl performKv
      (new 0 twoOpsConfig fun _ => 0)).stagedStatus [7]).isSome = false := by decide +kernel
  rw [isRight.mpr ⟨1, isStaged⟩] at isNone
  cases isNone

end TxBuffer

end Contextra.Mvcc
