import Contextra.Mvcc.TxBufferAccounting

/-!
# Reaping orphans

The reaper takes transactions that have been registered for too long out of the shards whose
lock it gets, with their read sets.  A read set of a transaction that is not registered stays.
-/

namespace Contextra.Mvcc

open Library List

namespace TxBuffer

variable {Payload : Type} {lastShard : Nat}

theorem releaseFrom_shards (buffer : TxBuffer Payload lastShard) (index : Fin (lastShard + 1))
    (tx : TxId) :
    (buffer.releaseFrom index tx).shards =
        (buffer.setShard index ((buffer.shards index).release tx)).shards ∧
      (buffer.releaseFrom index tx).keyShards = buffer.keyShards ∧
      (buffer.releaseFrom index tx).keyHash = buffer.keyHash ∧
      (buffer.releaseFrom index tx).config = buffer.config := by
  rw [releaseFrom, fetchSub]
  split
  · exact ⟨rfl, rfl, rfl, rfl⟩
  · exact ⟨rfl, rfl, rfl, rfl⟩

/-- Some transactions of each shard are gone, and everything else is as before. -/
structure Released (before after : TxBuffer Payload lastShard)
    (gone : Fin (lastShard + 1) → List TxId) : Prop where
  ops : ∀ index tx, (after.shards index).ops.lookup tx =
    if tx ∈ gone index then none else (before.shards index).ops.lookup tx
  readSets : ∀ index tx, (after.shards index).readSets.lookup tx =
    if tx ∈ gone index then none else (before.shards index).readSets.lookup tx
  keyShards : after.keyShards = before.keyShards
  keyHash : after.keyHash = before.keyHash
  config : after.config = before.config

namespace Released

theorem refl (buffer : TxBuffer Payload lastShard) : Released buffer buffer fun _ => [] where
  ops := fun _ _ => (if_neg not_mem_nil).symm
  readSets := fun _ _ => (if_neg not_mem_nil).symm
  keyShards := rfl
  keyHash := rfl
  config := rfl

theorem trans {before middle after : TxBuffer Payload lastShard}
    {first second : Fin (lastShard + 1) → List TxId} (left : Released before middle first)
    (right : Released middle after second) :
    Released before after fun index => first index ++ second index where
  ops := by
    intro index tx
    rw [right.ops, left.ops]
    by_cases isSecond : tx ∈ second index
    · rw [if_pos isSecond, if_pos (mem_append_right _ isSecond)]
    · rw [if_neg isSecond]
      by_cases isFirst : tx ∈ first index
      · rw [if_pos isFirst, if_pos (mem_append_left _ isFirst)]
      · rw [if_neg isFirst, if_neg fun either => (mem_append.mp either).elim isFirst isSecond]
  readSets := by
    intro index tx
    rw [right.readSets, left.readSets]
    by_cases isSecond : tx ∈ second index
    · rw [if_pos isSecond, if_pos (mem_append_right _ isSecond)]
    · rw [if_neg isSecond]
      by_cases isFirst : tx ∈ first index
      · rw [if_pos isFirst, if_pos (mem_append_left _ isFirst)]
      · rw [if_neg isFirst, if_neg fun either => (mem_append.mp either).elim isFirst isSecond]
  keyShards := right.keyShards.trans left.keyShards
  keyHash := right.keyHash.trans left.keyHash
  config := right.config.trans left.config

theorem releaseFrom (buffer : TxBuffer Payload lastShard) (index : Fin (lastShard + 1))
    (tx : TxId) :
    Released buffer (buffer.releaseFrom index tx) fun other => if other = index then [tx] else [] := by
  obtain ⟨shards, keyShards, keyHash, config⟩ := buffer.releaseFrom_shards index tx
  refine ⟨?_, ?_, keyShards, keyHash, config⟩
  · intro other found
    rw [shards, shards_setShard]
    by_cases same : other = index
    · rw [if_pos same, if_pos same, TxShard.release, same]
      by_cases isTx : found = tx
      · rw [isTx, AList.lookup_erase, if_pos (mem_singleton_self tx)]
      · rw [AList.lookup_erase_ne isTx, if_neg (mt mem_singleton.mp isTx)]
    · rw [if_neg same, if_neg same, if_neg not_mem_nil]
  · intro other found
    rw [shards, shards_setShard]
    by_cases same : other = index
    · rw [if_pos same, if_pos same, TxShard.release, same]
      by_cases isTx : found = tx
      · rw [isTx, AList.lookup_erase, if_pos (mem_singleton_self tx)]
      · rw [AList.lookup_erase_ne isTx, if_neg (mt mem_singleton.mp isTx)]
    · rw [if_neg same, if_neg same, if_neg not_mem_nil]

theorem congr {before after : TxBuffer Payload lastShard}
    {first second : Fin (lastShard + 1) → List TxId} (released : Released before after first)
    (same : ∀ index tx, tx ∈ first index ↔ tx ∈ second index) : Released before after second where
  ops := fun index tx => (released.ops index tx).trans (if_congr (same index tx) rfl rfl)
  readSets := fun index tx => (released.readSets index tx).trans (if_congr (same index tx) rfl rfl)
  keyShards := released.keyShards
  keyHash := released.keyHash
  config := released.config

theorem releaseAll (index : Fin (lastShard + 1)) (expired : List TxId)
    (buffer : TxBuffer Payload lastShard) :
    Released buffer (expired.foldl (fun buffer tx => buffer.releaseFrom index tx) buffer)
      fun other => if other = index then expired else [] := by
  induction expired generalizing buffer with
  | nil =>
    apply (refl buffer).congr
    intro other tx
    split <;> exact Iff.rfl
  | cons tx expired ih =>
    apply ((releaseFrom buffer index tx).trans (ih _)).congr
    intro other found
    by_cases same : other = index
    · rw [if_pos same, if_pos same, if_pos same]
      exact Iff.rfl
    · rw [if_neg same, if_neg same, if_neg same]
      exact Iff.rfl

end Released

def IsOrphanAt (buffer : TxBuffer Payload lastShard) (now : Nat) (index : Fin (lastShard + 1))
    (tx : TxId) : Prop :=
  ((buffer.shards index).ops.lookup tx).any (buffer.isOrphan now) = true

variable {index : Fin (lastShard + 1)} {buffer : TxBuffer Payload lastShard} {tx : TxId}

theorem IsOrphanAt.mem_ops {now : Nat} (isOrphan : buffer.IsOrphanAt now index tx) :
    tx ∈ (buffer.shards index).ops := by
  apply AList.lookup_isSome.mp
  rw [IsOrphanAt] at isOrphan
  cases isEntry : (buffer.shards index).ops.lookup tx with
  | none =>
    rw [isEntry] at isOrphan
    cases isOrphan
  | some entry => rfl

structure Reaps (call : ReapCall lastShard) (indices : List (Fin (lastShard + 1)))
    (before after : TxBuffer Payload lastShard) (expired : Fin (lastShard + 1) → List TxId) : Prop
    extends Released before after expired where
  orphans : ∀ index tx, tx ∈ expired index →
    index ∈ indices ∧ call.contended index = false ∧ before.IsOrphanAt call.now index tx
  complete : call.max = none → ∀ index ∈ indices, call.contended index = false →
    ∀ tx, before.IsOrphanAt call.now index tx → tx ∈ expired index

theorem mem_shardExpired {call : ReapCall lastShard}
    {expired : Nat} (isExpired : tx ∈ buffer.shardExpired call expired index) :
    buffer.IsOrphanAt call.now index tx := by
  rw [shardExpired] at isExpired
  split at isExpired
  · exact (mem_filter.mp (mem_of_mem_take isExpired)).2
  · exact (mem_filter.mp isExpired).2

theorem mem_shardExpired_of_all {call : ReapCall lastShard}
    (all : call.max = none) {expired : Nat} (isOrphan : buffer.IsOrphanAt call.now index tx) :
    tx ∈ buffer.shardExpired call expired index := by
  have isKey : tx ∈ (buffer.shards index).ops.keys := AList.mem_keys.mp isOrphan.mem_ops
  rw [shardExpired, all]
  exact mem_filter.mpr ⟨((call.visit index).perm _).mem_iff.mpr isKey, isOrphan⟩

theorem Released.isOrphanAt {before after : TxBuffer Payload lastShard}
    {gone : Fin (lastShard + 1) → List TxId} (released : Released before after gone) {now : Nat}
    (stays : tx ∉ gone index) :
    after.IsOrphanAt now index tx ↔ before.IsOrphanAt now index tx := by
  have sameTest : after.isOrphan now = before.isOrphan now := by
    funext entry
    rw [isOrphan, isOrphan, released.config]
  rw [IsOrphanAt, IsOrphanAt, released.ops, if_neg stays, sameTest]

theorem reapShard_reaps (call : ReapCall lastShard)
    (reaped : List TxId × TxBuffer Payload lastShard) (index : Fin (lastShard + 1)) :
    ∃ expired, Reaps call [index] reaped.2 (reapShard call reaped index).2 expired := by
  rw [reapShard]
  by_cases contended : call.contended index = true
  · rw [if_pos contended]
    refine ⟨fun _ => [], Released.refl _, fun other tx impossible => ?_, ?_⟩
    · exact absurd impossible not_mem_nil
    · intro _ other isIndex free
      rw [mem_singleton.mp isIndex, contended] at free
      cases free
  · have free := Bool.eq_false_of_not_eq_true contended
    rw [if_neg contended]
    refine ⟨_, Released.releaseAll index _ reaped.2, ?_, ?_⟩
    · intro other tx isExpired
      by_cases same : other = index
      · rw [if_pos same] at isExpired
        rw [same]
        exact ⟨mem_singleton_self index, free, mem_shardExpired isExpired⟩
      · rw [if_neg same] at isExpired
        exact absurd isExpired not_mem_nil
    · intro all other isIndex _ tx isOrphan
      cases mem_singleton.mp isIndex
      rw [if_pos rfl]
      exact mem_shardExpired_of_all all isOrphan

theorem reapAll_reaps (call : ReapCall lastShard) {indices : List (Fin (lastShard + 1))}
    (nodup : indices.Nodup) (reaped : List TxId × TxBuffer Payload lastShard) :
    ∃ expired, Reaps call indices reaped.2 (indices.foldl (reapShard call) reaped).2 expired := by
  induction indices generalizing reaped with
  | nil =>
    refine ⟨fun _ => [], Released.refl _, fun index tx impossible => ?_, fun _ index impossible => ?_⟩
    · exact absurd impossible not_mem_nil
    · exact absurd impossible not_mem_nil
  | cons index indices ih =>
    obtain ⟨isNew, nodupRest⟩ := nodup_cons.mp nodup
    obtain ⟨first, reapsFirst⟩ := reapShard_reaps call reaped index
    obtain ⟨rest, reapsRest⟩ := ih nodupRest (reapShard call reaped index)
    have firstOnly {other : Fin (lastShard + 1)} (isRest : other ∈ indices) (tx : TxId) :
        tx ∉ first other := by
      intro isFirst
      have isIndex := mem_singleton.mp (reapsFirst.orphans other tx isFirst).1
      exact isNew (isIndex ▸ isRest)
    refine ⟨_, reapsFirst.toReleased.trans reapsRest.toReleased, ?_, ?_⟩
    · intro other tx isExpired
      rcases mem_append.mp isExpired with isFirst | isRest
      · obtain ⟨isIndex, free, isOrphan⟩ := reapsFirst.orphans other tx isFirst
        cases mem_singleton.mp isIndex
        exact ⟨mem_cons_self, free, isOrphan⟩
      · obtain ⟨isIndex, free, isOrphan⟩ := reapsRest.orphans other tx isRest
        refine ⟨mem_cons_of_mem _ isIndex, free, ?_⟩
        exact (reapsFirst.toReleased.isOrphanAt (firstOnly isIndex tx)).mp isOrphan
    · intro all other isIndex free tx isOrphan
      rcases mem_cons.mp isIndex with rfl | isRest
      · exact mem_append_left _
          (reapsFirst.complete all other (mem_singleton_self other) free tx isOrphan)
      · apply mem_append_right
        apply reapsRest.complete all other isRest free tx
        exact (reapsFirst.toReleased.isOrphanAt (firstOnly isRest tx)).mpr isOrphan

theorem reapOrphans_reaps (call : ReapCall lastShard) (buffer : TxBuffer Payload lastShard) :
    ∃ expired, Reaps call (finRange (lastShard + 1)) buffer
      (buffer.reapOrphansBoundedAt call).2 expired :=
  reapAll_reaps call (nodup_finRange _) ([], buffer)

end TxBuffer

end Contextra.Mvcc
