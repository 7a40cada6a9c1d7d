import Contextra.Mvcc.TxBuffer

/-!
# The keys of staged operations

What tracking and untracking of a key do to the transactions that have staged each key, and how
`staged_status` picks one of them.
-/

namespace Contextra.Mvcc

open Library List

variable {Payload : Type} {lastShard : Nat} (buffer : TxBuffer Payload lastShard)

theorem erase_insert_same {Key Value : Type} [DecidableEq Key]
    (map : AList fun _ : Key => Value) (key : Key) (value : Value) :
    (map.insert key value).erase key = map.erase key := by
  apply AList.ext
  have entries : ((map.insert key value).erase key).entries =
      List.kerase key (⟨key, value⟩ :: List.kerase key map.entries) := by
    rw [← AList.entries_insert]
    rfl
  have isKey : key = (⟨key, value⟩ : Sigma fun _ : Key => Value).1 := rfl
  exact entries.trans (kerase_cons_eq isKey)

theorem empty_of_entries {Key Value : Type} {map : AList fun _ : Key => Value}
    (isEmpty : map.entries.isEmpty = true) : map = ∅ :=
  AList.ext (List.isEmpty_iff.mp isEmpty)

namespace TxBuffer

theorem keyShards_setKeyShard (key : Bytes) (shard : KeyShard) (index : Fin (lastShard + 1)) :
    (buffer.setKeyShard key shard).keyShards index =
      if index = buffer.keyShardIdx key then shard else buffer.keyShards index :=
  Function.update_apply _ _ _ _

theorem trackedBy_setKeyShard (key other : Bytes) (shard : KeyShard) :
    (buffer.setKeyShard key shard).trackedBy other =
      if buffer.keyShardIdx other = buffer.keyShardIdx key then (shard.staged.lookup other).getD ∅
      else buffer.trackedBy other := by
  have found : (buffer.setKeyShard key shard).keyShardOf other =
      if buffer.keyShardIdx other = buffer.keyShardIdx key then shard
      else buffer.keyShardOf other := buffer.keyShards_setKeyShard key shard _
  rw [trackedBy, found]
  split <;> rfl

theorem trackedBy_trackKeyStage (tx : TxId) (key other : Bytes) (isInsert : Bool) :
    (buffer.trackKeyStage tx key isInsert).trackedBy other =
      if other = key then (buffer.trackedBy key).insert tx isInsert else buffer.trackedBy other := by
  rw [trackKeyStage, trackedBy_setKeyShard]
  by_cases same : other = key
  · rw [same, if_pos rfl, if_pos rfl, AList.lookup_insert]
    rfl
  · rw [if_neg same]
    split
    · rename_i sameShard
      rw [AList.lookup_insert_ne same, keyShardOf, ← sameShard]
      rfl
    · rfl

theorem trackedBy_untrackKey (tx : TxId) (key other : Bytes) :
    (buffer.untrackKey tx key).trackedBy other =
      if other = key then (buffer.trackedBy key).erase tx else buffer.trackedBy other := by
  rw [untrackKey]
  dsimp only
  split
  · rw [trackedBy_setKeyShard]
    by_cases same : other = key
    · rw [same, if_pos rfl, if_pos rfl]
      split
      · rename_i isEmpty
        rw [AList.lookup_erase, empty_of_entries isEmpty]
        rfl
      · rw [AList.lookup_insert]
        rfl
    · rw [if_neg same]
      split
      · rename_i sameShard
        have unchanged : (buffer.keyShardOf key).staged.lookup other =
            (buffer.keyShardOf other).staged.lookup other := by
          rw [keyShardOf, ← sameShard]
          rfl
        split
        · rw [AList.lookup_erase_ne same, unchanged]
          rfl
        · rw [AList.lookup_insert_ne same, unchanged]
          rfl
      · rfl
  · rename_i absent
    by_cases same : other = key
    · have isEmpty : buffer.trackedBy key = ∅ := by
        rw [trackedBy, AList.lookup_eq_none.mpr absent]
        rfl
      rw [if_pos same, same, isEmpty]
      rfl
    · rw [if_neg same]

theorem stagedStatus_congr {first second : TxBuffer Payload lastShard} {key : Bytes}
    (same : first.trackedBy key = second.trackedBy key) :
    first.stagedStatus key = second.stagedStatus key := by
  rw [stagedStatus, stagedStatus, same]

theorem largest_spec (map : TxMap Bool) :
    match largest map with
    | none => map.entries = []
    | some best => best ∈ map.entries ∧ ∀ entry ∈ map.entries, entry.1 ≤ best.1 := by
  rw [largest]
  generalize map.entries = entries
  induction entries using reverseRecOn with
  | nil => rfl
  | append_singleton entries entry ih =>
    rw [foldl_append, foldl_cons, foldl_nil]
    generalize entries.foldl _ none = found at ih
    cases found with
    | none =>
      dsimp only at ih ⊢
      rw [ih, nil_append]
      refine ⟨mem_singleton_self entry, fun other isOther => ?_⟩
      cases mem_singleton.mp isOther
      exact le_rfl
    | some best =>
      dsimp only at ih ⊢
      obtain ⟨isEntry, greatest⟩ := ih
      by_cases exceeds : best.1 < entry.1
      · rw [if_pos exceeds]
        refine ⟨mem_append_right _ (mem_singleton_self entry), ?_⟩
        intro other isOther
        rcases mem_append.mp isOther with before | new
        · exact (greatest other before).trans exceeds.le
        · cases mem_singleton.mp new
          exact le_rfl
      · rw [if_neg exceeds]
        refine ⟨mem_append_left _ isEntry, ?_⟩
        intro other isOther
        rcases mem_append.mp isOther with before | new
        · exact greatest other before
        · cases mem_singleton.mp new
          exact not_lt.mp exceeds

theorem largest_eq_none {map : TxMap Bool} (isNone : largest map = none) (tx : TxId) :
    map.lookup tx = none := by
  have spec := largest_spec map
  rw [isNone] at spec
  have isEmpty : map = ∅ := AList.ext spec
  rw [isEmpty]
  rfl

theorem largest_eq_some {map : TxMap Bool} {best : Sigma fun _ : TxId => Bool}
    (isSome : largest map = some best) :
    map.lookup best.1 = some best.2 ∧ ∀ tx isInsert, map.lookup tx = some isInsert → tx ≤ best.1 := by
  have spec := largest_spec map
  rw [isSome] at spec
  refine ⟨AList.mem_lookup_iff.mpr spec.1, fun tx isInsert found => ?_⟩
  exact spec.2 ⟨tx, isInsert⟩ (AList.mem_lookup_iff.mp found)

end TxBuffer

end Contextra.Mvcc
