import Contextra.Erasure.VaultFile

/-!
# The states of a shard

Every state of a shard is the image of some cells, with the right counts in its metablock, and
the file at its path is zeros or another such image.
-/

namespace Contextra.Erasure

open Library List

variable {blake3 : Blake3} {hmac : HmacSha256}

namespace VaultTable

variable {table : VaultTable} {cells : Nat → VaultCell} {key : SlotKey} {index : Nat}

/-- The table is the image of the cells, tombstones counted. -/
structure Exact (blake3 : Blake3) (hmac : HmacSha256) (table : VaultTable)
    (cells : Nat → VaultCell) : Prop extends Holds blake3 hmac table cells where
  deleted : (List.range table.capacity).countP (fun index => (cells index).isDeleted) =
    table.tombstones

theorem Holds.countP_raw (holds : Holds blake3 hmac table cells) {test : Bytes → Bool}
    (testCell : VaultCell → Bool)
    (same : ∀ slot cell, Shows hmac table slot cell → test slot = testCell cell) :
    table.raw.countP test = (List.range table.capacity).countP fun index => testCell (cells index) := by
  have listed : table.raw = (List.range table.raw.length).map fun index => table.raw.getD index [] := by
    apply ext_getElem
    · simp
    · intro index inside _
      simp [getElem?_eq_getElem inside]
  rw [listed, countP_map, holds.size]
  refine countP_congr fun index mem => ?_
  obtain ⟨slot, found, shows⟩ := holds.slot_of_lt (mem_range.mp mem)
  simp [found, same slot _ shows]

theorem Exact.live_eq (exact : Exact blake3 hmac table cells) :
    table.live = table.raw.countP (fun slot => slot[1]? = some statusActive) := by
  rw [exact.toHolds.countP_raw Cell.isOccupied, ← exact.counted]
  · rfl
  · intro slot cell shows
    cases cell <;> rw [shows]
    · rfl
    · simp only [tombstoneImage_status]
      rfl
    · simp only [encodeSlot_status]
      rfl

theorem Exact.tombstones_eq (exact : Exact blake3 hmac table cells) :
    table.tombstones = table.raw.countP (fun slot => slot[1]? = some statusTombstone) := by
  rw [exact.toHolds.countP_raw Cell.isDeleted, ← exact.deleted]
  intro slot cell shows
  cases cell <;> rw [shows]
  · rfl
  · simp only [tombstoneImage_status]
    rfl
  · simp only [encodeSlot_status]
    rfl

theorem Exact.put_eq (exact : Exact blake3 hmac table cells) (below : table.loadExceeded = false)
    (slot : SlotData) :
    ∃ index < table.capacity, freeFrom cells (table.probe blake3 slot.key) = some index ∧
      table.put blake3 hmac slot =
        (table.filled hmac index slot (cells index).isDeleted, .ok ()) ∧
      Exact blake3 hmac (table.filled hmac index slot (cells index).isDeleted)
        (Function.update cells index (cellOf slot)) := by
  obtain ⟨index, inside, free, result, after⟩ := exact.toHolds.put_eq below slot
  refine ⟨index, inside, free, result, after, ?_⟩
  have change := countP_range_update Cell.isDeleted cells inside (cellOf slot)
  have occupied : (VaultTable.cellOf slot).isDeleted = false := rfl
  rw [exact.deleted, occupied, if_neg Bool.false_ne_true, Nat.add_zero] at change
  exact Nat.eq_sub_of_add_eq change

theorem Exact.buried (exact : Exact blake3 hmac table cells) {value : Payload × Nat}
    (inside : index < table.capacity) (occupied : cells index = .occupied key value) :
    Exact blake3 hmac (table.buried hmac index) (Function.update cells index .deleted) := by
  refine ⟨exact.toHolds.buried inside occupied, ?_⟩
  have change := countP_range_update Cell.isDeleted cells inside .deleted
  rw [exact.deleted, occupied] at change
  simpa [Cell.isDeleted, VaultTable.buried] using change

theorem Exact.live_pos (exact : Exact blake3 hmac table cells) {value : Payload × Nat}
    (inside : index < table.capacity) (occupied : cells index = .occupied key value) :
    0 < table.live := by
  rw [← exact.counted, occupancy, countP_pos_iff]
  exact ⟨index, mem_range.mpr inside, by rw [occupied]; rfl⟩

theorem Exact.live_le (exact : Exact blake3 hmac table cells) : table.live ≤ table.capacity := by
  rw [← exact.counted]
  exact (countP_le_length).trans_eq length_range

theorem Exact.tombstones_le (exact : Exact blake3 hmac table cells) :
    table.tombstones ≤ table.capacity := by
  rw [← exact.deleted]
  exact (countP_le_length).trans_eq length_range

end VaultTable

section Metablock

variable {macKey : MacKey} {vaultId : VaultId} {shardNo : UInt8}
  {capLog2 live tombstones generation scrubCursor : Nat}

theorem encodeMetablock_capLog2 :
    (encodeMetablock hmac macKey vaultId shardNo capLog2 live tombstones generation
      scrubCursor)[17]? = some (UInt8.ofNat capLog2) := by
  have width := vaultId.property
  simp [encodeMetablock, getElem?_append, width]

theorem metaField_toBeBytes {before rest : Bytes} {offset value : Nat}
    (position : before.length = offset) (small : value < 2 ^ 64) :
    metaField (before ++ toBeBytes 8 value ++ rest) offset = value := by
  have width : (toBeBytes 8 value).length = 8 := length_toBeBytes 8 value
  rw [metaField, append_assoc, drop_left' position, take_left' width]
  exact fromBeBytes_toBeBytes small

theorem encodeMetablock_live (small : live < 2 ^ 64) :
    metaField (encodeMetablock hmac macKey vaultId shardNo capLog2 live tombstones generation
      scrubCursor) 18 = live := by
  have position : (vaultId.val ++ [shardNo, UInt8.ofNat capLog2]).length = 18 := by
    rw [length_append, vaultId.property]
    rfl
  simp only [encodeMetablock, append_assoc]
  simpa only [append_assoc] using metaField_toBeBytes position small

theorem encodeMetablock_tombstones (small : tombstones < 2 ^ 64) :
    metaField (encodeMetablock hmac macKey vaultId shardNo capLog2 live tombstones generation
      scrubCursor) 26 = tombstones := by
  have position : (vaultId.val ++ [shardNo, UInt8.ofNat capLog2] ++ toBeBytes 8 live).length =
      26 := by
    rw [length_append, length_append, vaultId.property, length_toBeBytes]
    rfl
  simp only [encodeMetablock, append_assoc]
  simpa only [append_assoc] using metaField_toBeBytes position small

end Metablock

namespace DurableVaultShard

open VaultTable

variable {shard written : DurableVaultShard} {files : VaultFiles} {cells : Nat → VaultCell}
  {key : SlotKey} {index : Nat} {op : VaultOp}

/-- What is read from a cell; six bytes of the generation are kept. -/
def slotOf : VaultCell → Option SlotData
  | .occupied key value => some ⟨key.1, key.2, value.1, value.2 % 256 ^ 6⟩
  | _ => none

theorem findSlotAlong_eq (holds : Holds blake3 hmac shard.toVaultTable cells) {path : List Nat}
    (inside : ∀ index ∈ path, index < shard.capacity) :
    shard.findSlotAlong key path = .ok (findFrom cells key path) := by
  induction path with
  | nil => rfl
  | cons index path ih =>
    have later := ih fun other mem =>
      inside other (mem_cons_of_mem _ mem)
    obtain ⟨slot, found, shows⟩ := holds.slot_of_lt (inside index mem_cons_self)
    rw [findSlotAlong, findFrom, found]
    cases isCell : cells index with
    | empty =>
      rw [isCell] at shows
      have status : slot[1]?.getD statusEmpty = statusEmpty := by rw [shows]; rfl
      simp only [status, if_true]
    | deleted =>
      rw [isCell] at shows
      have status : slot[1]?.getD statusEmpty = statusTombstone := by rw [shows]; rfl
      simp only [status]
      rw [if_neg (by decide), if_pos trivial, later]
    | occupied other value =>
      rw [isCell] at shows
      have status : slot[1]?.getD statusEmpty = statusActive := by rw [shows]; rfl
      have matching : slotMatches key slot = decide (other = key) := by
        rw [shows, slotMatches_encodeSlot]
        rfl
      simp only [status, matching, decide_eq_true_eq]
      rw [if_neg (by decide), if_neg (by decide), if_pos trivial, later]
      split <;> rfl

theorem findSlot_eq (holds : Holds blake3 hmac shard.toVaultTable cells) (key : SlotKey) :
    shard.findSlot blake3 key = .ok (findFrom cells key (shard.probe blake3 key)) := by
  rw [findSlot, if_neg (by simp [holds.healthy])]
  exact findSlotAlong_eq holds fun _ => lt_of_mem_probe

theorem decodeSlot_eq (holds : Holds blake3 hmac shard.toVaultTable cells) {slot : Bytes}
    (found : shard.raw[index]? = some slot) {value : Payload × Nat}
    (occupied : cells index = .occupied key value) :
    decodeSlot hmac shard.macKey shard.vaultId slot = .ok (slotOf (cells index)) := by
  have shows := holds.shows index slot found
  rw [occupied] at shows
  rw [shows, decodeSlot_encodeSlot, occupied]
  rfl

theorem getSlot_eq (holds : Holds blake3 hmac shard.toVaultTable cells) (key : SlotKey) :
    shard.getSlot blake3 hmac key =
      .ok (((findFrom cells key (shard.probe blake3 key)).map cells).bind slotOf) := by
  rw [getSlot, findSlot_eq holds]
  cases found : findFrom cells key (shard.probe blake3 key) with
  | none => rfl
  | some index =>
    obtain ⟨onPath, value, occupied⟩ := findFrom_eq_some found
    obtain ⟨slot, isSlot, -⟩ := holds.slot_of_lt (lt_of_mem_probe onPath)
    simp only [isSlot]
    exact decodeSlot_eq holds isSlot occupied

theorem getSlot_eq_none_iff (holds : Holds blake3 hmac shard.toVaultTable cells) :
    shard.getSlot blake3 hmac key = .ok none ↔
      findFrom cells key (shard.probe blake3 key) = none := by
  rw [getSlot_eq holds]
  cases found : findFrom cells key (shard.probe blake3 key) with
  | none => simp
  | some index =>
    obtain ⟨-, value, occupied⟩ := findFrom_eq_some found
    simp [occupied, slotOf]

theorem collectAlong_eq (holds : Holds blake3 hmac shard.toVaultTable cells) {path : List Nat}
    (inside : ∀ index ∈ path, index < shard.capacity) :
    shard.collectAlong hmac path = .ok (path.filterMap fun index => slotOf (cells index)) := by
  induction path with
  | nil => rfl
  | cons index path ih =>
    have later := ih fun other mem =>
      inside other (mem_cons_of_mem _ mem)
    obtain ⟨slot, found, shows⟩ := holds.slot_of_lt (inside index mem_cons_self)
    rw [collectAlong, found, later]
    simp only
    cases isCell : cells index with
    | empty =>
      rw [isCell] at shows
      rw [if_neg (by rw [shows]; decide), filterMap_cons, isCell]
      rfl
    | deleted =>
      rw [isCell] at shows
      rw [if_neg (by rw [shows, tombstoneImage_status]; decide), filterMap_cons, isCell]
      rfl
    | occupied other value =>
      rw [decodeSlot_eq holds found isCell]
      rw [isCell] at shows
      rw [if_pos (by rw [shows, encodeSlot_status]), filterMap_cons, isCell]
      rfl

theorem collectActiveSlots_eq (holds : Holds blake3 hmac shard.toVaultTable cells) :
    shard.collectActiveSlots hmac =
      .ok ((List.range shard.capacity).filterMap fun index => slotOf (cells index)) := by
  rw [collectActiveSlots, if_neg (by simp [holds.healthy])]
  exact collectAlong_eq holds fun _ => mem_range.mp

structure Sound (blake3 : Blake3) (hmac : HmacSha256) (shard : DurableVaultShard) : Prop where
  exact : ∃ cells, Exact blake3 hmac shard.toVaultTable cells
  size : shard.capacity = 2 ^ shard.capLog2
  small : shard.capLog2 < 58
  metablock : ∃ generation cursor, shard.metablock =
    encodeMetablock hmac shard.macKey shard.vaultId shard.shardNo shard.capLog2 shard.live
      shard.tombstones generation cursor

theorem Sound.counted (sound : Sound blake3 hmac shard) : Counted shard := by
  obtain ⟨cells, exact⟩ := sound.exact
  exact ⟨exact.live_eq, exact.tombstones_eq⟩

section EmptyShard

variable {path : ShardPath} {shardNo : UInt8} {capLog2 createdSeq : Nat} {vaultId : VaultId}
  {macKey : MacKey}

theorem exact_emptyShard :
    Exact blake3 hmac
      (emptyShard hmac path shardNo capLog2 vaultId macKey createdSeq).toVaultTable
      fun _ => .empty := by
  refine ⟨⟨rfl, length_replicate, ?_, fun _ _ => rfl, ?_, ?_⟩, ?_⟩
  · intro index slot found
    exact eq_of_mem_replicate (mem_of_getElem? found)
  · exact fun _ _ _ occupied => nomatch occupied
  · exact countP_eq_zero.mpr fun _ _ => by simp [Cell.isOccupied]
  · exact countP_eq_zero.mpr fun _ _ => by simp [Cell.isDeleted]

theorem sound_emptyShard (small : capLog2 < 58) :
    Sound blake3 hmac (emptyShard hmac path shardNo capLog2 vaultId macKey createdSeq) where
  exact := ⟨_, exact_emptyShard⟩
  size := rfl
  small := small
  metablock := ⟨0, 0, rfl⟩

end EmptyShard

/-- The call is at the load limit, or its key is one that the shard does not have. -/
def Refuses (blake3 : Blake3) (hmac : HmacSha256) (shard : DurableVaultShard) : VaultOp → Prop
  | .put _ => shard.loadExceeded = true
  | .destroy key => shard.getSlot blake3 hmac key = .ok none

/-- A table that a call leaves: one slot more is active, or one less. -/
structure Follows (blake3 : Blake3) (hmac : HmacSha256) (shard : DurableVaultShard)
    (table : VaultTable) : Prop where
  exact : ∃ cells, Exact blake3 hmac table cells
  capacity : table.capacity = shard.capacity
  vaultId : table.vaultId = shard.vaultId
  macKey : table.macKey = shard.macKey
  live : table.live ≠ shard.live

def rewritten (hmac : HmacSha256) (shard : DurableVaultShard) (table : VaultTable) :
    DurableVaultShard :=
  flushMeta hmac { shard with toVaultTable := table }

theorem Sound.rewritten (sound : Sound blake3 hmac shard) {table : VaultTable}
    (follows : Follows blake3 hmac shard table) : Sound blake3 hmac (shard.rewritten hmac table) where
  exact := follows.exact
  size := follows.capacity.trans sound.size
  small := sound.small
  metablock := ⟨_, _, rfl⟩

theorem putSlot_of_below (sound : Sound blake3 hmac shard) (below : shard.loadExceeded = false)
    (slot : SlotData) :
    ∃ table, Follows blake3 hmac shard table ∧
      shard.putSlot blake3 hmac files slot =
        ((shard.rewritten hmac table, (shard.rewritten hmac table).syncData files), .ok ()) := by
  obtain ⟨cells, exact⟩ := sound.exact
  obtain ⟨index, -, -, result, after⟩ := exact.put_eq below slot
  refine ⟨_, ⟨⟨_, after⟩, rfl, rfl, rfl, Nat.succ_ne_self _⟩, ?_⟩
  rw [putSlot, result]
  rfl

theorem destroySlot_of_found (sound : Sound blake3 hmac shard)
    (found : shard.getSlot blake3 hmac key ≠ .ok none) :
    ∃ table, Follows blake3 hmac shard table ∧
      shard.destroySlot blake3 hmac files key =
        ((shard.rewritten hmac table, (shard.rewritten hmac table).syncData files), .ok ()) := by
  obtain ⟨cells, exact⟩ := sound.exact
  rw [Ne, getSlot_eq_none_iff exact.toHolds] at found
  obtain ⟨index, isFound⟩ := Option.ne_none_iff_exists'.mp found
  obtain ⟨onPath, value, occupied⟩ := findFrom_eq_some isFound
  have inside := lt_of_mem_probe onPath
  have positive := exact.live_pos inside occupied
  refine ⟨shard.toVaultTable.buried hmac index,
    ⟨⟨_, exact.buried inside occupied⟩, rfl, rfl, rfl, ?_⟩, ?_⟩
  · simp only [VaultTable.buried]
    omega
  · rw [destroySlot, findSlot_eq exact.toHolds, isFound]
    exact if_pos (exact.toHolds.verifyTombstone_buried inside)

theorem Sound.apply_cases (sound : Sound blake3 hmac shard) (files : VaultFiles) (op : VaultOp) :
    (Refuses blake3 hmac shard op ∧
        ∃ error, apply blake3 hmac (shard, files) op = ((shard, files), .error error)) ∨
      (¬ Refuses blake3 hmac shard op ∧ ∃ table, Follows blake3 hmac shard table ∧
        apply blake3 hmac (shard, files) op =
          ((shard.rewritten hmac table, (shard.rewritten hmac table).syncData files), .ok ())) := by
  cases op with
  | put slot =>
    by_cases exceeded : shard.loadExceeded = true
    · obtain ⟨cells, exact⟩ := sound.exact
      refine .inl ⟨exceeded, .capacity, ?_⟩
      rw [apply, putSlot, VaultTable.put, if_neg (by simp [exact.healthy]), if_pos exceeded]
    · exact .inr ⟨exceeded, putSlot_of_below sound (eq_false_of_ne_true exceeded) slot⟩
  | destroy key =>
    by_cases missing : shard.getSlot blake3 hmac key = .ok none
    · obtain ⟨cells, exact⟩ := sound.exact
      refine .inl ⟨missing, .slotMissing, ?_⟩
      rw [getSlot_eq_none_iff exact.toHolds] at missing
      rw [apply, destroySlot, findSlot_eq exact.toHolds, missing]
    · exact .inr ⟨missing, destroySlot_of_found sound missing⟩

end DurableVaultShard

end Contextra.Erasure
