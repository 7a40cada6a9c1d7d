import Contextra.Erasure.VaultShard

/-!
# The rehash of a shard

The copy that a rehash makes holds the active slots in the order of the old file.  The zeros for
the old file reach its path after the copy did, and the new handle goes on writing to the path
of the copy.
-/

namespace Contextra.Erasure

open Library List Function

namespace DurableVaultShard

open VaultTable

variable {blake3 : Blake3} {hmac : HmacSha256} {shard old new written : DurableVaultShard}
  {files files' : VaultFiles} {key : SlotKey} {index : Nat} {op : VaultOp}

/-- The fields that no call changes. -/
structure SameFile (shard written : DurableVaultShard) : Prop where
  path : written.path = shard.path
  syncPath : written.syncPath = shard.syncPath
  shardNo : written.shardNo = shard.shardNo
  vaultId : written.vaultId = shard.vaultId
  macKey : written.macKey = shard.macKey
  capacity : written.capacity = shard.capacity

theorem SameFile.trans {third : DurableVaultShard} (first : SameFile shard written)
    (second : SameFile written third) : SameFile shard third where
  path := second.path.trans first.path
  syncPath := second.syncPath.trans first.syncPath
  shardNo := second.shardNo.trans first.shardNo
  vaultId := second.vaultId.trans first.vaultId
  macKey := second.macKey.trans first.macKey
  capacity := second.capacity.trans first.capacity

theorem Follows.sameFile {table : VaultTable} (follows : Follows blake3 hmac shard table) :
    SameFile shard (shard.rewritten hmac table) :=
  ⟨rfl, rfl, rfl, follows.vaultId, follows.macKey, follows.capacity⟩

/-- The shard holds these slots and nothing else; of two with one key the first is found. -/
structure Copied (blake3 : Blake3) (hmac : HmacSha256) (shard : DurableVaultShard)
    (slots : List SlotData) (cells : Nat → VaultCell) : Prop extends
    Exact blake3 hmac shard.toVaultTable cells where
  kept : ∀ index, cells index ≠ .deleted
  found : ∀ key, (findFrom cells key (shard.probe blake3 key)).map cells =
    (slots.find? fun slot => slot.key = key).map cellOf
  all : shard.live = slots.length

variable {cells : Nat → VaultCell} {slots : List SlotData}

theorem Copied.tombstones_eq (copied : Copied blake3 hmac shard slots cells) : shard.tombstones = 0 := by
  rw [← copied.deleted]
  apply countP_eq_zero.mpr
  intro index _ isDeleted
  have kept := copied.kept index
  cases isCell : cells index <;> simp_all [Cell.isDeleted]

theorem Copied.put (copied : Copied blake3 hmac shard slots cells) (below : shard.loadExceeded = false)
    (slot : SlotData) :
    ∃ table cells', shard.toVaultTable.put blake3 hmac slot = (table, .ok ()) ∧
      Follows blake3 hmac shard table ∧
      Copied blake3 hmac (shard.rewritten hmac table) (slots ++ [slot]) cells' := by
  obtain ⟨index, -, free, result, after⟩ := copied.toExact.put_eq below slot
  obtain ⟨-, -, -, -, notOccupied⟩ := freeFrom_eq_some free
  have isEmpty : cells index = .empty := by
    cases isCell : cells index with
    | empty => rfl
    | deleted => exact absurd isCell (copied.kept index)
    | occupied key value => exact absurd isCell (notOccupied key value)
  refine ⟨_, _, result, ⟨⟨_, after⟩, rfl, rfl, rfl, Nat.succ_ne_self _⟩, after, ?_, ?_, ?_⟩
  · intro other
    by_cases same : other = index
    · rw [same, update_self]
      exact fun isDeleted => nomatch isDeleted
    · rw [update_of_ne same]
      exact copied.kept other
  · intro key
    have before := copied.found key
    rw [find?_append]
    change (findFrom _ key (shard.probe blake3 key)).map _ = _
    cases isFound : findFrom cells key (shard.probe blake3 key) with
    | some place =>
      obtain ⟨-, value, occupied⟩ := findFrom_eq_some isFound
      have different : place ≠ index := by
        rintro rfl
        exact notOccupied key value occupied
      rw [isFound] at before
      cases first : slots.find? fun slot => slot.key = key with
      | none =>
        rw [first] at before
        cases before
      | some earlier =>
        rw [first] at before
        rw [findFrom_update_of_some isEmpty isFound, Option.map_some,
          update_of_ne different]
        exact before
    | none =>
      rw [isFound] at before
      cases first : slots.find? fun slot => slot.key = key with
      | some earlier =>
        rw [first] at before
        cases before
      | none =>
        rw [cellOf, copied.reachable.find_insert_of_none free _ isFound]
        by_cases same : slot.key = key <;> simp [same, cellOf]
  · rw [length_append, ← copied.all]
    rfl

theorem Copied.putAll {done slots : List SlotData}
    {result : DurableVaultShard × VaultFiles} (copied : Copied blake3 hmac shard done cells)
    (sound : Sound blake3 hmac shard)
    (accepted : DurableVaultShard.putAll blake3 hmac (shard, files) slots = (result, .ok ())) :
    Sound blake3 hmac result.1 ∧ SameFile shard result.1 ∧
      ∃ cells', Copied blake3 hmac result.1 (done ++ slots) cells' := by
  induction slots generalizing shard files done cells with
  | nil =>
    cases accepted
    refine ⟨sound, ⟨rfl, rfl, rfl, rfl, rfl, rfl⟩, cells, ?_⟩
    rwa [append_nil]
  | cons slot slots ih =>
    rw [DurableVaultShard.putAll] at accepted
    by_cases exceeded : shard.loadExceeded = true
    · rw [putSlot, VaultTable.put, if_neg (by simp [copied.healthy]), if_pos exceeded] at accepted
      cases accepted
    · obtain ⟨table, cells', isPut, follows, next⟩ :=
        copied.put (eq_false_of_ne_true exceeded) slot
      rw [putSlot, isPut] at accepted
      obtain ⟨after, sameFile, last⟩ := ih next (sound.rewritten follows) accepted
      refine ⟨after, follows.sameFile.trans sameFile, ?_⟩
      rwa [append_assoc] at last

theorem Copied.putAll_isOk {done slots : List SlotData}
    (copied : Copied blake3 hmac shard done cells) (positive : 0 < shard.capacity)
    (room : 10 * (done.length + slots.length) ≤ 9 * shard.capacity) (files : VaultFiles) :
    ∃ result, DurableVaultShard.putAll blake3 hmac (shard, files) slots = (result, .ok ()) := by
  induction slots generalizing shard files done cells with
  | nil => exact ⟨_, rfl⟩
  | cons slot slots ih =>
    rw [length_cons] at room
    have below : shard.loadExceeded = false := by
      apply decide_eq_false
      rw [copied.all, copied.tombstones_eq]
      omega
    obtain ⟨table, cells', isPut, follows, next⟩ := copied.put below slot
    have sameCapacity := follows.sameFile.capacity
    have nextRoom : 10 * ((done ++ [slot]).length + slots.length) ≤
        9 * (shard.rewritten hmac table).capacity := by
      rw [sameCapacity, length_append, length_singleton]
      omega
    obtain ⟨result, accepted⟩ := ih next (by rwa [sameCapacity]) nextRoom
      ((shard.rewritten hmac table).syncData files)
    refine ⟨result, ?_⟩
    rw [DurableVaultShard.putAll, putSlot, isPut]
    exact accepted

def Wiped (file : VaultFile) : Prop :=
  ∃ length, file.header = replicate length 0


structure Rehashed (blake3 : Blake3) (hmac : HmacSha256) (old new : DurableVaultShard)
    (files : VaultFiles) : Prop where
  sound : Sound blake3 hmac new
  path : new.path = old.path
  syncPath : new.syncPath = old.tempPath
  shardNo : new.shardNo = old.shardNo
  vaultId : new.vaultId = old.vaultId
  macKey : new.macKey = old.macKey
  capacity : new.capacity = 2 ^ trailingZeros old.rehashCapacity
  live : new.live = old.live
  tombstones : new.tombstones = 0
  copied : ∃ slots, old.collectActiveSlots hmac = .ok slots ∧
    ∀ key, new.getSlot blake3 hmac key = .ok (slots.find? fun slot => slot.key = key)
  file : ∃ file, files old.path = some file ∧
    (Wiped file ∨ old.syncPath ≠ old.path ∧ file = new.contents)

theorem length_filterMap_slotOf (cells : Nat → VaultCell) (capacity : Nat) :
    ((List.range capacity).filterMap fun index => slotOf (cells index)).length =
      occupancy cells capacity := by
  rw [length_filterMap_eq_countP]
  refine countP_congr fun index _ => ?_
  cases cells index <;> simp [slotOf, Cell.isOccupied]

theorem slotOf_cellOf {cell : VaultCell} {slot : SlotData} (read : slotOf cell = some slot) :
    slotOf (cellOf slot) = some slot := by
  cases cell with
  | empty => cases read
  | deleted => cases read
  | occupied key value =>
    cases read
    simp [slotOf, cellOf, SlotData.key]

theorem Copied.getSlot_eq (copied : Copied blake3 hmac shard slots cells)
    (readable : ∀ slot ∈ slots, slotOf (cellOf slot) = some slot) (key : SlotKey) :
    shard.getSlot blake3 hmac key = .ok (slots.find? fun slot => slot.key = key) := by
  rw [DurableVaultShard.getSlot_eq copied.toHolds, copied.found]
  cases first : slots.find? fun slot => slot.key = key with
  | none => rfl
  | some slot =>
    rw [Option.map_some, Option.bind_some, readable slot (mem_of_find?_eq_some first)]

theorem trailingZeros_two_pow (exponent : Nat) : trailingZeros (2 ^ exponent) = exponent := by
  have notZero : 2 ^ exponent ≠ 0 := (Nat.two_pow_pos exponent).ne'
  rw [trailingZeros, if_neg notZero, padicValNat.prime_pow]

theorem createFile_of_absent {path : ShardPath} {shardNo : UInt8} {capacity createdSeq : Nat}
    {vaultId : VaultId} {macKey : MacKey} (absent : files path = none) :
    createFile hmac files path shardNo capacity vaultId macKey createdSeq =
      if 58 ≤ trailingZeros capacity then .error .capacity
      else
        let created :=
          emptyShard hmac path shardNo (trailingZeros capacity) vaultId macKey createdSeq
        .ok (created, created.syncData files) := by
  unfold createFile
  by_cases large : 58 ≤ trailingZeros capacity
  · have power := Nat.pow_le_pow_right two_pos large
    rw [if_pos large]
    simp only
    by_cases wide : 64 ≤ trailingZeros capacity
    · rw [if_pos wide]
    · rw [if_neg wide, if_neg (by simp [absent]), if_pos (by omega)]
  · have power := Nat.pow_le_pow_right two_pos (Nat.le_of_lt_succ (Nat.not_le.mp large))
    simp only
    rw [if_neg large, if_neg (by omega), if_neg (by simp [absent]), if_neg (by omega)]

/-- The copy of a rehash, before the first slot. -/
def copyShard (hmac : HmacSha256) (old : DurableVaultShard) : DurableVaultShard :=
  { emptyShard hmac old.tempPath old.shardNo (trailingZeros old.rehashCapacity) old.vaultId
      old.macKey 0 with
    generation := min (old.generation + 1) (2 ^ 64 - 1), rsvCursor := old.rsvCursor }

theorem sound_copyShard (small : trailingZeros old.rehashCapacity < 58) :
    Sound blake3 hmac (copyShard hmac old) :=
  have sound : Sound blake3 hmac (emptyShard hmac old.tempPath old.shardNo
      (trailingZeros old.rehashCapacity) old.vaultId old.macKey 0) := sound_emptyShard small
  ⟨sound.exact, sound.size, sound.small, sound.metablock⟩

theorem copied_copyShard : Copied blake3 hmac (copyShard hmac old) [] fun _ => .empty where
  toExact :=
    have exact : Exact blake3 hmac (emptyShard hmac old.tempPath old.shardNo
      (trailingZeros old.rehashCapacity) old.vaultId old.macKey 0).toVaultTable _ := exact_emptyShard
    exact
  kept := fun _ isDeleted => nomatch isDeleted
  found := by
    intro key
    cases isFound : findFrom (fun _ => (.empty : VaultCell)) key
        ((copyShard hmac old).probe blake3 key) with
    | none => rfl
    | some index =>
      obtain ⟨-, value, occupied⟩ := findFrom_eq_some isFound
      cases occupied
  all := rfl

variable {erasePending : Bool}

theorem rehashDurableShard_eq (blake3 : Blake3) (files : VaultFiles)
    (small : trailingZeros old.rehashCapacity < 58)
    (runs : (old.mayCancel && erasePending) = false) (healthy : old.poisoned = false)
    (collected : old.collectActiveSlots hmac = .ok slots) :
    ∃ started, (∀ path ≠ old.tempPath, started path = files path) ∧
      old.rehashDurableShard blake3 hmac files erasePending =
      match DurableVaultShard.putAll blake3 hmac (copyShard hmac old, started) slots with
      | (written, .error error) => (written.2, .error error)
      | ((copy, files), .ok ()) =>
        let files := Function.update (copy.syncData files) old.path (some copy.contents)
        let files := Function.update files old.tempPath none
        (Function.update files old.syncPath (some old.zeroFile),
          .ok ({ copy with path := old.path }, ⟨old.rehashCapacity, slots.length, true⟩)) := by
  have absent : Function.update files old.tempPath none old.tempPath = none := update_self ..
  refine ⟨(emptyShard hmac old.tempPath old.shardNo (trailingZeros old.rehashCapacity) old.vaultId
    old.macKey 0).syncData (Function.update files old.tempPath none), ?_, ?_⟩
  · intro path other
    exact (update_of_ne other ..).trans (update_of_ne other ..)
  unfold rehashDurableShard
  rw [if_neg (by simp [runs])]
  simp only
  rw [createFile_of_absent absent, if_neg (by omega)]
  simp only [collected, overwriteWithZeros, healthy]
  rfl

theorem conditions_of_ok {result : DurableVaultShard × RehashOutcome}
    (rehashed : old.rehashDurableShard blake3 hmac files erasePending = (files', .ok result)) :
    (old.mayCancel && erasePending) = false ∧ trailingZeros old.rehashCapacity < 58 := by
  have absent : Function.update files old.tempPath none old.tempPath = none := update_self ..
  unfold rehashDurableShard at rehashed
  by_cases stops : (old.mayCancel && erasePending) = true
  · rw [if_pos stops] at rehashed
    cases rehashed
  · refine ⟨eq_false_of_ne_true stops, ?_⟩
    by_contra large
    rw [if_neg stops] at rehashed
    simp only at rehashed
    rw [createFile_of_absent absent, if_pos (Nat.not_lt.mp large)] at rehashed
    cases rehashed

theorem tempPath_ne (ordinary : old.path.isNew = false) : old.path ≠ old.tempPath := by
  intro same
  rw [same] at ordinary
  cases ordinary

theorem rehashed_of_ok {outcome : RehashOutcome}
    (sound : Sound blake3 hmac old) (ordinary : old.path.isNew = false)
    (handle : old.syncPath = old.path ∨ old.syncPath = old.tempPath)
    (rehashed : old.rehashDurableShard blake3 hmac files erasePending =
      (files', .ok (new, outcome))) :
    Rehashed blake3 hmac old new files' := by
  obtain ⟨cells, exact⟩ := sound.exact
  have elsewhere := tempPath_ne ordinary
  obtain ⟨runs, small⟩ := conditions_of_ok rehashed
  have collected := collectActiveSlots_eq exact.toHolds
  obtain ⟨started, -, steps⟩ := rehashDurableShard_eq blake3 files small runs exact.healthy collected
  rw [rehashed] at steps
  split at steps
  · cases steps
  · rename_i copy files'' accepted
    cases steps
    obtain ⟨copySound, sameFile, cells', copied⟩ :=
      copied_copyShard.putAll (sound_copyShard small) accepted
    rw [nil_append] at copied
    have readable : ∀ slot ∈ (List.range old.capacity).filterMap fun index => slotOf (cells index),
        slotOf (cellOf slot) = some slot := by
      intro slot mem
      obtain ⟨index, -, read⟩ := mem_filterMap.mp mem
      exact slotOf_cellOf read
    have moved : Copied blake3 hmac { copy with path := old.path } _ cells' :=
      ⟨copied.toExact, copied.kept, copied.found, copied.all⟩
    refine ⟨⟨copySound.exact, copySound.size, copySound.small, copySound.metablock⟩, rfl,
      sameFile.syncPath, sameFile.shardNo, sameFile.vaultId, sameFile.macKey, sameFile.capacity,
      ?_, copied.tombstones_eq, ⟨_, collected, moved.getSlot_eq readable⟩, ?_⟩
    · rw [← exact.counted, ← length_filterMap_slotOf]
      exact copied.all
    · rcases handle with isPath | isTemp
      · refine ⟨old.zeroFile, ?_, .inl ⟨old.header.length, rfl⟩⟩
        rw [isPath, update_self]
      · refine ⟨_, ?_, .inr ⟨by rw [isTemp]; exact elsewhere.symm, rfl⟩⟩
        rw [isTemp, update_of_ne elsewhere, update_of_ne elsewhere,
          update_self]
        rfl

theorem rehash_isOk (sound : Sound blake3 hmac old)
    (small : old.capLog2 < 57) (runs : (old.mayCancel && erasePending) = false) :
    ∃ files' new outcome,
      old.rehashDurableShard blake3 hmac files erasePending = (files', .ok (new, outcome)) := by
  obtain ⟨cells, exact⟩ := sound.exact
  have power := Nat.pow_le_pow_right two_pos (Nat.le_of_lt small)
  have positive : 0 < 2 ^ old.capLog2 := Nat.two_pow_pos _
  obtain ⟨exponent, isPower, narrow, room⟩ : ∃ exponent, old.rehashCapacity = 2 ^ exponent ∧
      exponent < 58 ∧ 10 * old.live ≤ 9 * 2 ^ exponent := by
    have bound := exact.live_le
    rw [sound.size] at bound
    unfold rehashCapacity
    rw [sound.size]
    split
    · exact ⟨old.capLog2, rfl, by omega, by omega⟩
    · refine ⟨old.capLog2 + 1, ?_, by omega, by rw [Nat.pow_succ]; omega⟩
      rw [Nat.min_eq_left (by omega), Nat.pow_succ]
  have trailing : trailingZeros old.rehashCapacity = exponent := by
    rw [isPower, trailingZeros_two_pow]
  have collected := collectActiveSlots_eq exact.toHolds
  obtain ⟨started, -, steps⟩ := rehashDurableShard_eq blake3 files
    (by rwa [trailing]) runs exact.healthy collected
  have copyCapacity : (copyShard hmac old).capacity = 2 ^ exponent := by
    rw [← trailing]
    rfl
  have enough : 10 * (([] : List SlotData).length + ((List.range old.capacity).filterMap
      fun index => slotOf (cells index)).length) ≤ 9 * (copyShard hmac old).capacity := by
    rw [copyCapacity, length_filterMap_slotOf, exact.counted, length_nil, Nat.zero_add]
    exact room
  have copied : Copied blake3 hmac (copyShard hmac old) [] fun _ => .empty := copied_copyShard
  obtain ⟨result, accepted⟩ := copied.putAll_isOk (by rw [copyCapacity]; exact Nat.two_pow_pos _)
    enough started
  rw [steps, accepted]
  exact ⟨_, _, _, rfl⟩

end DurableVaultShard

end Contextra.Erasure
