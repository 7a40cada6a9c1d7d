import Contextra.Erasure.VaultRehash

/-!
# Shards after a rehash

What a rehash keeps over every sequence of later calls.  The answers stay where no slot hides
an earlier one of its key; no call that succeeds reaches the file of the shard.
-/

namespace Contextra.Erasure

open Library List Option Function

namespace DurableVaultShard

open VaultTable

variable {blake3 : Blake3} {hmac : HmacSha256} {shard old new written : DurableVaultShard}
  {files files' : VaultFiles} {state : DurableVaultShard × VaultFiles}

theorem openFile_eq_ok {path : ShardPath} {shardNo : UInt8} {vaultId : VaultId} {macKey : MacKey}
    {reopened : DurableVaultShard}
    (opened : openFile hmac files path shardNo vaultId macKey = .ok reopened) :
    ∃ file, files path = some file ∧ ¬ Wiped file ∧
      reopened = openedShard file path shardNo vaultId macKey := by
  unfold openFile at opened
  cases found : files path with
  | none =>
    rw [found] at opened
    cases opened
  | some file =>
    rw [found] at opened
    refine ⟨file, rfl, ?_, ?_⟩
    · rintro ⟨length, zeros⟩
      have unverified : verifyVaultHeader hmac macKey file.header = false := by
        apply decide_eq_false
        rintro ⟨-, magic, -⟩
        rw [zeros, take_replicate] at magic
        have first : (0 : UInt8) = 0x43 := by
          have inside : (0x43 : UInt8) ∈ replicate (min 8 length) 0 := by
            rw [magic]
            decide
          exact (eq_of_mem_replicate inside).symm
        exact absurd first (by decide)
      simp [unverified] at opened
    · grind

theorem Sound.opened (sound : Sound blake3 hmac written) (path : ShardPath) :
    Sound blake3 hmac
      (openedShard written.contents path written.shardNo written.vaultId written.macKey) := by
  obtain ⟨cells, exact⟩ := sound.exact
  obtain ⟨generation, cursor, metablock⟩ := sound.metablock
  have small := sound.small
  have power := Nat.pow_le_pow_right two_pos (Nat.le_of_lt_succ small)
  have few : written.capacity < 2 ^ 64 := by
    rw [sound.size]
    omega
  have capLog2 : (written.metablock[17]?.getD 0).toNat = written.capLog2 := by
    rw [metablock, encodeMetablock_capLog2, getD_some, UInt8.toNat_ofNat']
    exact Nat.mod_eq_of_lt (by omega)
  have live : metaField written.metablock 18 = written.live := by
    rw [metablock, encodeMetablock_live (exact.live_le.trans_lt few)]
  have tombstones : metaField written.metablock 26 = written.tombstones := by
    rw [metablock, encodeMetablock_tombstones (exact.tombstones_le.trans_lt few)]
  have same : openedShard written.contents path written.shardNo written.vaultId written.macKey =
      { written with
        syncPath := path, path := path, generation := metaField written.metablock 34
        rsvCursor := metaField written.metablock 42 } := by
    have healthy := exact.healthy
    have size := sound.size
    simp only [openedShard, contents, capLog2, live, tombstones, ← size, ← healthy]
  rw [same]
  exact ⟨sound.exact, sound.size, sound.small, sound.metablock⟩

def Wrote (blake3 : Blake3) (hmac : HmacSha256) (shard : DurableVaultShard) (file : VaultFile) :
    Prop :=
  ∃ written, Sound blake3 hmac written ∧ written.contents = file ∧
    written.shardNo = shard.shardNo ∧ written.vaultId = shard.vaultId ∧
    written.macKey = shard.macKey

structure StateSound (blake3 : Blake3) (hmac : HmacSha256)
    (state : DurableVaultShard × VaultFiles) : Prop where
  shard : Sound blake3 hmac state.1
  ordinary : state.1.path.isNew = false
  handle : state.1.syncPath = state.1.path ∨ state.1.syncPath = state.1.tempPath
  file : ∀ file, state.2 state.1.path = some file →
    Wiped file ∨ Wrote blake3 hmac state.1 file

theorem StateSound.apply (sound : StateSound blake3 hmac state) (op : VaultOp) :
    StateSound blake3 hmac (apply blake3 hmac state op).1 := by
  obtain ⟨shard, files⟩ := state
  rcases sound.shard.apply_cases files op with
    ⟨-, error, refused⟩ | ⟨-, table, follows, accepted⟩
  · rwa [refused]
  · rw [accepted]
    have rewritten := sound.shard.rewritten follows
    refine ⟨rewritten, sound.ordinary, sound.handle, ?_⟩
    intro file found
    by_cases toPath : shard.path = shard.syncPath
    · refine .inr ⟨_, rewritten, ?_, rfl, rfl, rfl⟩
      have isWritten : (shard.rewritten hmac table).syncData files shard.path =
          some (shard.rewritten hmac table).contents := by
        rw [toPath]
        exact update_self ..
      exact some.inj (isWritten.symm.trans found)
    · have kept : (shard.rewritten hmac table).syncData files shard.path = files shard.path :=
        update_of_ne toPath ..
      rcases sound.file file (kept.symm.trans found) with wiped | ⟨written, wrote⟩
      · exact .inl wiped
      · refine .inr ⟨written, wrote.1, wrote.2.1, wrote.2.2.1, ?_, ?_⟩
        · exact wrote.2.2.2.1.trans follows.vaultId.symm
        · exact wrote.2.2.2.2.trans follows.macKey.symm

theorem putAll_frame {slots : List SlotData} {path : ShardPath} (other : path ≠ shard.syncPath) :
    (putAll blake3 hmac (shard, files) slots).1.2 path = files path := by
  induction slots generalizing shard files with
  | nil => rfl
  | cons slot slots ih =>
    rw [putAll, putSlot]
    rcases shard.toVaultTable.put blake3 hmac slot with ⟨table, _ | _⟩
    · rfl
    · refine Eq.trans (ih ?_) ?_
      · exact other
      · exact update_of_ne other ..

theorem rehash_error_frame {erasePending : Bool} {error : ErasureError}
    (sound : Sound blake3 hmac old) (ordinary : old.path.isNew = false)
    (failed : old.rehashDurableShard blake3 hmac files erasePending = (files', .error error)) :
    files' old.path = files old.path := by
  have elsewhere := tempPath_ne ordinary
  obtain ⟨cells, exact⟩ := sound.exact
  by_cases stops : (old.mayCancel && erasePending) = true
  · rw [rehashDurableShard, if_pos stops] at failed
    cases failed
    rfl
  · by_cases small : trailingZeros old.rehashCapacity < 58
    · obtain ⟨started, kept, steps⟩ := rehashDurableShard_eq blake3 files small
        (eq_false_of_ne_true stops) exact.healthy (collectActiveSlots_eq exact.toHolds)
      have frame : (putAll blake3 hmac (copyShard hmac old, started)
          ((List.range old.capacity).filterMap fun index => slotOf (cells index))).1.2 old.path =
          started old.path := putAll_frame elsewhere
      rw [failed] at steps
      split at steps
      · rename_i written putError isPut
        rw [isPut] at frame
        cases steps
        exact frame.trans (kept _ elsewhere)
      · cases steps
    · have absent : Function.update files old.tempPath none old.tempPath = none :=
        update_self ..
      rw [rehashDurableShard, if_neg stops] at failed
      simp only at failed
      rw [createFile_of_absent absent, if_pos (Nat.not_lt.mp small)] at failed
      cases failed
      exact update_of_ne elsewhere ..

theorem StateSound.rehash (sound : StateSound blake3 hmac state) (erasePending : Bool) :
    StateSound blake3 hmac (call blake3 hmac state (.rehash erasePending)) := by
  obtain ⟨shard, files⟩ := state
  rw [call]
  cases result : shard.rehashDurableShard blake3 hmac files erasePending with
  | mk files' answer =>
    cases answer with
    | error error =>
      refine ⟨sound.shard, sound.ordinary, sound.handle, fun file found => ?_⟩
      apply sound.file
      rw [← found]
      exact (rehash_error_frame sound.shard sound.ordinary result).symm
    | ok returned =>
      obtain ⟨new, outcome⟩ := returned
      have rehashed := rehashed_of_ok sound.shard sound.ordinary sound.handle result
      have temp : new.tempPath = shard.tempPath := by
        rw [tempPath, tempPath, rehashed.path, rehashed.shardNo]
      refine ⟨rehashed.sound, ?_, ?_, fun file found => ?_⟩
      · simp only [rehashed.path]
        exact sound.ordinary
      · right
        simp only [rehashed.syncPath, temp]
      · obtain ⟨there, isThere, wiped | ⟨-, copied⟩⟩ := rehashed.file
        all_goals
          simp only [rehashed.path, isThere] at found
          obtain rfl := some.inj found
        · exact .inl wiped
        · exact .inr ⟨new, rehashed.sound, copied.symm, rfl, rfl, rfl⟩

theorem StateSound.reopen (sound : StateSound blake3 hmac state) :
    StateSound blake3 hmac (call blake3 hmac state .reopen) := by
  obtain ⟨shard, files⟩ := state
  rw [call]
  cases opened : openFile hmac files shard.path shard.shardNo shard.vaultId shard.macKey with
  | error error => exact sound
  | ok reopened =>
    obtain ⟨file, found, notWiped, rfl⟩ := openFile_eq_ok opened
    rcases sound.file file found with wiped | ⟨written, isSound, rfl, number, id, key⟩
    · exact absurd wiped notWiped
    · have reopenedSound := isSound.opened shard.path
      rw [number, id, key] at reopenedSound
      refine ⟨reopenedSound, sound.ordinary, .inl rfl, fun file' found' => ?_⟩
      obtain rfl := some.inj (found.symm.trans found')
      exact .inr ⟨written, isSound, rfl, number, id, key⟩

theorem StateSound.call (sound : StateSound blake3 hmac state) (shardCall : ShardCall) :
    StateSound blake3 hmac (call blake3 hmac state shardCall) := by
  cases shardCall with
  | op op => exact sound.apply op
  | rehash erasePending => exact sound.rehash erasePending
  | reopen => exact sound.reopen

theorem Reached.sound (reached : Reached blake3 hmac state) : StateSound blake3 hmac state := by
  obtain ⟨files, dir, shardNo, capacity, vaultId, macKey, createdSeq, created, calls, isCreated,
    rfl⟩ := reached
  have start : StateSound blake3 hmac created := by
    have absent : files ⟨dir, shardNo, false⟩ = none := by
      cases found : files ⟨dir, shardNo, false⟩ with
      | none => rfl
      | some file =>
        unfold createFile at isCreated
        simp only [found, isSome_some, if_true] at isCreated
        split at isCreated <;> cases isCreated
    rw [createFile_of_absent absent] at isCreated
    split at isCreated
    · cases isCreated
    · rename_i small
      cases isCreated
      have sound : Sound blake3 hmac (emptyShard hmac ⟨dir, shardNo, false⟩ shardNo
        (trailingZeros capacity) vaultId macKey createdSeq) := sound_emptyShard (Nat.not_le.mp small)
      refine ⟨sound, rfl, .inl rfl, fun file found => .inr ⟨_, sound, ?_, rfl, rfl, rfl⟩⟩
      have isWritten : (emptyShard hmac ⟨dir, shardNo, false⟩ shardNo (trailingZeros capacity)
          vaultId macKey createdSeq).syncData files ⟨dir, shardNo, false⟩ = some _ :=
        update_self ..
      exact some.inj (isWritten.symm.trans found)
  induction calls using reverseRecOn with
  | nil => exact start
  | append_singleton calls last ih =>
    rw [foldl_concat]
    exact ih.call last

theorem applyAll_concat (ops : List VaultOp) (op : VaultOp) :
    applyAll blake3 hmac state (ops ++ [op]) =
      (apply blake3 hmac (applyAll blake3 hmac state ops) op).1 := by
  rw [applyAll, foldl_concat]
  rfl

theorem StateSound.applyAll (sound : StateSound blake3 hmac state) (ops : List VaultOp) :
    StateSound blake3 hmac (applyAll blake3 hmac state ops) := by
  induction ops using reverseRecOn with
  | nil => exact sound
  | append_singleton ops op ih =>
    rw [applyAll_concat]
    exact ih.apply op

theorem applyAll_of_refuses (sound : Sound blake3 hmac shard) {ops : List VaultOp}
    (refused : ∀ op ∈ ops, Refuses blake3 hmac shard op) :
    DurableVaultShard.applyAll blake3 hmac (shard, files) ops = (shard, files) := by
  induction ops with
  | nil => rfl
  | cons op ops ih =>
    rcases sound.apply_cases files op with ⟨-, error, result⟩ | ⟨accepts, -⟩
    · rw [DurableVaultShard.applyAll, foldl_cons, result]
      exact ih fun other mem =>
        refused other (mem_cons_of_mem _ mem)
    · exact absurd (refused op mem_cons_self) accepts

theorem Rehashed.not_visible (rehashed : Rehashed blake3 hmac old new files)
    (ordinary : old.path.isNew = false) {table : VaultTable}
    (follows : Follows blake3 hmac new table) :
    ¬ Visible hmac (new.rewritten hmac table, (new.rewritten hmac table).syncData files) := by
  rintro ⟨reopened, opened, shown⟩
  obtain ⟨file, found, notWiped, rfl⟩ := openFile_eq_ok opened
  obtain ⟨there, isThere, stale⟩ := rehashed.file
  have elsewhere : new.path ≠ new.syncPath := by
    rw [rehashed.path, rehashed.syncPath]
    exact tempPath_ne ordinary
  have kept : (new.rewritten hmac table).syncData files new.path = files new.path :=
    update_of_ne elsewhere ..
  have same : some file = some there := by
    rw [← isThere, ← rehashed.path, ← kept, ← found]
    rfl
  obtain rfl := some.inj same
  rcases stale with wiped | ⟨-, rfl⟩
  · exact notWiped wiped
  · obtain ⟨cells, exact⟩ := follows.exact
    have sameSlots : new.raw = table.raw := shown
    apply follows.live
    rw [exact.live_eq, ← sameSlots, rehashed.sound.counted.1]

theorem Rehashed.refuses_iff (rehashed : Rehashed blake3 hmac old new files)
    (answers : ∀ key, new.getSlot blake3 hmac key = old.getSlot blake3 hmac key) (op : VaultOp) :
    Refuses blake3 hmac new op ↔ RefusedLater blake3 hmac old op := by
  cases op with
  | put slot =>
    have positive : 2 ^ trailingZeros old.rehashCapacity ≠ 0 := (Nat.two_pow_pos _).ne'
    rw [Refuses, RefusedLater, loadExceeded, rehashed.capacity, rehashed.live,
      rehashed.tombstones, decide_eq_true_iff]
    omega
  | destroy key => rw [Refuses, RefusedLater, answers]

theorem Rehashed.answers_iff (rehashed : Rehashed blake3 hmac old new files) :
    (∀ key, new.getSlot blake3 hmac key = old.getSlot blake3 hmac key) ↔
      FindsFirst blake3 hmac old := by
  obtain ⟨slots, collected, copied⟩ := rehashed.copied
  constructor
  · intro answers slots' collected' key
    obtain rfl := Except.ok.inj (collected.symm.trans collected')
    rw [← answers, copied]
  · intro findsFirst key
    rw [copied, findsFirst slots collected]

def constantHash : FixedBytes 32 := ⟨replicate 32 7, length_replicate⟩

/-- A new shard of the default size. -/
def freshShard : DurableVaultShard :=
  emptyShard (fun _ _ => constantHash) ⟨"vault", 0, false⟩ 0 10
    ⟨replicate 16 1, length_replicate⟩ ⟨replicate 32 2, length_replicate⟩ 0

def freshFiles : VaultFiles := freshShard.syncData fun _ => none

theorem reached_freshShard :
    Reached (fun _ => constantHash) (fun _ _ => constantHash) (freshShard, freshFiles) := by
  have exponent : trailingZeros 1024 = 10 := trailingZeros_two_pow 10
  refine ⟨fun _ => none, "vault", 0, 1024, ⟨replicate 16 1, length_replicate⟩,
    ⟨replicate 32 2, length_replicate⟩, 0, (freshShard, freshFiles), [], ?_, rfl⟩
  rw [createFile_of_absent rfl, exponent, if_neg (by decide)]
  rfl

theorem freshShard_rehash :
    ∃ files' new outcome,
      freshShard.rehashDurableShard (fun _ => constantHash) (fun _ _ => constantHash) freshFiles
        false = (files', .ok (new, outcome)) :=
  rehash_isOk reached_freshShard.sound.shard (by decide) (Bool.and_false _)

end DurableVaultShard

end Contextra.Erasure
