import Contextra.Erasure.VaultMap

/-!
# Shard files of the vault

A durable shard of `durable.rs`.  Its handle holds a copy of the file and writes all of it to
the path that it was opened with; file operations succeed here.  A file is read and written
in blocks of 64 bytes: header, metablock and slots.
-/

namespace Contextra.Erasure

open Library List

/-- `<dir>/<nn>.vlt`, or `<dir>/<nn>.vlt.new`. -/
structure ShardPath where
  dir : String
  shardNo : UInt8
  isNew : Bool
  deriving DecidableEq

structure VaultFile where
  header : Bytes
  metablock : Bytes
  slots : List Bytes
  deriving DecidableEq

abbrev VaultFiles := ShardPath → Option VaultFile

/-- The table is in the blocks of the handle behind the metablock. -/
structure DurableVaultShard extends VaultTable where
  header : Bytes
  metablock : Bytes
  /-- The path that the handle was opened with. -/
  syncPath : ShardPath
  path : ShardPath
  shardNo : UInt8
  capLog2 : Nat
  generation : Nat
  rsvCursor : Nat

/-- `CTXFILE\0` -/
def ctxFileMagic : Bytes := [0x43, 0x54, 0x58, 0x46, 0x49, 0x4c, 0x45, 0x00]

def vaultAlgIds : Bytes := [1, 0, 1, 1]

section Blocks

variable (hmac : HmacSha256) (macKey : MacKey)

def computeHeaderTag (pre : Bytes) : Bytes := (hmac macKey.val pre).val.take 16

def encodeVaultHeader (fileId : VaultId) (createdSeq : Nat) : Bytes :=
  let pre := ctxFileMagic ++ toBeBytes 2 1 ++ [10] ++ vaultAlgIds ++ fileId.val ++
    toBeBytes 8 createdSeq ++ [1] ++ replicate 8 0
  pre ++ computeHeaderTag hmac macKey pre

def verifyVaultHeader (header : Bytes) : Bool :=
  decide (64 ≤ header.length ∧ header.take 8 = ctxFileMagic ∧
    fromBeBytes ((header.drop 8).take 2) = 1 ∧ header[10]? = some 10 ∧
    (header.drop 11).take 4 = vaultAlgIds ∧ header[39]? = some 1 ∧
    ((header.drop 40).take 8).all (· == 0) ∧
    (header.drop 48).take 16 = computeHeaderTag hmac macKey (header.take 48))

def computeMetablockMac (pre : Bytes) : Bytes := (hmac macKey.val pre).val.take 8

def encodeMetablock (vaultId : VaultId) (shardNo : UInt8)
    (capLog2 live tombstones generation scrubCursor : Nat) : Bytes :=
  let pre := vaultId.val ++ [shardNo, UInt8.ofNat capLog2] ++ toBeBytes 8 live ++
    toBeBytes 8 tombstones ++ toBeBytes 8 generation ++ toBeBytes 8 scrubCursor
  pre ++ computeMetablockMac hmac macKey pre ++ replicate 6 0

def metaField (metablock : Bytes) (offset : Nat) : Nat :=
  fromBeBytes ((metablock.drop offset).take 8)

end Blocks

namespace DurableVaultShard

def contents (shard : DurableVaultShard) : VaultFile :=
  ⟨shard.header, shard.metablock, shard.raw⟩

def syncData (shard : DurableVaultShard) (files : VaultFiles) : VaultFiles :=
  Function.update files shard.syncPath (some shard.contents)

section Operations

variable (blake3 : Blake3) (hmac : HmacSha256)

def flushMeta (shard : DurableVaultShard) : DurableVaultShard :=
  { shard with
    metablock := encodeMetablock hmac shard.macKey shard.vaultId shard.shardNo shard.capLog2
      shard.live shard.tombstones shard.generation shard.rsvCursor }

/-- A shard of empty slots, as it is right after its file was made. -/
def emptyShard (path : ShardPath) (shardNo : UInt8) (capLog2 : Nat) (vaultId : VaultId)
    (macKey : MacKey) (createdSeq : Nat) : DurableVaultShard where
  raw := replicate (2 ^ capLog2) emptySlot
  capacity := 2 ^ capLog2
  live := 0
  tombstones := 0
  vaultId := vaultId
  macKey := macKey
  poisoned := false
  header := encodeVaultHeader hmac macKey vaultId createdSeq
  metablock := encodeMetablock hmac macKey vaultId shardNo capLog2 0 0 0 0
  syncPath := path
  path := path
  shardNo := shardNo
  capLog2 := capLog2
  generation := 0
  rsvCursor := 0

/-- `trailing_zeros` of a `usize`. -/
def trailingZeros (capacity : Nat) : Nat := if capacity = 0 then 64 else padicValNat 2 capacity

/-- A new file, of a power of two of empty slots, at a path where there is none. -/
def createFile (files : VaultFiles) (path : ShardPath) (shardNo : UInt8) (capacity : Nat)
    (vaultId : VaultId) (macKey : MacKey) (createdSeq : Nat) :
    Except ErasureError (DurableVaultShard × VaultFiles) :=
  let capLog2 := trailingZeros capacity
  if 64 ≤ capLog2 then .error .capacity
  else if (files path).isSome then .error (.io "File already exists")
  else if 2 ^ 64 ≤ 128 + 2 ^ capLog2 * 64 then .error .capacity
  else
    let shard := emptyShard hmac path shardNo capLog2 vaultId macKey createdSeq
    .ok (shard, shard.syncData files)

/-- Up to 256 slots are decoded; more are not looked at. -/
def samplesDecode (file : VaultFile) (capacity : Nat) (vaultId : VaultId) (macKey : MacKey) : Bool :=
  let samples := min capacity 256
  let step := max (capacity / samples) 1
  (List.range samples).all fun sample =>
    match file.slots[sample * step % capacity]? with
    | none => true
    | some slot => (decodeSlot hmac macKey vaultId slot).toBool

def openedShard (file : VaultFile) (path : ShardPath) (shardNo : UInt8) (vaultId : VaultId)
    (macKey : MacKey) : DurableVaultShard :=
  let capLog2 := (file.metablock[17]?.getD 0).toNat
  { raw := file.slots, capacity := 2 ^ capLog2, live := metaField file.metablock 18
    tombstones := metaField file.metablock 26, vaultId := vaultId, macKey := macKey
    poisoned := false, header := file.header, metablock := file.metablock
    syncPath := path, path := path, shardNo := shardNo, capLog2 := capLog2
    generation := metaField file.metablock 34, rsvCursor := metaField file.metablock 42 }

def openFile (files : VaultFiles) (path : ShardPath) (expectedShardNo : UInt8)
    (expectedVaultId : VaultId) (macKey : MacKey) : Except ErasureError DurableVaultShard :=
  match files path with
  | none => .error (.io "File not found")
  | some file =>
    if ¬ verifyVaultHeader hmac macKey file.header then .error .corrupt
    else if file.metablock.length < 64 then .error .corrupt
    else if (file.metablock.drop 50).take 8 ≠
        computeMetablockMac hmac macKey (file.metablock.take 50) then .error .corrupt
    else if ((file.metablock.drop 58).take 6).any (· != 0) then .error .corrupt
    else if file.metablock.take 16 ≠ expectedVaultId.val then .error .corrupt
    else if file.metablock[16]?.getD 0 ≠ expectedShardNo then .error .corrupt
    else
      let shard := openedShard file path expectedShardNo expectedVaultId macKey
      if 40 < shard.capLog2 then .error .corrupt
      else if ¬ samplesDecode hmac file shard.capacity expectedVaultId macKey then .error .corrupt
      else .ok shard

/-- The loop of `find`; unlike that of a table it refuses a slot of unknown status. -/
def findSlotAlong (shard : DurableVaultShard) (key : SlotKey) :
    List Nat → Except ErasureError (Option Nat)
  | [] => .ok none
  | index :: path =>
    match shard.raw[index]? with
    | none => .error .corrupt
    | some slot =>
      let status := slot[1]?.getD statusEmpty
      if status = statusEmpty then .ok none
      else if status = statusTombstone then findSlotAlong shard key path
      else if status = statusActive then
        if VaultTable.slotMatches key slot then .ok (some index)
        else findSlotAlong shard key path
      else .error .corrupt

def findSlot (shard : DurableVaultShard) (key : SlotKey) : Except ErasureError (Option Nat) :=
  if shard.poisoned then .error VaultTable.poisonError
  else shard.findSlotAlong key (shard.probe blake3 key)

def getSlot (shard : DurableVaultShard) (key : SlotKey) : Except ErasureError (Option SlotData) :=
  match shard.findSlot blake3 key with
  | .error error => .error error
  | .ok none => .ok none
  | .ok (some index) =>
    match shard.raw[index]? with
    | none => .error .corrupt
    | some slot => decodeSlot hmac shard.macKey shard.vaultId slot

/-- `put`: that of the table, and then the metablock and the file. -/
def putSlot (shard : DurableVaultShard) (files : VaultFiles) (slot : SlotData) :
    (DurableVaultShard × VaultFiles) × Except ErasureError Unit :=
  match shard.toVaultTable.put blake3 hmac slot with
  | (table, .error error) => (({ shard with toVaultTable := table }, files), .error error)
  | (table, .ok ()) =>
    let written := flushMeta hmac { shard with toVaultTable := table }
    ((written, written.syncData files), .ok ())

/-- `destroy`: a tombstone, the metablock and the file, and the tombstone read back. -/
def destroySlot (shard : DurableVaultShard) (files : VaultFiles) (key : SlotKey) :
    (DurableVaultShard × VaultFiles) × Except ErasureError Unit :=
  match shard.findSlot blake3 key with
  | .error error => ((shard, files), .error error)
  | .ok none => ((shard, files), .error .slotMissing)
  | .ok (some index) =>
    let written := flushMeta hmac { shard with
      raw := shard.raw.set index (tombstoneImage hmac shard.macKey shard.vaultId)
      live := shard.live - 1
      tombstones := shard.tombstones + 1 }
    if written.verifyTombstone hmac index then ((written, written.syncData files), .ok ())
    else (({ written with poisoned := true }, written.syncData files), .error .corrupt)

def collectAlong (shard : DurableVaultShard) : List Nat → Except ErasureError (List SlotData)
  | [] => .ok []
  | index :: path =>
    match shard.raw[index]? with
    | none => .error .corrupt
    | some slot =>
      if slot[1]? = some statusActive then
        match decodeSlot hmac shard.macKey shard.vaultId slot with
        | .error error => .error error
        | .ok found => (collectAlong shard path).map (found.toList ++ ·)
      else collectAlong shard path

def collectActiveSlots (shard : DurableVaultShard) : Except ErasureError (List SlotData) :=
  if shard.poisoned then .error VaultTable.poisonError
  else shard.collectAlong hmac (List.range shard.capacity)

def zeroFile (shard : DurableVaultShard) : VaultFile where
  header := replicate shard.header.length 0
  metablock := replicate shard.metablock.length 0
  slots := replicate shard.raw.length emptySlot

/-- Every block of the handle, and then the file, is overwritten. -/
def overwriteWithZeros (shard : DurableVaultShard) (files : VaultFiles) :
    Except ErasureError VaultFiles :=
  if shard.poisoned then .error VaultTable.poisonError
  else .ok (Function.update files shard.syncPath (some shard.zeroFile))

structure RehashOutcome where
  newCapacity : Nat
  slotsCopied : Nat
  oldOverwritten : Bool
  deriving DecidableEq

/-- The capacity asked for: the old one where less than 0.30 of it is live, or twice that.  The
quotient by a power of two is exact. -/
def rehashCapacity (shard : DurableVaultShard) : Nat :=
  if 10 * shard.live < 3 * shard.capacity then shard.capacity
  else min (shard.capacity * 2) (2 ^ 64 - 1)

/-- The load factor is at most 0.80, so a waiting `erase` stops the rehash. -/
def mayCancel (shard : DurableVaultShard) : Bool :=
  decide (shard.capacity ≠ 0 ∧ 5 * (shard.live + shard.tombstones) ≤ 4 * shard.capacity)

/-- The copies into the new shard; the first that is refused ends the rehash. -/
def putAll (state : DurableVaultShard × VaultFiles) :
    List SlotData → (DurableVaultShard × VaultFiles) × Except ErasureError Unit
  | [] => (state, .ok ())
  | slot :: slots =>
    match state.1.putSlot blake3 hmac state.2 slot with
    | (written, .error error) => (written, .error error)
    | (written, .ok ()) => putAll written slots

def tempPath (shard : DurableVaultShard) : ShardPath := ⟨shard.path.dir, shard.shardNo, true⟩

/-- `rehash_durable_shard`: the files, and the new shard with the outcome. -/
def rehashDurableShard (old : DurableVaultShard) (files : VaultFiles) (erasePending : Bool) :
    VaultFiles × Except ErasureError (DurableVaultShard × RehashOutcome) :=
  if old.mayCancel && erasePending then (files, .error .refused)
  else
    let files := Function.update files old.tempPath none
    match createFile hmac files old.tempPath old.shardNo old.rehashCapacity old.vaultId
        old.macKey 0 with
    | .error error => (files, .error error)
    | .ok (created, files) =>
      let created :=
        { created with
          generation := min (old.generation + 1) (2 ^ 64 - 1), rsvCursor := old.rsvCursor }
      match old.collectActiveSlots hmac with
      | .error error => (files, .error error)
      | .ok slots =>
        match putAll blake3 hmac (created, files) slots with
        | (written, .error error) => (written.2, .error error)
        | ((new, files), .ok ()) =>
          -- the bytes of the copy go to the path of the shard, and the copy is removed
          let files := Function.update (new.syncData files) old.path (some new.contents)
          let files := Function.update files old.tempPath none
          match old.overwriteWithZeros files with
          | .error error => (files, .error error)
          | .ok files =>
            (files, .ok ({ new with path := old.path },
              ⟨old.rehashCapacity, slots.length, true⟩))

def apply (state : DurableVaultShard × VaultFiles) :
    VaultOp → (DurableVaultShard × VaultFiles) × Except ErasureError Unit
  | .put slot => state.1.putSlot blake3 hmac state.2 slot
  | .destroy key => state.1.destroySlot blake3 hmac state.2 key

def applyAll (state : DurableVaultShard × VaultFiles) (ops : List VaultOp) :
    DurableVaultShard × VaultFiles :=
  ops.foldl (fun state op => (apply blake3 hmac state op).1) state

inductive ShardCall where
  | op (op : VaultOp)
  | rehash (erasePending : Bool)
  | reopen

/-- A shard is replaced by the one that its rehash returns, or that its path holds. -/
def call (state : DurableVaultShard × VaultFiles) : ShardCall → DurableVaultShard × VaultFiles
  | .op op => (apply blake3 hmac state op).1
  | .rehash erasePending =>
    match state.1.rehashDurableShard blake3 hmac state.2 erasePending with
    | (files, .error _) => (state.1, files)
    | (files, .ok (new, _)) => (new, files)
  | .reopen =>
    match openFile hmac state.2 state.1.path state.1.shardNo state.1.vaultId state.1.macKey with
    | .error _ => state
    | .ok reopened => (reopened, state.2)

/-- The states of a shard, from the creation of `<nn>.vlt` on. -/
def Reached (state : DurableVaultShard × VaultFiles) : Prop :=
  ∃ files dir shardNo capacity vaultId macKey createdSeq created, ∃ calls : List ShardCall,
    createFile hmac files ⟨dir, shardNo, false⟩ shardNo capacity vaultId macKey createdSeq =
        .ok created ∧
      calls.foldl (call blake3 hmac) created = state

def Counted (shard : DurableVaultShard) : Prop :=
  shard.live = shard.raw.countP (fun slot => slot[1]? = some statusActive) ∧
    shard.tombstones = shard.raw.countP (fun slot => slot[1]? = some statusTombstone)

def Visible (state : DurableVaultShard × VaultFiles) : Prop :=
  ∃ reopened, openFile hmac state.2 state.1.path state.1.shardNo state.1.vaultId state.1.macKey =
    .ok reopened ∧ reopened.raw = state.1.raw

/-- The new shard answers as the old one; its counts are right, and every call that succeeds
on it is visible at its path. -/
structure RehashKeeps (old new : DurableVaultShard) (files : VaultFiles) (ops : List VaultOp) :
    Prop where
  answers : ∀ key, new.getSlot blake3 hmac key = old.getSlot blake3 hmac key
  counted : ∀ before after, ops = before ++ after →
    Counted (applyAll blake3 hmac (new, files) before).1
  visible : ∀ before op after, ops = before ++ op :: after →
    (apply blake3 hmac (applyAll blake3 hmac (new, files) before) op).2 = .ok () →
      Visible hmac (apply blake3 hmac (applyAll blake3 hmac (new, files) before) op).1

/-- Of the slots of one key the search finds the first of the file, or one that holds the same. -/
def FindsFirst (shard : DurableVaultShard) : Prop :=
  ∀ slots, shard.collectActiveSlots hmac = .ok slots →
    ∀ key, shard.getSlot blake3 hmac key = .ok (slots.find? fun slot => slot.key = key)

/-- The call will be refused after the rehash: the new shard is at its load limit, or the
key is one that the shard does not have. -/
def RefusedLater (shard : DurableVaultShard) : VaultOp → Prop
  | .put _ => 9 * 2 ^ trailingZeros shard.rehashCapacity < 10 * (shard.live + 1)
  | .destroy key => shard.getSlot blake3 hmac key = .ok none

end Operations

end DurableVaultShard

end Contextra.Erasure
