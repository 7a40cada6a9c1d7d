import Contextra.Mvcc.SnapshotGuards

/-!
# The checkpoint store

Named checkpoints are records of the storage, under keys that carry the namespace; an index in
memory finds them by name and by sequence number, which is pinned in the storage.  The ids of the
store's own transactions come from a counter whose mark is another record of the same key space.
What a storage operation answers besides the records is an input.
-/

namespace Contextra.Checkpoint

open Contextra.Mvcc (SnapshotRegistry)

/-- `metadata` is a JSON text that no operation looks into. -/
structure CheckpointMeta where
  name : String
  collectionId : String
  seqNo : Nat
  txId : TxId
  metadata : String
  createdAt : Nat
  deriving DecidableEq, Repr

/-- A record is a manifest, which verifies as it was written, or the mark of the counter. -/
inductive StoredValue where
  | manifest (checkpoint : CheckpointMeta)
  | txCounter (highWaterMark : Nat)
  deriving DecidableEq, Repr

/-- The errors of the store; a record that is no manifest does not parse. -/
inductive CheckpointError where
  | failed (error : ContextraError)
  | malformedRecord
  | transaction (message : String)
  | checkpointNotFound
  deriving DecidableEq, Repr

def isWhitespace (character : Char) : Bool :=
  (9 ≤ character.toNat && character.toNat ≤ 13) || (0x2000 ≤ character.toNat &&
    character.toNat ≤ 0x200A) || character.toNat ∈
      [0x20, 0x85, 0xA0, 0x1680, 0x2028, 0x2029, 0x202F, 0x205F, 0x3000]

def validateIdentifier (fieldName value : String) : Except CheckpointError Unit :=
  if value.toList.all isWhitespace then
    .error (.failed (.invalidInput s!"{fieldName} cannot be empty or whitespace-only"))
  else if 256 < value.length then
    .error (.failed (.invalidInput
      s!"{fieldName} exceeds maximum length of 256 characters (got {value.length})"))
  else .ok ()

abbrev Records := AList fun _ : String => StoredValue

def scanKey (nameSpace : String) : String := nameSpace ++ ":checkpoint:"

def recordKey (nameSpace name : String) : String := scanKey nameSpace ++ name

def counterName : String := "__sys_tx_counter__"

def counterKey (nameSpace : String) : String := recordKey nameSpace counterName

def isCounterKey (key : String) : Bool := (":" ++ counterName).toList.isSuffixOf key.toList

/-- The records whose keys start so, in ascending order of their keys. -/
def Records.scanPrefix (records : Records) (start : String) : List (String × StoredValue) :=
  ((records.entries.filter fun entry => start.toList.isPrefixOf entry.1.toList).map
    fun entry => (entry.1, entry.2)).insertionSort fun first second => first.1 ≤ second.1

structure Storage where
  records : Records
  pins : SnapshotRegistry
  lastTxId : TxId

structure CheckpointIndex where
  bySeq : Nat → Option CheckpointMeta
  byName : String → Option Nat

namespace CheckpointIndex

def empty : CheckpointIndex := ⟨fun _ => none, fun _ => none⟩

def insert (index : CheckpointIndex) (checkpoint : CheckpointMeta) : CheckpointIndex :=
  let bySeq :=
    match index.byName checkpoint.name with
    | some oldSeq =>
      if oldSeq ≠ checkpoint.seqNo then Function.update index.bySeq oldSeq none else index.bySeq
    | none => index.bySeq
  ⟨Function.update bySeq checkpoint.seqNo (some checkpoint),
    Function.update index.byName checkpoint.name (some checkpoint.seqNo)⟩

def removeByName (index : CheckpointIndex) (name : String) : CheckpointIndex :=
  match index.byName name with
  | some seqNo =>
    ⟨Function.update index.bySeq seqNo none, Function.update index.byName name none⟩
  | none => index

def removeBySeq (index : CheckpointIndex) (seqNo : Nat) : CheckpointIndex :=
  match index.bySeq seqNo with
  | some checkpoint =>
    ⟨Function.update index.bySeq seqNo none,
      if index.byName checkpoint.name = some seqNo then
        Function.update index.byName checkpoint.name none
      else index.byName⟩
  | none => index

def getByName (index : CheckpointIndex) (name : String) : Option CheckpointMeta :=
  (index.byName name).bind index.bySeq

end CheckpointIndex

structure PinnedSeqNoOrphan where
  seqNo : Nat
  timestampMs : Nat
  deriving DecidableEq, Repr

structure CheckpointStore where
  storage : Storage
  index : CheckpointIndex
  nameSpace : String
  txCounter : Nat
  allocatedHwm : Nat
  orphans : List PinnedSeqNoOrphan
  checkpointCounter : Nat

/-- How persisting the mark of the counter fails: before its commit, or in the flush after it. -/
inductive MarkFault where
  | commit (error : ContextraError)
  | flush (error : ContextraError)
  deriving DecidableEq, Repr

/-- The answers of the storage during one call, and the clock. -/
structure Conditions where
  get : Option ContextraError
  pin : Option ContextraError
  mark : Option MarkFault
  /-- Of the put or the deletion, or of the commit after it. -/
  write : Option ContextraError
  unpin : Option ContextraError
  wallMs : Nat
  deriving DecidableEq, Repr

def Conditions.good : Conditions := ⟨none, none, none, none, none, 0⟩

namespace CheckpointStore

def txBatchSize : Nat := 100

def putRecord (store : CheckpointStore) (key : String) (value : StoredValue) : CheckpointStore :=
  { store with storage := { store.storage with
      records := AList.insert key value store.storage.records } }

def deleteRecord (store : CheckpointStore) (key : String) : CheckpointStore :=
  { store with storage := { store.storage with
      records := AList.erase key store.storage.records } }

def withIndex (store : CheckpointStore) (index : CheckpointIndex) : CheckpointStore :=
  { store with index }

def pinCheckpoint (store : CheckpointStore) (seqNo wallMs : Nat) : CheckpointStore :=
  { store with storage := { store.storage with pins := store.storage.pins.pinAt seqNo wallMs } }

/-- `unpin_checkpoint`; its error is only logged. -/
def unpinCheckpoint (store : CheckpointStore) (seqNo : Nat) (fault : Option ContextraError) :
    CheckpointStore :=
  match fault with
  | some _ => store
  | none =>
    { store with storage := { store.storage with pins := store.storage.pins.unpin seqNo } }

/-- `persist_hwm_internal` under the lock, and the new mark in memory. -/
def persistHwm (store : CheckpointStore) (raw : Nat) (fault : Option MarkFault) :
    Except CheckpointError Unit × CheckpointStore :=
  let newHwm := raw + txBatchSize - 1
  match fault with
  | some (.commit error) => (.error (.failed error), store)
  | some (.flush error) =>
    (.error (.failed error), store.putRecord (counterKey store.nameSpace) (.txCounter newHwm))
  | none =>
    (.ok (), { store.putRecord (counterKey store.nameSpace) (.txCounter newHwm) with
      allocatedHwm := newHwm })

def allocateTx (store : CheckpointStore) (fault : Option MarkFault) :
    Except CheckpointError TxId × CheckpointStore :=
  let raw := store.txCounter
  let store := { store with txCounter := raw + 1 }
  if 1000000 ≤ raw then
    (.error (.failed (.internal "Checkpoint TxId counter overflow")), store)
  else if store.allocatedHwm ≤ raw then
    match store.persistHwm raw fault with
    | (.error error, store) => (.error error, store)
    | (.ok (), store) => (.ok (internalBase + raw), store)
  else (.ok (internalBase + raw), store)

def getCheckpointInternal (store : CheckpointStore) (name : String)
    (fault : Option ContextraError) :
    Except CheckpointError (Option CheckpointMeta) × CheckpointStore :=
  match store.index.getByName name with
  | some checkpoint => (.ok (some checkpoint), store)
  | none =>
    match fault with
    | some error => (.error (.failed error), store)
    | none =>
      match store.storage.records.lookup (recordKey store.nameSpace name) with
      | some (.manifest checkpoint) =>
        (.ok (some checkpoint), store.withIndex (store.index.insert checkpoint))
      | some (.txCounter _) => (.error .malformedRecord, store)
      | none => (.ok none, store)

/-- `CheckpointManifest::new` validates once more, with the result known by then. -/
def saveCheckpointInternal (store : CheckpointStore) (checkpoint : CheckpointMeta)
    (conditions : Conditions) : Except CheckpointError Unit × CheckpointStore :=
  match store.allocateTx conditions.mark with
  | (.error error, store) => (.error error, store)
  | (.ok _, store) =>
    match conditions.write with
    | some error => (.error (.failed error), store)
    | none =>
      let store := store.putRecord (recordKey store.nameSpace checkpoint.name)
        (.manifest checkpoint)
      (.ok (), store.withIndex (store.index.insert checkpoint))

def saveCheckpointWithPinGuard (store : CheckpointStore) (checkpoint : CheckpointMeta)
    (conditions : Conditions) : Except CheckpointError Unit × CheckpointStore :=
  match conditions.pin with
  | some error => (.error (.failed error), store)
  | none =>
    match (store.pinCheckpoint checkpoint.seqNo conditions.wallMs).saveCheckpointInternal
        checkpoint conditions with
    | (.error error, store) =>
      (.error error, store.unpinCheckpoint checkpoint.seqNo conditions.unpin)
    | (.ok (), store) => (.ok (), store)

/-- The previous checkpoint of the name gives its pin back. -/
def releaseOld (store : CheckpointStore) (old : Option CheckpointMeta) (seqNo : Nat)
    (fault : Option ContextraError) : CheckpointStore :=
  match old with
  | some old =>
    if old.seqNo ≠ seqNo then
      let store := store.unpinCheckpoint old.seqNo fault
      store.withIndex (store.index.removeBySeq old.seqNo)
    else store
  | none => store

/-- `fetch_max`, and the larger of the two. -/
def monotonicTimestampMs (store : CheckpointStore) (wallMs : Nat) : Nat × CheckpointStore :=
  let latest := max store.checkpointCounter wallMs
  (latest, { store with checkpointCounter := latest })

structure Creation where
  name : String
  collectionId : String
  seqNo : Nat
  txId : TxId
  metadata : String
  deriving DecidableEq, Repr

def Creation.checkpoint (creation : Creation) (createdAt : Nat) : CheckpointMeta :=
  ⟨creation.name, creation.collectionId, creation.seqNo, creation.txId, creation.metadata,
    createdAt⟩

def Creation.validate (creation : Creation) : Except CheckpointError Unit :=
  match validateIdentifier "Checkpoint name" creation.name with
  | .error error => .error error
  | .ok () => validateIdentifier "Collection ID" creation.collectionId

def createCheckpoint (store : CheckpointStore) (creation : Creation) (conditions : Conditions) :
    Except CheckpointError CheckpointMeta × CheckpointStore :=
  match creation.validate with
  | .error error => (.error error, store)
  | .ok () =>
    let (createdAt, store) := store.monotonicTimestampMs conditions.wallMs
    let checkpoint := creation.checkpoint createdAt
    match store.getCheckpointInternal creation.name conditions.get with
    | (.error error, store) => (.error error, store)
    | (.ok old, store) =>
      match store.saveCheckpointWithPinGuard checkpoint conditions with
      | (.error error, store) => (.error error, store)
      | (.ok (), store) =>
        let store := store.releaseOld old creation.seqNo conditions.unpin
        (.ok checkpoint, store.withIndex (store.index.insert checkpoint))

def registerOrphanSync (store : CheckpointStore) (orphan : PinnedSeqNoOrphan) : CheckpointStore :=
  if store.orphans.any fun known => known.seqNo = orphan.seqNo then store
  else { store with orphans := store.orphans ++ [orphan] }

/-- A creation whose future is dropped while it saves; `written` when the commit had taken effect.
The pin guard registers an orphan. -/
def abandonCreation (store : CheckpointStore) (creation : Creation) (conditions : Conditions)
    (written : Bool) : CheckpointStore :=
  match creation.validate with
  | .error _ => store
  | .ok () =>
    let (createdAt, store) := store.monotonicTimestampMs conditions.wallMs
    match store.getCheckpointInternal creation.name conditions.get with
    | (.error _, store) => store
    | (.ok _, store) =>
      match conditions.pin with
      | some _ => store
      | none =>
        let store := store.pinCheckpoint creation.seqNo conditions.wallMs
        let store := (store.allocateTx conditions.mark).2
        let store := if written then
          store.putRecord (recordKey store.nameSpace creation.name)
            (.manifest (creation.checkpoint createdAt)) else store
        store.registerOrphanSync ⟨creation.seqNo, conditions.wallMs⟩

def dropCheckpoint (store : CheckpointStore) (name : String) (conditions : Conditions) :
    Except CheckpointError Unit × CheckpointStore :=
  match validateIdentifier "Checkpoint name" name with
  | .error error => (.error error, store)
  | .ok () =>
    match store.getCheckpointInternal name conditions.get with
    | (.error error, store) => (.error error, store)
    | (.ok none, store) => (.ok (), store)
    | (.ok (some checkpoint), store) =>
      match store.allocateTx conditions.mark with
      | (.error error, store) => (.error error, store)
      | (.ok _, store) =>
        match conditions.write with
        | some error => (.error (.failed error), store)
        | none =>
          let store := store.deleteRecord (recordKey store.nameSpace name)
          let store := store.unpinCheckpoint checkpoint.seqNo conditions.unpin
          (.ok (), store.withIndex (store.index.removeByName checkpoint.name))

def getCheckpoint (store : CheckpointStore) (name : String) (fault : Option ContextraError) :
    Except CheckpointError (Option CheckpointMeta) × CheckpointStore :=
  match validateIdentifier "Checkpoint name" name with
  | .error error => (.error error, store)
  | .ok () => store.getCheckpointInternal name fault

/-- The manifests of a scan; the first record that does not parse ends it. -/
def manifestsOf : List (String × StoredValue) → Except CheckpointError (List CheckpointMeta)
  | [] => .ok []
  | (key, value) :: entries =>
    if isCounterKey key then manifestsOf entries
    else
      match value with
      | .txCounter _ => .error .malformedRecord
      | .manifest checkpoint =>
        match manifestsOf entries with
        | .error error => .error error
        | .ok checkpoints => .ok (checkpoint :: checkpoints)

def listCheckpoints (store : CheckpointStore) (fault : Option ContextraError) :
    Except CheckpointError (List CheckpointMeta) × CheckpointStore :=
  match fault with
  | some error => (.error (.failed error), store)
  | none =>
    match manifestsOf (store.storage.records.scanPrefix (scanKey store.nameSpace)) with
    | .error error => (.error error, store)
    | .ok checkpoints =>
      (.ok (checkpoints.insertionSort fun first second => first.seqNo ≤ second.seqNo),
        store.withIndex (checkpoints.foldl CheckpointIndex.insert .empty))

/-- `recover_orphaned_pins`; the unpin of a sequence number may fail. -/
def recoverOrphanedPins (store : CheckpointStore) (fails : Nat → Option ContextraError) :
    List Nat × CheckpointStore :=
  store.orphans.foldl (fun (recovered, store) orphan =>
    match fails orphan.seqNo with
    | some _ => (recovered, store)
    | none =>
      let store := store.unpinCheckpoint orphan.seqNo none
      (recovered ++ [orphan.seqNo],
        { store with orphans := store.orphans.filter fun known => known.seqNo ≠ orphan.seqNo }))
    ([], store)

def internalRaw (tx : TxId) : Option Nat :=
  if internalBase ≤ tx then some (tx - internalBase) else none

/-- The largest internal number among the checkpoints' transactions and the storage's last one. -/
def scannedMaxRaw (storage : Storage) (nameSpace : String) : Option Nat :=
  let scanned := (storage.records.scanPrefix (scanKey nameSpace)).filterMap fun entry =>
    match entry.2 with
    | .manifest checkpoint => internalRaw checkpoint.txId
    | .txCounter _ => none
  (scanned ++ (internalRaw storage.lastTxId).toList).max?

/-- The mark in the counter's record, if it is one. -/
def persistedHwm (storage : Storage) (nameSpace : String) : Option Nat :=
  match storage.records.lookup (counterKey nameSpace) with
  | some (.txCounter highWaterMark) => some highWaterMark
  | _ => none

def determineTxCounterBounds (storage : Storage) (nameSpace : String) :
    Except CheckpointError (Nat × Nat) :=
  match persistedHwm storage nameSpace, scannedMaxRaw storage nameSpace with
  | some persisted, some scanned =>
    if persisted < scanned then
      .error (.failed (.internal (s!"TxId collision / regression detected in namespace " ++
        s!"'{nameSpace}': persisted tx_counter HWM ({persisted}) is strictly less than " ++
        s!"highest tx_id found in store ({scanned})")))
    else .ok (persisted + 1, persisted)
  | some persisted, none => .ok (persisted + 1, persisted)
  | none, some scanned => .ok (scanned + 1, scanned)
  | none, none => .ok (0, 0)

def openWithOrphanRegistry (storage : Storage) (nameSpace : String)
    (orphans : List PinnedSeqNoOrphan) : Except CheckpointError CheckpointStore :=
  match determineTxCounterBounds storage nameSpace with
  | .error error => .error error
  | .ok (startRaw, initialHwm) =>
    .ok ⟨storage, .empty, nameSpace, startRaw, initialHwm, orphans, 0⟩

end CheckpointStore

end Contextra.Checkpoint
