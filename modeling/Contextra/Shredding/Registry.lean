import Contextra.Erasure.Types
import Contextra.Library.Tasks

/-!
# The key registry

`KeyRegistry` of `kv_shredding.rs`.  An operation is what a call does between two of its lock
operations, so the lock of the groups is held across several operations only by
`get_or_derive`, and that of the revoked groups only by `revoke_group`.
-/

namespace Contextra.Shredding

open Contextra.Library
open Contextra.Erasure (FixedBytes)

abbrev Key := FixedBytes 32

abbrev Nonce := FixedBytes 12

structure Sealed (Message : Type) where
  key : Key
  nonce : Nonce
  message : Message
  deriving DecidableEq

def Sealed.decrypt {Message : Type} (cipher : Sealed Message) (key : Key) (nonce : Nonce) :
    Option Message :=
  if cipher.key = key ∧ cipher.nonce = nonce then some cipher.message else none

structure EncryptedRecordPayload where
  recordId : Nat
  groupId : Nat
  ciphertext : Sealed Bytes
  nonce : Nonce
  wrappedDek : Sealed Key
  dekNonce : Nonce
  deriving DecidableEq

/-- The wrapped key is gone once it is zeroized. -/
structure RecordDekEntry where
  wrappedDek : Option (Sealed Key)
  dekNonce : Nonce
  revoked : Bool

structure GroupEntry where
  kek : Key
  recordDeks : Nat → Option RecordDekEntry

inductive CryptoError where
  | keyRevoked (message : String)
  | crypto (message : String)
  | encryption (message : String)
  | storage (message : String)
  deriving DecidableEq

inductive Call where
  | encryptRecord (groupId recordId : Nat) (plaintext : Bytes)
  | decryptRecord (payload : EncryptedRecordPayload)
  | revokeGroup (groupId : Nat)
  | revokeRecord (groupId recordId : Nat)
  deriving DecidableEq

inductive CallResult where
  | payload (payload : EncryptedRecordPayload)
  | plaintext (plaintext : Bytes)
  | revoked (done : Bool)
  | failed (error : CryptoError)
  deriving DecidableEq

/-- A call that has returned, and the calls that had returned when it was made. -/
structure Returned where
  call : Call
  result : CallResult
  earlier : List (Call × CallResult)
  deriving DecidableEq

inductive RegistryOp where
  | beginCall
  | logIsRevoked (groupId : Nat)
  | revokedContains (groupId : Nat)
  | findKek (groupId : Nat)
  | lockGroups (thread : Nat)
  | unlockGroups
  | deriveKek (groupId : Nat)
  | fillRandom
  | registerDek (groupId recordId : Nat) (entry : RecordDekEntry)
  | findRecord (groupId recordId : Nat)
  | flagRecord (groupId recordId : Nat)
  | appendLog (groupId : Nat)
  | enterRevoked (thread groupId : Nat)
  | purgeGroup (groupId : Nat)
  | endCall (returned : Returned)

abbrev RegistryOp.Answer : RegistryOp → Type
  | beginCall => List (Call × CallResult)
  | logIsRevoked _ | revokedContains _ | flagRecord _ _ | enterRevoked _ _ => Bool
  | findKek _ => Option Key
  | deriveKek _ => Except CryptoError Key
  | fillRandom => Key × Nonce × Nonce
  | findRecord _ _ => Option (Option Bool)
  | appendLog _ => Except CryptoError Bool
  | _ => Unit

abbrev RegistryProgram (α : Type) := Program RegistryOp RegistryOp.Answer α

def ask (op : RegistryOp) : RegistryProgram op.Answer := Program.invoke op

def isGroupRevoked (groupId : Nat) : RegistryProgram Bool := do
  let logged : Bool ← ask (.logIsRevoked groupId)
  if logged then return true else ask (.revokedContains groupId)

def groupRevokedText (groupId : Nat) : String :=
  s!"Shred group {groupId} has been revoked and cannot be accessed"

variable (thread : Nat)

/-- `get_or_derive` under the lock of the groups. -/
def deriveLocked (groupId : Nat) : RegistryProgram (Except CryptoError Key) := do
  let revoked ← isGroupRevoked groupId
  if revoked then
    ask .unlockGroups
    return .error (.crypto (groupRevokedText groupId))
  else ask (.deriveKek groupId)

def getOrDerive (groupId : Nat) : RegistryProgram (Except CryptoError Key) := do
  let revoked ← isGroupRevoked groupId
  if revoked then return .error (.keyRevoked (groupRevokedText groupId))
  else
    let found : Option Key ← ask (.findKek groupId)
    match found with
    | some kek => return .ok kek
    | none =>
      ask (.lockGroups thread)
      deriveLocked groupId

/-- `revoke_group` after the log. -/
def revokeLogged (groupId : Nat) : RegistryProgram CallResult := do
  let entered : Bool ← ask (.enterRevoked thread groupId)
  if entered then
    ask (.purgeGroup groupId)
    return .revoked true
  else return .revoked false

def revokeGroup (groupId : Nat) : RegistryProgram CallResult := do
  let revoked ← isGroupRevoked groupId
  if revoked then return .revoked false
  else
    let appended : Except CryptoError Bool ← ask (.appendLog groupId)
    match appended with
    | .error error => return .failed error
    | .ok _ => revokeLogged thread groupId

def revokeRecord (groupId recordId : Nat) : RegistryProgram CallResult := do
  let revoked ← isGroupRevoked groupId
  if revoked then return .revoked false
  else
    let flagged : Bool ← ask (.flagRecord groupId recordId)
    return .revoked flagged

/-- `encrypt_record` once it has the key of the group. -/
def sealRecord (groupId recordId : Nat) (plaintext : Bytes) (kek : Key) :
    RegistryProgram CallResult := do
  let (dek, dekNonce, nonce) ← ask .fillRandom
  let wrappedDek : Sealed Key := ⟨kek, dekNonce, dek⟩
  ask (.registerDek groupId recordId ⟨some wrappedDek, dekNonce, false⟩)
  return .payload ⟨recordId, groupId, ⟨dek, nonce, plaintext⟩, nonce, wrappedDek, dekNonce⟩

def encryptRecord (groupId recordId : Nat) (plaintext : Bytes) : RegistryProgram CallResult := do
  let subkey ← getOrDerive thread groupId
  match subkey with
  | .error error => return .failed error
  | .ok kek => sealRecord groupId recordId plaintext kek

/-- `decrypt_record` once it has the key of the group. -/
def EncryptedRecordPayload.open (payload : EncryptedRecordPayload) (kek : Key) : CallResult :=
  match payload.wrappedDek.decrypt kek payload.dekNonce with
  | none => .failed (.crypto "DEK unwrap failed (key revoked?): aead::Error")
  | some dek =>
    match payload.ciphertext.decrypt dek payload.nonce with
    | none => .failed (.crypto "Payload decryption failed: aead::Error")
    | some plaintext => .plaintext plaintext

/-- `decrypt_record` after its look at the record. -/
def openRecord (payload : EncryptedRecordPayload) : RegistryProgram CallResult := do
  let subkey ← getOrDerive thread payload.groupId
  match subkey with
  | .error error => return .failed error
  | .ok kek => return payload.open kek

def decryptRecord (payload : EncryptedRecordPayload) : RegistryProgram CallResult := do
  let (groupId, recordId) := (payload.groupId, payload.recordId)
  let revoked ← isGroupRevoked groupId
  if revoked then return .failed (.keyRevoked s!"Group {groupId} has been revoked/shredded")
  else
    let found : Option (Option Bool) ← ask (.findRecord groupId recordId)
    match found with
    | none => return .failed (.crypto s!"Group {groupId} missing or revoked in KeyRegistry")
    | some (some true) =>
      return .failed
        (.crypto s!"Record {recordId} in group {groupId} has been revoked/shredded")
    | some _ => openRecord thread payload

def answerCall : Call → RegistryProgram CallResult
  | .encryptRecord groupId recordId plaintext => encryptRecord thread groupId recordId plaintext
  | .decryptRecord payload => decryptRecord thread payload
  | .revokeGroup groupId => revokeGroup thread groupId
  | .revokeRecord groupId recordId => revokeRecord groupId recordId

structure ThreadCall where
  thread : Nat
  call : Call
  deriving DecidableEq

def ThreadCall.program (task : ThreadCall) : RegistryProgram Unit := do
  let earlier : List (Call × CallResult) ← ask .beginCall
  let result ← answerCall task.thread task.call
  ask (.endCall ⟨task.call, result, earlier⟩)

/-- The registry with the holders of its two locks, and the calls that have returned. -/
structure KeyRegistry where
  groups : Nat → Option GroupEntry
  groupsWriter : Option Nat
  revokedGroups : List Nat
  revokedWriter : Option Nat
  revocationLog : Option (List Nat)
  returned : List Returned

/-- The random bytes, or a failure of the master key or of the log. -/
inductive RegistryChoice where
  | key (kek : Key)
  | keys (dek : Key) (dekNonce nonce : Nonce)
  | fails

namespace KeyRegistry

/-- `with_revocation_log` on a new registry: what the log holds is revoked. -/
def opened (revocationLog : Option (List Nat)) : KeyRegistry :=
  ⟨fun _ => none, none, revocationLog.getD [], none, revocationLog, []⟩

variable (registry : KeyRegistry)

def logHas (groupId : Nat) : Bool :=
  match registry.revocationLog with
  | some logged => decide (groupId ∈ logged)
  | none => false

def setGroup (groupId : Nat) (entry : Option GroupEntry) : KeyRegistry :=
  { registry with groups := Function.update registry.groups groupId entry }

def findKek (groupId : Nat) : Option Key := (registry.groups groupId).map GroupEntry.kek

def findRecord (groupId recordId : Nat) : Option (Option Bool) :=
  (registry.groups groupId).map fun entry =>
    (entry.recordDeks recordId).map RecordDekEntry.revoked

def setRecord (groupId recordId : Nat) (group : GroupEntry) (entry : RecordDekEntry) :
    KeyRegistry :=
  registry.setGroup groupId
    (some { group with recordDeks := Function.update group.recordDeks recordId (some entry) })

def registerDek (groupId recordId : Nat) (entry : RecordDekEntry) : KeyRegistry :=
  match registry.groups groupId with
  | some group => registry.setRecord groupId recordId group entry
  | none => registry

def flagRecord (groupId recordId : Nat) : Bool × KeyRegistry :=
  match registry.groups groupId with
  | some group =>
    match group.recordDeks recordId with
    | some entry =>
      if entry.revoked then (false, registry)
      else
        (true, registry.setRecord groupId recordId group
          { entry with wrappedDek := none, revoked := true })
    | none => (false, registry)
  | none => (false, registry)

/-- A new key of a group; the lock of the groups is released. -/
def deriveKek (groupId : Nat) (choice : RegistryChoice) :
    Option (Except CryptoError Key × KeyRegistry) :=
  let released := { registry with groupsWriter := none }
  match registry.groups groupId with
  | some group => some (.ok group.kek, released)
  | none =>
    match choice with
    | .key kek => some (.ok kek, released.setGroup groupId (some ⟨kek, fun _ => none⟩))
    | .fails =>
      some (.error (.encryption ("Nonce counter exhausted: maximum encryptions reached for " ++
        "KeyManager instance")), released)
    | .keys _ _ _ => none

def appendLog (groupId : Nat) (choice : RegistryChoice) :
    Except CryptoError Bool × KeyRegistry :=
  match registry.revocationLog with
  | none => (.ok false, registry)
  | some logged =>
    match choice with
    | .fails => (.error (.storage "write_atomic"), registry)
    | _ => (.ok true, { registry with revocationLog := some (groupId :: logged) })

def enterRevoked (thread groupId : Nat) : Bool × KeyRegistry :=
  if groupId ∈ registry.revokedGroups then (false, registry)
  else
    (true, { registry with
      revokedGroups := groupId :: registry.revokedGroups
      revokedWriter := some thread })

/-- An operation that needs a lock waits until nobody holds it. -/
def unlocked {α : Type} (writer : Option Nat) (result : α) : Option α :=
  match writer with
  | none => some result
  | some _ => none

theorem unlocked_eq_some {α : Type} {writer : Option Nat} {result value : α} :
    unlocked writer result = some value ↔ writer = none ∧ result = value := by
  cases writer with
  | none => simp only [unlocked, Option.some.injEq, true_and]
  | some thread => simp only [unlocked, reduceCtorEq, false_and]

def perform : (op : RegistryOp) → RegistryChoice → Option (op.Answer × KeyRegistry)
  | .beginCall, _ =>
    some (registry.returned.map fun returned => (returned.call, returned.result), registry)
  | .logIsRevoked groupId, _ => some (registry.logHas groupId, registry)
  | .revokedContains groupId, _ =>
    unlocked registry.revokedWriter (decide (groupId ∈ registry.revokedGroups), registry)
  | .findKek groupId, _ =>
    unlocked registry.groupsWriter (registry.findKek groupId, registry)
  | .lockGroups thread, _ =>
    unlocked registry.groupsWriter ((), { registry with groupsWriter := some thread })
  | .unlockGroups, _ => some ((), { registry with groupsWriter := none })
  | .deriveKek groupId, choice => registry.deriveKek groupId choice
  | .fillRandom, .keys dek dekNonce nonce => some ((dek, dekNonce, nonce), registry)
  | .fillRandom, _ => none
  | .registerDek groupId recordId entry, _ =>
    unlocked registry.groupsWriter ((), registry.registerDek groupId recordId entry)
  | .findRecord groupId recordId, _ =>
    unlocked registry.groupsWriter (registry.findRecord groupId recordId, registry)
  | .flagRecord groupId recordId, _ =>
    unlocked registry.groupsWriter (registry.flagRecord groupId recordId)
  | .appendLog groupId, choice => some (registry.appendLog groupId choice)
  | .enterRevoked thread groupId, _ =>
    unlocked registry.revokedWriter (registry.enterRevoked thread groupId)
  | .purgeGroup groupId, _ =>
    unlocked registry.groupsWriter
      ((), { registry.setGroup groupId none with revokedWriter := none })
  | .endCall returned, _ =>
    some ((), { registry with returned := registry.returned ++ [returned] })

end KeyRegistry

/-- No crash is among the events below: it would end the registry itself. -/
def registryPlatform : Platform RegistryOp RegistryOp.Answer KeyRegistry RegistryChoice where
  perform := KeyRegistry.perform
  crash := id

abbrev RegistryWorld := World ThreadCall RegistryOp RegistryOp.Answer KeyRegistry

/-- A thread makes a call, or one of the calls goes on. -/
inductive RegistryEvent where
  | make (thread : Nat) (call : Call)
  | goOn (index : Nat) (choice : RegistryChoice)

def RegistryEvent.toTaskEvent : RegistryEvent → TaskEvent ThreadCall RegistryChoice
  | .make thread call => .start ⟨thread, call⟩
  | .goOn index choice => .step index choice

namespace RegistryWorld

def opened (revocationLog : Option (List Nat)) : RegistryWorld :=
  World.initial (.opened revocationLog)

def step (world : RegistryWorld) (event : RegistryEvent) : Option RegistryWorld :=
  World.step registryPlatform ThreadCall.program world event.toTaskEvent

end RegistryWorld

end Contextra.Shredding
