import Contextra.Erasure.SagaMachine
import Contextra.Library.Tasks

/-!
# The erasure saga

The erasure core of `core.rs`, for one erasure id: the erase flow, the purge window and the
recovery, as programs over the journal, the gate, the vault and the layers, whose answers the
environment chooses.  The two barriers only keep some interleavings out and are left out.
-/

namespace Contextra.Erasure

open Contextra.Library

structure Layer where
  handle : Nat
  id : LayerId
  deriving DecidableEq

structure LayerScope where
  scopeId : FixedBytes 16
  affectedUnits : List Nat
  deriving DecidableEq

abbrev LayerScopes := List (LayerId × LayerScope)

abbrev LayerWitness := Bytes

structure ErasureConfig where
  eraseSla : Nat
  minFreeBytes : Nat

structure ErasureCore where
  cfg : ErasureConfig
  layers : List Layer
  layerPriorities : LayerId → Option Nat
  erasureId : ErasureId
  /-- `derive_open_key` under the index key of the configuration. -/
  deriveOpenKey : Bytes → UInt8 → Bytes

structure EraseExecutionRequest where
  target : EraseTarget
  mode : EraseMode
  attestation : RetentionAttestation
  timing : Timing

structure ActiveEntry where
  saga : EraseSaga
  target : EraseTarget
  attestation : RetentionAttestation
  scopes : LayerScopes
  gatedSeq : Nat

structure EraseReceipt where
  status : ErasureStatus
  gatedAt : Nat

inductive ObservedPhase where
  | gated
  | restricted
  | completed
  deriving DecidableEq

inductive SagaOp where
  | containsOpenKey (key : Bytes)
  | insertOpenKey (key : Bytes)
  | removeOpenKey (key : Bytes)
  | readActive
  | insertActive (entry : ActiveEntry)
  | nowMillis
  | appendIntent (target : EraseTarget) (attestation : RetentionAttestation)
  | appendState (state : SagaState) (reason : Option PendingReason)
  | recoverOpenSagas
  | addGate (target : EraseTarget)
  | compactGate
  | destroyHighestKey (target : EraseTarget)
  | verifyKeyAbsent (target : EraseTarget)
  | resolve (layer : Layer) (target : EraseTarget)
  | onGate (layer : Layer) (scope : LayerScope)
  | purge (layer : Layer) (scope : LayerScope) (sla : Nat)
  | revokeCovering (target : EraseTarget) (gatedSeq : Nat)
  | witnessLayer (layer : LayerId) (target : EraseTarget)
  | signReport (target : EraseTarget) (attestation : RetentionAttestation)
      (witnesses : List LayerWitness)
  | recordCompleted (target : EraseTarget) (gatedSeq completedAt : Nat)
  | notifyObserver (target : EraseTarget) (phase : ObservedPhase)

namespace SagaOp

abbrev Result : SagaOp → Type
  | containsOpenKey _ => Bool
  | readActive => Option ActiveEntry
  | nowMillis => Nat
  | recoverOpenSagas => List EraseSaga
  | addGate _ => Nat
  | verifyKeyAbsent _ => Bool
  | resolve _ _ => LayerScope
  | revokeCovering _ _ => Nat
  | witnessLayer _ _ => LayerWitness
  | signReport _ _ _ => Bytes
  | _ => Unit

abbrev Answer (op : SagaOp) : Type := Except ErasureError op.Result

end SagaOp

/-- An asynchronous function of the core, which stops at its first error. -/
abbrev SagaProgram (α : Type) := Program SagaOp SagaOp.Answer α
abbrev SagaM := ExceptT ErasureError (Program SagaOp SagaOp.Answer)

/-- A call, with its error passed on. -/
def ask (op : SagaOp) : SagaM op.Result := ExceptT.mk (.invoke op)

def always {α : Type} (program : SagaProgram α) : SagaM α := ExceptT.lift program

def orFail {α : Type} (result : Except ErasureError α) : SagaM α := ExceptT.mk (.done result)

inductive RetentionDecision where
  | proceedErase
  | proceedRestrict
  | refuse (reason : RefusalReason)
  deriving DecidableEq

def evaluateRetention (mode : EraseMode) (attestation : RetentionAttestation) : RetentionDecision :=
  match attestation.code with
  | .noObligation | .obligationExpired | .operatorOverride =>
    match mode with
    | .erase => .proceedErase
    | .restrict => .proceedRestrict
  | .obligationActive | .legalClaimsPending =>
    match mode with
    | .erase => .refuse .retentionObligation
    | .restrict => .proceedRestrict
  | .dataSubjectRequestedRestriction =>
    match mode with
    | .erase => .refuse .invalidParameters
    | .restrict => .proceedRestrict

def canonicalTargetBytes : EraseTarget → Bytes
  | .exactKeys keys => keys.flatten
  | .keyRange start finish => start ++ finish

def statusOf (saga : EraseSaga) : ErasureStatus :=
  match saga.state with
  | .requested => .requested
  | .gated => .gated
  | .keyDestroyed => .keyDestroyed
  | .purging => .purging
  | .verifying => .verifying
  | .completed => .completed
  | .restricted => .restricted
  | .lifted => .lifted
  | .pending => .pending .purge (saga.pendingReason.getD .io)
  | .refused => .refused .retentionObligation

def checkDiskReserve (available required : Nat) : Bool := decide (required ≤ available)

def scopeOf (scopes : LayerScopes) (layer : Layer) : Option LayerScope :=
  (scopes.find? fun entry => entry.1 = layer.id).map Prod.snd

/-- Every way to give up for now: the saga is made pending, in the journal and in memory. -/
def becomePending (entry : ActiveEntry) (phase : Phase) (reason : PendingReason) :
    SagaM ErasureStatus := do
  let saga ← orFail (entry.saga.transitionWithReason .pending (some reason))
  ask (.appendState .pending (some reason))
  ask (.insertActive { entry with saga := saga })
  return .pending phase reason

/-- `transition_to`, and the record of it. -/
def record (saga : EraseSaga) (next : SagaState) : SagaM EraseSaga := do
  let saga ← orFail (saga.transitionTo next)
  ask (.appendState next none)
  return saga

def resolveLayers (target : EraseTarget) (scopes : LayerScopes) :
    List Layer → SagaProgram (LayerScopes × Option Layer)
  | [] => .done (scopes, none)
  | layer :: layers =>
    .call (.resolve layer target) fun answer =>
      match answer with
      | .ok scope => resolveLayers target (scopes ++ [(layer.id, scope)]) layers
      | .error _ => .done (scopes, some layer)

def callLayers (call : Layer → LayerScope → SagaOp) (scopes : LayerScopes) :
    List Layer → SagaProgram (Option Layer)
  | [] => .done none
  | layer :: layers =>
    match scopeOf scopes layer with
    | none => callLayers call scopes layers
    | some scope =>
      .call (call layer scope) fun answer =>
        match answer with
        | .ok _ => callLayers call scopes layers
        | .error _ => .done (some layer)

/-- The witnesses of all layers, or `none` where one is missing. -/
def witnessLayers (target : EraseTarget) (witnesses : List LayerWitness) :
    List Layer → SagaM (Option (List LayerWitness))
  | [] => return some witnesses
  | layer :: layers =>
    ExceptT.mk <| .call (.witnessLayer layer.id target) fun answer =>
      match answer with
      | .ok witness => (witnessLayers target (witnesses ++ [witness]) layers).run
      | .error (.residue _) => .done (.ok none)
      | .error .corrupt => .done (.ok none)
      | .error error => .done (.error error)

namespace ErasureCore

variable (core : ErasureCore)

/-- The layers by priority; a layer without one comes with the clean-up of slots. -/
def sortedLayers : List Layer :=
  core.layers.insertionSort fun left right =>
    (core.layerPriorities left.id).getD 5 ≤ (core.layerPriorities right.id).getD 5

/-- The end of `execute_purge_and_verify`: report, ledger and record. -/
def complete (entry : ActiveEntry) (openKey : Bytes) (witnesses : List LayerWitness) :
    SagaM ErasureStatus := do
  let _ ← ask (.signReport entry.target entry.attestation witnesses)
  let completedAt ← ask .nowMillis
  ask (.recordCompleted entry.target entry.gatedSeq completedAt)
  let saga ← record entry.saga .completed
  ask .compactGate
  ask (.notifyObserver entry.target .completed)
  ask (.insertActive { entry with saga := saga })
  ask (.removeOpenKey openKey)
  return .completed

/-- The verification in `execute_purge_and_verify`, after the purge of the layers. -/
def verify (entry : ActiveEntry) (openKey : Bytes) : SagaM ErasureStatus := do
  let saga ← record entry.saga .verifying
  match ← witnessLayers entry.target [] core.layers with
  | none => becomePending { entry with saga := saga } .verify .witnessMissing
  | some witnesses => complete { entry with saga := saga } openKey witnesses

/-- `execute_purge_and_verify`, from the check of the disk reserve on. -/
def purgeAndVerify (entry : ActiveEntry) (openKey : Bytes) : SagaM ErasureStatus := do
  if ¬ checkDiskReserve core.cfg.minFreeBytes 0 then
    becomePending entry .purge .diskReserve
  else
    let saga ← record entry.saga .purging
    let _ ← ask (.revokeCovering entry.target entry.gatedSeq)
    let failed ← always (callLayers (fun layer scope => .purge layer scope core.cfg.eraseSla)
      entry.scopes core.sortedLayers)
    match failed with
    | some layer => becomePending { entry with saga := saga } .purge (.layerFailed layer.id)
    | none => core.verify { entry with saga := saga } openKey

/-- `execute_purge_and_verify`: the saga is the one in memory. -/
def executePurgeAndVerify (target : EraseTarget) (attestation : RetentionAttestation)
    (gatedSeq : Nat) (scopes : LayerScopes) (openKey : Bytes) : SagaM ErasureStatus := do
  let active : Option ActiveEntry ← ask .readActive
  let saga := (active.map ActiveEntry.saga).getD .withId
  core.purgeAndVerify ⟨saga, target, attestation, scopes, gatedSeq⟩ openKey

/-- The erase flow once the layers are resolved, up to the record that the key is destroyed. -/
def destroyKey (req : EraseExecutionRequest) (scopes : LayerScopes) :
    SagaM (ActiveEntry × Option ErasureStatus) := do
  ask (.appendIntent req.target req.attestation)
  let gatedSeq ← ask (.addGate req.target)
  let saga ← record .withId .gated
  let entry : ActiveEntry := ⟨saga, req.target, req.attestation, scopes, gatedSeq⟩
  let failed ← always (callLayers .onGate scopes core.layers)
  match failed with
  | some layer =>
    let status ← becomePending entry .gate (.layerFailed layer.id)
    return (entry, some status)
  | none =>
    ask (.destroyHighestKey req.target)
    let absent : Bool ← ask (.verifyKeyAbsent req.target)
    if ¬ absent then
      let status ← becomePending entry .keyDestroy .io
      return (entry, some status)
    else
      let saga ← record saga .keyDestroyed
      return ({ entry with saga := saga }, none)

def eraseResolved (req : EraseExecutionRequest) (openKey : Bytes) (scopes : LayerScopes) :
    SagaM EraseReceipt := do
  match ← core.destroyKey req scopes with
  | (_, some status) => return ⟨status, ← ask .nowMillis⟩
  | (entry, none) =>
    ask (.notifyObserver req.target .gated)
    let gatedAt ← ask .nowMillis
    ask (.insertActive entry)
    ask (.insertOpenKey openKey)
    if req.timing = .now then
      let purged ← always (core.executePurgeAndVerify req.target req.attestation entry.gatedSeq
        scopes openKey).run
      match purged with
      | .ok status => return ⟨status, gatedAt⟩
      | .error _ => return ⟨.gated, gatedAt⟩
    else return ⟨.gated, gatedAt⟩

def executeEraseFlow (req : EraseExecutionRequest) (openKey : Bytes) : SagaM EraseReceipt := do
  match evaluateRetention req.mode req.attestation with
  | .refuse reason =>
    let saga ← orFail (EraseSaga.withId.transitionTo .refused)
    ask (.insertActive ⟨saga, req.target, req.attestation, [], 0⟩)
    return ⟨.refused reason, ← ask .nowMillis⟩
  | .proceedRestrict =>
    let saga ← orFail (EraseSaga.withId.transitionTo .restricted)
    ask (.appendIntent req.target req.attestation)
    let gatedSeq ← ask (.addGate req.target)
    ask (.appendState .restricted none)
    ask (.notifyObserver req.target .restricted)
    ask (.insertActive ⟨saga, req.target, req.attestation, [], gatedSeq⟩)
    ask (.insertOpenKey openKey)
    return ⟨.restricted, ← ask .nowMillis⟩
  | .proceedErase =>
    let (scopes, failed) ← always (resolveLayers req.target [] core.layers)
    match failed with
    | some layer =>
      let status ← becomePending ⟨.withId, req.target, req.attestation, [], 0⟩ .intent
        (.layerFailed layer.id)
      return ⟨status, ← ask .nowMillis⟩
    | none => core.eraseResolved req openKey scopes

def modeByte : EraseMode → UInt8
  | .erase => 0x01
  | .restrict => 0x02

/-- `erase`: an open request of the same target and mode is answered by its status. -/
def erase (req : EraseExecutionRequest) : SagaM EraseReceipt := do
  let openKey := core.deriveOpenKey (canonicalTargetBytes req.target) (modeByte req.mode)
  let isOpen : Bool ← ask (.containsOpenKey openKey)
  if isOpen then
    let active : Option ActiveEntry ← ask .readActive
    match active with
    | some entry => return ⟨statusOf entry.saga, ← ask .nowMillis⟩
    | none => core.executeEraseFlow req openKey
  else core.executeEraseFlow req openKey

structure WindowOutcome where
  purgedUnits : Nat
  pendingCount : Nat

def runPurgeWindow : SagaM WindowOutcome := do
  let active : Option ActiveEntry ← ask .readActive
  match active with
  | none => return ⟨0, 0⟩
  | some entry =>
    if entry.saga.state = .keyDestroyed ∨ entry.saga.state = .purging then
      let openKey := core.deriveOpenKey (canonicalTargetBytes entry.target) 0x01
      let purged ← always (core.executePurgeAndVerify entry.target entry.attestation
        entry.gatedSeq entry.scopes openKey).run
      match purged with
      | .ok .completed => return ⟨1, 0⟩
      | .ok (.pending _ _) => return ⟨0, 1⟩
      | _ => return ⟨0, 0⟩
    else return ⟨0, 0⟩

/-- The state that the recovery records for a saga it finds in another. -/
def nextStep : SagaState → Option SagaState
  | .requested => some .gated
  | .gated => some .keyDestroyed
  | .keyDestroyed => some .purging
  | .purging => some .verifying
  | .verifying => some .completed
  | .pending => some .purging
  | _ => none

def recoveredEntry (saga : EraseSaga) (attestedAt : Nat) : ActiveEntry where
  saga := saga
  target := .exactKeys [core.erasureId.val]
  attestation := ⟨.noObligation, "recovery".toUTF8.toList, attestedAt⟩
  scopes := []
  gatedSeq := 0

/-- The loop of `recover_and_resume`; it returns how many sagas it resumed. -/
def resumeSagas : List EraseSaga → SagaM Nat
  | [] => return 0
  | saga :: sagas =>
    match nextStep saga.state with
    | none => resumeSagas sagas
    | some next => do
        let saga ← record saga next
        let attestedAt ← ask .nowMillis
        ask (.insertActive (core.recoveredEntry saga attestedAt))
        let resumed ← resumeSagas sagas
        return resumed + 1

def recoverAndResume : SagaM Nat := do
  let sagas ← ask .recoverOpenSagas
  core.resumeSagas sagas

end ErasureCore

/-- The journal of the erasure, which survives a crash, and the maps in memory. -/
structure SagaStore where
  journal : List SagaState
  active : Option ActiveEntry
  openKeys : List Bytes

/-- What the environment decides: the value of a seam, or its error, and then for an append whether
the record is in the journal all the same. -/
inductive SagaChoice where
  | ok
  | number (value : Nat)
  | flag (value : Bool)
  | scope (value : LayerScope)
  | bytes (value : Bytes)
  | failed (error : ErasureError) (landed : Bool)

namespace SagaStore

def new : SagaStore := ⟨[], none, []⟩

/-- `recover_open_sagas` of the journal: the last state, unless it is terminal. -/
def openSagas (store : SagaStore) : List EraseSaga :=
  match store.journal.getLast? with
  | none => []
  | some state => if state.isTerminal then [] else [.withState state]

def append (store : SagaStore) (state : SagaState) :
    SagaChoice → Option (Except ErasureError Unit × SagaStore)
  | .ok => some (.ok (), { store with journal := store.journal ++ [state] })
  | .failed error landed =>
    some (.error error,
      if landed then { store with journal := store.journal ++ [state] } else store)
  | _ => none

/-- A seam that does not touch the store: its value, or its error. -/
def answered {α : Type} (store : SagaStore) (read : SagaChoice → Option α) :
    SagaChoice → Option (Except ErasureError α × SagaStore)
  | .failed error _ => some (.error error, store)
  | choice => (read choice).map fun value => (.ok value, store)

def perform (store : SagaStore) : (op : SagaOp) → SagaChoice → Option (op.Answer × SagaStore)
  | .containsOpenKey key, _ => some (.ok (decide (key ∈ store.openKeys)), store)
  | .insertOpenKey key, _ => some (.ok (), { store with openKeys := key :: store.openKeys })
  | .removeOpenKey key, _ =>
    some (.ok (), { store with openKeys := store.openKeys.filter (· ≠ key) })
  | .readActive, _ => some (.ok store.active, store)
  | .insertActive entry, _ => some (.ok (), { store with active := some entry })
  | .appendIntent _ _, choice => store.append .requested choice
  | .appendState state _, choice => store.append state choice
  | .recoverOpenSagas, choice => store.answered (fun _ => some store.openSagas) choice
  | .nowMillis, .number now => some (.ok now, store)
  | .nowMillis, _ => none
  | .notifyObserver _ _, _ => some (.ok (), store)
  | .addGate _, choice => store.answered (fun | .number seq => some seq | _ => none) choice
  | .revokeCovering _ _, choice =>
    store.answered (fun | .number revoked => some revoked | _ => none) choice
  | .verifyKeyAbsent _, choice =>
    store.answered (fun | .flag absent => some absent | _ => none) choice
  | .resolve _ _, choice => store.answered (fun | .scope scope => some scope | _ => none) choice
  | .witnessLayer _ _, choice =>
    store.answered (fun | .bytes witness => some witness | _ => none) choice
  | .signReport _ _ _, choice =>
    store.answered (fun | .bytes report => some report | _ => none) choice
  | .compactGate, choice => store.answered (fun _ => some ()) choice
  | .destroyHighestKey _, choice => store.answered (fun _ => some ()) choice
  | .onGate _ _, choice => store.answered (fun _ => some ()) choice
  | .purge _ _ _, choice => store.answered (fun _ => some ()) choice
  | .recordCompleted _ _ _, choice => store.answered (fun _ => some ()) choice

def crash (store : SagaStore) : SagaStore := { store with active := none, openKeys := [] }

def platform : Platform SagaOp SagaOp.Answer SagaStore SagaChoice where
  perform := perform
  crash := crash

end SagaStore

/-- The calls on the core; every erase call under this id has the target of the saga. -/
inductive SagaTask where
  | erase (mode : EraseMode) (attestation : RetentionAttestation) (timing : Timing)
  | runPurgeWindow
  | recoverAndResume

/-- The task of a call; its answer goes to the caller. -/
def ErasureCore.code (core : ErasureCore) (target : EraseTarget) : SagaTask → SagaProgram Unit
  | .erase mode attestation timing => (core.erase ⟨target, mode, attestation, timing⟩).run.ignoring
  | .runPurgeWindow => core.runPurgeWindow.run.ignoring
  | .recoverAndResume => core.recoverAndResume.run.ignoring

abbrev SagaWorld := World SagaTask SagaOp SagaOp.Answer SagaStore
abbrev SagaEvent := TaskEvent SagaTask SagaChoice
abbrev SagaHistory := List (Performed SagaTask SagaOp SagaOp.Answer)

def ErasureCore.step (core : ErasureCore) (target : EraseTarget) :
    SagaWorld → SagaEvent → Option SagaWorld :=
  World.step SagaStore.platform (core.code target)

end Contextra.Erasure
