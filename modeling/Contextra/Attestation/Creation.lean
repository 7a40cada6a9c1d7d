import Contextra.Attestation.Types

/-!
# Creating deletion proofs

The byte strings that the versions sign, and the three ways to a signed proof: `issue` from the
witnesses of a scan (version 5), `create_with_wal_receipt` (version 2, HMAC) and `create_full_v3`
(version 3, Ed25519).
-/

namespace Contextra.Attestation

open Contextra.Library Contextra.Erasure

/-- The hash and signature functions that the proofs rest on. -/
structure CryptoPrimitives where
  SigningKey : Type
  VerifyingKey : Type
  verifyingKey : SigningKey → VerifyingKey
  blake3 : Bytes → FixedBytes 32
  hmacSha256 : Bytes → Bytes → FixedBytes 32
  sign : SigningKey → Bytes → FixedBytes 64
  verifies : VerifyingKey → Bytes → FixedBytes 64 → Bool
  verifies_sign : ∀ key message, verifies (verifyingKey key) message (sign key message) = true

inductive SigningKeyHandle (primitives : CryptoPrimitives) where
  | hmac (key : Bytes)
  | ed25519 (key : primitives.SigningKey)

section Payloads

/-- `receipt_part`, empty without a receipt. -/
def receiptPart : Option (FixedBytes 32) → Bytes
  | some receipt => receipt.val
  | none => []

/-- `audit_pos_part`, empty without a position. -/
def auditPart : Option UInt64 → Bytes
  | some position => u64Code position
  | none => []

namespace DeletionProof

variable (proof : DeletionProof)

/-- What `verify` reads of a proof of version 1. -/
def v1Parts : List Bytes :=
  [proof.scope.serialize, hashCode proof.deletedKeysHash, u64Code proof.deletedAfterTx]

/-- What `create_with_wal_receipt` and `verify` read of a proof of version 2. -/
def v2Parts : List Bytes :=
  [proof.scope.serialize, hashCode proof.deletedKeysHash, u64Code proof.deletedAfterTx,
    vecCode DeletionLayer.serialize proof.coveredLayers,
    vecCode ExcludedScope.serialize proof.excludedScopes, receiptPart proof.walChainReceipt]

def constructV3Payload : Bytes :=
  proof.scope.serialize ++ (hashCode proof.deletedKeysHash ++ (u64Code proof.deletedAfterTx ++
    (u64Code proof.timestamp ++ (vecCode DeletionLayer.serialize proof.coveredLayers ++
      (vecCode ExcludedScope.serialize proof.excludedScopes ++
        (vecCode GraphRepairAttestation.serialize proof.graphRepair ++
          (receiptPart proof.walChainReceipt ++ auditPart proof.auditChainPosition)))))))

def constructV5Payload : Bytes :=
  u8Code proof.signatureVersion ++ (proof.scope.serialize ++ (hashCode proof.deletedKeysHash ++
    (u64Code proof.deletedAfterTx ++ (u64Code proof.timestamp ++ (proof.custody.serialize ++
      (vecCode DeletionLayer.serialize proof.coveredLayers ++
        (vecCode LayerWitnessMeasurement.serialize proof.measurements ++
          (vecCode UncoveredLayer.serialize proof.uncoveredLayers ++
            vecCode ExcludedScope.serialize proof.excludedScopes))))))))

end DeletionProof

end Payloads

/-- `LayerCleanupProof`, by its layer. -/
structure LayerCleanupProof where
  layer : DeletionLayer

inductive CreationError where
  | graphRepairFailed (remainingPointers : Nat)
  deriving DecidableEq

section Creation

variable (primitives : CryptoPrimitives)

def computeHmacSha256 (key : Bytes) (parts : List Bytes) : FixedBytes 32 :=
  primitives.hmacSha256 key parts.flatten

def hashDeletedKeysLengthPrefixed (deletedKeys : List Bytes) : FixedBytes 32 :=
  primitives.blake3 (deletedKeys.flatMap fun key => toLeBytes 4 key.length ++ key)

def createWithWalReceipt (scope : DeletionScope) (deletedKeys : List Bytes)
    (deletedAfterTx : UInt64) (coveredLayers : Vec LayerCleanupProof)
    (excludedScopes : Vec ExcludedScope) (walChainReceipt : Option (FixedBytes 32))
    (proofKey : Bytes) : DeletionProof :=
  let deletedKeysHash :=
    hashDeletedKeysLengthPrefixed primitives (deletedKeys.insertionSort (· ≤ ·))
  let coveredLayers := coveredLayers.map LayerCleanupProof.layer
  let signature := computeHmacSha256 primitives proofKey
    [scope.serialize, hashCode deletedKeysHash, u64Code deletedAfterTx,
      vecCode DeletionLayer.serialize coveredLayers,
      vecCode ExcludedScope.serialize excludedScopes, receiptPart walChainReceipt]
  { signatureVersion := SignatureVersion.v2.asU8
    scope
    deletedKeysHash
    deletedAfterTx
    timestamp := 0
    signature := signature.val
    coveredLayers
    excludedScopes
    graphRepair := .empty
    walChainReceipt
    auditChainPosition := none
    custody := .localCustody
    measurements := .empty
    uncoveredLayers := .empty
    integrityWarning := none }

/-- The unsigned proof of `create_full_v3`. -/
def v3Stub (scope : DeletionScope) (deletedKeys : List Bytes) (deletedAfterTx : UInt64)
    (coveredLayers : Vec DeletionLayer) (excludedScopes : Vec ExcludedScope)
    (walChainReceipt : Option (FixedBytes 32)) (auditChainPosition : Option UInt64)
    (attestedAt : Int64) (graphRepair : Vec GraphRepairAttestation) : DeletionProof where
  signatureVersion := SignatureVersion.v3.asU8
  scope
  deletedKeysHash := hashDeletedKeysLengthPrefixed primitives (deletedKeys.insertionSort (· ≤ ·))
  deletedAfterTx
  timestamp := if 0 ≤ attestedAt then attestedAt.toUInt64 else 0
  signature := []
  coveredLayers
  excludedScopes
  graphRepair
  walChainReceipt
  auditChainPosition
  custody := .localCustody
  measurements := .empty
  uncoveredLayers := .empty
  integrityWarning := none

def createFullV3 (scope : DeletionScope) (deletedKeys : List Bytes) (deletedAfterTx : UInt64)
    (coveredLayers : Vec LayerCleanupProof) (excludedScopes : Vec ExcludedScope)
    (walChainReceipt : Option (FixedBytes 32)) (auditChainPosition : Option UInt64)
    (attestedAt : Int64) (graphRepair : Vec GraphRepairAttestation)
    (signingKey : primitives.SigningKey) : Except CreationError DeletionProof :=
  let coveredLayers := coveredLayers.map LayerCleanupProof.layer
  if .hnswIndex ∈ coveredLayers.toList ∧ graphRepair.toList = [] then
    .error (.graphRepairFailed 1)
  else
    let stub := v3Stub primitives scope deletedKeys deletedAfterTx coveredLayers excludedScopes
      walChainReceipt auditChainPosition attestedAt graphRepair
    .ok { stub with signature := (primitives.sign signingKey stub.constructV3Payload).val }

end Creation

inductive WitnessLayer where
  | lsmMemtable
  | ssTableAllLevels
  | hnswIndex
  | walAllSegments
  | csrGraph
  | kvCacheSegments
  | embeddingCache
  | custom (name : Text)
  deriving DecidableEq

inductive ScanMethod where
  | structural
  | notMeasured (reason : Text)
  | featureDisabled
  deriving DecidableEq

structure LayerWitness where
  layer : WitnessLayer
  scanned : UInt64
  remaining : UInt64
  technique : ScanTechnique
  digest : FixedBytes 32
  measuredAt : UInt64

/-- `LayerWitness::new` derives the method from the technique. -/
def LayerWitness.method (witness : LayerWitness) : ScanMethod :=
  match witness.technique with
  | .structural | .decryptedView | .indexIntrospection | .needleScan => .structural
  | .notMeasured reason => .notMeasured reason
  | .featureDisabled => .featureDisabled

def LayerWitness.controlMatches (witness : LayerWitness) : UInt64 :=
  if witness.method = .featureDisabled then 0 else 1

inductive IssueError where
  | remainingEntries (layer : WitnessLayer) (remaining : UInt64)
  | notMeasured (layer : WitnessLayer) (reason : Text)
  | noWitnesses
  | noExcludedScopes
  | duplicateLayer (layer : WitnessLayer)
  | unrecognizedLayer (name : Text)
  | missingLayer (layer : WitnessLayer)
  deriving DecidableEq

def mapWitnessLayerToDeletionLayer (witness : LayerWitness) : Except IssueError DeletionLayer :=
  match witness.layer with
  | .lsmMemtable => .ok .lsmMemtable
  | .ssTableAllLevels => .ok .ssTableAllLevels
  | .hnswIndex => .ok .hnswIndex
  | .walAllSegments => .ok (.walAllSegments witness.measuredAt)
  | .csrGraph => .ok .csrGraph
  | .kvCacheSegments => .ok .kvCacheSegments
  | .embeddingCache => .ok .embeddingCache
  | .custom name =>
    if name.val = "TextIndex" then .ok .textIndex else .error (.unrecognizedLayer name)

def checkWitness (witness : LayerWitness) : Except IssueError Unit :=
  if 0 < witness.remaining then .error (.remainingEntries witness.layer witness.remaining)
  else
    match witness.method with
    | .structural | .featureDisabled => .ok ()
    | .notMeasured reason => .error (.notMeasured witness.layer reason)

def checkTechnique (witness : LayerWitness) : Except IssueError Unit :=
  match witness.technique with
  | .notMeasured reason => .error (.notMeasured witness.layer reason)
  | _ => .ok ()

/-- The second loop of `issue`, with the layers it has seen. -/
def measureAll : List WitnessLayer → (witnesses : List LayerWitness) →
    Except IssueError
      { found : List LayerWitnessMeasurement // found.length = witnesses.length }
  | _, [] => .ok ⟨[], rfl⟩
  | seen, witness :: witnesses => do
      checkWitness witness
      checkTechnique witness
      if witness.layer ∈ seen then .error (.duplicateLayer witness.layer)
      else
        let layer ← mapWitnessLayerToDeletionLayer witness
        let later ← measureAll (seen ++ [witness.layer]) witnesses
        .ok ⟨⟨layer, witness.technique, witness.scanned, witness.remaining,
          witness.controlMatches, witness.digest⟩ :: later.val, congrArg (· + 1) later.property⟩

/-- The part of `issue` that can fail: the measurements of admissible witnesses. -/
def gatherMeasurements (witnesses : Vec LayerWitness) (excluded : Vec ExcludedScope) :
    Except IssueError (Vec LayerWitnessMeasurement) := do
  witnesses.toList.forM checkWitness
  if witnesses.toList = [] then .error .noWitnesses
  else if excluded.toList = [] then .error .noExcludedScopes
  else
    let found ← measureAll [] witnesses.toList
    let covered := found.val.map LayerWitnessMeasurement.layer
    if .lsmMemtable ∉ covered then .error (.missingLayer .lsmMemtable)
    else if .ssTableAllLevels ∉ covered then .error (.missingLayer .ssTableAllLevels)
    else if ¬ covered.any (fun layer => layer matches .walAllSegments _) then
      .error (.missingLayer .walAllSegments)
    else .ok ⟨found.val, found.property.trans_lt witnesses.bounded⟩

def uncoveredLayersOf (covered : List DeletionLayer) : List UncoveredLayer :=
  (if .hnswIndex ∈ covered then []
    else [⟨.hnswIndex, ⟨"Scope does not contain vector HnswIndex data", by decide⟩⟩]) ++
  (if .textIndex ∈ covered then []
    else [⟨.textIndex, ⟨"Scope does not contain full-text TextIndex data", by decide⟩⟩])

theorem uncoveredLayersOf_bounded (covered : List DeletionLayer) :
    (uncoveredLayersOf covered).length < 2 ^ 64 := by
  have few : (uncoveredLayersOf covered).length ≤ 2 := by
    unfold uncoveredLayersOf
    split <;> split <;> exact Nat.le_of_ble_eq_true rfl
  exact few.trans_lt (by decide)

structure RequestContext where
  tenantId : UInt64
  txId : UInt64

structure SagaRecord where
  deletedKeysHash : FixedBytes 32

/-- The unsigned proof of `issue`. -/
def v5Stub (ctx : RequestContext) (saga : SagaRecord)
    (measurements : Vec LayerWitnessMeasurement) (excluded : Vec ExcludedScope)
    (custody : CustodyLevel) (nowUnixNanos : UInt64) : DeletionProof where
  signatureVersion := SignatureVersion.v5.asU8
  scope := .tenant ctx.tenantId
  deletedKeysHash := saga.deletedKeysHash
  deletedAfterTx := ctx.txId
  timestamp := nowUnixNanos / 1000000000
  signature := []
  coveredLayers := measurements.map LayerWitnessMeasurement.layer
  excludedScopes := excluded
  graphRepair := .empty
  walChainReceipt := none
  auditChainPosition := none
  custody
  measurements
  uncoveredLayers :=
    ⟨uncoveredLayersOf (measurements.toList.map LayerWitnessMeasurement.layer),
      uncoveredLayersOf_bounded _⟩
  integrityWarning := none

def issue (primitives : CryptoPrimitives) (ctx : RequestContext) (saga : SagaRecord)
    (witnesses : Vec LayerWitness) (excluded : Vec ExcludedScope) (custody : CustodyLevel)
    (key : SigningKeyHandle primitives) (nowUnixNanos : UInt64) :
    Except IssueError DeletionProof :=
  match gatherMeasurements witnesses excluded with
  | .error error => .error error
  | .ok measurements =>
    let stub := v5Stub ctx saga measurements excluded custody nowUnixNanos
    let payload := stub.constructV5Payload
    match key with
    | .ed25519 signingKey =>
      .ok { stub with signature := (primitives.sign signingKey payload).val }
    | .hmac hmacKey =>
      .ok { stub with signature := (computeHmacSha256 primitives hmacKey [payload]).val }

end Contextra.Attestation
