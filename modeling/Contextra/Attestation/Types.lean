import Contextra.Library.SelfDelimiting
import Contextra.Erasure.Types

/-!
# Deletion proofs

The data of a deletion proof, and how bincode writes its parts: numbers in little-endian order with
their full width, the variant of an enumeration as 32 bits before its fields, a count of 64 bits
before the elements of a vector or the bytes of a string, arrays and structures as their parts.
-/

namespace Contextra.Attestation

open Library Contextra.Erasure List

/-- A string of a length that 64 bits can hold. -/
abbrev Text := { text : String // text.utf8ByteSize < 2 ^ 64 }

def Text.code (text : Text) : Bytes :=
  toLeBytes 8 text.val.utf8ByteSize ++ text.val.toByteArray.data.toList

theorem Text.code_selfDelimiting : SelfDelimiting Text.code := by
  intro first second rest rest' same
  unfold Text.code at same
  rw [append_assoc, append_assoc] at same
  have counts : (toLeBytes 8 first.val.utf8ByteSize).length =
      (toLeBytes 8 second.val.utf8ByteSize).length := by
    rw [length_toLeBytes, length_toLeBytes]
  obtain ⟨sameCount, sameTail⟩ := append_inj same counts
  have sameSize := toLeBytes_injOn first.property second.property sameCount
  have sameLength : first.val.toByteArray.data.toList.length =
      second.val.toByteArray.data.toList.length := sameSize
  obtain ⟨sameBytes, sameRest⟩ := append_inj sameTail sameLength
  refine ⟨Subtype.ext (String.toByteArray_inj.mp ?_), sameRest⟩
  exact ByteArray.ext (Array.toList_inj.mp sameBytes)

def hashCode (hash : FixedBytes 32) : Bytes := hash.val

theorem hashCode_selfDelimiting : SelfDelimiting hashCode :=
  .of_length (fun hash => hash.property) Subtype.val_injective

inductive CustodyLevel where
  | localCustody
  | sovereign
  | escrow
  deriving DecidableEq

def CustodyLevel.variant : CustodyLevel → UInt32
  | localCustody => 0
  | sovereign => 1
  | escrow => 2

def CustodyLevel.serialize (custody : CustodyLevel) : Bytes := u32Code custody.variant

inductive DeletionLayer where
  | lsmMemtable
  | ssTableAllLevels
  | hnswIndex
  | walAllSegments (seqAfter : UInt64)
  | csrGraph
  | kvCacheSegments
  | embeddingCache
  | textIndex
  deriving DecidableEq

def DeletionLayer.variant : DeletionLayer → UInt32
  | lsmMemtable => 0
  | ssTableAllLevels => 1
  | hnswIndex => 2
  | walAllSegments _ => 3
  | csrGraph => 4
  | kvCacheSegments => 5
  | embeddingCache => 6
  | textIndex => 7

def DeletionLayer.fields : DeletionLayer → Bytes
  | walAllSegments seqAfter => u64Code seqAfter
  | _ => []

def DeletionLayer.serialize (layer : DeletionLayer) : Bytes :=
  u32Code layer.variant ++ layer.fields

structure UncoveredLayer where
  layer : DeletionLayer
  reason : Text
  deriving DecidableEq

def UncoveredLayer.serialize (uncovered : UncoveredLayer) : Bytes :=
  uncovered.layer.serialize ++ uncovered.reason.code

inductive ScanTechnique where
  | structural
  | decryptedView
  | indexIntrospection
  | needleScan
  | notMeasured (reason : Text)
  | featureDisabled
  deriving DecidableEq

def ScanTechnique.variant : ScanTechnique → UInt32
  | structural => 0
  | decryptedView => 1
  | indexIntrospection => 2
  | needleScan => 3
  | notMeasured _ => 4
  | featureDisabled => 5

def ScanTechnique.fields : ScanTechnique → Bytes
  | notMeasured reason => reason.code
  | _ => []

def ScanTechnique.serialize (technique : ScanTechnique) : Bytes :=
  u32Code technique.variant ++ technique.fields

structure LayerWitnessMeasurement where
  layer : DeletionLayer
  technique : ScanTechnique
  scanned : UInt64
  remaining : UInt64
  controlMatches : UInt64
  digest : FixedBytes 32
  deriving DecidableEq

def LayerWitnessMeasurement.serialize (measurement : LayerWitnessMeasurement) : Bytes :=
  measurement.layer.serialize ++ (measurement.technique.serialize ++
    (u64Code measurement.scanned ++ (u64Code measurement.remaining ++
      (u64Code measurement.controlMatches ++ hashCode measurement.digest))))

inductive ExcludedScope where
  | consolidatedAndDistilled
  | llmParameterMemory
  deriving DecidableEq

def ExcludedScope.variant : ExcludedScope → UInt32
  | consolidatedAndDistilled => 0
  | llmParameterMemory => 1

def ExcludedScope.serialize (scope : ExcludedScope) : Bytes := u32Code scope.variant

inductive DeletionScope where
  | document (docId tenantId : UInt64)
  | collection (collectionId tenantId : UInt64)
  | tenant (tenantId : UInt64)
  deriving DecidableEq

def DeletionScope.variant : DeletionScope → UInt32
  | document _ _ => 0
  | collection _ _ => 1
  | tenant _ => 2

def DeletionScope.fields : DeletionScope → Bytes
  | document docId tenantId => u64Code docId ++ u64Code tenantId
  | collection collectionId tenantId => u64Code collectionId ++ u64Code tenantId
  | tenant tenantId => u64Code tenantId

def DeletionScope.serialize (scope : DeletionScope) : Bytes :=
  u32Code scope.variant ++ scope.fields

structure GraphRepairAttestation where
  docId : UInt64
  verifiedNoGhostPointers : Bool
  attestedAt : Int64
  deriving DecidableEq

def GraphRepairAttestation.serialize (repair : GraphRepairAttestation) : Bytes :=
  u64Code repair.docId ++ (boolCode repair.verifiedNoGhostPointers ++
    u64Code repair.attestedAt.toUInt64)

theorem CustodyLevel.serialize_selfDelimiting : SelfDelimiting CustodyLevel.serialize := by
  apply u32Code_selfDelimiting.comp
  intro first second same
  cases first <;> cases second <;> first | rfl | exact absurd same (by decide)

theorem ExcludedScope.serialize_selfDelimiting : SelfDelimiting ExcludedScope.serialize := by
  apply u32Code_selfDelimiting.comp
  intro first second same
  cases first <;> cases second <;> first | rfl | exact absurd same (by decide)

theorem DeletionLayer.serialize_selfDelimiting : SelfDelimiting DeletionLayer.serialize := by
  apply u32Code_selfDelimiting.tagged
  intro first second rest rest' sameVariant same
  cases first with
  | walAllSegments seqAfter =>
    cases second with
    | walAllSegments seqAfter' =>
      obtain ⟨rfl, sameRest⟩ := u64Code_selfDelimiting same
      exact ⟨rfl, sameRest⟩
    | _ => exact absurd sameVariant (of_decide_eq_false rfl)
  | _ =>
    cases second <;>
      first
      | exact ⟨rfl, same⟩
      | exact absurd sameVariant (of_decide_eq_false rfl)

theorem ScanTechnique.serialize_selfDelimiting : SelfDelimiting ScanTechnique.serialize := by
  apply u32Code_selfDelimiting.tagged
  intro first second rest rest' sameVariant same
  cases first with
  | notMeasured reason =>
    cases second with
    | notMeasured reason' =>
      obtain ⟨rfl, sameRest⟩ := Text.code_selfDelimiting same
      exact ⟨rfl, sameRest⟩
    | _ => exact absurd sameVariant (of_decide_eq_false rfl)
  | _ =>
    cases second <;>
      first
      | exact ⟨rfl, same⟩
      | exact absurd sameVariant (of_decide_eq_false rfl)

theorem DeletionScope.serialize_selfDelimiting : SelfDelimiting DeletionScope.serialize := by
  have pairs := u64Code_selfDelimiting.append u64Code_selfDelimiting
  apply u32Code_selfDelimiting.tagged
  intro first second rest rest' sameVariant same
  cases first with
  | document docId tenantId =>
    cases second with
    | document docId' tenantId' =>
      obtain ⟨samePair, sameRest⟩ := @pairs (docId, tenantId) (docId', tenantId') _ _ same
      obtain ⟨rfl, rfl⟩ := Prod.mk.inj samePair
      exact ⟨rfl, sameRest⟩
    | _ => exact absurd sameVariant (of_decide_eq_false rfl)
  | collection collectionId tenantId =>
    cases second with
    | collection collectionId' tenantId' =>
      obtain ⟨samePair, sameRest⟩ :=
        @pairs (collectionId, tenantId) (collectionId', tenantId') _ _ same
      obtain ⟨rfl, rfl⟩ := Prod.mk.inj samePair
      exact ⟨rfl, sameRest⟩
    | _ => exact absurd sameVariant (of_decide_eq_false rfl)
  | tenant tenantId =>
    cases second with
    | tenant tenantId' =>
      obtain ⟨rfl, sameRest⟩ := u64Code_selfDelimiting same
      exact ⟨rfl, sameRest⟩
    | _ => exact absurd sameVariant (of_decide_eq_false rfl)

theorem UncoveredLayer.serialize_selfDelimiting : SelfDelimiting UncoveredLayer.serialize := by
  have parts := DeletionLayer.serialize_selfDelimiting.append Text.code_selfDelimiting
  have pack : Function.Injective fun uncovered : UncoveredLayer =>
      (uncovered.layer, uncovered.reason) := by
    rintro ⟨layer, reason⟩ ⟨layer', reason'⟩ same
    cases same
    rfl
  exact parts.comp pack

theorem LayerWitnessMeasurement.serialize_selfDelimiting :
    SelfDelimiting LayerWitnessMeasurement.serialize := by
  have parts := DeletionLayer.serialize_selfDelimiting.append
    (ScanTechnique.serialize_selfDelimiting.append (u64Code_selfDelimiting.append
      (u64Code_selfDelimiting.append (u64Code_selfDelimiting.append hashCode_selfDelimiting))))
  have pack : Function.Injective fun measurement : LayerWitnessMeasurement =>
      (measurement.layer, measurement.technique, measurement.scanned, measurement.remaining,
        measurement.controlMatches, measurement.digest) := by
    rintro ⟨⟩ ⟨⟩ same
    cases same
    rfl
  exact parts.comp pack

theorem GraphRepairAttestation.serialize_selfDelimiting :
    SelfDelimiting GraphRepairAttestation.serialize := by
  have parts := u64Code_selfDelimiting.append
    (boolCode_selfDelimiting.append u64Code_selfDelimiting)
  have pack : Function.Injective fun repair : GraphRepairAttestation =>
      (repair.docId, repair.verifiedNoGhostPointers, repair.attestedAt.toUInt64) := by
    rintro ⟨docId, verified, ⟨attestedAt⟩⟩ ⟨docId', verified', ⟨attestedAt'⟩⟩ same
    cases same
    rfl
  exact parts.comp pack

structure DeletionProof where
  signatureVersion : UInt8
  scope : DeletionScope
  deletedKeysHash : FixedBytes 32
  deletedAfterTx : UInt64
  timestamp : UInt64
  signature : Bytes
  coveredLayers : Vec DeletionLayer
  excludedScopes : Vec ExcludedScope
  graphRepair : Vec GraphRepairAttestation
  walChainReceipt : Option (FixedBytes 32)
  auditChainPosition : Option UInt64
  custody : CustodyLevel
  measurements : Vec LayerWitnessMeasurement
  uncoveredLayers : Vec UncoveredLayer
  integrityWarning : Option Text
  deriving DecidableEq

inductive SignatureVersion where
  | v1
  | v2
  | v3
  | v5
  deriving DecidableEq

def SignatureVersion.asU8 : SignatureVersion → UInt8
  | v1 => 1
  | v2 => 2
  | v3 => 3
  | v5 => 5

/-- `SignatureVersion::try_from`. -/
def SignatureVersion.tryFrom (value : UInt8) : Option SignatureVersion :=
  if value = 1 then some v1
  else if value = 2 then some v2
  else if value = 3 then some v3
  else if value = 5 then some v5
  else none

theorem SignatureVersion.tryFrom_eq_some {value : UInt8} {version : SignatureVersion} :
    tryFrom value = some version ↔ value = version.asU8 := by
  unfold tryFrom
  constructor
  · intro found
    split at found
    · cases found
      assumption
    · split at found
      · cases found
        assumption
      · split at found
        · cases found
          assumption
        · split at found
          · cases found
            assumption
          · cases found
  · rintro rfl
    cases version <;> rfl

end Contextra.Attestation
