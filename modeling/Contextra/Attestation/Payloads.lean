import Contextra.Attestation.Creation

/-!
# What a signature covers

The byte string of a version is decided by the fields that the version lists, and it decides them.
Versions 1, 2 and 3 begin with a scope and version 5 with its number, so that what one key signs
has one reading.
-/

namespace Contextra.Attestation

open Library Contextra.Erasure List

namespace DeletionProof

def signedPayload (version : SignatureVersion) (proof : DeletionProof) : Bytes :=
  match version with
  | .v1 => proof.v1Parts.flatten
  | .v2 => proof.v2Parts.flatten
  | .v3 => proof.constructV3Payload
  | .v5 => proof.constructV5Payload

def AgreesOn (version : SignatureVersion) (first second : DeletionProof) : Prop :=
  match version with
  | .v1 => first.scope = second.scope ∧ first.deletedKeysHash = second.deletedKeysHash ∧
      first.deletedAfterTx = second.deletedAfterTx
  | .v2 => first.scope = second.scope ∧ first.deletedKeysHash = second.deletedKeysHash ∧
      first.deletedAfterTx = second.deletedAfterTx ∧
      first.coveredLayers = second.coveredLayers ∧ first.excludedScopes = second.excludedScopes ∧
      first.walChainReceipt = second.walChainReceipt
  | .v3 => first.scope = second.scope ∧ first.deletedKeysHash = second.deletedKeysHash ∧
      first.deletedAfterTx = second.deletedAfterTx ∧ first.timestamp = second.timestamp ∧
      first.coveredLayers = second.coveredLayers ∧ first.excludedScopes = second.excludedScopes ∧
      first.graphRepair = second.graphRepair ∧ first.walChainReceipt = second.walChainReceipt ∧
      first.auditChainPosition = second.auditChainPosition
  | .v5 => first.signatureVersion = second.signatureVersion ∧ first.scope = second.scope ∧
      first.deletedKeysHash = second.deletedKeysHash ∧
      first.deletedAfterTx = second.deletedAfterTx ∧ first.timestamp = second.timestamp ∧
      first.custody = second.custody ∧ first.coveredLayers = second.coveredLayers ∧
      first.measurements = second.measurements ∧
      first.uncoveredLayers = second.uncoveredLayers ∧
      first.excludedScopes = second.excludedScopes

end DeletionProof

theorem receiptPart_injective : Function.Injective receiptPart := by
  intro first second same
  cases first with
  | none =>
    cases second with
    | none => rfl
    | some receipt =>
      have length : receipt.val.length = 0 := congrArg List.length same.symm
      exact absurd (receipt.property.symm.trans length) (by decide)
  | some receipt =>
    cases second with
    | none =>
      have length : receipt.val.length = 0 := congrArg List.length same
      exact absurd (receipt.property.symm.trans length) (by decide)
    | some receipt' => exact congrArg some (Subtype.ext same)

theorem optionalParts_injective {receipt receipt' : Option (FixedBytes 32)}
    {position position' : Option UInt64}
    (same : receiptPart receipt ++ auditPart position =
      receiptPart receipt' ++ auditPart position') :
    receipt = receipt' ∧ position = position' := by
  have lengths := congrArg List.length same
  rw [length_append, length_append] at lengths
  have receipts : ∀ receipt : Option (FixedBytes 32),
      (receiptPart receipt).length = if receipt.isSome then 32 else 0 := by
    intro receipt
    cases receipt with
    | none => rfl
    | some receipt => exact receipt.property
  have positions : ∀ position : Option UInt64,
      (auditPart position).length = if position.isSome then 8 else 0 := by
    intro position
    cases position with
    | none => rfl
    | some position => exact u64Code_length position
  rw [receipts, receipts, positions, positions] at lengths
  have sameReceiptLength : (receiptPart receipt).length = (receiptPart receipt').length := by
    rw [receipts, receipts]
    cases receipt <;> cases receipt' <;> cases position <;> cases position' <;>
      first
      | rfl
      | exact absurd lengths (of_decide_eq_false rfl)
  obtain ⟨sameReceipt, samePosition⟩ := append_inj same sameReceiptLength
  refine ⟨receiptPart_injective sameReceipt, ?_⟩
  cases position with
  | none =>
    cases position' with
    | none => rfl
    | some position' =>
      have length := congrArg List.length samePosition
      exact absurd (length.trans (u64Code_length position')) (of_decide_eq_false rfl)
  | some position =>
    cases position' with
    | none =>
      have length := congrArg List.length samePosition
      exact absurd ((u64Code_length position).symm.trans length) (of_decide_eq_false rfl)
    | some position' =>
      obtain ⟨rfl, -⟩ := u64Code_selfDelimiting (congrArg (· ++ []) samePosition)
      rfl

section OneVersion

variable {first second : DeletionProof}

theorem layers_selfDelimiting : SelfDelimiting (vecCode DeletionLayer.serialize) :=
  vecCode_selfDelimiting DeletionLayer.serialize_selfDelimiting

theorem excluded_selfDelimiting : SelfDelimiting (vecCode ExcludedScope.serialize) :=
  vecCode_selfDelimiting ExcludedScope.serialize_selfDelimiting

theorem start_eq {rest rest' : Bytes}
    (same : first.scope.serialize ++ (hashCode first.deletedKeysHash ++
        (u64Code first.deletedAfterTx ++ rest)) =
      second.scope.serialize ++ (hashCode second.deletedKeysHash ++
        (u64Code second.deletedAfterTx ++ rest'))) :
    (first.scope = second.scope ∧ first.deletedKeysHash = second.deletedKeysHash ∧
      first.deletedAfterTx = second.deletedAfterTx) ∧ rest = rest' := by
  obtain ⟨sameScope, afterScope⟩ := DeletionScope.serialize_selfDelimiting same
  obtain ⟨sameHash, afterHash⟩ := hashCode_selfDelimiting afterScope
  obtain ⟨sameTx, afterTx⟩ := u64Code_selfDelimiting afterHash
  exact ⟨⟨sameScope, sameHash, sameTx⟩, afterTx⟩

theorem v1Parts_flatten (proof : DeletionProof) : proof.v1Parts.flatten =
    proof.scope.serialize ++ (hashCode proof.deletedKeysHash ++
      (u64Code proof.deletedAfterTx ++ [])) := by
  simp [DeletionProof.v1Parts]

theorem v2Parts_flatten (proof : DeletionProof) : proof.v2Parts.flatten =
    proof.scope.serialize ++ (hashCode proof.deletedKeysHash ++
      (u64Code proof.deletedAfterTx ++ (vecCode DeletionLayer.serialize proof.coveredLayers ++
        (vecCode ExcludedScope.serialize proof.excludedScopes ++
          receiptPart proof.walChainReceipt)))) := by
  simp [DeletionProof.v2Parts]

theorem signedPayload_eq_iff (version : SignatureVersion) :
    first.signedPayload version = second.signedPayload version ↔
      DeletionProof.AgreesOn version first second := by
  cases version with
  | v1 =>
    simp only [DeletionProof.signedPayload, DeletionProof.AgreesOn, v1Parts_flatten]
    constructor
    · intro same
      exact (start_eq same).1
    · rintro ⟨scope, hash, tx⟩
      rw [scope, hash, tx]
  | v2 =>
    simp only [DeletionProof.signedPayload, DeletionProof.AgreesOn, v2Parts_flatten]
    constructor
    · intro same
      obtain ⟨⟨scope, hash, tx⟩, afterTx⟩ := start_eq same
      obtain ⟨covered, afterCovered⟩ := layers_selfDelimiting afterTx
      obtain ⟨excluded, receipt⟩ := excluded_selfDelimiting afterCovered
      exact ⟨scope, hash, tx, covered, excluded, receiptPart_injective receipt⟩
    · rintro ⟨scope, hash, tx, covered, excluded, receipt⟩
      rw [scope, hash, tx, covered, excluded, receipt]
  | v3 =>
    simp only [DeletionProof.signedPayload, DeletionProof.AgreesOn,
      DeletionProof.constructV3Payload]
    constructor
    · intro same
      obtain ⟨⟨scope, hash, tx⟩, afterTx⟩ := start_eq same
      obtain ⟨timestamp, afterTimestamp⟩ := u64Code_selfDelimiting afterTx
      obtain ⟨covered, afterCovered⟩ := layers_selfDelimiting afterTimestamp
      obtain ⟨excluded, afterExcluded⟩ := excluded_selfDelimiting afterCovered
      obtain ⟨repair, optional⟩ :=
        vecCode_selfDelimiting GraphRepairAttestation.serialize_selfDelimiting afterExcluded
      obtain ⟨receipt, position⟩ := optionalParts_injective optional
      exact ⟨scope, hash, tx, timestamp, covered, excluded, repair, receipt, position⟩
    · rintro ⟨scope, hash, tx, timestamp, covered, excluded, repair, receipt, position⟩
      rw [scope, hash, tx, timestamp, covered, excluded, repair, receipt, position]
  | v5 =>
    simp only [DeletionProof.signedPayload, DeletionProof.AgreesOn,
      DeletionProof.constructV5Payload]
    constructor
    · intro same
      obtain ⟨number, afterNumber⟩ := u8Code_selfDelimiting same
      obtain ⟨⟨scope, hash, tx⟩, afterTx⟩ := start_eq afterNumber
      obtain ⟨timestamp, afterTimestamp⟩ := u64Code_selfDelimiting afterTx
      obtain ⟨custody, afterCustody⟩ :=
        CustodyLevel.serialize_selfDelimiting afterTimestamp
      obtain ⟨covered, afterCovered⟩ := layers_selfDelimiting afterCustody
      obtain ⟨measured, afterMeasured⟩ :=
        vecCode_selfDelimiting LayerWitnessMeasurement.serialize_selfDelimiting afterCovered
      obtain ⟨uncovered, excludedCode⟩ :=
        vecCode_selfDelimiting UncoveredLayer.serialize_selfDelimiting afterMeasured
      have excluded := excluded_selfDelimiting.injective excludedCode
      exact ⟨number, scope, hash, tx, timestamp, custody, covered, measured, uncovered,
        excluded⟩
    · rintro ⟨number, scope, hash, tx, timestamp, custody, covered, measured, uncovered,
        excluded⟩
      rw [number, scope, hash, tx, timestamp, custody, covered, measured, uncovered, excluded]

theorem serialize_scope_head (scope : DeletionScope) :
    ∃ head rest, scope.serialize = head :: rest ∧ head ≠ 5 := by
  cases scope with
  | document docId tenantId => exact ⟨0, _, rfl, by decide⟩
  | collection collectionId tenantId => exact ⟨1, _, rfl, by decide⟩
  | tenant tenantId => exact ⟨2, _, rfl, by decide⟩

theorem scope_ne_v5 (scope : DeletionScope) (rest : Bytes)
    (isV5 : second.signatureVersion = SignatureVersion.v5.asU8) :
    scope.serialize ++ rest ≠ second.signedPayload .v5 := by
  obtain ⟨head, tail, isHead, notFive⟩ := serialize_scope_head scope
  intro same
  simp only [DeletionProof.signedPayload, DeletionProof.constructV5Payload, isHead, isV5] at same
  exact notFive (List.cons.inj same).1

/-- The versions whose byte strings have one reading: all of them but 2 against 3, which no key
signs both. -/
def SignatureVersion.Apart : SignatureVersion → SignatureVersion → Prop
  | .v2, .v3 | .v3, .v2 => False
  | _, _ => True

theorem version_eq_of_signedPayload_eq {version version' : SignatureVersion}
    (isFirst : first.signatureVersion = version.asU8)
    (isSecond : second.signatureVersion = version'.asU8) (apart : version.Apart version')
    (same : first.signedPayload version = second.signedPayload version') :
    version = version' := by
  have beginsWithScope : ∀ (proof : DeletionProof) (version : SignatureVersion), version ≠ .v5 →
      ∃ rest, proof.signedPayload version = proof.scope.serialize ++ rest := by
    intro proof version notFive
    cases version with
    | v1 => exact ⟨_, v1Parts_flatten proof⟩
    | v2 => exact ⟨_, v2Parts_flatten proof⟩
    | v3 => exact ⟨_, rfl⟩
    | v5 => exact absurd rfl notFive
  have shorter : ∀ first second : DeletionProof,
      first.signedPayload .v1 ≠ second.signedPayload .v2 := by
    intro first second same
    simp only [DeletionProof.signedPayload, v1Parts_flatten, v2Parts_flatten] at same
    exact vecCode_ne_nil _ _ (start_eq same).2.symm
  have shorter' : ∀ first second : DeletionProof,
      first.signedPayload .v1 ≠ second.signedPayload .v3 := by
    intro first second same
    simp only [DeletionProof.signedPayload, v1Parts_flatten,
      DeletionProof.constructV3Payload] at same
    have length := congrArg List.length (start_eq same).2
    rw [length_append, u64Code_length] at length
    exact absurd length (Nat.add_pos_left (by decide) _).ne
  by_cases firstFive : version = .v5
  · subst firstFive
    by_contra different
    obtain ⟨rest, isPayload⟩ := beginsWithScope second version' (Ne.symm different)
    exact scope_ne_v5 second.scope rest isFirst (isPayload.symm.trans same.symm)
  · by_cases secondFive : version' = .v5
    · subst secondFive
      obtain ⟨rest, isPayload⟩ := beginsWithScope first version firstFive
      exact absurd (isPayload.symm.trans same) (scope_ne_v5 first.scope rest isSecond)
    · cases version <;> cases version' <;>
        first
        | rfl
        | exact apart.elim
        | exact absurd same (shorter first second)
        | exact absurd same.symm (shorter second first)
        | exact absurd same (shorter' first second)
        | exact absurd same.symm (shorter' second first)
        | exact absurd rfl firstFive
        | exact absurd rfl secondFive

end OneVersion

end Contextra.Attestation
