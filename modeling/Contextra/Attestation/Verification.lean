import Contextra.Attestation.Payloads

/-!
# Verifying deletion proofs

A key accepts a proof under the signature of another one if and only if the two are of one version
and agree in the fields that the version lists.  The other fields are not covered.
-/

namespace Contextra.Attestation

open Library Contextra.Erasure List Option

variable {primitives : CryptoPrimitives}

inductive VerificationKey (primitives : CryptoPrimitives) where
  | hmac (key : Bytes)
  | ed25519 (key : primitives.VerifyingKey)

inductive VerificationError where
  | unsupportedVersion (version : UInt8)
  | unsupportedProofVersion (version : UInt8)
  | invalidProofSignature
  deriving DecidableEq

/-- `Signature::from_slice` and the check of the signature. -/
def verifySignature (primitives : CryptoPrimitives) (key : primitives.VerifyingKey)
    (message signature : Bytes) : Bool :=
  if length : signature.length = 64 then primitives.verifies key message ⟨signature, length⟩
  else false

namespace DeletionProof

def verify (proof : DeletionProof) (key : VerificationKey primitives) :
    Except VerificationError Bool :=
  match SignatureVersion.tryFrom proof.signatureVersion with
  | none => .error (.unsupportedVersion proof.signatureVersion)
  | some version =>
    match version, key with
    | .v1, .hmac key => .ok (proof.signature = computeHmacSha256 primitives key proof.v1Parts)
    | .v2, .hmac key => .ok (proof.signature = computeHmacSha256 primitives key proof.v2Parts)
    | .v3, .ed25519 key =>
      .ok (verifySignature primitives key proof.constructV3Payload proof.signature)
    | .v5, .ed25519 key =>
      .ok (verifySignature primitives key proof.constructV5Payload proof.signature)
    | .v5, .hmac key =>
      .ok (proof.signature = computeHmacSha256 primitives key [proof.constructV5Payload])
    | _, _ => .ok false

def verifyExternal (proof : DeletionProof) (publicKey : primitives.VerifyingKey) :
    Except VerificationError Unit :=
  let check payload :=
    if verifySignature primitives publicKey payload proof.signature then .ok ()
    else .error .invalidProofSignature
  match SignatureVersion.tryFrom proof.signatureVersion with
  | some .v3 => check proof.constructV3Payload
  | some .v5 => check proof.constructV5Payload
  | _ => .error (.unsupportedProofVersion proof.signatureVersion)

end DeletionProof

namespace SigningKeyHandle

def verificationKey : SigningKeyHandle primitives → VerificationKey primitives
  | hmac key => .hmac key
  | ed25519 key => .ed25519 (primitives.verifyingKey key)

def signatureOf : SigningKeyHandle primitives → Bytes → Bytes
  | hmac key, message => (primitives.hmacSha256 key message).val
  | ed25519 key, message => (primitives.sign key message).val

/-- Whether the key takes a signature for one of the byte string. -/
def Confirms : SigningKeyHandle primitives → Bytes → Bytes → Prop
  | hmac key, message, signature => signature = (primitives.hmacSha256 key message).val
  | ed25519 key, message, signature =>
    verifySignature primitives (primitives.verifyingKey key) message signature = true

def Signs : SigningKeyHandle primitives → SignatureVersion → Prop
  | hmac _, version => version ≠ .v3
  | ed25519 _, version => version = .v3 ∨ version = .v5

def Accepts (key : SigningKeyHandle primitives) (proof : DeletionProof) : Prop :=
  proof.verify key.verificationKey = .ok true ∨
    match key with
    | hmac _ => False
    | ed25519 key => proof.verifyExternal (primitives.verifyingKey key) = .ok ()

theorem confirms_signatureOf (key : SigningKeyHandle primitives) (message : Bytes) :
    key.Confirms message (key.signatureOf message) := by
  cases key with
  | hmac key => rfl
  | ed25519 key =>
    change verifySignature primitives _ message (primitives.sign key message).val = true
    rw [verifySignature, dif_pos (primitives.sign key message).property]
    exact primitives.verifies_sign key message

theorem accepts_iff (key : SigningKeyHandle primitives) (proof : DeletionProof) :
    key.Accepts proof ↔ ∃ version, proof.signatureVersion = version.asU8 ∧ key.Signs version ∧
      key.Confirms (proof.signedPayload version) proof.signature := by
  cases isVersion : SignatureVersion.tryFrom proof.signatureVersion with
  | none =>
    have noVersion : ¬ ∃ version, proof.signatureVersion = SignatureVersion.asU8 version ∧
        key.Signs version ∧ key.Confirms (proof.signedPayload version) proof.signature := by
      rintro ⟨version, isNumber, -⟩
      rw [SignatureVersion.tryFrom_eq_some.mpr isNumber] at isVersion
      cases isVersion
    refine iff_of_false ?_ noVersion
    cases key with
    | hmac key => simp [Accepts, DeletionProof.verify, isVersion]
    | ed25519 key =>
      simp [Accepts, DeletionProof.verify, DeletionProof.verifyExternal, isVersion]
  | some version =>
    have number := SignatureVersion.tryFrom_eq_some.mp isVersion
    have only : (∃ version, proof.signatureVersion = SignatureVersion.asU8 version ∧
        key.Signs version ∧ key.Confirms (proof.signedPayload version) proof.signature) ↔
        key.Signs version ∧ key.Confirms (proof.signedPayload version) proof.signature := by
      constructor
      · rintro ⟨other, isNumber, signs, confirms⟩
        rw [SignatureVersion.tryFrom_eq_some.mpr isNumber] at isVersion
        obtain rfl := some.inj isVersion
        exact ⟨signs, confirms⟩
      · exact fun both => ⟨version, number, both⟩
    rw [only]
    cases key with
    | hmac key =>
      cases version <;>
        simp [Accepts, DeletionProof.verify, isVersion, verificationKey, Signs, Confirms,
          DeletionProof.signedPayload, computeHmacSha256]
      all_goals exact decide_eq_true_iff
    | ed25519 key =>
      cases version <;>
        simp [Accepts, DeletionProof.verify, DeletionProof.verifyExternal, isVersion,
          verificationKey, Signs, Confirms, DeletionProof.signedPayload]

end SigningKeyHandle

/-- A proof that one of the three ways has signed with the key. -/
inductive Produced (primitives : CryptoPrimitives) :
    SigningKeyHandle primitives → DeletionProof → Prop where
  | issue {ctx saga witnesses excluded custody key nowUnixNanos proof} :
      issue primitives ctx saga witnesses excluded custody key nowUnixNanos = .ok proof →
      Produced primitives key proof
  | createWithWalReceipt {scope deletedKeys deletedAfterTx coveredLayers excludedScopes
      walChainReceipt proofKey} :
      Produced primitives (.hmac proofKey) (createWithWalReceipt primitives scope deletedKeys
        deletedAfterTx coveredLayers excludedScopes walChainReceipt proofKey)
  | createFullV3 {scope deletedKeys deletedAfterTx coveredLayers excludedScopes walChainReceipt
      auditChainPosition attestedAt graphRepair signingKey proof} :
      createFullV3 primitives scope deletedKeys deletedAfterTx coveredLayers excludedScopes
        walChainReceipt auditChainPosition attestedAt graphRepair signingKey = .ok proof →
      Produced primitives (.ed25519 signingKey) proof

theorem Produced.signed {key : SigningKeyHandle primitives} {proof : DeletionProof}
    (produced : Produced primitives key proof) :
    ∃ version, proof.signatureVersion = version.asU8 ∧ key.Signs version ∧ version ≠ .v1 ∧
      proof.signature = key.signatureOf (proof.signedPayload version) := by
  cases produced with
  | @issue ctx saga witnesses excluded custody key nowUnixNanos proof issued =>
    unfold Attestation.issue at issued
    cases gathered : gatherMeasurements witnesses excluded with
    | error error =>
      rw [gathered] at issued
      cases issued
    | ok measurements =>
      rw [gathered] at issued
      cases key with
      | hmac key =>
        obtain rfl := Except.ok.inj issued
        refine ⟨.v5, rfl, ?_, ?_, ?_⟩
        · exact fun isV3 => nomatch isV3
        · exact fun isV1 => nomatch isV1
        · simp only [computeHmacSha256, flatten_cons, flatten_nil,
            append_nil]
          rfl
      | ed25519 key =>
        obtain rfl := Except.ok.inj issued
        refine ⟨.v5, rfl, .inr rfl, ?_, rfl⟩
        exact fun isV1 => nomatch isV1
  | createWithWalReceipt =>
    refine ⟨.v2, rfl, ?_, ?_, rfl⟩
    · exact fun isV3 => nomatch isV3
    · exact fun isV1 => nomatch isV1
  | createFullV3 created =>
    unfold Attestation.createFullV3 at created
    dsimp only at created
    split at created
    · cases created
    · obtain rfl := Except.ok.inj created
      refine ⟨.v3, rfl, .inl rfl, ?_, rfl⟩
      exact fun isV1 => nomatch isV1

/-- The fields that a proof attests: all but the signature and the warning. -/
structure Attested where
  signatureVersion : UInt8
  scope : DeletionScope
  deletedKeysHash : FixedBytes 32
  deletedAfterTx : UInt64
  timestamp : UInt64
  coveredLayers : Vec DeletionLayer
  uncoveredLayers : Vec UncoveredLayer
  measurements : Vec LayerWitnessMeasurement
  excludedScopes : Vec ExcludedScope
  custody : CustodyLevel
  graphRepair : Vec GraphRepairAttestation
  walChainReceipt : Option (FixedBytes 32)
  auditChainPosition : Option UInt64
  deriving DecidableEq

namespace DeletionProof

def attested (proof : DeletionProof) : Attested :=
  ⟨proof.signatureVersion, proof.scope, proof.deletedKeysHash, proof.deletedAfterTx,
    proof.timestamp, proof.coveredLayers, proof.uncoveredLayers, proof.measurements,
    proof.excludedScopes, proof.custody, proof.graphRepair, proof.walChainReceipt,
    proof.auditChainPosition⟩

def signedBytes (proof : DeletionProof) : Bytes :=
  match SignatureVersion.tryFrom proof.signatureVersion with
  | some version => proof.signedPayload version
  | none => []

/-- Proofs of one version that agree in the fields which it lists. -/
def SameSigned (first second : DeletionProof) : Prop :=
  ∃ version : SignatureVersion, first.signatureVersion = version.asU8 ∧
    second.signatureVersion = version.asU8 ∧ AgreesOn version first second

variable {first second : DeletionProof}

theorem signedBytes_eq {version : SignatureVersion}
    (isVersion : first.signatureVersion = version.asU8) :
    first.signedBytes = first.signedPayload version := by
  rw [signedBytes, SignatureVersion.tryFrom_eq_some.mpr isVersion]

theorem signedBytes_eq_iff {version version' : SignatureVersion}
    (isFirst : first.signatureVersion = version.asU8)
    (isSecond : second.signatureVersion = version'.asU8) (apart : version.Apart version') :
    first.signedBytes = second.signedBytes ↔ SameSigned first second := by
  rw [signedBytes_eq isFirst, signedBytes_eq isSecond]
  constructor
  · intro same
    obtain rfl := version_eq_of_signedPayload_eq isFirst isSecond apart same
    exact ⟨version, isFirst, isSecond, (signedPayload_eq_iff version).mp same⟩
  · rintro ⟨shared, isShared, isShared', agrees⟩
    have isFirst' := SignatureVersion.tryFrom_eq_some.mpr isFirst
    have isSecond' := SignatureVersion.tryFrom_eq_some.mpr isSecond
    rw [SignatureVersion.tryFrom_eq_some.mpr isShared] at isFirst'
    rw [SignatureVersion.tryFrom_eq_some.mpr isShared'] at isSecond'
    obtain rfl := some.inj isFirst'
    obtain rfl := some.inj isSecond'
    exact (signedPayload_eq_iff shared).mpr agrees

end DeletionProof

theorem SigningKeyHandle.apart_of_signs {key : SigningKeyHandle primitives}
    {version version' : SignatureVersion} (signs : key.Signs version) (signs' : key.Signs version') :
    version.Apart version' := by
  cases key with
  | hmac key =>
    cases version <;> cases version' <;> trivial
  | ed25519 key =>
    rcases signs with rfl | rfl <;> rcases signs' with rfl | rfl <;> trivial

/-- With a signature that its key confirms for one byte string only, another proof under it is
accepted if and only if it agrees in what the version lists; and two proofs of versions 2, 3 and 5,
not one of 2 and one of 3, share a signed byte string if and only if they agree in what is signed.
-/
theorem accepts_attested_iff {key : SigningKeyHandle primitives} {proof other : DeletionProof}
    (produced : Produced primitives key proof)
    (ideal : ∀ message, key.Confirms message proof.signature → message = proof.signedBytes)
    (sameSignature : other.signature = proof.signature) :
    (key.Accepts other ↔ other.SameSigned proof) ∧
      ((key.Accepts other → other.attested = proof.attested) ↔
        ¬ (other.SameSigned proof ∧ other.attested ≠ proof.attested)) ∧
      ∀ (third : DeletionProof) (version version' : SignatureVersion),
        third.signatureVersion = version.asU8 → proof.signatureVersion = version'.asU8 →
        version.Apart version' →
        (third.signedBytes = proof.signedBytes ↔ third.SameSigned proof) := by
  obtain ⟨version, isVersion, signs, -, isSignature⟩ := produced.signed
  have accepts : key.Accepts other ↔ other.SameSigned proof := by
    rw [SigningKeyHandle.accepts_iff]
    constructor
    · rintro ⟨version', isVersion', signs', confirms⟩
      rw [sameSignature] at confirms
      have sameBytes := ideal _ confirms
      rw [← DeletionProof.signedBytes_eq isVersion'] at sameBytes
      have apart := SigningKeyHandle.apart_of_signs signs' signs
      exact (DeletionProof.signedBytes_eq_iff isVersion' isVersion apart).mp sameBytes
    · rintro ⟨shared, isOther, isProof, agrees⟩
      have isShared := SignatureVersion.tryFrom_eq_some.mpr isProof
      rw [SignatureVersion.tryFrom_eq_some.mpr isVersion] at isShared
      obtain rfl := some.inj isShared
      refine ⟨version, isOther, signs, ?_⟩
      rw [sameSignature, isSignature, (signedPayload_eq_iff version).mpr agrees]
      exact key.confirms_signatureOf _
  refine ⟨accepts, ?_, ?_⟩
  · rw [accepts, not_and, not_not]
  · intro third version version' isThird isProof apart
    exact DeletionProof.signedBytes_eq_iff isThird isProof apart

def filled (size : Nat) (byte : UInt8) : FixedBytes size :=
  ⟨replicate size byte, length_replicate⟩

def singlingPrimitives (signed : Bytes) : CryptoPrimitives where
  SigningKey := Unit
  VerifyingKey := Unit
  verifyingKey := id
  blake3 _ := filled 32 0
  hmacSha256 _ message := filled 32 (if message = signed then 1 else 0)
  sign _ message := filled 64 (if message = signed then 1 else 0)
  verifies _ message signature :=
    signature.val = replicate 64 (if message = signed then 1 else 0)
  verifies_sign _ _ := decide_eq_true rfl

def tenantStub : DeletionProof :=
  v3Stub (singlingPrimitives []) (.tenant 7) [[1]] 9 ⟨[.lsmMemtable], by decide⟩
    ⟨[.consolidatedAndDistilled], by decide⟩ none none 1700000000 .empty

abbrev tenantPrimitives : CryptoPrimitives := singlingPrimitives tenantStub.constructV3Payload

def tenantProof : DeletionProof := { tenantStub with signature := replicate 64 1 }

theorem tenantProof_produced : Produced tenantPrimitives (.ed25519 ()) tenantProof := by
  have created : createFullV3 tenantPrimitives (.tenant 7) [[1]] 9
      ⟨[⟨.lsmMemtable⟩], by decide⟩ ⟨[.consolidatedAndDistilled], by decide⟩ none none 1700000000
      .empty () = .ok tenantProof := by
    have signature : (tenantPrimitives.sign () tenantStub.constructV3Payload).val =
        replicate 64 1 :=
      congrArg (replicate 64) (if_pos rfl)
    unfold createFullV3
    dsimp only
    split
    · rename_i hasIndex
      exact absurd hasIndex.1 (by decide)
    · rw [tenantProof, ← signature]
      rfl
  exact .createFullV3 created

theorem tenantProof_ideal (message : Bytes)
    (confirms : (SigningKeyHandle.ed25519 () : SigningKeyHandle tenantPrimitives).Confirms message
      tenantProof.signature) : message = tenantProof.signedBytes := by
  have length : tenantProof.signature.length = 64 := length_replicate
  have isSignature : tenantProof.signature =
      replicate 64 (if message = tenantStub.constructV3Payload then 1 else 0) := by
    have verified : verifySignature tenantPrimitives () message tenantProof.signature = true :=
      confirms
    unfold verifySignature at verified
    rw [dif_pos length] at verified
    exact of_decide_eq_true verified
  by_contra different
  have other : message ≠ tenantStub.constructV3Payload := different
  rw [if_neg other] at isSignature
  exact absurd (congrArg List.head? isSignature) (by decide)

/-- The proof with itself. -/
theorem accepts_attested_iff_self :
    let key : SigningKeyHandle tenantPrimitives := .ed25519 ()
    (key.Accepts tenantProof ↔ tenantProof.SameSigned tenantProof) ∧
      ((key.Accepts tenantProof → tenantProof.attested = tenantProof.attested) ↔
        ¬ (tenantProof.SameSigned tenantProof ∧ tenantProof.attested ≠ tenantProof.attested)) ∧
      ∀ (third : DeletionProof) (version version' : SignatureVersion),
        third.signatureVersion = version.asU8 →
        tenantProof.signatureVersion = version'.asU8 → version.Apart version' →
        (third.signedBytes = tenantProof.signedBytes ↔ third.SameSigned tenantProof) :=
  accepts_attested_iff tenantProof_produced tenantProof_ideal rfl

/-- With another custody level the proof of version 3 is still accepted. -/
theorem accepts_otherCustody :
    let key : SigningKeyHandle tenantPrimitives := .ed25519 ()
    let other : DeletionProof := { tenantProof with custody := .sovereign }
    Produced tenantPrimitives key tenantProof ∧
      (∀ message, key.Confirms message tenantProof.signature →
        message = tenantProof.signedBytes) ∧
      other.signature = tenantProof.signature ∧ key.Accepts other ∧
      other.attested ≠ tenantProof.attested := by
  intro key other
  refine ⟨tenantProof_produced, tenantProof_ideal, rfl, ?_, ?_⟩
  · have accepted := (accepts_attested_iff tenantProof_produced tenantProof_ideal
      (show other.signature = tenantProof.signature from rfl)).1
    apply accepted.mpr
    exact ⟨.v3, rfl, rfl, rfl, rfl, rfl, rfl, rfl, rfl, rfl, rfl, rfl⟩
  · intro same
    have custody : CustodyLevel.sovereign = CustodyLevel.localCustody :=
      congrArg Attested.custody same
    exact absurd custody (by decide)

end Contextra.Attestation
