import Contextra.Types

/-!
# Types of the erasure crate
-/

namespace Contextra.Erasure

/-- A byte array of a fixed size, `[u8; n]`. -/
abbrev FixedBytes (size : Nat) := { bytes : Bytes // bytes.length = size }

/-- The `size` bytes at `offset`, copied into a zeroed array. -/
def FixedBytes.copied (raw : Bytes) (offset size : Nat) : FixedBytes size :=
  ⟨((raw.drop offset).take size ++ List.replicate size 0).take size, by simp⟩

theorem FixedBytes.copied_eq {raw : Bytes} {offset size : Nat} {field : FixedBytes size}
    (isField : (raw.drop offset).take size = field.val) : .copied raw offset size = field := by
  apply Subtype.ext
  change ((raw.drop offset).take size ++ List.replicate size 0).take size = field.val
  rw [isField, List.take_left' field.property]

inductive ErasureError where
  | io (message : String)
  | crypto (message : String)
  | corrupt
  | capacity
  | slotMissing
  | invalidTransition (before after : String)
  | limitExceeded (message : String)
  | residue (hits : Nat)
  | refused
  | internal (message : String)
  | other (message : String)
  deriving DecidableEq, Repr

abbrev ErasureId := FixedBytes 16

inductive EraseTarget where
  | keyRange (start finish : Bytes)
  | exactKeys (keys : List Bytes)
  deriving DecidableEq, Repr

inductive EraseMode where
  | erase
  | restrict
  deriving DecidableEq, Repr

inductive Timing where
  | now
  | batched
  deriving DecidableEq, Repr

inductive RetentionCode where
  | noObligation
  | obligationExpired
  | obligationActive
  | legalClaimsPending
  | dataSubjectRequestedRestriction
  | operatorOverride
  deriving DecidableEq, Repr

structure RetentionAttestation where
  code : RetentionCode
  attestedBy : Bytes
  attestedAt : Nat
  deriving DecidableEq, Repr

inductive RefusalReason where
  | retentionObligation
  | invalidParameters
  deriving DecidableEq, Repr

abbrev LayerId := FixedBytes 16

inductive PendingReason where
  | io
  | slaExceeded
  | layerFailed (layer : LayerId)
  | witnessMissing
  | diskReserve
  | other
  deriving DecidableEq

inductive Phase where
  | intent
  | gate
  | keyDestroy
  | purge
  | verify
  deriving DecidableEq, Repr

inductive ErasureStatus where
  | requested
  | gated
  | keyDestroyed
  | purging
  | verifying
  | completed
  | restricted
  | lifted
  | pending (phase : Phase) (reason : PendingReason)
  | refused (reason : RefusalReason)

end Contextra.Erasure
