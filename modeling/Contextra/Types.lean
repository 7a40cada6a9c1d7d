import Mathlib

/-!
# Shared types

Byte strings, transaction ids, sequence numbers and errors.  A sequence number of the store is a
64-bit word whose top bit marks a tombstone; `SeqNo` has the two parts apart.
-/

namespace Contextra

abbrev Bytes := List UInt8

/-- A transaction id, the inner `u64` of `TxId`. -/
abbrev TxId := Nat

/-- A tenant, the inner `u64` of `TenantId`. -/
abbrev TenantId := Nat

/-- `TxId::INTERNAL_BASE`, the first id of the internal system range. -/
def internalBase : TxId := 2 ^ 64 - 1 - 1000000

/-- The value of `TOMBSTONE_BIT`, bit 63 of a sequence word. -/
def tombstoneBit : Nat := 2 ^ 63

structure SeqNo where
  raw : Nat
  tombstone : Bool
  deriving DecidableEq, Repr

/-- Why validation refused a read set; each case carries what its message prints. -/
inductive ConflictReason where
  | capacityReached (tracked limit : Nat)
  | snapshotTooOld (key : Bytes) (snapshot prunedThrough : Nat)
  | keyModified (key : Bytes) (commitSeq snapshot : Nat)
  | coarsenedPrefix (key coarse : Bytes) (commitSeq snapshot : Nat)
  | rangeTooOld (range : Bytes) (snapshot prunedThrough : Nat)
  | phantomKey (key range : Bytes) (commitSeq snapshot : Nat)
  | phantomPrefix (coarse range : Bytes) (commitSeq snapshot : Nat)
  deriving DecidableEq, Repr

inductive ContextraError where
  | conflict (tx : TxId) (reason : ConflictReason)
  | commitTimeout (tx : TxId)
  | invalidInput (message : String)
  | storage (message : String)
  | internal (message : String)
  deriving DecidableEq, Repr

end Contextra
