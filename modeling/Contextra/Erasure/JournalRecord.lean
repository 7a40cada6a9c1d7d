import Contextra.Erasure.SagaMachine
import Contextra.Library.Bytes

/-!
# Journal records

The plaintext of a journal record.  Its two lists are written whole behind a 16-bit count
that stops at 65535, so a record comes back if and only if both are shorter than 2^16.
-/

namespace Contextra.Erasure

open Library List

inductive RecordCode where
  | requestedIntent
  | gated
  | keyDestroyed
  | purging
  | verifying
  | completed
  | pending
  | refused
  | restrictedRead
  | observerAck
  | lifted
  | restricted
  deriving DecidableEq, Repr

namespace RecordCode

def asU8 : RecordCode → UInt8
  | requestedIntent => 1
  | gated => 2
  | keyDestroyed => 3
  | purging => 4
  | verifying => 5
  | completed => 6
  | pending => 7
  | refused => 8
  | restrictedRead => 9
  | observerAck => 10
  | lifted => 11
  | restricted => 12

/-- Any other byte is `Corrupt`. -/
def fromU8 : UInt8 → Option RecordCode
  | 1 => some requestedIntent
  | 2 => some gated
  | 3 => some keyDestroyed
  | 4 => some purging
  | 5 => some verifying
  | 6 => some completed
  | 7 => some pending
  | 8 => some refused
  | 9 => some restrictedRead
  | 10 => some observerAck
  | 11 => some lifted
  | 12 => some restricted
  | _ => none

@[simp] theorem fromU8_asU8 (code : RecordCode) : fromU8 code.asU8 = some code := by
  cases code <;> rfl

def toSagaState : RecordCode → SagaState
  | requestedIntent => .requested
  | gated => .gated
  | keyDestroyed => .keyDestroyed
  | purging => .purging
  | verifying => .verifying
  | completed => .completed
  | pending => .pending
  | refused => .refused
  | restrictedRead => .restricted
  | restricted => .restricted
  | observerAck => .completed
  | lifted => .lifted

end RecordCode

inductive TargetType where
  | document
  | subject
  | collection
  | tenant
  | superseded
  | documentReplace
  deriving DecidableEq, Repr

namespace TargetType

def asU8 : TargetType → UInt8
  | document => 1
  | subject => 2
  | collection => 3
  | tenant => 4
  | superseded => 5
  | documentReplace => 6

/-- Any other byte is `Corrupt`. -/
def fromU8 : UInt8 → Option TargetType
  | 1 => some document
  | 2 => some subject
  | 3 => some collection
  | 4 => some tenant
  | 5 => some superseded
  | 6 => some documentReplace
  | _ => none

@[simp] theorem fromU8_asU8 (target : TargetType) : fromU8 target.asU8 = some target := by
  cases target <;> rfl

end TargetType

structure JournalRecord where
  erasureId : ErasureId
  recordCode : RecordCode
  timestamp : UInt64
  commitment : FixedBytes 16
  targetType : TargetType
  retentionCode : UInt8
  phase : UInt8
  reason : UInt8
  scopeTags : Bytes
  counters : UInt64
  witnessHashes : List (FixedBytes 32)
  deriving DecidableEq

def takeByte : Bytes → Option (UInt8 × Bytes)
  | [] => none
  | byte :: rest => some (byte, rest)

@[simp] theorem takeByte_cons (byte : UInt8) (rest : Bytes) :
    takeByte (byte :: rest) = some (byte, rest) := rfl

def takeHashes : Nat → Bytes → Option (List (FixedBytes 32))
  | 0, _ => some []
  | count + 1, bytes => do
      let (hash, rest) ← takeFixed 32 bytes
      let hashes ← takeHashes count rest
      some (hash :: hashes)

theorem takeHashes_flatMap (hashes : List (FixedBytes 32)) :
    takeHashes hashes.length (hashes.flatMap Subtype.val) = some hashes := by
  induction hashes with
  | nil => rfl
  | cons hash hashes ih =>
    rw [flatMap_cons, length_cons, takeHashes, takeFixed_append]
    simp only [Option.bind_eq_bind, Option.bind_some, ih]

theorem takeHashes_length {count : Nat} {bytes : Bytes} {hashes : List (FixedBytes 32)}
    (taken : takeHashes count bytes = some hashes) : hashes.length = count := by
  induction count generalizing bytes hashes with
  | zero =>
    cases taken
    rfl
  | succ count ih =>
    simp only [takeHashes, Option.bind_eq_bind, Option.bind_eq_some_iff] at taken
    obtain ⟨⟨hash, rest⟩, _, later, found, same⟩ := taken
    cases same
    rw [length_cons, ih found]

namespace JournalRecord

/-- The count in front of a list, `u16::try_from(len).unwrap_or(u16::MAX)`. -/
def count16 (length : Nat) : Nat := if length < 2 ^ 16 then length else 65535

/-- The part of the plaintext behind the reason: both lists and the counters between them. -/
def encodeLists (record : JournalRecord) : Bytes :=
  toBeBytes 2 (count16 record.scopeTags.length) ++ record.scopeTags ++
    toBeBytes 8 record.counters.toNat ++
    toBeBytes 2 (count16 record.witnessHashes.length) ++ record.witnessHashes.flatMap Subtype.val

def encode (record : JournalRecord) : Bytes :=
  record.erasureId.val ++ [record.recordCode.asU8] ++ toBeBytes 8 record.timestamp.toNat ++
    record.commitment.val ++
    [record.targetType.asU8, record.retentionCode, record.phase, record.reason] ++
    record.encodeLists

/-- The scope tags, the counters and the witness hashes. -/
def decodeLists (bytes : Bytes) : Option (Bytes × UInt64 × List (FixedBytes 32)) := do
  let (tagLen, rest) ← takeField 2 bytes
  guard (fromBeBytes tagLen + 8 + 2 ≤ rest.length)
  let (scopeTags, rest) ← takeField (fromBeBytes tagLen) rest
  let (counters, rest) ← takeField 8 rest
  let (wCount, rest) ← takeField 2 rest
  guard (fromBeBytes wCount * 32 ≤ rest.length)
  let witnessHashes ← takeHashes (fromBeBytes wCount) rest
  some (scopeTags, UInt64.ofNat (fromBeBytes counters), witnessHashes)

/-- The decoding; wherever it fails, `decode` answers `Corrupt`. -/
def decodeFields (bytes : Bytes) : Option JournalRecord := do
  guard (16 + 1 + 8 + 16 + 1 + 1 + 1 + 1 + 2 + 8 + 2 ≤ bytes.length)
  let (erasureId, rest) ← takeFixed 16 bytes
  let (codeByte, rest) ← takeByte rest
  let recordCode ← RecordCode.fromU8 codeByte
  let (timestamp, rest) ← takeField 8 rest
  let (commitment, rest) ← takeFixed 16 rest
  let (targetByte, rest) ← takeByte rest
  let targetType ← TargetType.fromU8 targetByte
  let (retentionCode, rest) ← takeByte rest
  let (phase, rest) ← takeByte rest
  let (reason, rest) ← takeByte rest
  let (scopeTags, counters, witnessHashes) ← decodeLists rest
  some
    { erasureId, recordCode, timestamp := UInt64.ofNat (fromBeBytes timestamp), commitment
      targetType, retentionCode, phase, reason, scopeTags, counters, witnessHashes }

def decode (bytes : Bytes) : Except ErasureError JournalRecord :=
  match decodeFields bytes with
  | some record => .ok record
  | none => .error .corrupt

def Representable (record : JournalRecord) : Prop :=
  record.scopeTags.length < 2 ^ 16 ∧ record.witnessHashes.length < 2 ^ 16

instance (record : JournalRecord) : Decidable record.Representable :=
  inferInstanceAs (Decidable (_ ∧ _))

theorem length_flatMap_val (hashes : List (FixedBytes 32)) :
    (hashes.flatMap Subtype.val).length = hashes.length * 32 := by
  induction hashes with
  | nil => rfl
  | cons hash hashes ih =>
    rw [flatMap_cons, length_append, hash.property, ih,
      length_cons]
    omega

theorem length_encode (record : JournalRecord) :
    record.encode.length = 57 + record.scopeTags.length + record.witnessHashes.length * 32 := by
  simp only [encode, encodeLists, length_append, length_toBeBytes, length_flatMap_val,
    length_cons, length_nil, record.erasureId.property, record.commitment.property]
  omega

variable {record : JournalRecord}

theorem decodeLists_encodeLists (representable : record.Representable) :
    decodeLists record.encodeLists =
      some (record.scopeTags, record.counters, record.witnessHashes) := by
  have tagCount : fromBeBytes (toBeBytes 2 (count16 record.scopeTags.length)) =
      record.scopeTags.length := by
    rw [count16, if_pos representable.1, fromBeBytes_toBeBytes representable.1]
  have hashCount : fromBeBytes (toBeBytes 2 (count16 record.witnessHashes.length)) =
      record.witnessHashes.length := by
    rw [count16, if_pos representable.2, fromBeBytes_toBeBytes representable.2]
  have counters : UInt64.ofNat (fromBeBytes (toBeBytes 8 record.counters.toNat)) =
      record.counters := by
    rw [fromBeBytes_toBeBytes record.counters.toNat_lt, UInt64.ofNat_toNat]
  have hashSize := length_flatMap_val record.witnessHashes
  simp only [decodeLists, encodeLists, append_assoc, takeField_toBeBytes, tagCount, hashCount,
    counters, takeHashes_flatMap, takeField_append, Option.bind_eq_bind, Option.bind_some, guard]
  rw [if_pos (by simp only [length_append, length_toBeBytes]; omega), if_pos (by omega)]
  rfl

theorem decodeFields_encode (representable : record.Representable) :
    decodeFields record.encode = some record := by
  have enough : 16 + 1 + 8 + 16 + 1 + 1 + 1 + 1 + 2 + 8 + 2 ≤ record.encode.length := by
    rw [length_encode]
    omega
  have time : UInt64.ofNat (fromBeBytes (toBeBytes 8 record.timestamp.toNat)) =
      record.timestamp := by
    rw [fromBeBytes_toBeBytes record.timestamp.toNat_lt, UInt64.ofNat_toNat]
  have lists := decodeLists_encodeLists representable
  rw [decodeFields, guard, if_pos enough]
  simp only [encode, append_assoc, cons_append, nil_append, takeFixed_append,
    takeByte_cons, takeField_toBeBytes, RecordCode.fromU8_asU8, TargetType.fromU8_asU8, lists,
    time, Option.bind_eq_bind, Option.bind_some, Option.pure_def]

theorem length_of_decodeLists {bytes scopeTags : Bytes} {counters : UInt64}
    {witnessHashes : List (FixedBytes 32)}
    (decoded : decodeLists bytes = some (scopeTags, counters, witnessHashes)) :
    scopeTags.length < 2 ^ 16 ∧ witnessHashes.length < 2 ^ 16 := by
  simp only [decodeLists, Option.bind_eq_bind, Option.bind_eq_some_iff] at decoded
  obtain ⟨⟨tagLen, rest⟩, tagLenRead, _, _, ⟨tags, rest'⟩, tagsRead, ⟨_, _⟩, _, ⟨wCount, _⟩,
    wCountRead, _, _, hashes, hashesRead, same⟩ := decoded
  cases same
  have tagLenSize := (takeField_eq_some.mp tagLenRead).2
  have wCountSize := (takeField_eq_some.mp wCountRead).2
  have tagBound := fromBeBytes_lt tagLen
  have hashBound := fromBeBytes_lt wCount
  rw [tagLenSize] at tagBound
  rw [wCountSize] at hashBound
  rw [(takeField_eq_some.mp tagsRead).2, takeHashes_length hashesRead]
  exact ⟨tagBound, hashBound⟩

theorem representable_of_decodeFields {bytes : Bytes}
    (decoded : decodeFields bytes = some record) : record.Representable := by
  simp only [decodeFields, Option.bind_eq_bind, Option.bind_eq_some_iff] at decoded
  obtain ⟨_, _, _, _, _, _, _, _, _, _, _, _, _, _, _, _, _, _, _, _, _, _, ⟨_, _, _⟩, lists,
    same⟩ := decoded
  cases same
  exact length_of_decodeLists lists

theorem decode_encode_iff (record : JournalRecord) :
    decode record.encode = .ok record ↔ record.Representable := by
  unfold decode
  constructor
  · intro decoded
    cases found : decodeFields record.encode with
    | none =>
      rw [found] at decoded
      contradiction
    | some other =>
      rw [found] at decoded
      cases decoded
      exact representable_of_decodeFields found
  · intro representable
    rw [decodeFields_encode representable]

end JournalRecord

end Contextra.Erasure
