import Contextra.Library.BinarySearch
import Contextra.Library.Bloom
import Contextra.Library.Bytes
import Contextra.Library.LexPrefix
import Contextra.Store.Entry

/-!
# SSTable blocks

A block holds entries one behind the other, a Bloom filter over their keys, the offset of
each entry, and a trailer with the lengths of the two.  The model covers format version 4,
the one that is written.
-/

namespace Contextra.Store

open Library
open scoped Library.ByteOrder

/-- An entry as the builder takes it and the readers return it: `(key, value, seq_no, tx_id)`. -/
structure TableEntry where
  key : Bytes
  value : Bytes
  seqNo : UInt64
  txId : UInt64
  deriving DecidableEq, Repr

def rawSeq (seqNo : UInt64) : Nat := seqNo.toNat % tombstoneBit

/-- The errors of builder and readers; a constructor of its own where the message prints
values.  `otherFormat` stands for what the readers of older formats return. -/
inductive SstableError where
  | tooLarge (keyLen valueLen : Nat)
  | entryTooLarge (keyLen valueLen : Nat)
  | outOfOrder (previous current : Bytes)
  | duplicateVersion (previousSeq currentSeq : Nat)
  | invalidHashes (numHashes : Nat)
  | tooManyBits (numBits : Nat)
  | insufficientBits (length numBits : Nat)
  | unsupportedVersion (version : Nat)
  | otherFormat
  | invalidInput (message : String)
  | storage (message : String)
  | parseError (message : String)
  | checksumMismatch (offset : Nat)
  | decryptionFailed
  deriving DecidableEq, Repr

/-- `data.get(offset..offset + count).ok_or_else(..)`. -/
def getField (message : String) (offset count : Nat) (data : Bytes) : Except SstableError Bytes :=
  match fieldAt offset count data with
  | some field => .ok field
  | none => .error (.storage message)

/-- `BloomFilter::hash_pair`, from the digest of the key. -/
def hashPair (digest : Bytes → Bytes) (key : Bytes) : Nat × Nat :=
  (fromLeBytes ((digest key).take 8), fromLeBytes (((digest key).drop 8).take 8) ||| 1)

def nextMultipleOf (value factor : Nat) : Nat := (value + factor - 1) / factor * factor

/-- The bits of the filter of a block with `count` entries. -/
def blockBloomBits (count : Nat) : Nat := if count = 0 then 64 else nextMultipleOf (count * 10) 64

def blockBloom (keyHashes : List (Nat × Nat)) : Bytes :=
  let numBits := blockBloomBits keyHashes.length
  (insertAll 8 7 numBits (List.replicate (numBits / 8) 0) keyHashes).map UInt8.ofNat

def mayContainKeyInBlockBloom (digest : Bytes → Bytes) (bloomBytes key : Bytes) : Bool :=
  let numBits := bloomBytes.length * 8
  if numBits = 0 then true
  else mayContain 8 7 numBits (bloomBytes.map UInt8.toNat) (hashPair digest key)

def blockSize : Nat := 4096

structure BlockBuilder where
  data : Bytes
  offsets : List Nat
  keyHashes : List (Nat × Nat)
  deriving DecidableEq, Repr

def TableEntry.toBytes (entry : TableEntry) : Bytes :=
  toLeBytes 2 entry.key.length ++
    (entry.key ++
      (toLeBytes 8 entry.seqNo.toNat ++
        (toLeBytes 8 entry.txId.toNat ++ (toLeBytes 4 entry.value.length ++ entry.value))))

namespace BlockBuilder

def new : BlockBuilder := ⟨[], [], []⟩

def isEmpty (block : BlockBuilder) : Bool := block.offsets.isEmpty

def projectedLen (block : BlockBuilder) (key value : Bytes) : Nat :=
  let projectedN := block.offsets.length + 1
  block.data.length + key.length + value.length + 22 + nextMultipleOf (projectedN * 10) 64 / 8 +
    projectedN * 4 + 8

/-- `BlockBuilder::add`; nothing when it returns `false`. -/
def add (digest : Bytes → Bytes) (block : BlockBuilder) (entry : TableEntry) :
    Option BlockBuilder :=
  if block.data ≠ [] ∧ blockSize < block.projectedLen entry.key entry.value then none
  else if 2 ^ 16 ≤ entry.key.length then none
  else if 2 ^ 32 ≤ entry.value.length then none
  else if 2 ^ 32 ≤ block.data.length then none
  else
    some ⟨block.data ++ entry.toBytes, block.offsets ++ [block.data.length],
      block.keyHashes ++ [hashPair digest entry.key]⟩

def build (block : BlockBuilder) : Bytes :=
  let bloom := blockBloom block.keyHashes
  block.data ++
    (bloom ++
      (block.offsets.flatMap (toLeBytes 4) ++
        (toLeBytes 4 (min bloom.length (2 ^ 32 - 1)) ++
          toLeBytes 4 (min block.offsets.length (2 ^ 32 - 1)))))

end BlockBuilder

structure BlockTrailer where
  numOffsets : Nat
  offsetsStart : Nat
  bloomBytes : Bytes
  deriving DecidableEq, Repr

def parseBlockTrailer (block : Bytes) : Except SstableError BlockTrailer :=
  let n := block.length
  if n < 8 then .error (.storage "block too small")
  else do
    let numField ← getField "malformed block: missing num_offsets" (n - 4) 4 block
    let bloomField ← getField "malformed block: missing bloom_len" (n - 8) 4 block
    let offsetsLen := fromLeBytes numField * 4
    let bloomLen := fromLeBytes bloomField
    if n < 8 + offsetsLen + bloomLen then
      .error (.storage "malformed block: trailer length out of bounds")
    else do
      let offsetsStart := n - 8 - offsetsLen
      let bloomBytes ← getField "malformed block: missing bloom bytes" (offsetsStart - bloomLen)
        bloomLen block
      .ok ⟨fromLeBytes numField, offsetsStart, bloomBytes⟩

/-- `get_entry_at_index`: where the entry starts, and the length of its key. -/
def getEntryAtIndex (block : Bytes) (offsetsStart idx : Nat) : Except SstableError (Nat × Nat) := do
  let offField ← getField "malformed block: off_pos out of bounds" (offsetsStart + idx * 4) 4 block
  let kLenField ← getField "malformed block: k_len out of bounds" (fromLeBytes offField) 2 block
  .ok (fromLeBytes offField, fromLeBytes kLenField)

def getEntryKeyAtIndex (block : Bytes) (offsetsStart idx : Nat) : Except SstableError Bytes := do
  let (entryOff, kLen) ← getEntryAtIndex block offsetsStart idx
  getField "malformed block: entry_key out of bounds" (entryOff + 2) kLen block

/-- `entry_key.cmp(key)`. -/
def keyOrder (key entryKey : Bytes) : Ordering :=
  if entryKey < key then .lt else if key < entryKey then .gt else .eq

/-- The turn of the search for the first entry of a key, which goes left on a match. -/
def leftmostOrder (key entryKey : Bytes) : Ordering := if entryKey < key then .lt else .gt

def probeKey {β : Type} (ask : Bytes → β) (block : Bytes) (offsetsStart idx : Nat) :
    Except SstableError β :=
  (getEntryKeyAtIndex block offsetsStart idx).map ask

def binarySearchFirstIndexInBlock (block : Bytes) (offsetsStart numOffsets : Nat) (key : Bytes) :
    Except SstableError (Option Nat) :=
  if numOffsets = 0 then .ok none
  else
    match binarySearch (probeKey (leftmostOrder key) block offsetsStart) 0 numOffsets with
    | .error error => .error error
    | .ok low =>
      if low.position < numOffsets then
        probeKey (fun entryKey => if entryKey = key then some low.position else none) block
          offsetsStart low.position
      else .ok none

def binarySearchIndexInBlock (block : Bytes) (offsetsStart numOffsets : Nat) (key : Bytes) :
    Except SstableError SearchResult :=
  if numOffsets = 0 then .ok (.missing 0)
  else
    match binarySearch (probeKey (keyOrder key) block offsetsStart) 0 numOffsets with
    | .error error => .error error
    | .ok (.found mid) =>
      (rewind (probeKey (fun prevKey => decide (prevKey = key)) block offsetsStart) mid).map .found
    | .ok (.missing low) => .ok (.missing low)

structure FieldTexts where
  entryKey : String
  field : String → String

def readEntryKey (texts : FieldTexts) (block : Bytes) (offsetsStart idx : Nat) :
    Except SstableError (Bytes × Nat) := do
  let (entryOff, kLen) ← getEntryAtIndex block offsetsStart idx
  let entryKey ← getField texts.entryKey (entryOff + 2) kLen block
  .ok (entryKey, entryOff + 2 + kLen)

/-- What every reader reads behind a key: the sequence word, the transaction and the value. -/
def readBehindKey (texts : FieldTexts) (block : Bytes) (key : Bytes) (endK : Nat) :
    Except SstableError TableEntry := do
  let seqField ← getField (texts.field "seq_no") endK 8 block
  let txField ← getField (texts.field "tx_id") (endK + 8) 8 block
  let vLenField ← getField (texts.field "v_len") (endK + 16) 4 block
  let value ← getField "malformed block: value length out of bounds" (endK + 20)
    (fromLeBytes vLenField) block
  .ok ⟨key, value, .ofNat (fromLeBytes seqField), .ofNat (fromLeBytes txField)⟩

end Contextra.Store
