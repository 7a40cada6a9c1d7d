import Contextra.Store.SstableBlock
import Contextra.Store.WalStream

/-!
# SSTable files

The builder appends blocks, each behind its checksum and encrypted when there is a key
manager, and `finish` puts the index, the Bloom filter of the whole table and the trailer
behind them.  Opening a file reads the trailer, the filter, the index and the first block.
-/

namespace Contextra.Store

open Library
open scoped Library.ByteOrder

structure BloomFilter where
  bits : List Nat
  numHashes : Nat
  numBits : Nat
  deriving DecidableEq, Repr

namespace BloomFilter

/-- `BloomFilter::new(100_000, 0.01)`, whose formula gives these numbers. -/
def new : BloomFilter := ⟨List.replicate 14977 0, 7, 958528⟩

def insert (digest : Bytes → Bytes) (filter : BloomFilter) (key : Bytes) : BloomFilter :=
  { filter with
    bits := setBits 64 filter.bits (probes (hashPair digest key) filter.numHashes filter.numBits) }

/-- `may_contain`. -/
def admits (digest : Bytes → Bytes) (filter : BloomFilter) (key : Bytes) : Bool :=
  if filter.numBits = 0 then true
  else mayContain 64 filter.numHashes filter.numBits filter.bits (hashPair digest key)

def toBytes (filter : BloomFilter) : Bytes :=
  toLeBytes 8 filter.numHashes ++
    (toLeBytes 8 filter.numBits ++ filter.bits.flatMap (toLeBytes 8))

def parseWords : Nat → Bytes → List Nat
  | 0, _ => []
  | count + 1, data => fromLeBytes (data.take 8) :: parseWords count (data.drop 8)

def fromBytes (data : Bytes) : Except SstableError BloomFilter :=
  if data.length < 16 then .error (.storage "corrupted bloom filter: too short")
  else
    let numHashes := fromLeBytes (data.take 8)
    let numBits := fromLeBytes ((data.drop 8).take 8)
    let requiredWords := (numBits + 63) / 64
    if numHashes = 0 ∨ 64 < numHashes then .error (.invalidHashes numHashes)
    else if 128 * 1024 * 1024 * 8 < numBits then .error (.tooManyBits numBits)
    else if data.length < 16 + requiredWords * 8 then .error (.insufficientBits data.length numBits)
    else .ok ⟨parseWords requiredWords (data.drop 16), numHashes, numBits⟩

end BloomFilter

def withCrc (data : Bytes) : Bytes := toLeBytes 4 (crc32 data) ++ data

/-- The payload behind a checksum that fits it. -/
def checkCrc (tooShort : String) (offset : Nat) (data : Bytes) : Except SstableError Bytes :=
  if data.length < 4 then .error (.storage tooShort)
  else if crc32 (data.drop 4) ≠ fromLeBytes (data.take 4) then .error (.checksumMismatch offset)
  else .ok (data.drop 4)

/-- `encrypt_auto_nonce` for a block, when there is a key manager that has made `counter`
nonces. -/
def sealBlock (km : Option KeyManager) (counter : Nat) (block : Bytes) : Except SstableError Bytes :=
  match km with
  | none => .ok block
  | some km =>
    if counter = u64Max then
      .error (.storage
        "Nonce counter exhausted: maximum encryptions reached for KeyManager instance")
    else .ok (km.nonce counter ++ km.encrypt (km.nonce counter) block)

structure SstableMetadata where
  firstKey : Bytes
  lastKey : Bytes
  fileSize : Nat
  minTxId : Nat
  maxTxId : Nat
  minSeq : Nat
  maxSeq : Nat
  deriving DecidableEq, Repr

structure SstableBuilder where
  file : Bytes
  blockBuilder : BlockBuilder
  index : List (Bytes × Nat)
  firstKey : Option Bytes
  lastKey : Option Bytes
  prevKeyLastSeq : Option Nat
  offset : Nat
  counter : Nat
  bloomFilter : BloomFilter
  keyCount : Nat
  minTxId : Nat
  maxTxId : Nat
  minSeq : Nat
  maxSeq : Nat
  deriving DecidableEq, Repr

def sstableMagicMfsx : Nat := 0x5853464D

namespace SstableBuilder

def create (counter : Nat) : SstableBuilder :=
  ⟨[], BlockBuilder.new, [], none, none, none, 0, counter, BloomFilter.new, 0, u64Max, 0, u64Max, 0⟩

def flushBlock (km : Option KeyManager) (builder : SstableBuilder) :
    Except SstableError SstableBuilder :=
  if builder.blockBuilder.isEmpty then .ok builder
  else
    match builder.lastKey with
    | none => .error (.storage "Missing last_key")
    | some lastKey =>
      match sealBlock km builder.counter (withCrc builder.blockBuilder.build) with
      | .error error => .error error
      | .ok block =>
        if u64Max < builder.offset + block.length then
          .error (.storage "SSTable offset overflow")
        else
          .ok { builder with
            file := builder.file ++ block
            blockBuilder := BlockBuilder.new
            index := builder.index ++ [(lastKey, builder.offset)]
            offset := builder.offset + block.length
            counter := if km.isSome then builder.counter + 1 else builder.counter }

/-- The order of `add`: keys ascend, and the versions of a key descend. -/
def checkOrder (builder : SstableBuilder) (entry : TableEntry) : Except SstableError Unit :=
  match builder.lastKey with
  | none => .ok ()
  | some prevKey =>
    if entry.key < prevKey then .error (.outOfOrder prevKey entry.key)
    else if entry.key = prevKey then
      match builder.prevKeyLastSeq with
      | none => .ok ()
      | some prevSeq =>
        if prevSeq ≤ rawSeq entry.seqNo then
          .error (.duplicateVersion prevSeq (rawSeq entry.seqNo))
        else .ok ()
    else .ok ()

/-- The entry goes into the block, or into a new one when the block is full. -/
def addToBlock (digest : Bytes → Bytes) (km : Option KeyManager) (builder : SstableBuilder)
    (entry : TableEntry) : Except SstableError SstableBuilder :=
  match builder.blockBuilder.add digest entry with
  | some block => .ok { builder with blockBuilder := block }
  | none =>
    match builder.flushBlock km with
    | .error error => .error error
    | .ok flushed =>
      match flushed.blockBuilder.add digest entry with
      | some block => .ok { flushed with blockBuilder := block }
      | none => .error (.entryTooLarge entry.key.length entry.value.length)

/-- The bookkeeping of `add` behind the block. -/
def record (digest : Bytes → Bytes) (builder : SstableBuilder) (entry : TableEntry) :
    SstableBuilder :=
  { builder with
    bloomFilter := builder.bloomFilter.insert digest entry.key
    keyCount := builder.keyCount + 1
    minTxId := min builder.minTxId entry.txId.toNat
    maxTxId := max builder.maxTxId entry.txId.toNat
    minSeq := min builder.minSeq (rawSeq entry.seqNo)
    maxSeq := max builder.maxSeq (rawSeq entry.seqNo)
    lastKey := some entry.key
    prevKeyLastSeq := some (rawSeq entry.seqNo) }

def add (digest : Bytes → Bytes) (km : Option KeyManager) (builder : SstableBuilder)
    (entry : TableEntry) : Except SstableError SstableBuilder :=
  if entry.key = [] then .error (.invalidInput "SSTable key cannot be empty")
  else if maxKeySize < entry.key.length ∨ maxValueSize < entry.value.length then
    .error (.tooLarge entry.key.length entry.value.length)
  else
    match builder.checkOrder entry with
    | .error error => .error error
    | .ok () =>
      let started := { builder with firstKey := some (builder.firstKey.getD entry.key) }
      (started.addToBlock digest km entry).map (record digest · entry)

def indexEntryBytes (entry : Bytes × Nat) : Bytes :=
  toLeBytes 2 entry.1.length ++ (entry.1 ++ toLeBytes 8 entry.2)

def trailerBytes (builder : SstableBuilder) (bloomOffset : Nat) : Bytes :=
  toLeBytes 8 builder.minTxId ++
    (toLeBytes 8 builder.maxTxId ++
      (toLeBytes 8 builder.minSeq ++
        (toLeBytes 8 builder.maxSeq ++
          (toLeBytes 8 bloomOffset ++
            (toLeBytes 8 builder.offset ++ (toLeBytes 2 4 ++ toLeBytes 4 sstableMagicMfsx))))))

/-- The metadata `finish` returns. -/
def metadata (builder : SstableBuilder) (fileSize : Nat) : SstableMetadata :=
  if builder.keyCount = 0 then
    ⟨builder.firstKey.getD [], builder.lastKey.getD [], fileSize, 0, 0, 0, 0⟩
  else
    ⟨builder.firstKey.getD [], builder.lastKey.getD [], fileSize, builder.minTxId, builder.maxTxId,
      builder.minSeq, builder.maxSeq⟩

/-- `SstableBuilder::finish`, with the bytes of the file. -/
def finish (km : Option KeyManager) (builder : SstableBuilder) :
    Except SstableError (SstableMetadata × Bytes) :=
  match builder.flushBlock km with
  | .error error => .error error
  | .ok flushed =>
    if flushed.index.any (fun entry => decide (2 ^ 16 ≤ entry.1.length)) then
      .error (.invalidInput "Index key length exceeds u16::MAX")
    else
      let indexToWrite := withCrc (flushed.index.flatMap indexEntryBytes)
      let bloomOffset := flushed.offset + indexToWrite.length
      if u64Max < bloomOffset then .error (.storage "Bloom offset overflow")
      else
        let file := flushed.file ++
          (indexToWrite ++
            (withCrc flushed.bloomFilter.toBytes ++ flushed.trailerBytes bloomOffset))
        .ok (flushed.metadata file.length, file)

end SstableBuilder

def addEntries (digest : Bytes → Bytes) (km : Option KeyManager) :
    SstableBuilder → List TableEntry → Except SstableError SstableBuilder
  | builder, [] => .ok builder
  | builder, entry :: entries =>
    match builder.add digest km entry with
    | .error error => .error error
    | .ok next => addEntries digest km next entries

/-- The file of the entries, written with a key manager that has made `counter` nonces. -/
def writeTable (digest : Bytes → Bytes) (km : Option KeyManager) (counter : Nat)
    (entries : List TableEntry) : Except SstableError (SstableMetadata × Bytes) :=
  match addEntries digest km (SstableBuilder.create counter) entries with
  | .error error => .error error
  | .ok builder => builder.finish km

structure SstableReader where
  file : Bytes
  index : List (Bytes × Nat)
  metadata : SstableMetadata
  indexOffset : Nat
  keyManager : Option KeyManager
  bloomFilter : Option BloomFilter

def maxReadBlock : Nat := 16 * 1024 * 1024

def readBlockAtFile (file : Bytes) (offset nextOffset : Nat) (km : Option KeyManager) :
    Except SstableError Bytes :=
  let len := nextOffset - offset
  if maxReadBlock < len then
    .error (.storage "SSTable block size exceeds maximum allowed size")
  else
    match getField "Block read failed" offset len file with
    | .error error => .error error
    | .ok data =>
      match km with
      | none => checkCrc "Block too small for CRC" offset data
      | some km =>
        if data.length < 12 then .error (.storage "Block too small for nonce")
        else
          match km.decrypt (data.take 12) (data.drop 12) with
          | none => .error .decryptionFailed
          | some decrypted => checkCrc "Block too small for CRC" offset decrypted

def parseIndex (indexOffset : Nat) (data : Bytes) : Except SstableError (List (Bytes × Nat)) :=
  if data.length < 10 then
    if data = [] then .ok []
    else .error (.parseError "corrupted index: trailing invalid bytes")
  else
    let keyLen := fromLeBytes (data.take 2)
    if data.length < 2 + keyLen + 8 then .error (.parseError "corrupted index: data too short")
    else
      let key := (data.drop 2).take keyLen
      let offset := fromLeBytes ((data.drop (2 + keyLen)).take 8)
      if indexOffset < offset then
        .error (.storage "corrupted SSTable index: block offset exceeds index offset")
      else
        match parseIndex indexOffset (data.drop (2 + keyLen + 8)) with
        | .error error => .error error
        | .ok later => .ok ((key, offset) :: later)
termination_by data.length
decreasing_by
  rw [List.length_drop]
  omega

/-- The blocks as the readers visit them: the last key, where the block starts, and where the
next section starts. -/
def blockSpans (indexOffset : Nat) : List (Bytes × Nat) → List (Bytes × Nat × Nat)
  | [] => []
  | [(key, offset)] => [(key, offset, indexOffset)]
  | (key, offset) :: (nextKey, nextOffset) :: index =>
    (key, offset, nextOffset) :: blockSpans indexOffset ((nextKey, nextOffset) :: index)

def readFirstKey (file : Bytes) (km : Option KeyManager) (indexOffset : Nat)
    (index : List (Bytes × Nat)) : Except SstableError Bytes :=
  match blockSpans indexOffset index with
  | [] => .ok []
  | (_, offset, nextOffset) :: _ =>
    match readBlockAtFile file offset nextOffset km with
    | .error error => .error error
    | .ok block =>
      if block.length < 2 then .error (.parseError "corrupted block: header too short")
      else
        let kLen := fromLeBytes (block.take 2)
        if block.length < 2 + kLen then .error (.parseError "corrupted block: key truncated")
        else .ok ((block.drop 2).take kLen)

/-- The filter between the index and the trailer, when the trailer points to one. -/
def readBloom (file : Bytes) (bloomOffset trailerOffset : Nat) :
    Except SstableError (Option BloomFilter) :=
  if bloomOffset = 0 then .ok none
  else
    match getField "Bloom read failed" bloomOffset (trailerOffset - bloomOffset) file with
    | .error error => .error error
    | .ok raw =>
      match checkCrc "Bloom filter data too short for CRC" bloomOffset raw with
      | .error error => .error error
      | .ok data => (BloomFilter.fromBytes data).map some

def readIndex (file : Bytes) (indexOffset indexEnd : Nat) :
    Except SstableError (List (Bytes × Nat)) :=
  match getField "Index read failed" indexOffset (indexEnd - indexOffset) file with
  | .error error => .error error
  | .ok raw =>
    match checkCrc "Index data too short for CRC" indexOffset raw with
    | .error error => .error error
    | .ok data => parseIndex indexOffset data

def trailerNumber (trailer : Bytes) (offset width : Nat) : Nat :=
  fromLeBytes ((trailer.drop offset).take width)

/-- `open_with_key_manager` behind the check of magic number and version. -/
def openSections (km : Option KeyManager) (file trailer : Bytes) :
    Except SstableError SstableReader :=
  let bloomOffset := trailerNumber trailer 32 8
  let indexOffset := trailerNumber trailer 40 8
  let trailerOffset := file.length - 54
  if trailerOffset < indexOffset ∨
      (0 < bloomOffset ∧ (bloomOffset < indexOffset ∨ trailerOffset < bloomOffset)) then
    .error (.storage "corrupted SSTable: invalid section offsets")
  else
    match readBloom file bloomOffset trailerOffset with
    | .error error => .error error
    | .ok bloomFilter =>
      let indexEnd := if 0 < bloomOffset then bloomOffset else trailerOffset
      match readIndex file indexOffset indexEnd with
      | .error error => .error error
      | .ok index =>
        match readFirstKey file km indexOffset index with
        | .error error => .error error
        | .ok firstKey =>
          .ok {
            file := file
            index := index
            metadata := {
              firstKey := firstKey
              lastKey := (index.getLast?.map Prod.fst).getD []
              fileSize := file.length
              minTxId := trailerNumber trailer 0 8
              maxTxId := trailerNumber trailer 8 8
              minSeq := trailerNumber trailer 16 8
              maxSeq := trailerNumber trailer 24 8 }
            indexOffset := indexOffset
            keyManager := km
            bloomFilter := bloomFilter }

/-- `open_with_key_manager` for a file of format version 4. -/
def openTable (km : Option KeyManager) (file : Bytes) : Except SstableError SstableReader :=
  if file.length < 12 then .error (.storage "SSTable file too small")
  else
    let trailer := file.drop (file.length - 54)
    if trailer.length < 52 then .error (.storage "Invalid SSTable trailer length")
    else if trailer.length < 54 ∨ trailerNumber trailer 50 4 ≠ sstableMagicMfsx then
      .error .otherFormat
    else
      let version := trailerNumber trailer 48 2
      if 4 < version then .error (.unsupportedVersion version)
      else if version < 4 then .error .otherFormat
      else openSections km file trailer

end Contextra.Store
