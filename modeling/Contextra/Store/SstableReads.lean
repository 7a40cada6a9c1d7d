import Contextra.Store.KeyRange
import Contextra.Store.SstableFile

/-!
# Reading an SSTable

The point read, the scans and the stream of a table that was opened.  The block cache only
holds blocks that were read before, so `getBlock` reads the file.
-/

namespace Contextra.Store

open Library
open scoped Library.ByteOrder

def TableEntry.inSnapshot (maxSeq maxTx : UInt64) (entry : TableEntry) : Bool :=
  decide (rawSeq entry.seqNo ≤ rawSeq maxSeq ∧
    (entry.txId ≤ maxTx ∨ internalBase ≤ entry.txId.toNat))

namespace SstableReader

def spans (reader : SstableReader) : List (Bytes × Nat × Nat) :=
  blockSpans reader.indexOffset reader.index

def getBlock (reader : SstableReader) (offset nextOffset : Nat) : Except SstableError Bytes :=
  readBlockAtFile reader.file offset nextOffset reader.keyManager

def probeIndex {β : Type} (ask : Bytes → β) (reader : SstableReader) (idx : Nat) :
    Except SstableError β :=
  match reader.index[idx]? with
  | some (key, _) => .ok (ask key)
  | none => .error (.storage "index out of bounds")

/-- `index.binary_search_by(..)`. -/
def searchIndex (reader : SstableReader) (key : Bytes) : Except SstableError SearchResult :=
  binarySearch (reader.probeIndex (keyOrder key)) 0 reader.index.length

/-- Back to the first block whose last key is not below the key. -/
def rewindIndex (reader : SstableReader) (key : Bytes) (start : Nat) : Except SstableError Nat :=
  rewind (reader.probeIndex fun lastKey => decide (key ≤ lastKey)) start

section PointRead

variable (digest : Bytes → Bytes) (reader : SstableReader) (key : Bytes) (maxSeq maxTx : UInt64)

/-- The loop over the versions of the key in a block. -/
def firstVisible (block : Bytes) (offsetsStart : Nat) :
    List Nat → Except SstableError (Option (Bytes × UInt64 × UInt64))
  | [] => .ok none
  | i :: later =>
    let texts : FieldTexts := ⟨"malformed block", ("malformed block: " ++ ·)⟩
    match readEntryKey texts block offsetsStart i with
    | .error error => .error error
    | .ok (entryKey, endK) =>
      if entryKey ≠ key then .ok none
      else
        match readBehindKey texts block entryKey endK with
        | .error error => .error error
        | .ok entry =>
          if entry.inSnapshot maxSeq maxTx then
            .ok (some (entry.value, entry.seqNo, entry.txId))
          else firstVisible block offsetsStart later

/-- The version of the key in a block whose filter admits it. -/
def getInBlock (block : Bytes) : Except SstableError (Option (Bytes × UInt64 × UInt64)) :=
  match parseBlockTrailer block with
  | .error error => .error error
  | .ok trailer =>
    if mayContainKeyInBlockBloom digest trailer.bloomBytes key then
      match binarySearchFirstIndexInBlock block trailer.offsetsStart trailer.numOffsets key with
      | .error error => .error error
      | .ok none => .ok none
      | .ok (some first) =>
        firstVisible key maxSeq maxTx block trailer.offsetsStart
          (List.range' first (trailer.numOffsets - first))
    else .ok none

def getAtBlocks :
    List (Bytes × Nat × Nat) → Except SstableError (Option (Bytes × UInt64 × UInt64))
  | [] => .ok none
  | (blockLastKey, offset, nextOffset) :: later =>
    match reader.getBlock offset nextOffset with
    | .error error => .error error
    | .ok block =>
      match getInBlock digest key maxSeq maxTx block with
      | .error error => .error error
      | .ok (some found) => .ok (some found)
      | .ok none => if blockLastKey ≠ key then .ok none else getAtBlocks later

def getAt : Except SstableError (Option (Bytes × UInt64 × UInt64)) :=
  if reader.bloomFilter.any (fun filter => !filter.admits digest key) then .ok none
  else if key < reader.metadata.firstKey ∨ reader.metadata.lastKey < key then .ok none
  else
    match reader.searchIndex key with
    | .error error => .error error
    | .ok result =>
      match reader.rewindIndex key result.position with
      | .error error => .error error
      | .ok start => getAtBlocks digest reader key maxSeq maxTx (reader.spans.drop start)

end PointRead

def scanTexts : FieldTexts := ⟨"malformed block: entry_key", ("malformed block: " ++ ·)⟩

section PrefixScan

variable (reader : SstableReader) (keyPrefix : Bytes)

/-- The loop over the entries of a block, and whether it passed the prefix. -/
def prefixEntries (block : Bytes) (offsetsStart : Nat) :
    List Nat → Except SstableError (List TableEntry × Bool)
  | [] => .ok ([], false)
  | i :: later =>
    match readEntryKey scanTexts block offsetsStart i with
    | .error error => .error error
    | .ok (entryKey, endK) =>
      if ¬ keyPrefix <+: entryKey ∧ keyPrefix < entryKey then .ok ([], true)
      else if keyPrefix <+: entryKey then
        match readBehindKey scanTexts block entryKey endK with
        | .error error => .error error
        | .ok entry =>
          match prefixEntries block offsetsStart later with
          | .error error => .error error
          | .ok (entries, broke) => .ok (entry :: entries, broke)
      else prefixEntries block offsetsStart later

def prefixBlocks : List (Bytes × Nat × Nat) → Except SstableError (List TableEntry)
  | [] => .ok []
  | (_, offset, nextOffset) :: later =>
    match reader.getBlock offset nextOffset with
    | .error error => .error error
    | .ok block =>
      match parseBlockTrailer block with
      | .error error => .error error
      | .ok trailer =>
        match binarySearchIndexInBlock block trailer.offsetsStart trailer.numOffsets
            keyPrefix with
        | .error error => .error error
        | .ok start =>
          match prefixEntries keyPrefix block trailer.offsetsStart
              (List.range' start.position (trailer.numOffsets - start.position)) with
          | .error error => .error error
          | .ok (entries, true) => .ok entries
          | .ok (entries, false) => (prefixBlocks later).map (entries ++ ·)

/-- Where the scan starts: at a match, or one block before the insertion position. -/
def scanStart : SearchResult → Nat
  | .found position => position
  | .missing position => position - 1

def scanPrefix : Except SstableError (List TableEntry) :=
  match reader.searchIndex keyPrefix with
  | .error error => .error error
  | .ok result =>
    match reader.rewindIndex keyPrefix (scanStart result) with
    | .error error => .error error
    | .ok start => prefixBlocks reader keyPrefix (reader.spans.drop start)

end PrefixScan

section RangeScan

variable (reader : SstableReader) (start stop : Bound)

/-- The loop over the entries of a block, and whether it passed the range. -/
def rangeEntries (block : Bytes) (offsetsStart : Nat) :
    List Nat → Except SstableError (List TableEntry × Bool)
  | [] => .ok ([], false)
  | i :: later =>
    match readEntryKey scanTexts block offsetsStart i with
    | .error error => .error error
    | .ok (entryKey, endK) =>
      if ¬ start.AboveStart entryKey then rangeEntries block offsetsStart later
      else if ¬ stop.BelowEnd entryKey then .ok ([], true)
      else
        match readBehindKey scanTexts block entryKey endK with
        | .error error => .error error
        | .ok entry =>
          match rangeEntries block offsetsStart later with
          | .error error => .error error
          | .ok (entries, passed) => .ok (entry :: entries, passed)

/-- The first entry of a block the scan looks at. -/
def rangeStart (block : Bytes) (trailer : BlockTrailer) : Except SstableError Nat :=
  let search (key : Bytes) : Except SstableError Nat :=
    (binarySearchIndexInBlock block trailer.offsetsStart trailer.numOffsets key).map
      SearchResult.position
  match start with
  | .included key => search key
  | .excluded key => search key
  | .unbounded => .ok 0

def rangeBlocks : List (Bytes × Nat × Nat) → Except SstableError (List TableEntry)
  | [] => .ok []
  | (_, offset, nextOffset) :: later =>
    match reader.getBlock offset nextOffset with
    | .error error => .error error
    | .ok block =>
      match parseBlockTrailer block with
      | .error error => .error error
      | .ok trailer =>
        match rangeStart start block trailer with
        | .error error => .error error
        | .ok first =>
          match rangeEntries start stop block trailer.offsetsStart
              (List.range' first (trailer.numOffsets - first)) with
          | .error error => .error error
          | .ok (entries, true) => .ok entries
          | .ok (entries, false) => (rangeBlocks later).map (entries ++ ·)

def scanRange : Except SstableError (List TableEntry) := rangeBlocks reader start stop reader.spans

end RangeScan

end SstableReader

structure SstableStream where
  blockIdx : Nat
  entryIdx : Nat
  currentBlock : Option Bytes
  numOffsets : Nat
  offsetsStart : Nat
  deriving DecidableEq, Repr

namespace SstableStream

def start : SstableStream := ⟨0, 0, none, 0, 0⟩

variable (reader : SstableReader)

/-- The next block that has an entry, from the blocks that were not loaded yet. -/
def loadBlock :
    List (Bytes × Nat × Nat) → SstableStream → Except SstableError (Option SstableStream)
  | [], _ => .ok none
  | (_, offset, nextOffset) :: later, stream =>
    match reader.getBlock offset nextOffset with
    | .error error => .error error
    | .ok block =>
      match parseBlockTrailer block with
      | .error error => .error error
      | .ok trailer =>
        let loaded : SstableStream :=
          ⟨stream.blockIdx + 1, 0, some block, trailer.numOffsets, trailer.offsetsStart⟩
        if trailer.numOffsets = 0 then loadBlock later loaded else .ok (some loaded)

def yieldEntry (stream : SstableStream) (block : Bytes) :
    Except SstableError (Option (TableEntry × SstableStream)) :=
  let texts : FieldTexts := ⟨"missing entry_key", ("missing " ++ ·)⟩
  match readEntryKey texts block stream.offsetsStart stream.entryIdx with
  | .error error => .error error
  | .ok (entryKey, endK) =>
    match readBehindKey texts block entryKey endK with
    | .error error => .error error
    | .ok entry => .ok (some (entry, { stream with entryIdx := stream.entryIdx + 1 }))

/-- The stream with a block that has an entry left, or nothing at the end. -/
def ready (stream : SstableStream) : Except SstableError (Option SstableStream) :=
  if stream.currentBlock = none ∨ stream.numOffsets ≤ stream.entryIdx then
    loadBlock reader (reader.spans.drop stream.blockIdx) stream
  else .ok (some stream)

def next (stream : SstableStream) : Except SstableError (Option (TableEntry × SstableStream)) :=
  match ready reader stream with
  | .error error => .error error
  | .ok none => .ok none
  | .ok (some loaded) =>
    match loaded.currentBlock with
    | none => .ok none
    | some block => loaded.yieldEntry block

/-- The entries the calls of `next` return until it returns nothing. -/
inductive Yields : SstableStream → List TableEntry → Prop where
  | done {stream : SstableStream} (ended : next reader stream = .ok none) : Yields stream []
  | more {stream later : SstableStream} {entry : TableEntry} {entries : List TableEntry}
      (found : next reader stream = .ok (some (entry, later))) (rest : Yields later entries) :
      Yields stream (entry :: entries)

end SstableStream

end Contextra.Store
