import Contextra.Store.SstableBuilt

/-!
# Sections of a finished file

What `finish` puts behind the blocks reads back when the file is opened: the index, the
filter of the table and the trailer, whose numbers are the least and greatest ones of the
entries.
-/

namespace Contextra.Store

open Library List
open scoped Library.ByteOrder

theorem checkCrc_withCrc (tooShort : String) (offset : Nat) (data : Bytes) :
    checkCrc tooShort offset (withCrc data) = .ok data := by
  have size : (toLeBytes 4 (crc32 data)).length = 4 := length_toLeBytes _ _
  have front : (withCrc data).take 4 = toLeBytes 4 (crc32 data) := by
    rw [withCrc, take_append_of_le_length (by omega), take_of_length_le (by omega)]
  have behind : (withCrc data).drop 4 = data := by
    rw [withCrc, drop_append_of_le_length (by omega), drop_of_length_le (by omega),
      nil_append]
  have long : ¬ (withCrc data).length < 4 := by
    rw [withCrc, length_append]
    omega
  rw [checkCrc, if_neg long, front, behind, fromLeBytes_toLeBytes (crc32_lt data),
    if_neg (not_not_intro rfl)]

theorem length_withCrc (data : Bytes) : (withCrc data).length = data.length + 4 := by
  rw [withCrc, length_append, length_toLeBytes, Nat.add_comm]

namespace BloomFilter

/-- A filter whose parts are within what `from_bytes` accepts. -/
structure Storable (filter : BloomFilter) : Prop where
  words : ∀ word ∈ filter.bits, word < 2 ^ 64
  count : filter.bits.length = (filter.numBits + 63) / 64
  hashes : 0 < filter.numHashes ∧ filter.numHashes ≤ 64
  small : filter.numBits ≤ 128 * 1024 * 1024 * 8

theorem parseWords_flatMap {words : List Nat} (small : ∀ word ∈ words, word < 2 ^ 64) :
    parseWords words.length (words.flatMap (toLeBytes 8)) = words := by
  induction words with
  | nil => rfl
  | cons word words ih =>
    have size : (toLeBytes 8 word).length = 8 := length_toLeBytes _ _
    have bounded : word < 256 ^ 8 := by
      have := small word mem_cons_self
      omega
    rw [flatMap_cons, length_cons, parseWords, take_append_of_le_length (by omega),
      take_of_length_le (by omega), drop_append_of_le_length (by omega),
      drop_of_length_le (by omega), nil_append, fromLeBytes_toLeBytes bounded,
      ih fun other mem => small other (mem_cons_of_mem _ mem)]

variable {filter : BloomFilter}

theorem fromBytes_toBytes (storable : filter.Storable) :
    fromBytes filter.toBytes = .ok filter := by
  have sizeHashes : (toLeBytes 8 filter.numHashes).length = 8 := length_toLeBytes _ _
  have sizeBits : (toLeBytes 8 filter.numBits).length = 8 := length_toLeBytes _ _
  have readHashes : fromLeBytes (toLeBytes 8 filter.numHashes) = filter.numHashes :=
    fromLeBytes_toLeBytes (by have := storable.hashes; omega)
  have readBits : fromLeBytes (toLeBytes 8 filter.numBits) = filter.numBits :=
    fromLeBytes_toLeBytes (by have := storable.small; omega)
  have total : filter.toBytes.length = 16 + filter.bits.length * 8 := by
    simp only [toBytes, length_append, length_flatMap_toLeBytes, sizeHashes, sizeBits]
    omega
  have hashesField : filter.toBytes.take 8 = toLeBytes 8 filter.numHashes := by
    rw [toBytes, take_append_of_le_length (by omega), take_of_length_le (by omega)]
  have behindHashes : filter.toBytes.drop 8 =
      toLeBytes 8 filter.numBits ++ filter.bits.flatMap (toLeBytes 8) := by
    rw [toBytes, drop_append_of_le_length (by omega), drop_of_length_le (by omega),
      nil_append]
  have bitsField : (filter.toBytes.drop 8).take 8 = toLeBytes 8 filter.numBits := by
    rw [behindHashes, take_append_of_le_length (by omega), take_of_length_le (by omega)]
  have words : filter.toBytes.drop 16 = filter.bits.flatMap (toLeBytes 8) := by
    rw [← drop_drop (i := 8) (j := 8), behindHashes, drop_append_of_le_length (by omega),
      drop_of_length_le (by omega), nil_append]
  have hashes := storable.hashes
  rw [fromBytes, if_neg (by omega)]
  simp only [hashesField, bitsField, readHashes, readBits, words]
  rw [if_neg (by omega), if_neg (not_lt.mpr storable.small), total, storable.count,
    if_neg (lt_irrefl _), ← storable.count, parseWords_flatMap storable.words]

theorem storable_new : new.Storable where
  words := by
    intro word mem
    rw [eq_of_mem_replicate mem]
    decide
  count := length_replicate
  hashes := by decide
  small := by decide

theorem Storable.insert (storable : filter.Storable)
    (digest : Bytes → Bytes) (key : Bytes) : (filter.insert digest key).Storable where
  words := setBits_lt (by decide) storable.words
  count := (length_setBits _).trans storable.count
  hashes := storable.hashes
  small := storable.small

theorem foldl_insert (digest : Bytes → Bytes) (filter : BloomFilter) (entries : List TableEntry) :
    entries.foldl (fun filter entry => filter.insert digest entry.key) filter =
      { filter with
        bits := insertAll 64 filter.numHashes filter.numBits filter.bits
          (entries.map fun entry => hashPair digest entry.key) } := by
  induction entries generalizing filter with
  | nil => rfl
  | cons entry entries ih =>
    rw [foldl_cons, ih]
    rfl

theorem storable_foldl (digest : Bytes → Bytes) (storable : filter.Storable)
    (entries : List TableEntry) :
    (entries.foldl (fun filter entry => filter.insert digest entry.key) filter).Storable := by
  induction entries generalizing filter with
  | nil => exact storable
  | cons entry entries ih =>
    exact ih (storable.insert digest entry.key)

theorem admits_foldl (digest : Bytes → Bytes) {entries : List TableEntry} {entry : TableEntry}
    (mem : entry ∈ entries) :
    (entries.foldl (fun filter entry => filter.insert digest entry.key) new).admits digest
      entry.key = true := by
  have positive : 0 < new.numBits := by decide
  have words : new.bits.length = 14977 := length_replicate
  have enough : new.numBits ≤ 64 * new.bits.length := by
    rw [words]
    decide
  rw [foldl_insert, admits, if_neg positive.ne']
  exact mayContain_insertAll positive enough (mem_map.mpr ⟨entry, mem, rfl⟩)

end BloomFilter

theorem length_indexEntryBytes (entry : Bytes × Nat) :
    (SstableBuilder.indexEntryBytes entry).length = 2 + entry.1.length + 8 := by
  simp only [SstableBuilder.indexEntryBytes, length_append, length_toLeBytes]
  omega

theorem parseIndex_flatMap {indexOffset : Nat} {index : List (Bytes × Nat)}
    (bounded : indexOffset < 2 ^ 64) (shortKeys : ∀ entry ∈ index, entry.1.length < 2 ^ 16)
    (inside : ∀ entry ∈ index, entry.2 ≤ indexOffset) :
    parseIndex indexOffset (index.flatMap SstableBuilder.indexEntryBytes) = .ok index := by
  induction index with
  | nil =>
    rw [parseIndex]
    rfl
  | cons entry index ih =>
    obtain ⟨key, offset⟩ := entry
    have shortKey : key.length < 2 ^ 16 := shortKeys _ mem_cons_self
    have early : offset ≤ indexOffset := inside _ mem_cons_self
    have later := ih
      (fun other mem => shortKeys other (mem_cons_of_mem _ mem))
      (fun other mem => inside other (mem_cons_of_mem _ mem))
    have sizeLength : (toLeBytes 2 key.length).length = 2 := length_toLeBytes _ _
    have sizeOffset : (toLeBytes 8 offset).length = 8 := length_toLeBytes _ _
    have readLength : fromLeBytes (toLeBytes 2 key.length) = key.length :=
      fromLeBytes_toLeBytes (by omega)
    have readOffset : fromLeBytes (toLeBytes 8 offset) = offset :=
      fromLeBytes_toLeBytes (by omega)
    generalize rest : index.flatMap SstableBuilder.indexEntryBytes = behind at later
    have whole : ((key, offset) :: index).flatMap SstableBuilder.indexEntryBytes =
        toLeBytes 2 key.length ++ (key ++ (toLeBytes 8 offset ++ behind)) := by
      rw [flatMap_cons, rest, SstableBuilder.indexEntryBytes]
      simp only [append_assoc]
    generalize ((key, offset) :: index).flatMap SstableBuilder.indexEntryBytes = data at whole
    have total : data.length = 2 + key.length + 8 + behind.length := by
      simp only [whole, length_append, sizeLength, sizeOffset]
      omega
    have lengthField : data.take 2 = toLeBytes 2 key.length := by
      rw [whole, take_append_of_le_length (by omega), take_of_length_le (by omega)]
    have behindLength : data.drop 2 = key ++ (toLeBytes 8 offset ++ behind) := by
      rw [whole, drop_append_of_le_length (by omega), drop_of_length_le (by omega),
        nil_append]
    have keyField : (data.drop 2).take key.length = key := by
      rw [behindLength, take_left]
    have behindKey : data.drop (2 + key.length) = toLeBytes 8 offset ++ behind := by
      rw [← drop_drop, behindLength, drop_left]
    have offsetField : (data.drop (2 + key.length)).take 8 = toLeBytes 8 offset := by
      rw [behindKey, take_append_of_le_length (by omega), take_of_length_le (by omega)]
    have behindOffset : data.drop (2 + key.length + 8) = behind := by
      rw [← drop_drop, behindKey, drop_append_of_le_length (by omega),
        drop_of_length_le (by omega), nil_append]
    rw [parseIndex, if_neg (by omega)]
    simp only [lengthField, readLength, keyField, offsetField, readOffset, behindOffset, later]
    rw [if_neg (by omega), if_neg (by omega)]

theorem trailerNumber_split {trailer : Bytes} {offset width value : Nat} (before : Bytes)
    (here : before ++ toLeBytes width value <+: trailer) (position : before.length = offset)
    (bounded : value < 256 ^ width) : trailerNumber trailer offset width = value := by
  obtain ⟨after, split⟩ := here
  have size : (toLeBytes width value).length = width := length_toLeBytes _ _
  rw [trailerNumber, ← split, ← position, append_assoc, drop_left,
    take_append_of_le_length (by omega), take_of_length_le (by omega),
    fromLeBytes_toLeBytes bounded]

theorem length_trailerBytes (builder : SstableBuilder) (bloomOffset : Nat) :
    (builder.trailerBytes bloomOffset).length = 54 := by
  simp only [SstableBuilder.trailerBytes, length_append, length_toLeBytes]

namespace SstableBuilder

def indexToWrite (builder : SstableBuilder) : Bytes :=
  withCrc (builder.index.flatMap indexEntryBytes)

def bloomOffset (builder : SstableBuilder) : Nat := builder.offset + builder.indexToWrite.length

def finishedTrailer (builder : SstableBuilder) : Bytes := builder.trailerBytes builder.bloomOffset

def finishedFile (builder : SstableBuilder) : Bytes :=
  builder.file ++
    (builder.indexToWrite ++ (withCrc builder.bloomFilter.toBytes ++ builder.finishedTrailer))

/-- What the sections of a finished file need to be read back. -/
structure Finished (builder : SstableBuilder) : Prop where
  offset : builder.offset = builder.file.length
  shortKeys : ∀ entry ∈ builder.index, entry.1.length < 2 ^ 16
  inside : ∀ entry ∈ builder.index, entry.2 ≤ builder.offset
  storable : builder.bloomFilter.Storable
  bloomOffset : builder.bloomOffset ≤ u64Max
  minTxId : builder.minTxId ≤ u64Max
  maxTxId : builder.maxTxId ≤ u64Max
  minSeq : builder.minSeq ≤ u64Max
  maxSeq : builder.maxSeq ≤ u64Max

/-- The table that opening the file gives, once the first key was read. -/
def openedAs (builder : SstableBuilder) (km : Option KeyManager) (firstKey : Bytes) :
    SstableReader where
  file := builder.finishedFile
  index := builder.index
  metadata :=
    ⟨firstKey, (builder.index.getLast?.map Prod.fst).getD [], builder.finishedFile.length,
      builder.minTxId, builder.maxTxId, builder.minSeq, builder.maxSeq⟩
  indexOffset := builder.offset
  keyManager := km
  bloomFilter := some builder.bloomFilter

section Opening

variable {builder : SstableBuilder} (finished : builder.Finished)
include finished

theorem Finished.trailer :
    trailerNumber builder.finishedTrailer 0 8 = builder.minTxId ∧
    trailerNumber builder.finishedTrailer 8 8 = builder.maxTxId ∧
    trailerNumber builder.finishedTrailer 16 8 = builder.minSeq ∧
    trailerNumber builder.finishedTrailer 24 8 = builder.maxSeq ∧
    trailerNumber builder.finishedTrailer 32 8 = builder.bloomOffset ∧
    trailerNumber builder.finishedTrailer 40 8 = builder.offset ∧
    trailerNumber builder.finishedTrailer 48 2 = 4 ∧
    trailerNumber builder.finishedTrailer 50 4 = sstableMagicMfsx := by
  have word : ∀ value, value ≤ u64Max → value < 256 ^ 8 := by
    intro value small
    rw [u64Max] at small
    omega
  have offset : builder.offset ≤ u64Max := (Nat.le_add_right _ _).trans finished.bloomOffset
  rw [finishedTrailer, trailerBytes]
  refine ⟨?_, ?_, ?_, ?_, ?_, ?_, ?_, ?_⟩
  · apply trailerNumber_split [] _ rfl (word _ finished.minTxId)
    exact ⟨_, by rw [nil_append]⟩
  · apply trailerNumber_split (toLeBytes 8 builder.minTxId) _ (by simp) (word _ finished.maxTxId)
    exact ⟨_, by simp only [append_assoc]; rfl⟩
  · apply trailerNumber_split (toLeBytes 8 builder.minTxId ++ toLeBytes 8 builder.maxTxId) _
      (by simp) (word _ finished.minSeq)
    exact ⟨_, by simp only [append_assoc]; rfl⟩
  · apply trailerNumber_split (toLeBytes 8 builder.minTxId ++ (toLeBytes 8 builder.maxTxId ++
      toLeBytes 8 builder.minSeq)) _ (by simp) (word _ finished.maxSeq)
    exact ⟨_, by simp only [append_assoc]; rfl⟩
  · apply trailerNumber_split (toLeBytes 8 builder.minTxId ++ (toLeBytes 8 builder.maxTxId ++
      (toLeBytes 8 builder.minSeq ++ toLeBytes 8 builder.maxSeq))) _ (by simp)
      (word _ finished.bloomOffset)
    exact ⟨_, by simp only [append_assoc]; rfl⟩
  · apply trailerNumber_split (toLeBytes 8 builder.minTxId ++ (toLeBytes 8 builder.maxTxId ++
      (toLeBytes 8 builder.minSeq ++ (toLeBytes 8 builder.maxSeq ++
        toLeBytes 8 builder.bloomOffset)))) _ (by simp) (word _ offset)
    exact ⟨_, by simp only [append_assoc]; rfl⟩
  · apply trailerNumber_split (toLeBytes 8 builder.minTxId ++ (toLeBytes 8 builder.maxTxId ++
      (toLeBytes 8 builder.minSeq ++ (toLeBytes 8 builder.maxSeq ++
        (toLeBytes 8 builder.bloomOffset ++ toLeBytes 8 builder.offset))))) _ (by simp) (by decide)
    exact ⟨_, by simp only [append_assoc]; rfl⟩
  · apply trailerNumber_split (toLeBytes 8 builder.minTxId ++ (toLeBytes 8 builder.maxTxId ++
      (toLeBytes 8 builder.minSeq ++ (toLeBytes 8 builder.maxSeq ++
        (toLeBytes 8 builder.bloomOffset ++ (toLeBytes 8 builder.offset ++ toLeBytes 2 4)))))) _
      (by simp) (by decide)
    exact ⟨[], by simp only [append_assoc, append_nil]⟩

theorem Finished.length_finishedFile :
    builder.finishedFile.length =
      builder.bloomOffset + (withCrc builder.bloomFilter.toBytes).length + 54 := by
  have trailer : builder.finishedTrailer.length = 54 := length_trailerBytes _ _
  rw [finishedFile]
  simp only [length_append, trailer, SstableBuilder.bloomOffset, finished.offset]
  omega

theorem Finished.readBloom :
    readBloom builder.finishedFile builder.bloomOffset (builder.finishedFile.length - 54) =
      .ok (some builder.bloomFilter) := by
  have positive : builder.bloomOffset ≠ 0 := by
    rw [SstableBuilder.bloomOffset, indexToWrite, length_withCrc]
    omega
  have size : builder.finishedFile.length - 54 - builder.bloomOffset =
      (withCrc builder.bloomFilter.toBytes).length := by
    rw [finished.length_finishedFile]
    omega
  have read : getField "Bloom read failed" builder.bloomOffset
      (withCrc builder.bloomFilter.toBytes).length builder.finishedFile =
        .ok (withCrc builder.bloomFilter.toBytes) := by
    apply getField_split (builder.file ++ builder.indexToWrite)
    · rw [finishedFile]
      exact ⟨_, by simp only [append_assoc]; rfl⟩
    · rw [length_append, SstableBuilder.bloomOffset, finished.offset]
    · rfl
  rw [Store.readBloom, if_neg positive, size]
  simp only [read, checkCrc_withCrc, BloomFilter.fromBytes_toBytes finished.storable]
  rfl

theorem Finished.readIndex :
    readIndex builder.finishedFile builder.offset builder.bloomOffset = .ok builder.index := by
  have bounded : builder.offset < 2 ^ 64 := by
    have small := finished.bloomOffset
    rw [SstableBuilder.bloomOffset, u64Max] at small
    omega
  have read : getField "Index read failed" builder.offset (builder.bloomOffset - builder.offset)
      builder.finishedFile = .ok builder.indexToWrite := by
    apply getField_split builder.file
    · rw [finishedFile]
      exact ⟨_, by simp only [append_assoc]; rfl⟩
    · exact finished.offset.symm
    · rw [SstableBuilder.bloomOffset, Nat.add_sub_cancel_left]
  rw [Store.readIndex, read]
  simp only [indexToWrite, checkCrc_withCrc,
    parseIndex_flatMap bounded finished.shortKeys finished.inside]

theorem Finished.openTable (km : Option KeyManager) :
    openTable km builder.finishedFile =
      (readFirstKey builder.finishedFile km builder.offset builder.index).map
        (builder.openedAs km) := by
  have size := finished.length_finishedFile
  have trailerSize : builder.finishedTrailer.length = 54 := length_trailerBytes _ _
  have trailer : builder.finishedFile.drop (builder.finishedFile.length - 54) =
      builder.finishedTrailer := by
    have split : builder.finishedFile = (builder.file ++ (builder.indexToWrite ++
        withCrc builder.bloomFilter.toBytes)) ++ builder.finishedTrailer := by
      rw [finishedFile]
      simp only [append_assoc]
    have position : builder.finishedFile.length - 54 = (builder.file ++ (builder.indexToWrite ++
        withCrc builder.bloomFilter.toBytes)).length := by
      rw [split, length_append, trailerSize, Nat.add_sub_cancel]
    rw [position]
    conv_lhs => rw [split]
    exact drop_left
  obtain ⟨minTxId, maxTxId, minSeq, maxSeq, bloomOffset, indexOffset, version, magic⟩ :=
    finished.trailer
  rw [Store.openTable, if_neg (by omega)]
  simp only [trailer, trailerSize]
  rw [if_neg (by omega), magic, if_neg (by simp), version, if_neg (by omega), if_neg (by omega),
    openSections]
  simp only [bloomOffset, indexOffset]
  have bloomBehind : builder.offset ≤ builder.bloomOffset := Nat.le_add_right _ _
  have positive : 0 < builder.bloomOffset := by
    rw [SstableBuilder.bloomOffset, indexToWrite, length_withCrc]
    omega
  rw [if_neg (by omega), finished.readBloom, if_pos positive]
  simp only [finished.readIndex]
  cases readFirstKey builder.finishedFile km builder.offset builder.index with
  | error error => rfl
  | ok firstKey =>
    simp only [Except.map, openedAs, minTxId, maxTxId, minSeq, maxSeq]

end Opening

end SstableBuilder

section Extremes

variable {entries : List TableEntry} (number : TableEntry → Nat)

theorem foldl_min (entries : List TableEntry) (number : TableEntry → Nat) (init : Nat) :
    entries.foldl (fun least entry => min least (number entry)) init ≤ init ∧
    (∀ entry ∈ entries,
      entries.foldl (fun least entry => min least (number entry)) init ≤ number entry) ∧
    (entries.foldl (fun least entry => min least (number entry)) init = init ∨
      ∃ entry ∈ entries,
        number entry = entries.foldl (fun least entry => min least (number entry)) init) := by
  induction entries generalizing init with
  | nil => simp
  | cons first entries ih =>
    obtain ⟨below, least, reached⟩ := ih (min init (number first))
    rw [foldl_cons]
    refine ⟨below.trans (min_le_left _ _), ?_, ?_⟩
    · intro entry mem
      rcases mem_cons.mp mem with rfl | later
      · exact below.trans (min_le_right _ _)
      · exact least entry later
    · rcases reached with same | ⟨entry, later, same⟩
      · rcases min_choice init (number first) with isInit | isFirst
        · exact .inl (same.trans isInit)
        · exact .inr ⟨first, mem_cons_self, (same.trans isFirst).symm⟩
      · exact .inr ⟨entry, mem_cons_of_mem _ later, same⟩

theorem foldl_max (entries : List TableEntry) (number : TableEntry → Nat) (init : Nat) :
    init ≤ entries.foldl (fun greatest entry => max greatest (number entry)) init ∧
    (∀ entry ∈ entries,
      number entry ≤ entries.foldl (fun greatest entry => max greatest (number entry)) init) ∧
    (entries.foldl (fun greatest entry => max greatest (number entry)) init = init ∨
      ∃ entry ∈ entries,
        number entry = entries.foldl (fun greatest entry => max greatest (number entry)) init) := by
  induction entries generalizing init with
  | nil => simp
  | cons first entries ih =>
    obtain ⟨above, greatest, reached⟩ := ih (max init (number first))
    rw [foldl_cons]
    refine ⟨(le_max_left _ _).trans above, ?_, ?_⟩
    · intro entry mem
      rcases mem_cons.mp mem with rfl | later
      · exact (le_max_right _ _).trans above
      · exact greatest entry later
    · rcases reached with same | ⟨entry, later, same⟩
      · rcases max_choice init (number first) with isInit | isFirst
        · exact .inl (same.trans isInit)
        · exact .inr ⟨first, mem_cons_self, (same.trans isFirst).symm⟩
      · exact .inr ⟨entry, mem_cons_of_mem _ later, same⟩

def numbersOf (entries : List TableEntry) : Set Nat := {value | ∃ entry ∈ entries, number entry = value}

theorem isLeast_foldl_min (bounded : ∀ entry, number entry ≤ u64Max) (inhabited : entries ≠ []) :
    IsLeast (numbersOf number entries)
      (entries.foldl (fun least entry => min least (number entry)) u64Max) := by
  obtain ⟨-, least, reached⟩ := foldl_min entries number u64Max
  refine ⟨?_, ?_⟩
  · rcases reached with same | reached
    · obtain ⟨entry, mem⟩ := exists_mem_of_ne_nil entries inhabited
      have isMax := (bounded entry).trans_eq same.symm
      exact ⟨entry, mem, le_antisymm isMax (least entry mem)⟩
    · exact reached
  · rintro value ⟨entry, mem, rfl⟩
    exact least entry mem

theorem isGreatest_foldl_max (inhabited : entries ≠ []) :
    IsGreatest (numbersOf number entries)
      (entries.foldl (fun greatest entry => max greatest (number entry)) 0) := by
  obtain ⟨-, greatest, reached⟩ := foldl_max entries number 0
  refine ⟨?_, ?_⟩
  · rcases reached with same | reached
    · obtain ⟨entry, mem⟩ := exists_mem_of_ne_nil entries inhabited
      have isZero := (greatest entry mem).trans_eq same
      exact ⟨entry, mem, by omega⟩
    · exact reached
  · rintro value ⟨entry, mem, rfl⟩
    exact greatest entry mem

theorem foldl_max_le (bounded : ∀ entry, number entry ≤ u64Max) :
    entries.foldl (fun greatest entry => max greatest (number entry)) 0 ≤ u64Max := by
  obtain ⟨-, -, same | ⟨entry, -, same⟩⟩ := foldl_max entries number 0
  · omega
  · exact same ▸ bounded entry

theorem txId_le (entry : TableEntry) : entry.txId.toNat ≤ u64Max := by
  have := entry.txId.toNat_lt
  rw [u64Max]
  omega

theorem rawSeq_le (entry : TableEntry) : rawSeq entry.seqNo ≤ u64Max := by
  have : rawSeq entry.seqNo < tombstoneBit := Nat.mod_lt _ (by decide)
  rw [tombstoneBit] at this
  rw [u64Max]
  omega

end Extremes

section Finish

variable {digest : Bytes → Bytes} {km : Option KeyManager} {written : WrittenBlocks}
  {current : List TableEntry} {counter : Nat}

theorem indexOf_inside (start : Nat) (written : WrittenBlocks) :
    ∀ entry ∈ indexOf start written, entry.2 ≤ start + written.bytes.length := by
  induction written generalizing start with
  | nil => simp [indexOf]
  | cons block written ih =>
    obtain ⟨entries, bytes⟩ := block
    have total : WrittenBlocks.bytes ((entries, bytes) :: written) = bytes ++ WrittenBlocks.bytes written := by
      simp [WrittenBlocks.bytes]
    intro entry mem
    rw [total, length_append]
    rcases mem_cons.mp mem with rfl | later
    · omega
    · have := ih _ entry later
      omega

theorem finish_built (well : WellBuilt digest km written current) {metadata : SstableMetadata}
    {file : Bytes} (done : (built digest written current counter).finish km = .ok (metadata, file)) :
    ∃ written' counter', WellBuilt digest km written' [] ∧
      WrittenBlocks.entries written' = written.entries ++ current ∧
      (built digest written' [] counter').Finished ∧
      file = (built digest written' [] counter').finishedFile ∧
      metadata = (built digest written' [] counter').metadata file.length := by
  rw [SstableBuilder.finish] at done
  split at done
  · cases done
  rename_i flushed isFlushed
  obtain ⟨written', counter', rfl, well', entries⟩ := flushBlock_built well isFlushed
  split at done
  · cases done
  rename_i shortKeys
  simp only at done
  split at done
  · cases done
  rename_i small
  cases done
  refine ⟨written', counter', well', entries, ?_, rfl, rfl⟩
  constructor
  · rfl
  · intro entry mem
    apply not_le.mp
    intro long
    exact shortKeys (any_eq_true.mpr ⟨entry, mem, decide_eq_true long⟩)
  · intro entry mem
    have := indexOf_inside 0 written' entry mem
    rwa [Nat.zero_add] at this
  · exact BloomFilter.storable_foldl digest BloomFilter.storable_new _
  · exact not_lt.mp small
  · exact (foldl_min _ _ _).1
  · exact foldl_max_le _ txId_le
  · exact (foldl_min _ _ _).1
  · exact foldl_max_le _ rawSeq_le

end Finish

end Contextra.Store
