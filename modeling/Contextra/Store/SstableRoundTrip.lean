import Contextra.Store.SstableSections

/-!
# Round trip of SSTables

A file that was finished opens to a table that serves its blocks, as long as every block is
at most as long as the reader accepts.  The writer takes entries that make a block longer
than that: `roundTrips_iff` says for which entries the file reads back.
-/

namespace Contextra.Store

open Library List
open scoped Library.ByteOrder

/-- The table returns these entries, and its footer describes them. -/
structure ReadsBack (digest : Bytes → Bytes) (reader : SstableReader)
    (entries : List TableEntry) : Prop where
  stream : SstableStream.Yields reader SstableStream.start entries
  getAt : ∀ key maxSeq maxTx, SstableReader.getAt digest reader key maxSeq maxTx =
    .ok ((newestVersion entries key maxSeq maxTx).map fun entry =>
      (entry.value, entry.seqNo, entry.txId))
  scanPrefix : ∀ keyPrefix, SstableReader.scanPrefix reader keyPrefix =
    .ok (entries.filter fun entry => decide (keyPrefix <+: entry.key))
  scanRange : ∀ start stop, SstableReader.scanRange reader start stop =
    .ok (entries.filter (inRange start stop))
  firstKey : reader.metadata.firstKey = (entries.head?.map TableEntry.key).getD []
  lastKey : reader.metadata.lastKey = (entries.getLast?.map TableEntry.key).getD []
  minSeq : entries ≠ [] →
    IsLeast (numbersOf (fun entry => rawSeq entry.seqNo) entries) reader.metadata.minSeq
  maxSeq : entries ≠ [] →
    IsGreatest (numbersOf (fun entry => rawSeq entry.seqNo) entries) reader.metadata.maxSeq
  minTxId : entries ≠ [] →
    IsLeast (numbersOf (fun entry => entry.txId.toNat) entries) reader.metadata.minTxId
  maxTxId : entries ≠ [] →
    IsGreatest (numbersOf (fun entry => entry.txId.toNat) entries) reader.metadata.maxTxId

/-- The file opens, reads back, and is what `finish` said about it. -/
def RoundTrips (digest : Bytes → Bytes) (km : Option KeyManager) (entries : List TableEntry)
    (table : SstableMetadata × Bytes) : Prop :=
  ∃ reader, openTable km table.2 = .ok reader ∧ ReadsBack digest reader entries ∧
    (entries ≠ [] → table.1 = reader.metadata)

/-- What a block adds to its only entry in the file: the fields of the entry, a filter of 8
bytes, one offset, the trailer and the checksum; encrypted also the nonce and the tag. -/
def blockOverhead (km : Option KeyManager) : Nat := if km.isSome then 46 + 28 else 46

/-- A block with this entry alone is at most as long as the reader accepts. -/
def TableEntry.Readable (km : Option KeyManager) (entry : TableEntry) : Prop :=
  entry.key.length + entry.value.length + blockOverhead km ≤ maxReadBlock

section Reading

variable {digest : Bytes → Bytes} {km : Option KeyManager}

/-- Where the blocks are, the first of which starts here. -/
def spansOf : Nat → WrittenBlocks → List (Bytes × Nat × Nat)
  | _, [] => []
  | start, (entries, bytes) :: written =>
    (lastKeyOf entries, start, start + bytes.length) :: spansOf (start + bytes.length) written

theorem blockSpans_indexOf (start : Nat) (written : WrittenBlocks) :
    blockSpans (start + (WrittenBlocks.bytes written).length) (indexOf start written) =
      spansOf start written := by
  induction written generalizing start with
  | nil => rfl
  | cons block written ih =>
    obtain ⟨entries, bytes⟩ := block
    have total : (WrittenBlocks.bytes ((entries, bytes) :: written)).length =
        bytes.length + (WrittenBlocks.bytes written).length := by simp [WrittenBlocks.bytes]
    have later := ih (start + bytes.length)
    rw [Nat.add_assoc, ← total] at later
    cases written with
    | nil =>
      have none : WrittenBlocks.bytes [] = [] := by rfl
      rw [total, none]
      rfl
    | cons next written =>
      rw [indexOf, spansOf, ← later]
      rfl

variable {entries : List TableEntry}

theorem length_sealed {counter : Nat} {bytes : Bytes} (packable : Packable entries)
    (isSealed : sealBlock km counter (withCrc (blockBytes digest entries)) = .ok bytes) :
    bytes.length = blockLen entries + 4 + if km.isSome then 28 else 0 := by
  have plain : (withCrc (blockBytes digest entries)).length = blockLen entries + 4 := by
    rw [length_withCrc, length_blockBytes digest packable]
  cases km with
  | none =>
    cases isSealed
    rw [plain]
    rfl
  | some km =>
    rw [sealBlock] at isSealed
    split at isSealed
    · cases isSealed
    · cases isSealed
      rw [length_append, km.length_nonce, km.length_encrypt, plain]
      simp only [Option.isSome_some, if_true]
      omega

theorem sealed_fits_iff {counter : Nat} {bytes : Bytes} (packable : Packable entries)
    (isSealed : sealBlock km counter (withCrc (blockBytes digest entries)) = .ok bytes) :
    bytes.length ≤ maxReadBlock ↔ ∀ entry ∈ entries, entry.Readable km := by
  rw [length_sealed packable isSealed]
  have overhead : blockOverhead km = 46 + if km.isSome then 28 else 0 := by
    unfold blockOverhead
    split <;> rfl
  have encrypted : (if km.isSome then 28 else 0) ≤ 28 := by split <;> omega
  generalize (if km.isSome then 28 else 0) = extra at overhead encrypted ⊢
  by_cases one : entries.length = 1
  · obtain ⟨entry, rfl⟩ := length_eq_one_iff.mp one
    have size : blockLen [entry] = entry.key.length + entry.value.length + 42 := by
      have filter : blockBloomBits 1 / 8 = 8 := by decide
      rw [blockLen, flatMap_singleton, entry.length_toBytes, length_singleton, filter]
    simp only [mem_singleton, forall_eq, TableEntry.Readable, size, overhead]
    omega
  · have small : blockLen entries ≤ blockSize := packable.fits.resolve_left one
    rw [blockSize] at small
    refine iff_of_true (by rw [maxReadBlock]; omega) ?_
    intro entry mem
    obtain ⟨position, inside, rfl⟩ := mem_iff_getElem.mp mem
    have part := congrArg List.length (flatMap_split TableEntry.toBytes inside)
    rw [length_append, length_append, TableEntry.length_toBytes] at part
    rw [blockLen] at small
    rw [TableEntry.Readable, overhead, maxReadBlock]
    omega

variable {start : Nat}

theorem readBlockAtFile_sealed {counter : Nat} {file bytes : Bytes}
    (before : Bytes) (here : before ++ bytes <+: file) (position : before.length = start)
    (isSealed : sealBlock km counter (withCrc (blockBytes digest entries)) = .ok bytes) :
    readBlockAtFile file start (start + bytes.length) km =
      if maxReadBlock < bytes.length then
        .error (.storage "SSTable block size exceeds maximum allowed size")
      else .ok (blockBytes digest entries) := by
  have read : getField "Block read failed" start bytes.length file = .ok bytes :=
    getField_split before here position rfl
  rw [readBlockAtFile]
  simp only [Nat.add_sub_cancel_left, read]
  by_cases tooLong : maxReadBlock < bytes.length
  · rw [if_pos tooLong, if_pos tooLong]
  · rw [if_neg tooLong, if_neg tooLong]
    cases km with
    | none =>
      cases isSealed
      exact checkCrc_withCrc _ _ _
    | some km =>
      rw [sealBlock] at isSealed
      split at isSealed
      · cases isSealed
      cases isSealed
      have size := km.length_nonce counter
      have nonce : (km.nonce counter ++ km.encrypt (km.nonce counter)
          (withCrc (blockBytes digest entries))).take 12 = km.nonce counter := by
        rw [take_append_of_le_length (by omega), take_of_length_le (by omega)]
      have text : (km.nonce counter ++ km.encrypt (km.nonce counter)
          (withCrc (blockBytes digest entries))).drop 12 =
            km.encrypt (km.nonce counter) (withCrc (blockBytes digest entries)) := by
        rw [drop_append_of_le_length (by omega), drop_of_length_le (by omega),
          nil_append]
      have long : ¬ (km.nonce counter ++ km.encrypt (km.nonce counter)
          (withCrc (blockBytes digest entries))).length < 12 := by
        rw [length_append]
        omega
      simp only [if_neg long, nonce, text, km.decrypt_encrypt]
      exact checkCrc_withCrc _ _ _

variable {written : WrittenBlocks}

def SealedBlocks (digest : Bytes → Bytes) (km : Option KeyManager) (written : WrittenBlocks) : Prop :=
  ∀ block ∈ written, Packable block.1 ∧
    ∃ counter, sealBlock km counter (withCrc (blockBytes digest block.1)) = .ok block.2

theorem SealedBlocks.fits_iff (isSealed : SealedBlocks digest km written) :
    (∀ block ∈ written, block.2.length ≤ maxReadBlock) ↔
      ∀ entry ∈ WrittenBlocks.entries written, entry.Readable km := by
  constructor
  · intro fits entry mem
    obtain ⟨entries, inBlocks, inBlock⟩ := mem_flatten.mp mem
    obtain ⟨block, inWritten, rfl⟩ := mem_map.mp inBlocks
    obtain ⟨packable, counter, sealedAs⟩ := isSealed block inWritten
    exact (sealed_fits_iff packable sealedAs).mp (fits block inWritten) entry inBlock
  · intro readable block inWritten
    obtain ⟨packable, counter, sealedAs⟩ := isSealed block inWritten
    apply (sealed_fits_iff packable sealedAs).mpr
    intro entry inBlock
    exact readable entry (mem_flatten.mpr ⟨_, mem_map.mpr ⟨block, inWritten, rfl⟩, inBlock⟩)

theorem lastKeyOf_eq (packable : Packable entries) :
    entries.getLast?.map TableEntry.key = some (lastKeyOf entries) :=
  lastKey_of_ne_nil packable.nonempty

theorem served_of_fits {reader : SstableReader} (manager : reader.keyManager = km)
    (isSealed : SealedBlocks digest km written)
    (fits : ∀ block ∈ written, block.2.length ≤ maxReadBlock) (before : Bytes)
    (here : before ++ WrittenBlocks.bytes written <+: reader.file) (position : before.length = start) :
    List.Forall₂ (ServesBlock digest reader) (spansOf start written) (written.map Prod.fst) := by
  induction written generalizing start before with
  | nil => exact .nil
  | cons block written ih =>
    obtain ⟨entries, bytes⟩ := block
    obtain ⟨(packable : Packable entries), counter, sealedAs⟩ :=
      isSealed (entries, bytes) mem_cons_self
    have split : WrittenBlocks.bytes ((entries, bytes) :: written) = bytes ++ WrittenBlocks.bytes written := by
      simp [WrittenBlocks.bytes]
    rw [split, ← append_assoc] at here
    refine .cons ⟨packable, lastKeyOf_eq packable, ?_⟩ ?_
    · have short := fits (entries, bytes) mem_cons_self
      rw [SstableReader.getBlock, manager, readBlockAtFile_sealed before
        ((prefix_append _ _).trans here) position sealedAs, if_neg (not_lt.mpr short)]
    · apply ih (fun other mem => isSealed other (mem_cons_of_mem _ mem))
        (fun other mem => fits other (mem_cons_of_mem _ mem)) (before ++ bytes) here
      rw [length_append, position]

theorem rangeBlocks_of_large {reader : SstableReader} (manager : reader.keyManager = km)
    (isSealed : SealedBlocks digest km written) (sorted : SortedEntries (WrittenBlocks.entries written))
    {large : List TableEntry × Bytes} (mem : large ∈ written)
    (tooLong : maxReadBlock < large.2.length) (before : Bytes)
    (here : before ++ WrittenBlocks.bytes written <+: reader.file) (position : before.length = start) :
    ∃ error, SstableReader.rangeBlocks reader .unbounded .unbounded (spansOf start written) =
      .error error := by
  induction written generalizing start before with
  | nil => cases mem
  | cons block written ih =>
    obtain ⟨entries, bytes⟩ := block
    obtain ⟨(packable : Packable entries), counter, sealedAs⟩ :=
      isSealed (entries, bytes) mem_cons_self
    have split : WrittenBlocks.bytes ((entries, bytes) :: written) = bytes ++ WrittenBlocks.bytes written := by
      simp [WrittenBlocks.bytes]
    have splitEntries : WrittenBlocks.entries ((entries, bytes) :: written) =
        entries ++ WrittenBlocks.entries written := by simp [WrittenBlocks.entries]
    rw [split, ← append_assoc] at here
    rw [splitEntries] at sorted
    obtain ⟨sortedHere, sortedLater, -⟩ := sortedEntries_append.mp sorted
    have read := readBlockAtFile_sealed before ((prefix_append _ _).trans here) position sealedAs
    rw [← manager] at read
    rw [spansOf, SstableReader.rangeBlocks, SstableReader.getBlock, read]
    by_cases longHere : maxReadBlock < bytes.length
    · rw [if_pos longHere]
      exact ⟨_, rfl⟩
    · rw [if_neg longHere]
      have inLater : large ∈ written := by
        rcases mem_cons.mp mem with rfl | later
        · exact absurd tooLong longHere
        · exact later
      obtain ⟨error, fails⟩ := ih
        (fun other inLater => isSealed other (mem_cons_of_mem _ inLater)) sortedLater inLater
        (before ++ bytes) here (by rw [length_append, position])
      have notPassed : (entries.drop 0).any (passesRange .unbounded .unbounded) = false := by
        apply any_eq_false.mpr
        intro entry inBlock
        simp [passesRange, Bound.BelowEnd]
      simp only [parseBlockTrailer_packed digest packable, SstableReader.rangeStart]
      rw [rangeEntries_packed digest packable sortedHere .unbounded .unbounded _ 0 (by omega),
        notPassed, fails]
      exact ⟨error, rfl⟩

theorem readFirstKey_finished {file : Bytes} (isSealed : SealedBlocks digest km written)
    (fits : ∀ block ∈ written, block.2.length ≤ maxReadBlock)
    (here : WrittenBlocks.bytes written <+: file) :
    readFirstKey file km (WrittenBlocks.bytes written).length (indexOf 0 written) =
      .ok (((WrittenBlocks.entries written).head?.map TableEntry.key).getD []) := by
  have spans := blockSpans_indexOf 0 written
  rw [Nat.zero_add] at spans
  rw [readFirstKey, spans]
  cases written with
  | nil => rfl
  | cons block written =>
    obtain ⟨entries, bytes⟩ := block
    obtain ⟨(packable : Packable entries), counter, sealedAs⟩ :=
      isSealed (entries, bytes) mem_cons_self
    have split : WrittenBlocks.bytes ((entries, bytes) :: written) = bytes ++ WrittenBlocks.bytes written := by
      simp [WrittenBlocks.bytes]
    rw [split] at here
    have inFile : [] ++ bytes <+: file := (prefix_append _ _).trans here
    have short := fits (entries, bytes) mem_cons_self
    have read : readBlockAtFile file 0 (0 + bytes.length) km = _ :=
      readBlockAtFile_sealed [] inFile rfl sealedAs
    rw [if_neg (not_lt.mpr short)] at read
    rw [spansOf]
    simp only [read]
    have inside : 0 < entries.length := length_pos_of_ne_nil packable.nonempty
    obtain ⟨after, front⟩ := blockBytes_split digest packable inside
    rw [take_zero, flatMap_nil, nil_append, TableEntry.toBytes] at front
    have first : ((WrittenBlocks.entries ((entries, bytes) :: written)).head?.map TableEntry.key).getD [] =
        entries[0].key := by
      have splitEntries : WrittenBlocks.entries ((entries, bytes) :: written) =
          entries ++ WrittenBlocks.entries written := by simp [WrittenBlocks.entries]
      rw [splitEntries, head?_append, head?_eq_getElem?, getElem?_eq_getElem inside]
      rfl
    rw [first]
    have shortKey := (packable.writable _ (getElem_mem inside)).2.1
    generalize entries[0] = entry at front shortKey ⊢
    rw [maxKeySize] at shortKey
    have size : (toLeBytes 2 entry.key.length).length = 2 := length_toLeBytes _ _
    have readLength : fromLeBytes (toLeBytes 2 entry.key.length) = entry.key.length :=
      fromLeBytes_toLeBytes (by omega)
    have total := congrArg List.length front
    simp only [length_append, size] at total
    have lengthField : (blockBytes digest entries).take 2 = toLeBytes 2 entry.key.length := by
      rw [front, append_assoc, take_append_of_le_length (by omega),
        take_of_length_le (by omega)]
    have keyField : ((blockBytes digest entries).drop 2).take entry.key.length = entry.key := by
      rw [front, append_assoc, drop_append_of_le_length (by omega),
        drop_of_length_le (by omega), nil_append, append_assoc, take_left]
    simp only [lengthField, readLength, keyField]
    rw [if_neg (by omega), if_neg (by omega)]

end Reading

section RoundTrip

variable {digest : Bytes → Bytes} {km : Option KeyManager} {counter : Nat}
  {entries : List TableEntry} {table : SstableMetadata × Bytes}

theorem finished_of_writeTable (wrote : writeTable digest km counter entries = .ok table) :
    ∃ written counter', WellBuilt digest km written [] ∧ WrittenBlocks.entries written = entries ∧
      (built digest written [] counter').Finished ∧
      table = ((built digest written [] counter').metadata
          (built digest written [] counter').finishedFile.length,
        (built digest written [] counter').finishedFile) := by
  rw [writeTable, ← built_nil digest] at wrote
  split at wrote
  · cases wrote
  rename_i builder added
  obtain ⟨written, current, counter', rfl, well, all⟩ := addEntries_built (.nil digest km) added
  obtain ⟨metadata, file⟩ := table
  obtain ⟨written', counter'', well', flushed, finished, rfl, rfl⟩ := finish_built well wrote
  refine ⟨written', counter'', well', ?_, finished, rfl⟩
  rw [flushed, all]
  rfl

theorem WellBuilt.sealedBlocks {written : WrittenBlocks} (well : WellBuilt digest km written []) :
    SealedBlocks digest km written :=
  fun block mem => ⟨well.packable block mem, well.sealed block mem⟩

theorem lastKey_indexOf {written : WrittenBlocks} (packable : ∀ block ∈ written, Packable block.1)
    (start : Nat) :
    (indexOf start written).getLast?.map Prod.fst =
      (WrittenBlocks.entries written).getLast?.map TableEntry.key := by
  rcases eq_nil_or_concat written with rfl | ⟨earlier, ⟨entries, bytes⟩, rfl⟩
  · rfl
  · rw [concat_eq_append] at packable ⊢
    have last : Packable entries := packable (entries, bytes) (by simp)
    rw [indexOf_concat, getLast?_concat, WrittenBlocks.entries_concat,
      getLast_append_of_ne_nil last.nonempty, lastKeyOf_eq last]
    rfl

section Opened

variable {written : WrittenBlocks}

theorem spans_openedAs (firstKey : Bytes) :
    ((built digest written [] counter).openedAs km firstKey).spans = spansOf 0 written := by
  have spans := blockSpans_indexOf 0 written
  rwa [Nat.zero_add] at spans

theorem bytes_isPrefix :
    [] ++ WrittenBlocks.bytes written <+: (built digest written [] counter).finishedFile := by
  rw [nil_append, SstableBuilder.finishedFile]
  exact prefix_append _ _

variable (well : WellBuilt digest km written [])
include well

theorem sorted_written : SortedEntries (WrittenBlocks.entries written) := by
  have sorted := well.sorted
  rwa [append_nil] at sorted

theorem first_le {entry : TableEntry} (mem : entry ∈ WrittenBlocks.entries written) :
    ((WrittenBlocks.entries written).head?.map TableEntry.key).getD [] ≤ entry.key := by
  have sorted := sorted_written well
  cases all : WrittenBlocks.entries written with
  | nil => simp [all] at mem
  | cons first later =>
    rw [all] at mem sorted
    rcases mem_cons.mp mem with rfl | behind
    · exact le_rfl
    · exact ((pairwise_cons.mp sorted).1 entry behind).key_le

theorem le_last {entry : TableEntry} (mem : entry ∈ WrittenBlocks.entries written) :
    entry.key ≤ ((WrittenBlocks.entries written).getLast?.map TableEntry.key).getD [] := by
  have sorted := sorted_written well
  rcases eq_nil_or_concat (WrittenBlocks.entries written) with none | ⟨earlier, last, all⟩
  · simp [none] at mem
  · rw [concat_eq_append] at all
    rw [all] at mem sorted ⊢
    rw [getLast?_concat]
    rcases mem_append.mp mem with before | isLast
    · exact ((sortedEntries_append.mp sorted).2.2 entry before last mem_cons_self).key_le
    · rw [mem_singleton.mp isLast]
      rfl

theorem serves_openedAs (counter : Nat) (fits : ∀ block ∈ written, block.2.length ≤ maxReadBlock) :
    Serves digest ((built digest written [] counter).openedAs km
      (((WrittenBlocks.entries written).head?.map TableEntry.key).getD [])) (written.map Prod.fst) where
  served := by
    rw [spans_openedAs]
    exact served_of_fits rfl well.sealedBlocks fits [] bytes_isPrefix rfl
  sorted := sorted_written well
  admitted := by
    intro filter isFilter entry mem
    cases isFilter
    apply BloomFilter.admits_foldl
    rw [append_nil]
    exact mem
  firstKey := fun entry mem => first_le well mem
  lastKey := by
    intro entry mem
    change entry.key ≤ ((indexOf 0 written).getLast?.map Prod.fst).getD []
    rw [lastKey_indexOf well.packable]
    exact le_last well mem

theorem readsBack_openedAs (counter : Nat) (fits : ∀ block ∈ written, block.2.length ≤ maxReadBlock) :
    ReadsBack digest ((built digest written [] counter).openedAs km
      (((WrittenBlocks.entries written).head?.map TableEntry.key).getD []))
      (WrittenBlocks.entries written) := by
  have serves := serves_openedAs well counter fits
  have all : WrittenBlocks.entries written ++ [] = WrittenBlocks.entries written := append_nil _
  constructor
  · exact serves.stream
  · exact serves.getAt
  · exact serves.scanPrefix
  · exact serves.scanRange
  · rfl
  · change ((indexOf 0 written).getLast?.map Prod.fst).getD [] = _
    rw [lastKey_indexOf well.packable]
  · intro inhabited
    rw [← all] at inhabited ⊢
    exact isLeast_foldl_min (fun entry => rawSeq entry.seqNo) rawSeq_le inhabited
  · intro inhabited
    rw [← all] at inhabited ⊢
    exact isGreatest_foldl_max (fun entry => rawSeq entry.seqNo) inhabited
  · intro inhabited
    rw [← all] at inhabited ⊢
    exact isLeast_foldl_min (fun entry => entry.txId.toNat) txId_le inhabited
  · intro inhabited
    rw [← all] at inhabited ⊢
    exact isGreatest_foldl_max (fun entry => entry.txId.toNat) inhabited

end Opened

theorem roundTrips_of_readable (wrote : writeTable digest km counter entries = .ok table)
    (readable : ∀ entry ∈ entries, entry.Readable km) : RoundTrips digest km entries table := by
  obtain ⟨written, counter', well, rfl, finished, rfl⟩ := finished_of_writeTable wrote
  have fits := well.sealedBlocks.fits_iff.mpr readable
  have firstKey : readFirstKey (built digest written [] counter').finishedFile km
      (built digest written [] counter').offset (built digest written [] counter').index =
        .ok (((WrittenBlocks.entries written).head?.map TableEntry.key).getD []) :=
    readFirstKey_finished well.sealedBlocks fits bytes_isPrefix
  refine ⟨_, ?_, readsBack_openedAs well counter' fits, ?_⟩
  · rw [finished.openTable, firstKey]
    rfl
  · intro inhabited
    have counted : (built digest written [] counter').keyCount ≠ 0 := by
      change (WrittenBlocks.entries written ++ []).length ≠ 0
      simpa using inhabited
    rw [SstableBuilder.metadata, if_neg counted, SstableBuilder.openedAs]
    simp only [built, append_nil, lastKey_indexOf well.packable]

/-- A table with an entry that makes its block too long does not read back: a scan of all
entries fails. -/
theorem not_roundTrips_of_large (wrote : writeTable digest km counter entries = .ok table)
    {entry : TableEntry} (mem : entry ∈ entries) (large : ¬ entry.Readable km) :
    ¬ RoundTrips digest km entries table := by
  rintro ⟨reader, opened, reads, -⟩
  obtain ⟨written, counter', well, rfl, finished, rfl⟩ := finished_of_writeTable wrote
  rw [finished.openTable] at opened
  obtain ⟨block, inWritten, tooLong⟩ : ∃ block ∈ written, maxReadBlock < block.2.length := by
    by_contra none
    push Not at none
    exact large (well.sealedBlocks.fits_iff.mp none entry mem)
  cases firstKey : readFirstKey (built digest written [] counter').finishedFile km
      (built digest written [] counter').offset (built digest written [] counter').index with
  | error error =>
    rw [firstKey] at opened
    cases opened
  | ok key =>
    rw [firstKey] at opened
    cases opened
    obtain ⟨error, fails⟩ : ∃ error, SstableReader.rangeBlocks
        ((built digest written [] counter').openedAs km key) .unbounded .unbounded
          (spansOf 0 written) = .error error :=
      rangeBlocks_of_large rfl well.sealedBlocks (sorted_written well) inWritten tooLong []
        bytes_isPrefix rfl
    have scanned := reads.scanRange .unbounded .unbounded
    rw [SstableReader.scanRange, spans_openedAs] at scanned
    rw [fails] at scanned
    cases scanned

/-- A table reads back if and only if each of its entries makes a block the reader accepts. -/
theorem roundTrips_iff (digest : Bytes → Bytes) (km : Option KeyManager) (counter : Nat)
    (entries : List TableEntry) (table : SstableMetadata × Bytes)
    (wrote : writeTable digest km counter entries = .ok table) :
    RoundTrips digest km entries table ↔ ∀ entry ∈ entries, entry.Readable km := by
  constructor
  · intro roundTrips entry mem
    by_contra large
    exact not_roundTrips_of_large wrote mem large roundTrips
  · exact roundTrips_of_readable wrote

end RoundTrip

theorem writeTable_singleton (digest : Bytes → Bytes) (counter : Nat) {entry : TableEntry}
    (writable : entry.Writable) : ∃ table, writeTable digest none counter [entry] = .ok table := by
  have accepts : (SstableBuilder.create counter).add digest none entry =
      .ok (built digest [] [entry] counter) := by
    have block : (started (built digest [] [] counter) entry).blockBuilder = packed digest [] := by rfl
    rw [← built_nil digest, SstableBuilder.add, if_neg writable.1,
      if_neg (not_or.mpr ⟨not_lt.mpr writable.2.1, not_lt.mpr writable.2.2⟩)]
    change ((started (built digest [] [] counter) entry).addToBlock digest none entry).map
      (SstableBuilder.record digest · entry) = _
    rw [SstableBuilder.addToBlock, block, add_packed digest writable (.inl rfl), if_neg (by simp)]
    exact congrArg Except.ok (record_built entry)
  have size := length_blockBytes digest (.singleton writable)
  have short : blockLen [entry] ≤ 2 ^ 28 := by
    have filter : blockBloomBits 1 / 8 = 8 := by decide
    obtain ⟨-, shortKey, shortValue⟩ := writable
    rw [maxKeySize] at shortKey
    rw [maxValueSize] at shortValue
    rw [blockLen, flatMap_singleton, entry.length_toBytes, length_singleton, filter]
    omega
  -- the block and the sections are far from the largest offset
  have sealedLen : (withCrc (blockBytes digest [entry])).length ≤ 2 ^ 28 + 4 := by
    rw [length_withCrc]
    omega
  have flushes : (built digest [] [entry] counter).flushBlock none =
      .ok (built digest [([entry], withCrc (blockBytes digest [entry]))] [] counter) := by
    have isEmpty : (built digest [] [entry] counter).blockBuilder.isEmpty = false := by rfl
    have lastKey : (built digest [] [entry] counter).lastKey = some entry.key := by rfl
    have offset : (built digest [] [entry] counter).offset = 0 := by rfl
    rw [SstableBuilder.flushBlock, isEmpty, if_neg (by simp), lastKey]
    change (if u64Max < (built digest [] [entry] counter).offset +
      (withCrc (blockBytes digest [entry])).length then _ else _) = _
    rw [offset, if_neg (by rw [u64Max]; omega)]
    simp [built, WrittenBlocks.entries, WrittenBlocks.bytes, indexOf, lastKeyOf, packed_nil, blockBytes]
  have indexLen : (built digest [([entry], withCrc (blockBytes digest [entry]))] []
      counter).indexToWrite.length = 14 + entry.key.length := by
    rw [SstableBuilder.indexToWrite, length_withCrc]
    have index : (built digest [([entry], withCrc (blockBytes digest [entry]))] [] counter).index =
        [(entry.key, 0)] := by rfl
    rw [index, flatMap_singleton, length_indexEntryBytes]
    change 2 + entry.key.length + 8 + 4 = 14 + entry.key.length
    omega
  rw [writeTable, addEntries, accepts]
  simp only [addEntries]
  rw [SstableBuilder.finish, flushes]
  have shortKey := writable.2.1
  rw [maxKeySize] at shortKey
  have notLong : (built digest [([entry], withCrc (blockBytes digest [entry]))] [] counter).index.any
      (fun entry => decide (2 ^ 16 ≤ entry.1.length)) = false := by
    apply any_eq_false.mpr
    intro other mem
    rw [mem_singleton.mp mem]
    simp only [decide_eq_true_eq, not_le]
    change entry.key.length < 2 ^ 16
    omega
  have offset : (built digest [([entry], withCrc (blockBytes digest [entry]))] [] counter).offset =
      (withCrc (blockBytes digest [entry])).length := by
    simp [built, WrittenBlocks.bytes]
  simp only [notLong]
  rw [if_neg (by simp), if_neg]
  · exact ⟨_, rfl⟩
  · change ¬ u64Max < (built digest _ [] counter).offset +
      (built digest [([entry], withCrc (blockBytes digest [entry]))] [] counter).indexToWrite.length
    rw [offset, indexLen, u64Max]
    omega

theorem roundTrips_iff_small :
    ∃ table, writeTable id none 0 [⟨[1], [2], 3, 4⟩] = .ok table ∧
      (RoundTrips id none [⟨[1], [2], 3, 4⟩] table ↔
        ∀ entry ∈ [(⟨[1], [2], 3, 4⟩ : TableEntry)], entry.Readable none) := by
  have writable : TableEntry.Writable ⟨[1], [2], 3, 4⟩ := by
    simp [TableEntry.Writable, maxKeySize, maxValueSize]
  obtain ⟨table, wrote⟩ := writeTable_singleton id 0 writable
  exact ⟨table, wrote, roundTrips_iff id none 0 _ table wrote⟩

def largeEntry : TableEntry := ⟨[1], replicate maxReadBlock 0, 3, 4⟩

/-- The writer takes the large entry, and the table does not read back. -/
theorem large_not_roundTrips :
    ∃ table, writeTable id none 0 [largeEntry] = .ok table ∧
      ¬ RoundTrips id none [largeEntry] table := by
  have valueLen : largeEntry.value.length = maxReadBlock := length_replicate
  have writable : largeEntry.Writable := by
    refine ⟨by simp [largeEntry], by decide, ?_⟩
    rw [valueLen]
    decide
  obtain ⟨table, wrote⟩ := writeTable_singleton id 0 writable
  refine ⟨table, wrote, not_roundTrips_of_large wrote mem_cons_self ?_⟩
  rw [TableEntry.Readable, valueLen, blockOverhead]
  simp only [Option.isSome_none, Bool.false_eq_true, if_false]
  omega

end Contextra.Store
