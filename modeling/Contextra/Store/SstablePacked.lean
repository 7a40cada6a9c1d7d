import Contextra.Store.SstableBlock

/-!
# Packed blocks

The block builder packs entries, and every reader finds in the block what was packed: the
entry at each index, the filter, and the positions of the binary searches.
-/

namespace Contextra.Store

open Library List
open scoped Library.ByteOrder

section Fields

variable {message : String} {data field : Bytes} {offset count : Nat}

theorem getField_split (before : Bytes) (here : before ++ field <+: data)
    (position : before.length = offset) (size : field.length = count) :
    getField message offset count data = .ok field := by
  obtain ⟨after, split⟩ := here
  unfold getField
  rw [← split, ← position, ← size, fieldAt_append]

theorem getField_append (before : Bytes) {found : Bytes} (here : getField message offset count data = .ok found) :
    getField message (before.length + offset) count (before ++ data) = .ok found := by
  unfold getField fieldAt at *
  split at here
  · rename_i field inside
    split at inside
    · rw [if_pos (by rw [length_append]; omega)]
      simp_all
    · cases inside
  · cases here

end Fields

theorem flatMap_split {α : Type*} (encode : α → Bytes) {list : List α} {position : Nat}
    (inside : position < list.length) :
    list.flatMap encode =
      (list.take position).flatMap encode ++
        (encode list[position] ++ (list.drop (position + 1)).flatMap encode) := by
  conv_lhs => rw [← take_append_drop position list, drop_eq_getElem_cons inside]
  rw [flatMap_append, flatMap_cons]

theorem length_flatMap_toLeBytes (width : Nat) (values : List Nat) :
    (values.flatMap (toLeBytes width)).length = values.length * width := by
  induction values with
  | nil => simp
  | cons value values ih =>
    rw [flatMap_cons, length_append, ih, length_toLeBytes,
      length_cons]
    ring

theorem TableEntry.length_toBytes (entry : TableEntry) :
    entry.toBytes.length = entry.key.length + entry.value.length + 22 := by
  simp only [toBytes, length_append, length_toLeBytes]
  omega

def entryOffsets (entries : List TableEntry) : List Nat :=
  (List.range entries.length).map fun i => ((entries.take i).flatMap TableEntry.toBytes).length

theorem entryOffsets_concat (entries : List TableEntry) (entry : TableEntry) :
    entryOffsets (entries ++ [entry]) =
      entryOffsets entries ++ [(entries.flatMap TableEntry.toBytes).length] := by
  unfold entryOffsets
  rw [length_append, length_singleton, range_succ, map_append, map_singleton,
    take_left]
  congr 1
  apply map_congr_left
  intro i mem
  rw [take_append_of_le_length (mem_range.mp mem).le]

def packed (digest : Bytes → Bytes) (entries : List TableEntry) : BlockBuilder where
  data := entries.flatMap TableEntry.toBytes
  offsets := entryOffsets entries
  keyHashes := entries.map fun entry => hashPair digest entry.key

section Packed

variable (digest : Bytes → Bytes)

theorem packed_nil : packed digest [] = BlockBuilder.new := by rfl

theorem length_packed_offsets (entries : List TableEntry) :
    (packed digest entries).offsets.length = entries.length := by
  simp [packed, entryOffsets]

theorem isEmpty_packed (entries : List TableEntry) :
    (packed digest entries).isEmpty = entries.isEmpty := by
  cases entries with
  | nil => rfl
  | cons entry entries => simp [BlockBuilder.isEmpty, packed, entryOffsets, range_succ]

theorem packed_data_eq_nil {entries : List TableEntry} :
    (packed digest entries).data = [] ↔ entries = [] := by
  cases entries with
  | nil => simp [packed]
  | cons entry entries => simp [packed, TableEntry.toBytes, toLeBytes]

def blockBytes (entries : List TableEntry) : Bytes := (packed digest entries).build

/-- An entry whose lengths the block format can write. -/
def TableEntry.Writable (entry : TableEntry) : Prop :=
  entry.key ≠ [] ∧ entry.key.length ≤ maxKeySize ∧ entry.value.length ≤ maxValueSize

def blockLen (entries : List TableEntry) : Nat :=
  (entries.flatMap TableEntry.toBytes).length + blockBloomBits entries.length / 8 +
    entries.length * 4 + 8

/-- The entries of one block as the builder cuts them: one entry of any size, or several
that fit the block size together. -/
structure Packable (entries : List TableEntry) : Prop where
  nonempty : entries ≠ []
  writable : ∀ entry ∈ entries, entry.Writable
  fits : entries.length = 1 ∨ blockLen entries ≤ blockSize

variable {entry : TableEntry}

theorem Packable.singleton (writable : entry.Writable) : Packable [entry] where
  nonempty := by simp
  writable := by simpa using writable
  fits := .inl rfl

theorem projectedLen_packed (entries : List TableEntry) (entry : TableEntry) :
    (packed digest entries).projectedLen entry.key entry.value = blockLen (entries ++ [entry]) := by
  rw [BlockBuilder.projectedLen, length_packed_offsets]
  simp only [packed, blockLen, flatMap_append, flatMap_singleton, length_append,
    TableEntry.length_toBytes, length_singleton, blockBloomBits, if_neg (Nat.succ_ne_zero _)]
  omega

theorem add_packed {entries : List TableEntry} (writable : entry.Writable)
    (old : entries = [] ∨ Packable entries) :
    (packed digest entries).add digest entry =
      if entries ≠ [] ∧ blockSize < blockLen (entries ++ [entry]) then none
      else some (packed digest (entries ++ [entry])) := by
  have started : (packed digest entries).data ≠ [] ↔ entries ≠ [] :=
    not_congr (packed_data_eq_nil digest)
  rw [BlockBuilder.add, projectedLen_packed]
  simp only [started]
  by_cases tooLong : entries ≠ [] ∧ blockSize < blockLen (entries ++ [entry])
  · rw [if_pos tooLong, if_pos tooLong]
  · rw [if_neg tooLong, if_neg tooLong]
    have shortKey : ¬ 2 ^ 16 ≤ entry.key.length := by
      have := writable.2.1
      unfold maxKeySize at this
      omega
    have shortValue : ¬ 2 ^ 32 ≤ entry.value.length := by
      have := writable.2.2
      unfold maxValueSize at this
      omega
    have shortData : ¬ 2 ^ 32 ≤ (packed digest entries).data.length := by
      rcases old with rfl | old
      · simp [packed]
      · have small : ¬ blockSize < blockLen (entries ++ [entry]) := fun long =>
          tooLong ⟨old.nonempty, long⟩
        simp only [packed, blockLen, blockSize, flatMap_append, length_append] at small ⊢
        omega
    rw [if_neg shortKey, if_neg shortValue, if_neg shortData]
    simp only [packed, entryOffsets_concat, flatMap_append, flatMap_singleton,
      map_append, map_singleton]

theorem Packable.concat {entries : List TableEntry} (old : Packable entries)
    (writable : entry.Writable) (fits : ¬ blockSize < blockLen (entries ++ [entry])) :
    Packable (entries ++ [entry]) where
  nonempty := by simp
  writable := by
    intro other mem
    rcases mem_append.mp mem with earlier | last
    · exact old.writable other earlier
    · rwa [mem_singleton.mp last]
  fits := .inr (not_lt.mp fits)

theorem parseBlockTrailer_parts (data : Bytes) {bloom offsets : Bytes} {bloomLen count : Nat}
    (bloomLength : bloom.length = bloomLen) (offsetsLength : offsets.length = count * 4)
    (smallCount : count < 2 ^ 32) (smallBloom : bloomLen < 2 ^ 32) :
    parseBlockTrailer
        (data ++ (bloom ++ (offsets ++ (toLeBytes 4 bloomLen ++ toLeBytes 4 count)))) =
      .ok ⟨count, data.length + bloomLen, bloom⟩ := by
  generalize whole :
    data ++ (bloom ++ (offsets ++ (toLeBytes 4 bloomLen ++ toLeBytes 4 count))) = block
  have total : block.length = data.length + bloomLen + count * 4 + 8 := by
    rw [← whole]
    simp only [length_append, length_toLeBytes, bloomLength, offsetsLength]
    omega
  have numField : getField "malformed block: missing num_offsets" (block.length - 4) 4 block =
      .ok (toLeBytes 4 count) := by
    apply getField_split (data ++ (bloom ++ (offsets ++ toLeBytes 4 bloomLen)))
    · exact ⟨[], by simp [← whole]⟩
    · simp only [length_append, length_toLeBytes, bloomLength, offsetsLength]
      omega
    · apply length_toLeBytes
  have bloomField : getField "malformed block: missing bloom_len" (block.length - 8) 4 block =
      .ok (toLeBytes 4 bloomLen) := by
    apply getField_split (data ++ (bloom ++ offsets))
    · exact ⟨toLeBytes 4 count, by simp [← whole]⟩
    · simp only [length_append, bloomLength, offsetsLength]
      omega
    · apply length_toLeBytes
  have bloomBytes : getField "malformed block: missing bloom bytes"
      (block.length - 8 - count * 4 - bloomLen) bloomLen block = .ok bloom := by
    apply getField_split data
    · exact ⟨offsets ++ (toLeBytes 4 bloomLen ++ toLeBytes 4 count), by simp [← whole]⟩
    · omega
    · exact bloomLength
  have start : block.length - 8 - count * 4 = data.length + bloomLen := by omega
  have readCount : fromLeBytes (toLeBytes 4 count) = count := fromLeBytes_toLeBytes (by omega)
  have readBloom : fromLeBytes (toLeBytes 4 bloomLen) = bloomLen :=
    fromLeBytes_toLeBytes (by omega)
  rw [parseBlockTrailer]
  simp only [numField, bloomField, bind, Except.bind, readCount, readBloom, bloomBytes]
  rw [if_neg (by omega), if_neg (by omega), start]

section Sizes

theorem blockBloomBits_pos (count : Nat) : 0 < blockBloomBits count := by
  unfold blockBloomBits nextMultipleOf
  split <;> omega

theorem blockBloomBits_div_mul (count : Nat) : blockBloomBits count / 8 * 8 = blockBloomBits count := by
  unfold blockBloomBits nextMultipleOf
  split <;> omega

theorem length_blockBloom (keyHashes : List (Nat × Nat)) :
    (blockBloom keyHashes).length = blockBloomBits keyHashes.length / 8 := by
  rw [blockBloom, length_map, length_insertAll, length_replicate]

theorem Packable.sizes {entries : List TableEntry} (packable : Packable entries) :
    entries.length < 2 ^ 32 ∧ blockBloomBits entries.length / 8 < 2 ^ 32 ∧
      ∀ position < entries.length,
        ((entries.take position).flatMap TableEntry.toBytes).length < 2 ^ 32 := by
  rcases packable.fits with one | fits
  · rw [one]
    refine ⟨by decide, by decide, ?_⟩
    intro position inside
    obtain rfl : position = 0 := by omega
    simp
  · rw [blockLen, blockSize] at fits
    refine ⟨by omega, by omega, ?_⟩
    intro position inside
    have part := congrArg List.length (flatMap_split TableEntry.toBytes inside)
    rw [length_append] at part
    omega

end Sizes

def offsetsStart (entries : List TableEntry) : Nat :=
  (entries.flatMap TableEntry.toBytes).length + blockBloomBits entries.length / 8

def packedBloom (entries : List TableEntry) : Bytes :=
  blockBloom (entries.map fun entry => hashPair digest entry.key)

theorem length_packedBloom (entries : List TableEntry) :
    (packedBloom digest entries).length = blockBloomBits entries.length / 8 := by
  rw [packedBloom, length_blockBloom, length_map]

variable {entries : List TableEntry} (packable : Packable entries)
include packable

theorem blockBytes_eq :
    blockBytes digest entries =
      entries.flatMap TableEntry.toBytes ++
        (packedBloom digest entries ++
          ((entryOffsets entries).flatMap (toLeBytes 4) ++
            (toLeBytes 4 (blockBloomBits entries.length / 8) ++ toLeBytes 4 entries.length))) := by
  have sizes := packable.sizes
  have count := length_packed_offsets digest entries
  rw [blockBytes, BlockBuilder.build, count]
  simp only [packed]
  rw [← packedBloom, length_packedBloom, min_eq_left (by omega), min_eq_left (by omega)]

theorem length_blockBytes : (blockBytes digest entries).length = blockLen entries := by
  have count : (entryOffsets entries).length = entries.length := by simp [entryOffsets]
  rw [blockBytes_eq digest packable]
  simp only [length_append, length_packedBloom, length_flatMap_toLeBytes, length_toLeBytes,
    count, blockLen]
  omega

theorem parseBlockTrailer_packed :
    parseBlockTrailer (blockBytes digest entries) =
      .ok ⟨entries.length, offsetsStart entries, packedBloom digest entries⟩ := by
  have sizes := packable.sizes
  have count : (entryOffsets entries).length = entries.length := by simp [entryOffsets]
  rw [blockBytes_eq digest packable]
  apply parseBlockTrailer_parts _ (length_packedBloom digest entries)
  · rw [length_flatMap_toLeBytes, count]
  · exact sizes.1
  · exact sizes.2.1

theorem offsetField_packed {position : Nat} (inside : position < entries.length) :
    getField "malformed block: off_pos out of bounds" (offsetsStart entries + position * 4) 4
        (blockBytes digest entries) =
      .ok (toLeBytes 4 ((entries.take position).flatMap TableEntry.toBytes).length) := by
  have inOffsets : position < (entryOffsets entries).length := by simpa [entryOffsets] using inside
  have here : (entryOffsets entries)[position] =
      ((entries.take position).flatMap TableEntry.toBytes).length := by simp [entryOffsets]
  have split := flatMap_split (toLeBytes 4) inOffsets
  rw [here] at split
  rw [blockBytes_eq digest packable, split]
  apply getField_split (entries.flatMap TableEntry.toBytes ++ (packedBloom digest entries ++
    ((entryOffsets entries).take position).flatMap (toLeBytes 4)))
  · exact ⟨_, by simp only [append_assoc]; rfl⟩
  · rw [length_append, length_append, length_flatMap_toLeBytes, length_packedBloom,
      length_take, min_eq_left inOffsets.le, offsetsStart]
    omega
  · apply length_toLeBytes

theorem blockBytes_split {position : Nat} (inside : position < entries.length) :
    ∃ after, blockBytes digest entries =
      (entries.take position).flatMap TableEntry.toBytes ++
        (entries[position].toBytes ++ after) := by
  rw [blockBytes_eq digest packable, flatMap_split TableEntry.toBytes inside]
  exact ⟨_, by simp only [append_assoc]; rfl⟩

variable {position : Nat} (inside : position < entries.length)

theorem getEntryAtIndex_packed :
    getEntryAtIndex (blockBytes digest entries) (offsetsStart entries) position =
      .ok (((entries.take position).flatMap TableEntry.toBytes).length,
        entries[position].key.length) := by
  have readOffset : fromLeBytes (toLeBytes 4
      ((entries.take position).flatMap TableEntry.toBytes).length) =
        ((entries.take position).flatMap TableEntry.toBytes).length :=
    fromLeBytes_toLeBytes (packable.sizes.2.2 position inside)
  have short : entries[position].key.length ≤ maxKeySize :=
    (packable.writable _ (getElem_mem inside)).2.1
  have readLength : fromLeBytes (toLeBytes 2 entries[position].key.length) =
      entries[position].key.length := by
    apply fromLeBytes_toLeBytes
    rw [maxKeySize] at short
    omega
  obtain ⟨after, split⟩ := blockBytes_split digest packable inside
  have lengthField : getField "malformed block: k_len out of bounds"
      ((entries.take position).flatMap TableEntry.toBytes).length 2 (blockBytes digest entries) =
        .ok (toLeBytes 2 entries[position].key.length) := by
    apply getField_split _ _ rfl (length_toLeBytes _ _)
    rw [split, TableEntry.toBytes]
    exact ⟨_, by simp only [append_assoc]; rfl⟩
  rw [getEntryAtIndex, offsetField_packed digest packable inside]
  simp only [bind, Except.bind, readOffset, lengthField, readLength]

theorem getField_key {message : String} :
    getField message (((entries.take position).flatMap TableEntry.toBytes).length + 2)
      entries[position].key.length (blockBytes digest entries) = .ok entries[position].key := by
  obtain ⟨after, split⟩ := blockBytes_split digest packable inside
  rw [split]
  apply getField_append
  apply getField_split (toLeBytes 2 entries[position].key.length) _ (length_toLeBytes _ _) rfl
  rw [TableEntry.toBytes]
  exact ⟨_, by simp only [append_assoc]; rfl⟩

theorem getEntryKeyAtIndex_packed :
    getEntryKeyAtIndex (blockBytes digest entries) (offsetsStart entries) position =
      .ok entries[position].key := by
  rw [getEntryKeyAtIndex, getEntryAtIndex_packed digest packable inside]
  exact getField_key digest packable inside

theorem readEntryKey_packed (texts : FieldTexts) :
    readEntryKey texts (blockBytes digest entries) (offsetsStart entries) position =
      .ok (entries[position].key,
        ((entries.take position).flatMap TableEntry.toBytes).length + 2 +
          entries[position].key.length) := by
  rw [readEntryKey, getEntryAtIndex_packed digest packable inside]
  simp only [bind, Except.bind, getField_key digest packable inside]

theorem readBehindKey_packed (texts : FieldTexts) :
    readBehindKey texts (blockBytes digest entries) entries[position].key
        (((entries.take position).flatMap TableEntry.toBytes).length + 2 +
          entries[position].key.length) = .ok entries[position] := by
  obtain ⟨after, split⟩ := blockBytes_split digest packable inside
  have mem := getElem_mem inside
  generalize (entries.take position).flatMap TableEntry.toBytes = earlier at split ⊢
  generalize entries[position] = entry at split mem ⊢
  have short : entry.value.length ≤ maxValueSize := (packable.writable _ mem).2.2
  rw [maxValueSize] at short
  have readLength : fromLeBytes (toLeBytes 4 entry.value.length) = entry.value.length :=
    fromLeBytes_toLeBytes (by omega)
  have readSeq : fromLeBytes (toLeBytes 8 entry.seqNo.toNat) = entry.seqNo.toNat :=
    fromLeBytes_toLeBytes entry.seqNo.toNat_lt
  have readTx : fromLeBytes (toLeBytes 8 entry.txId.toNat) = entry.txId.toNat :=
    fromLeBytes_toLeBytes entry.txId.toNat_lt
  rw [TableEntry.toBytes] at split
  have seqField : getField (texts.field "seq_no") (earlier.length + 2 + entry.key.length) 8
      (blockBytes digest entries) = .ok (toLeBytes 8 entry.seqNo.toNat) := by
    apply getField_split (earlier ++ (toLeBytes 2 entry.key.length ++ entry.key))
    · rw [split]
      exact ⟨_, by simp only [append_assoc]; rfl⟩
    · simp only [length_append, length_toLeBytes]
      omega
    · apply length_toLeBytes
  have txField : getField (texts.field "tx_id") (earlier.length + 2 + entry.key.length + 8) 8
      (blockBytes digest entries) = .ok (toLeBytes 8 entry.txId.toNat) := by
    apply getField_split
      (earlier ++ (toLeBytes 2 entry.key.length ++ (entry.key ++ toLeBytes 8 entry.seqNo.toNat)))
    · rw [split]
      exact ⟨_, by simp only [append_assoc]; rfl⟩
    · simp only [length_append, length_toLeBytes]
      omega
    · apply length_toLeBytes
  have vLenField : getField (texts.field "v_len") (earlier.length + 2 + entry.key.length + 16) 4
      (blockBytes digest entries) = .ok (toLeBytes 4 entry.value.length) := by
    apply getField_split
      (earlier ++ (toLeBytes 2 entry.key.length ++
        (entry.key ++ (toLeBytes 8 entry.seqNo.toNat ++ toLeBytes 8 entry.txId.toNat))))
    · rw [split]
      exact ⟨_, by simp only [append_assoc]; rfl⟩
    · simp only [length_append, length_toLeBytes]
      omega
    · apply length_toLeBytes
  have value : getField "malformed block: value length out of bounds"
      (earlier.length + 2 + entry.key.length + 20) entry.value.length (blockBytes digest entries) =
        .ok entry.value := by
    apply getField_split
      (earlier ++ (toLeBytes 2 entry.key.length ++
        (entry.key ++ (toLeBytes 8 entry.seqNo.toNat ++
          (toLeBytes 8 entry.txId.toNat ++ toLeBytes 4 entry.value.length)))))
    · rw [split]
      exact ⟨_, by simp only [append_assoc]; rfl⟩
    · simp only [length_append, length_toLeBytes]
      omega
    · rfl
  rw [readBehindKey]
  simp only [seqField, txField, vLenField, bind, Except.bind, readLength, value, readSeq, readTx,
    UInt64.ofNat_toNat]

end Packed

theorem mayContain_packed (digest : Bytes → Bytes) {entries : List TableEntry} {entry : TableEntry}
    (mem : entry ∈ entries) :
    mayContainKeyInBlockBloom digest (packedBloom digest entries) entry.key = true := by
  have numBits : (packedBloom digest entries).length * 8 = blockBloomBits entries.length := by
    rw [length_packedBloom, blockBloomBits_div_mul]
  have positive := blockBloomBits_pos entries.length
  unfold mayContainKeyInBlockBloom
  rw [if_neg (by omega), numBits]
  have words : (packedBloom digest entries).map UInt8.toNat =
      insertAll 8 7 (blockBloomBits entries.length)
        (replicate (blockBloomBits entries.length / 8) 0)
        (entries.map fun entry => hashPair digest entry.key) := by
    rw [packedBloom, blockBloom, length_map, map_map]
    conv_rhs => rw [← map_id (insertAll _ _ _ _ _)]
    apply map_congr_left
    intro word isWord
    have small : word < 2 ^ 8 := insertAll_lt (by decide) (by simp) word isWord
    exact UInt8.toNat_ofNat_of_lt' small
  rw [words]
  apply mayContain_insertAll positive
  · rw [length_replicate, mul_comm, blockBloomBits_div_mul]
  · exact mem_map_of_mem mem

theorem keyOrder_eq_lt (key entryKey : Bytes) : keyOrder key entryKey = .lt ↔ entryKey < key := by
  rw [keyOrder]
  by_cases less : entryKey < key
  · simp [less]
  · by_cases greater : key < entryKey <;> simp [less, greater]

theorem keyOrder_eq_gt (key entryKey : Bytes) : keyOrder key entryKey = .gt ↔ key < entryKey := by
  rw [keyOrder]
  by_cases less : entryKey < key
  · simp [less, less.asymm]
  · by_cases greater : key < entryKey <;> simp [less, greater]

theorem leftmostOrder_eq_lt (key entryKey : Bytes) :
    leftmostOrder key entryKey = .lt ↔ entryKey < key := by
  rw [leftmostOrder]
  by_cases less : entryKey < key <;> simp [less]

theorem leftmostOrder_eq_gt (key entryKey : Bytes) :
    leftmostOrder key entryKey = .gt ↔ key ≤ entryKey := by
  rw [leftmostOrder, ← not_lt]
  by_cases less : entryKey < key <;> simp [less]

section Search

variable (digest : Bytes → Bytes) {entries : List TableEntry} (packable : Packable entries)

def entriesBelow (entries : List TableEntry) (key : Bytes) : Nat :=
  lowerBound (entries.map TableEntry.key) key

include packable

theorem probeKey_packed {β : Type} (ask : Bytes → β) {position : Nat}
    (inside : position < (entries.map TableEntry.key).length) :
    probeKey ask (blockBytes digest entries) (offsetsStart entries) position =
      .ok (ask (entries.map TableEntry.key)[position]) := by
  rw [length_map] at inside
  rw [probeKey, getEntryKeyAtIndex_packed digest packable inside, getElem_map]
  rfl

variable (sorted : (entries.map TableEntry.key).Pairwise (· ≤ ·))
include sorted

theorem binarySearchIndexInBlock_packed (key : Bytes) :
    ∃ result, binarySearchIndexInBlock (blockBytes digest entries) (offsetsStart entries)
        entries.length key = .ok result ∧ result.position = entriesBelow entries key := by
  have inhabited : entries.length ≠ 0 := by simpa using packable.nonempty
  rw [binarySearchIndexInBlock, if_neg inhabited]
  obtain ⟨result, searched, onFound, onMissing⟩ := binarySearch_threeWay sorted
    (fun position inside => probeKey_packed digest packable (keyOrder key) inside)
    (keyOrder_eq_lt key) (keyOrder_eq_gt key)
  rw [length_map] at searched
  rw [searched]
  cases result with
  | missing position => exact ⟨_, rfl, onMissing position rfl⟩
  | found position =>
    obtain ⟨inside, isKey⟩ := List.getElem?_eq_some_iff.mp (onFound position rfl)
    -- the walk back from the match ends at the first entry of the key
    have walked : rewind (probeKey (fun prevKey => decide (prevKey = key))
        (blockBytes digest entries) (offsetsStart entries)) position =
          .ok (entriesBelow entries key) := by
      apply rewind_lowerBound sorted (fun prevKey => decide (prevKey = key))
      · intro earlier inList before
        exact probeKey_packed digest packable (fun prevKey => decide (prevKey = key)) inList
      · exact inside.le
      · have notBelow : ¬ (entries.map TableEntry.key)[position] < key := isKey ▸ lt_irrefl _
        exact not_lt.mp fun before => notBelow ((lt_lowerBound_iff sorted inside).mp before)
      · intro earlier inList before above
        have below := sorted_getElem_le sorted before.le inside
        exact decide_eq_true (le_antisymm (isKey ▸ below) above)
      · intro element less
        exact decide_eq_false less.ne
    simp only [walked]
    exact ⟨_, rfl, rfl⟩

theorem binarySearchFirstIndexInBlock_packed (key : Bytes) :
    binarySearchFirstIndexInBlock (blockBytes digest entries) (offsetsStart entries)
        entries.length key =
      .ok (if key ∈ entries.map TableEntry.key then some (entriesBelow entries key) else none) := by
  have inhabited : entries.length ≠ 0 := by simpa using packable.nonempty
  have searched := binarySearch_leftmost sorted
    (fun position inside => probeKey_packed digest packable (leftmostOrder key) inside)
    (leftmostOrder_eq_lt key) (leftmostOrder_eq_gt key)
  rw [length_map] at searched
  rw [binarySearchFirstIndexInBlock, if_neg inhabited, searched]
  change (if entriesBelow entries key < entries.length then
      probeKey (fun entryKey => if entryKey = key then some (entriesBelow entries key) else none)
        (blockBytes digest entries) (offsetsStart entries) (entriesBelow entries key)
    else .ok none) = _
  have size : (entries.map TableEntry.key).length = entries.length := length_map _
  by_cases inside : entriesBelow entries key < entries.length
  · have inKeys : entriesBelow entries key < (entries.map TableEntry.key).length := by omega
    have notBelow : ¬ (entries.map TableEntry.key)[entriesBelow entries key] < key := fun less =>
      lt_irrefl _ ((lt_lowerBound_iff sorted inKeys).mpr less)
    rw [if_pos inside, probeKey_packed digest packable _ inKeys]
    congr 1
    by_cases isKey : (entries.map TableEntry.key)[entriesBelow entries key] = key
    · have mem : key ∈ entries.map TableEntry.key := isKey ▸ getElem_mem inKeys
      rw [if_pos isKey, if_pos mem]
    · rw [if_neg isKey, if_neg]
      intro mem
      obtain ⟨position, inList, isThere⟩ := mem_iff_getElem.mp mem
      have behind : entriesBelow entries key ≤ position := not_lt.mp fun before =>
        lt_irrefl _ (isThere ▸ (lt_lowerBound_iff sorted inList).mp before)
      have below := sorted_getElem_le sorted behind inList
      exact isKey (le_antisymm (isThere ▸ below) (not_lt.mp notBelow))
  · rw [if_neg inside, if_neg]
    intro mem
    obtain ⟨position, inList, isThere⟩ := mem_iff_getElem.mp mem
    have before : position < entriesBelow entries key := by omega
    exact lt_irrefl _ (isThere ▸ (lt_lowerBound_iff sorted inList).mp before)

end Search

end Contextra.Store
