import Contextra.Store.SstablePacked
import Contextra.Store.SstableReads

/-!
# What the readers of a table return

A table serves its blocks when every span of the index reads back the block that was packed.
Then the point read returns the newest version in the snapshot, and scans and stream return
the entries they select, in order.
-/

namespace Contextra.Store

open Library List Option
open scoped Library.ByteOrder

namespace TableEntry

/-- Storage order: by key, and the versions of a key from the newest. -/
def Before (left right : TableEntry) : Prop :=
  left.key < right.key ∨ (left.key = right.key ∧ rawSeq right.seqNo < rawSeq left.seqNo)

theorem Before.key_le {left right : TableEntry} (before : left.Before right) :
    left.key ≤ right.key := by
  rcases before with less | ⟨same, -⟩
  · exact less.le
  · exact same.le

theorem Before.trans {first second third : TableEntry} (left : first.Before second)
    (right : second.Before third) : first.Before third := by
  rcases left with less | ⟨same, older⟩
  · exact .inl (less.trans_le right.key_le)
  · rcases right with less' | ⟨same', older'⟩
    · exact .inl (same ▸ less')
    · exact .inr ⟨same.trans same', older'.trans older⟩

/-- What the point read looks for. -/
def Matches (key : Bytes) (maxSeq maxTx : UInt64) (entry : TableEntry) : Bool :=
  decide (entry.key = key) && entry.inSnapshot maxSeq maxTx

end TableEntry

def newestVersion (entries : List TableEntry) (key : Bytes) (maxSeq maxTx : UInt64) :
    Option TableEntry :=
  (entries.filter (TableEntry.Matches key maxSeq maxTx)).argmax fun entry => rawSeq entry.seqNo

def SortedEntries (entries : List TableEntry) : Prop := entries.Pairwise TableEntry.Before

theorem sortedEntries_append {left right : List TableEntry} :
    SortedEntries (left ++ right) ↔
      SortedEntries left ∧ SortedEntries right ∧
        ∀ earlier ∈ left, ∀ later ∈ right, earlier.Before later :=
  pairwise_append

section SortedLists

variable {entries : List TableEntry} (sorted : SortedEntries entries)
include sorted

theorem SortedEntries.keys : (entries.map TableEntry.key).Pairwise (· ≤ ·) :=
  pairwise_map.mpr (sorted.imp TableEntry.Before.key_le)

theorem SortedEntries.sublist {part : List TableEntry} (inside : part.Sublist entries) :
    SortedEntries part :=
  List.Pairwise.sublist inside sorted

theorem newestVersion_eq_find (key : Bytes) (maxSeq maxTx : UInt64) :
    newestVersion entries key maxSeq maxTx =
      entries.find? (TableEntry.Matches key maxSeq maxTx) := by
  have matching := sorted.sublist (filter_sublist (p := TableEntry.Matches key maxSeq maxTx))
  have isKey : ∀ entry ∈ entries.filter (TableEntry.Matches key maxSeq maxTx), entry.key = key := by
    intro entry mem
    have hit := (mem_filter.mp mem).2
    simp only [TableEntry.Matches, Bool.and_eq_true, decide_eq_true_eq] at hit
    exact hit.1
  rw [newestVersion, ← head?_filter]
  cases found : entries.filter (TableEntry.Matches key maxSeq maxTx) with
  | nil => rfl
  | cons newest older =>
    rw [found] at matching isKey
    rw [head?_cons, argmax_eq_some_iff]
    refine ⟨mem_cons_self, ?_, ?_⟩
    · intro other mem
      rcases mem_cons.mp mem with rfl | later
      · exact le_rfl
      · rcases (pairwise_cons.mp matching).1 other later with less | ⟨-, isOlder⟩
        · rw [isKey newest mem_cons_self, isKey other mem] at less
          exact absurd less (lt_irrefl _)
        · exact isOlder.le
    · intro other mem best
      simp

variable {key : Bytes}

theorem lt_of_mem_take_entriesBelow {entry : TableEntry}
    (mem : entry ∈ entries.take (entriesBelow entries key)) : entry.key < key := by
  obtain ⟨position, inside, rfl⟩ := mem_iff_getElem.mp mem
  rw [length_take] at inside
  have inKeys : position < (entries.map TableEntry.key).length := by
    rw [length_map]
    omega
  have before : position < lowerBound (entries.map TableEntry.key) key := by
    change position < entriesBelow entries key
    omega
  have below := (lt_lowerBound_iff sorted.keys inKeys).mp before
  rw [getElem_take]
  rwa [getElem_map] at below

theorem le_of_mem_drop_entriesBelow {entry : TableEntry}
    (mem : entry ∈ entries.drop (entriesBelow entries key)) : key ≤ entry.key := by
  obtain ⟨position, inside, rfl⟩ := mem_iff_getElem.mp mem
  rw [length_drop] at inside
  have inKeys : entriesBelow entries key + position < (entries.map TableEntry.key).length := by
    rw [length_map]
    omega
  rw [getElem_drop]
  apply not_lt.mp
  intro less
  have isLess : (entries.map TableEntry.key)[entriesBelow entries key + position] < key := by
    rwa [getElem_map]
  have before := (lt_lowerBound_iff sorted.keys inKeys).mpr isLess
  change entriesBelow entries key + position < entriesBelow entries key at before
  omega

theorem find_takeWhile_key (keep : TableEntry → Bool)
    (above : ∀ entry ∈ entries, key ≤ entry.key) :
    (entries.takeWhile fun entry => decide (entry.key = key)).find? keep =
      entries.find? fun entry => decide (entry.key = key) && keep entry := by
  induction entries with
  | nil => rfl
  | cons first entries ih =>
    have later := ih (pairwise_cons.mp sorted).2 fun entry mem =>
      above entry (mem_cons_of_mem _ mem)
    by_cases isKey : first.key = key
    · rw [takeWhile_cons_of_pos (by simpa using isKey), find?_cons, find?_cons, later]
      simp [isKey]
    · rw [takeWhile_cons_of_neg (by simpa using isKey), find?_nil]
      symm
      apply find?_eq_none.mpr
      intro entry mem
      have less : key < entry.key := by
        have firstLess := lt_of_le_of_ne (above first mem_cons_self) (Ne.symm isKey)
        rcases mem_cons.mp mem with rfl | behind
        · exact firstLess
        · exact firstLess.trans_le ((pairwise_cons.mp sorted).1 entry behind).key_le
      simp [less.ne']

end SortedLists

theorem not_prefix_of_passed {keyPrefix passed key : Bytes}
    (behind : ¬ keyPrefix <+: passed ∧ keyPrefix < passed) (ordered : passed ≤ key) :
    ¬ keyPrefix <+: key := by
  rintro ⟨after, rfl⟩
  have above : keyPrefix ++ [] ≤ passed := by
    rw [append_nil]
    exact behind.2.le
  exact behind.1 (prefix_of_between above ordered)

theorem Bound.not_belowEnd_of_le {stop : Bound} {passed key : Bytes} (behind : ¬ stop.BelowEnd passed)
    (ordered : passed ≤ key) : ¬ stop.BelowEnd key := by
  cases stop with
  | included finish => exact fun below => behind (ordered.trans below)
  | excluded finish => exact fun below => behind (ordered.trans_lt below)
  | unbounded => exact absurd trivial behind

section OneBlock

variable (digest : Bytes → Bytes) {entries : List TableEntry} (packable : Packable entries)
include packable

theorem firstVisible_packed (key : Bytes) (maxSeq maxTx : UInt64) (count first : Nat)
    (atEnd : first + count = entries.length) :
    SstableReader.firstVisible key maxSeq maxTx (blockBytes digest entries) (offsetsStart entries)
        (List.range' first count) =
      .ok ((((entries.drop first).takeWhile fun entry => decide (entry.key = key)).find?
        (TableEntry.inSnapshot maxSeq maxTx)).map fun entry =>
          (entry.value, entry.seqNo, entry.txId)) := by
  induction count generalizing first with
  | zero =>
    rw [drop_of_length_le (by omega)]
    rfl
  | succ count ih =>
    have inside : first < entries.length := by omega
    rw [range'_succ, SstableReader.firstVisible, drop_eq_getElem_cons inside]
    simp only [readEntryKey_packed digest packable inside, readBehindKey_packed digest packable inside]
    by_cases isKey : entries[first].key = key
    · rw [if_neg (by simpa using isKey), takeWhile_cons_of_pos (by simpa using isKey),
        find?_cons, ih (first + 1) (by omega)]
      cases entries[first].inSnapshot maxSeq maxTx <;> rfl
    · rw [if_pos (by simpa using isKey), takeWhile_cons_of_neg (by simpa using isKey)]
      rfl

def passesPrefix (keyPrefix : Bytes) (entry : TableEntry) : Bool :=
  decide (¬ keyPrefix <+: entry.key ∧ keyPrefix < entry.key)

def passesRange (start stop : Bound) (entry : TableEntry) : Bool :=
  decide (start.AboveStart entry.key ∧ ¬ stop.BelowEnd entry.key)

def inRange (start stop : Bound) (entry : TableEntry) : Bool :=
  decide (start.AboveStart entry.key ∧ stop.BelowEnd entry.key)

variable (sorted : SortedEntries entries)
include sorted

theorem prefixEntries_packed (keyPrefix : Bytes) (count first : Nat)
    (atEnd : first + count = entries.length) :
    SstableReader.prefixEntries keyPrefix (blockBytes digest entries) (offsetsStart entries)
        (List.range' first count) =
      .ok ((entries.drop first).filter fun entry => decide (keyPrefix <+: entry.key),
        (entries.drop first).any (passesPrefix keyPrefix)) := by
  induction count generalizing first with
  | zero =>
    rw [drop_of_length_le (by omega)]
    rfl
  | succ count ih =>
    have inside : first < entries.length := by omega
    have later := (sorted.sublist (drop_sublist first entries))
    rw [drop_eq_getElem_cons inside] at later ⊢
    rw [range'_succ, SstableReader.prefixEntries]
    simp only [readEntryKey_packed digest packable inside, readBehindKey_packed digest packable inside,
      ih (first + 1) (by omega)]
    by_cases passed : ¬ keyPrefix <+: entries[first].key ∧ keyPrefix < entries[first].key
    · have noneLater : (entries.drop (first + 1)).filter
          (fun entry => decide (keyPrefix <+: entry.key)) = [] := by
        apply filter_eq_nil_iff.mpr
        intro entry behind
        simpa using not_prefix_of_passed passed ((pairwise_cons.mp later).1 entry behind).key_le
      rw [if_pos passed, filter_cons_of_neg (by simpa using passed.1), noneLater,
        any_cons, passesPrefix, decide_eq_true passed, Bool.true_or]
    · rw [if_neg passed, any_cons, passesPrefix, decide_eq_false passed, Bool.false_or]
      by_cases starts : keyPrefix <+: entries[first].key
      · rw [if_pos starts, filter_cons_of_pos (by simpa using starts)]
      · rw [if_neg starts, filter_cons_of_neg (by simpa using starts)]

theorem rangeEntries_packed (start stop : Bound) (count first : Nat)
    (atEnd : first + count = entries.length) :
    SstableReader.rangeEntries start stop (blockBytes digest entries) (offsetsStart entries)
        (List.range' first count) =
      .ok ((entries.drop first).filter (inRange start stop),
        (entries.drop first).any (passesRange start stop)) := by
  induction count generalizing first with
  | zero =>
    rw [drop_of_length_le (by omega)]
    rfl
  | succ count ih =>
    have inside : first < entries.length := by omega
    have later := (sorted.sublist (drop_sublist first entries))
    rw [drop_eq_getElem_cons inside] at later ⊢
    rw [range'_succ, SstableReader.rangeEntries]
    simp only [readEntryKey_packed digest packable inside, readBehindKey_packed digest packable inside,
      ih (first + 1) (by omega)]
    by_cases above : start.AboveStart entries[first].key
    · rw [if_neg (not_not_intro above)]
      by_cases below : stop.BelowEnd entries[first].key
      · rw [if_neg (not_not_intro below), filter_cons_of_pos (by simp [inRange, above, below]),
          any_cons]
        simp [passesRange, below]
      · have noneLater : (entries.drop (first + 1)).filter (inRange start stop) = [] := by
          apply filter_eq_nil_iff.mpr
          intro entry behind
          have outside := Bound.not_belowEnd_of_le below ((pairwise_cons.mp later).1 entry behind).key_le
          simp [inRange, outside]
        rw [if_pos below, filter_cons_of_neg (by simp [inRange, below]), noneLater,
          any_cons]
        simp [passesRange, above, below]
    · rw [if_pos above, filter_cons_of_neg (by simp [inRange, above]), any_cons]
      simp [passesRange, above]

theorem rangeStart_packed (start stop : Bound) :
    ∃ first, SstableReader.rangeStart start (blockBytes digest entries)
        ⟨entries.length, offsetsStart entries, packedBloom digest entries⟩ = .ok first ∧
      first ≤ entries.length ∧
      (entries.drop first).filter (inRange start stop) = entries.filter (inRange start stop) := by
  have skips : ∀ key, (∀ entry : TableEntry, entry.key < key → ¬ start.AboveStart entry.key) →
      entriesBelow entries key ≤ entries.length ∧
        (entries.drop (entriesBelow entries key)).filter (inRange start stop) =
          entries.filter (inRange start stop) := by
    intro key before
    constructor
    · have := lowerBound_le (entries.map TableEntry.key) key
      rwa [length_map] at this
    · conv_rhs => rw [← take_append_drop (entriesBelow entries key) entries, filter_append]
      have noneBefore : (entries.take (entriesBelow entries key)).filter (inRange start stop) = [] := by
        apply filter_eq_nil_iff.mpr
        intro entry mem
        simp [inRange, before entry (lt_of_mem_take_entriesBelow sorted mem)]
      rw [noneBefore, nil_append]
  cases start with
  | unbounded => exact ⟨0, rfl, Nat.zero_le _, rfl⟩
  | included key =>
    obtain ⟨result, searched, position⟩ :=
      binarySearchIndexInBlock_packed digest packable sorted.keys key
    refine ⟨entriesBelow entries key, ?_, skips key fun entry less => not_le.mpr less⟩
    rw [← position, SstableReader.rangeStart]
    simp only [searched]
    rfl
  | excluded key =>
    obtain ⟨result, searched, position⟩ :=
      binarySearchIndexInBlock_packed digest packable sorted.keys key
    refine ⟨entriesBelow entries key, ?_, skips key fun entry less => not_lt.mpr less.le⟩
    rw [← position, SstableReader.rangeStart]
    simp only [searched]
    rfl

theorem getInBlock_packed (key : Bytes) (maxSeq maxTx : UInt64) :
    SstableReader.getInBlock digest key maxSeq maxTx (blockBytes digest entries) =
      .ok ((entries.find? (TableEntry.Matches key maxSeq maxTx)).map fun entry =>
        (entry.value, entry.seqNo, entry.txId)) := by
  rw [SstableReader.getInBlock, parseBlockTrailer_packed digest packable]
  simp only
  rw [binarySearchFirstIndexInBlock_packed digest packable sorted.keys]
  by_cases present : key ∈ entries.map TableEntry.key
  · obtain ⟨entry, mem, rfl⟩ := List.mem_map.mp present
    rw [if_pos (mayContain_packed digest mem), if_pos present]
    simp only
    have atMost : entriesBelow entries entry.key ≤ entries.length := by
      have := lowerBound_le (entries.map TableEntry.key) entry.key
      rwa [length_map] at this
    rw [firstVisible_packed digest packable _ _ _ _ _ (by omega),
      find_takeWhile_key (sorted.sublist (drop_sublist _ _)) _
        fun other => le_of_mem_drop_entriesBelow sorted]
    -- no entry in front of the first index has the key
    have split := take_append_drop (entriesBelow entries entry.key) entries
    conv_rhs => rw [← split, find?_append]
    have noneBefore : (entries.take (entriesBelow entries entry.key)).find?
        (TableEntry.Matches entry.key maxSeq maxTx) = none := by
      apply find?_eq_none.mpr
      intro other before
      simp [TableEntry.Matches, (lt_of_mem_take_entriesBelow sorted before).ne]
    rw [noneBefore, none_or]
    rfl
  · have absent : entries.find? (TableEntry.Matches key maxSeq maxTx) = none := by
      apply find?_eq_none.mpr
      intro entry mem
      have other : entry.key ≠ key := fun same =>
        present (List.mem_map.mpr ⟨entry, mem, same⟩)
      simp [TableEntry.Matches, other]
    rw [if_neg present, absent]
    split <;> rfl

end OneBlock

/-- The span of the index reads back the packed block, and names its last key. -/
structure ServesBlock (digest : Bytes → Bytes) (reader : SstableReader)
    (span : Bytes × Nat × Nat) (entries : List TableEntry) : Prop where
  packable : Packable entries
  lastKey : entries.getLast?.map TableEntry.key = some span.1
  read : reader.getBlock span.2.1 span.2.2 = .ok (blockBytes digest entries)

section Blocks

variable {digest : Bytes → Bytes} {reader : SstableReader} {spans : List (Bytes × Nat × Nat)}
  {blocks : List (List TableEntry)} (served : List.Forall₂ (ServesBlock digest reader) spans blocks)
  (sorted : SortedEntries blocks.flatten)

theorem ServesBlock.le_lastKey {span : Bytes × Nat × Nat} {entries : List TableEntry}
    (block : ServesBlock digest reader span entries) (sorted : SortedEntries entries) :
    ∀ entry ∈ entries, entry.key ≤ span.1 := by
  obtain ⟨last, isLast, isKey⟩ := map_eq_some_iff.mp block.lastKey
  intro entry mem
  rw [← isKey]
  obtain ⟨earlier, rfl⟩ := getLast?_eq_some_iff.mp isLast
  rcases mem_append.mp mem with before | atEnd
  · exact ((pairwise_append.mp sorted).2.2 entry before last mem_cons_self).key_le
  · rw [mem_singleton.mp atEnd]

theorem ServesBlock.lastKey_mem {span : Bytes × Nat × Nat} {entries : List TableEntry}
    (block : ServesBlock digest reader span entries) : ∃ entry ∈ entries, entry.key = span.1 := by
  obtain ⟨last, isLast, isKey⟩ := map_eq_some_iff.mp block.lastKey
  exact ⟨last, mem_of_getLast? isLast, isKey⟩

include served sorted

theorem getAtBlocks_served (key : Bytes) (maxSeq maxTx : UInt64)
    (reaches : ∀ span ∈ spans.head?, key ≤ span.1) :
    SstableReader.getAtBlocks digest reader key maxSeq maxTx spans =
      .ok ((blocks.flatten.find? (TableEntry.Matches key maxSeq maxTx)).map fun entry =>
        (entry.value, entry.seqNo, entry.txId)) := by
  induction served with
  | nil => rfl
  | @cons span entries spans blocks block others ih =>
    rw [flatten_cons] at sorted
    obtain ⟨sortedHere, sortedLater, across⟩ := sortedEntries_append.mp sorted
    rw [SstableReader.getAtBlocks, block.read]
    simp only [getInBlock_packed digest block.packable sortedHere, flatten_cons,
      find?_append]
    cases found : entries.find? (TableEntry.Matches key maxSeq maxTx) with
    | some entry => rfl
    | none =>
      simp only [map_none, none_or]
      obtain ⟨last, inBlock, isLast⟩ := block.lastKey_mem
      by_cases isKey : span.1 = key
      · -- the versions of the key may go on in the next block
        rw [if_neg (not_not_intro isKey)]
        apply ih sortedLater
        intro next isNext
        cases others with
        | nil => cases isNext
        | @cons span' entries' _ _ nextBlock _ =>
          cases isNext
          obtain ⟨other, inNext, isOther⟩ := nextBlock.lastKey_mem
          have after := (across last inBlock other
            (mem_flatten.mpr ⟨_, mem_cons_self, inNext⟩)).key_le
          rwa [isLast, isOther, isKey] at after
      · rw [if_pos isKey]
        have noneLater : blocks.flatten.find? (TableEntry.Matches key maxSeq maxTx) = none := by
          apply find?_eq_none.mpr
          intro other behind
          have above := (across last inBlock other behind).key_le
          have less : key < span.1 := lt_of_le_of_ne (reaches span rfl) (Ne.symm isKey)
          rw [isLast] at above
          simp [TableEntry.Matches, (less.trans_le above).ne']
        rw [noneLater]
        rfl

theorem prefixBlocks_served (keyPrefix : Bytes) :
    SstableReader.prefixBlocks reader keyPrefix spans =
      .ok (blocks.flatten.filter fun entry => decide (keyPrefix <+: entry.key)) := by
  induction served with
  | nil => rfl
  | @cons span entries spans blocks block others ih =>
    rw [flatten_cons] at sorted
    obtain ⟨sortedHere, sortedLater, across⟩ := sortedEntries_append.mp sorted
    obtain ⟨start, searched, position⟩ :=
      binarySearchIndexInBlock_packed digest block.packable sortedHere.keys keyPrefix
    have atMost : entriesBelow entries keyPrefix ≤ entries.length := by
      have := lowerBound_le (entries.map TableEntry.key) keyPrefix
      rwa [length_map] at this
    rw [SstableReader.prefixBlocks, block.read]
    simp only [parseBlockTrailer_packed digest block.packable, searched, position]
    rw [prefixEntries_packed digest block.packable sortedHere keyPrefix _ _ (by omega)]
    -- no entry in front of the first index starts with the prefix
    have skipped : (entries.drop (entriesBelow entries keyPrefix)).filter
        (fun entry => decide (keyPrefix <+: entry.key)) =
          entries.filter fun entry => decide (keyPrefix <+: entry.key) := by
      conv_rhs => rw [← take_append_drop (entriesBelow entries keyPrefix) entries,
        filter_append]
      have noneBefore : (entries.take (entriesBelow entries keyPrefix)).filter
          (fun entry => decide (keyPrefix <+: entry.key)) = [] := by
        apply filter_eq_nil_iff.mpr
        intro entry before
        have below := lt_of_mem_take_entriesBelow sortedHere before
        simpa using fun starts => absurd below (not_lt.mpr (le_of_isPrefix starts))
      rw [noneBefore, nil_append]
    rw [skipped, flatten_cons, filter_append]
    cases broke : (entries.drop (entriesBelow entries keyPrefix)).any (passesPrefix keyPrefix) with
    | true =>
      obtain ⟨passed, inBlock, isPassed⟩ := List.any_eq_true.mp broke
      have noneLater : blocks.flatten.filter
          (fun entry => decide (keyPrefix <+: entry.key)) = [] := by
        apply filter_eq_nil_iff.mpr
        intro entry behind
        simpa using not_prefix_of_passed (of_decide_eq_true isPassed)
          (across passed (mem_of_mem_drop inBlock) entry behind).key_le
      rw [noneLater, append_nil]
    | false =>
      rw [ih sortedLater]
      rfl

theorem rangeBlocks_served (start stop : Bound) :
    SstableReader.rangeBlocks reader start stop spans =
      .ok (blocks.flatten.filter (inRange start stop)) := by
  induction served with
  | nil => rfl
  | @cons span entries spans blocks block others ih =>
    rw [flatten_cons] at sorted
    obtain ⟨sortedHere, sortedLater, across⟩ := sortedEntries_append.mp sorted
    obtain ⟨first, searched, atMost, skipped⟩ :=
      rangeStart_packed digest block.packable sortedHere start stop
    rw [SstableReader.rangeBlocks, block.read]
    simp only [parseBlockTrailer_packed digest block.packable, searched]
    rw [rangeEntries_packed digest block.packable sortedHere start stop _ _ (by omega), skipped,
      flatten_cons, filter_append]
    cases passed : (entries.drop first).any (passesRange start stop) with
    | true =>
      obtain ⟨last, inBlock, isPassed⟩ := List.any_eq_true.mp passed
      have noneLater : blocks.flatten.filter (inRange start stop) = [] := by
        apply filter_eq_nil_iff.mpr
        intro entry behind
        have outside := Bound.not_belowEnd_of_le (of_decide_eq_true isPassed).2
          (across last (mem_of_mem_drop inBlock) entry behind).key_le
        simp [inRange, outside]
      rw [noneLater, append_nil]
    | false =>
      rw [ih sortedLater]
      rfl

end Blocks

structure Serves (digest : Bytes → Bytes) (reader : SstableReader)
    (blocks : List (List TableEntry)) : Prop where
  served : List.Forall₂ (ServesBlock digest reader) reader.spans blocks
  sorted : SortedEntries blocks.flatten
  admitted : ∀ filter ∈ reader.bloomFilter, ∀ entry ∈ blocks.flatten,
    filter.admits digest entry.key = true
  firstKey : ∀ entry ∈ blocks.flatten, reader.metadata.firstKey ≤ entry.key
  lastKey : ∀ entry ∈ blocks.flatten, entry.key ≤ reader.metadata.lastKey

theorem blockSpans_keys (indexOffset : Nat) (index : List (Bytes × Nat)) :
    (blockSpans indexOffset index).map Prod.fst = index.map Prod.fst := by
  induction index using blockSpans.induct with
  | case1 => rfl
  | case2 key offset => rfl
  | case3 key offset nextKey nextOffset index ih =>
    rw [blockSpans, map_cons, ih]
    rfl

section Reader

variable {digest : Bytes → Bytes} {reader : SstableReader}

def SstableReader.lastKeys (reader : SstableReader) : List Bytes := reader.index.map Prod.fst

theorem SstableReader.spans_keys : reader.spans.map Prod.fst = reader.lastKeys :=
  blockSpans_keys _ _

theorem lastKeys_sorted {spans : List (Bytes × Nat × Nat)} {blocks : List (List TableEntry)}
    (served : List.Forall₂ (ServesBlock digest reader) spans blocks)
    (sorted : SortedEntries blocks.flatten) : (spans.map Prod.fst).Pairwise (· ≤ ·) := by
  induction served with
  | nil => exact List.Pairwise.nil
  | @cons span entries spans blocks block others ih =>
    rw [flatten_cons] at sorted
    obtain ⟨-, sortedLater, across⟩ := sortedEntries_append.mp sorted
    refine pairwise_cons.mpr ⟨?_, ih sortedLater⟩
    intro laterKey mem
    obtain ⟨later, inSpans, rfl⟩ := List.mem_map.mp mem
    obtain ⟨position, inside, rfl⟩ := mem_iff_getElem.mp inSpans
    have laterBlock := others.get inside (others.length_eq ▸ inside)
    obtain ⟨last, inBlock, isLast⟩ := block.lastKey_mem
    obtain ⟨other, inLater, isOther⟩ := laterBlock.lastKey_mem
    rw [← isLast]
    have ordered := (across last inBlock other
      (mem_flatten.mpr ⟨_, List.get_mem _ _, inLater⟩)).key_le
    rwa [isOther] at ordered

variable {position : Nat}

theorem probeIndex_eq {β : Type} (ask : Bytes → β) (inside : position < reader.lastKeys.length) :
    reader.probeIndex ask position = .ok (ask reader.lastKeys[position]) := by
  have inIndex : position < reader.index.length := by
    rwa [SstableReader.lastKeys, length_map] at inside
  rw [SstableReader.probeIndex, getElem?_eq_getElem inIndex]
  simp [SstableReader.lastKeys]

variable {blocks : List (List TableEntry)} (serves : Serves digest reader blocks)
include serves

theorem Serves.lastKeys_sorted : reader.lastKeys.Pairwise (· ≤ ·) := by
  rw [← SstableReader.spans_keys]
  exact Contextra.Store.lastKeys_sorted serves.served serves.sorted

theorem Serves.searchIndex (key : Bytes) :
    ∃ result, reader.searchIndex key = .ok result ∧
      (∀ position, result = .found position → reader.lastKeys[position]? = some key) ∧
      (∀ position, result = .missing position → position = lowerBound reader.lastKeys key) := by
  have searched := binarySearch_threeWay serves.lastKeys_sorted
    (fun position inside => probeIndex_eq (keyOrder key) inside) (keyOrder_eq_lt key)
    (keyOrder_eq_gt key)
  rwa [SstableReader.lastKeys, length_map] at searched

variable {key : Bytes}

theorem Serves.rewindIndex (inside : position ≤ reader.lastKeys.length)
    (behind : lowerBound reader.lastKeys key ≤ position) :
    reader.rewindIndex key position = .ok (lowerBound reader.lastKeys key) := by
  apply rewind_lowerBound serves.lastKeys_sorted (fun lastKey => decide (key ≤ lastKey))
  · intro earlier inList before
    exact probeIndex_eq _ inList
  · exact inside
  · exact behind
  · intro earlier inList before above
    exact decide_eq_true above
  · intro lastKey less
    exact decide_eq_false (not_le.mpr less)

theorem Serves.lowerBound_le_found (found : reader.lastKeys[position]? = some key) :
    lowerBound reader.lastKeys key ≤ position ∧ position < reader.lastKeys.length := by
  obtain ⟨inside, isKey⟩ := List.getElem?_eq_some_iff.mp found
  refine ⟨?_, inside⟩
  apply not_lt.mp
  intro before
  exact lt_irrefl _ (isKey ▸ (lt_lowerBound_iff serves.lastKeys_sorted inside).mp before)

theorem Serves.lt_of_mem_skipped {start : Nat}
    (early : start ≤ lowerBound reader.lastKeys key) {entry : TableEntry}
    (mem : entry ∈ (blocks.take start).flatten) : entry.key < key := by
  obtain ⟨entries, inBlocks, inBlock⟩ := mem_flatten.mp mem
  obtain ⟨position, inside, rfl⟩ := mem_iff_getElem.mp inBlocks
  rw [length_take] at inside
  rw [getElem_take] at inBlock
  have inSpans : position < reader.spans.length := by
    have := serves.served.length_eq
    omega
  have block := serves.served.get inSpans (by omega)
  have inKeys : position < reader.lastKeys.length := by
    rwa [← SstableReader.spans_keys, length_map]
  have before : position < lowerBound reader.lastKeys key := by omega
  have below := (lt_lowerBound_iff serves.lastKeys_sorted inKeys).mp before
  have sortedHere : SortedEntries (blocks.get ⟨position, by omega⟩) :=
    serves.sorted.sublist (sublist_flatten_of_mem (List.get_mem _ _))
  have atMost := block.le_lastKey sortedHere entry inBlock
  have isLast : (reader.spans.get ⟨position, inSpans⟩).1 = reader.lastKeys[position] := by
    simp only [← SstableReader.spans_keys, getElem_map, get_eq_getElem]
  rw [isLast] at atMost
  exact atMost.trans_lt below

theorem Serves.drop (start : Nat) :
    List.Forall₂ (ServesBlock digest reader) (reader.spans.drop start) (blocks.drop start) ∧
      SortedEntries (blocks.drop start).flatten ∧
      blocks.flatten = (blocks.take start).flatten ++ (blocks.drop start).flatten := by
  have split : blocks.flatten = (blocks.take start).flatten ++ (blocks.drop start).flatten := by
    rw [← flatten_append, take_append_drop]
  refine ⟨forall₂_drop start serves.served, ?_, split⟩
  have sorted := serves.sorted
  rw [split] at sorted
  exact (sortedEntries_append.mp sorted).2.1

theorem Serves.getAt (key : Bytes) (maxSeq maxTx : UInt64) :
    SstableReader.getAt digest reader key maxSeq maxTx =
      .ok ((newestVersion blocks.flatten key maxSeq maxTx).map fun entry =>
        (entry.value, entry.seqNo, entry.txId)) := by
  rw [newestVersion_eq_find serves.sorted, SstableReader.getAt]
  have absent : (∀ entry ∈ blocks.flatten, entry.key ≠ key) →
      blocks.flatten.find? (TableEntry.Matches key maxSeq maxTx) = none := by
    intro noKey
    apply find?_eq_none.mpr
    intro entry mem
    simp [TableEntry.Matches, noKey entry mem]
  by_cases refused : reader.bloomFilter.any (fun filter => !filter.admits digest key) = true
  · rw [if_pos refused, absent]
    · rfl
    · intro entry mem isKey
      obtain ⟨filter, isFilter, refuses⟩ := (Option.any_eq_true _ _).mp refused
      have admits := serves.admitted filter isFilter entry mem
      rw [isKey] at admits
      simp [admits] at refuses
  rw [if_neg refused]
  by_cases outside : key < reader.metadata.firstKey ∨ reader.metadata.lastKey < key
  · rw [if_pos outside, absent]
    · rfl
    · intro entry mem isKey
      rcases outside with before | behind
      · exact absurd (isKey ▸ serves.firstKey entry mem) (not_le.mpr before)
      · exact absurd (isKey ▸ serves.lastKey entry mem) (not_le.mpr behind)
  rw [if_neg outside]
  obtain ⟨result, searched, onFound, onMissing⟩ := serves.searchIndex key
  have position : lowerBound reader.lastKeys key ≤ result.position ∧
      result.position ≤ reader.lastKeys.length := by
    cases result with
    | found position =>
      have located := serves.lowerBound_le_found (onFound position rfl)
      exact ⟨located.1, located.2.le⟩
    | missing position =>
      rw [SearchResult.position, onMissing position rfl]
      exact ⟨le_rfl, lowerBound_le _ _⟩
  simp only [searched, serves.rewindIndex position.2 position.1]
  obtain ⟨served, sorted, split⟩ := serves.drop (lowerBound reader.lastKeys key)
  rw [getAtBlocks_served served sorted, split, find?_append]
  · have noneBefore : (blocks.take (lowerBound reader.lastKeys key)).flatten.find?
        (TableEntry.Matches key maxSeq maxTx) = none := by
      apply find?_eq_none.mpr
      intro entry mem
      simp [TableEntry.Matches, (serves.lt_of_mem_skipped le_rfl mem).ne]
    rw [noneBefore, none_or]
  · intro span isFirst
    rw [head?_drop] at isFirst
    have isLast : reader.lastKeys[lowerBound reader.lastKeys key]? = some span.1 := by
      have found : (reader.spans.map Prod.fst)[lowerBound reader.lastKeys key]? = some span.1 := by
        rw [getElem?_map, isFirst]
        rfl
      rwa [SstableReader.spans_keys] at found
    obtain ⟨inKeys, isKey⟩ := List.getElem?_eq_some_iff.mp isLast
    rw [← isKey]
    apply not_lt.mp
    intro less
    exact lt_irrefl _ ((lt_lowerBound_iff serves.lastKeys_sorted inKeys).mpr less)

theorem Serves.scanPrefix (keyPrefix : Bytes) :
    SstableReader.scanPrefix reader keyPrefix =
      .ok (blocks.flatten.filter fun entry => decide (keyPrefix <+: entry.key)) := by
  rw [SstableReader.scanPrefix]
  obtain ⟨result, searched, onFound, onMissing⟩ := serves.searchIndex keyPrefix
  have start : ∃ start ≤ lowerBound reader.lastKeys keyPrefix,
      reader.rewindIndex keyPrefix (SstableReader.scanStart result) = .ok start := by
    cases result with
    | found position =>
      obtain ⟨behind, inside⟩ := serves.lowerBound_le_found (onFound position rfl)
      exact ⟨_, le_rfl, serves.rewindIndex inside.le behind⟩
    | missing position =>
      rw [SstableReader.scanStart, onMissing position rfl]
      refine ⟨_, Nat.sub_le _ 1, ?_⟩
      -- the block before is below the prefix already
      apply rewind_eq le_rfl (by omega)
      intro earlier isBefore
      have inKeys : earlier < reader.lastKeys.length := by
        have := lowerBound_le reader.lastKeys keyPrefix
        omega
      rw [probeIndex_eq _ inKeys]
      congr 1
      apply decide_eq_false
      exact not_le.mpr ((lt_lowerBound_iff serves.lastKeys_sorted inKeys).mp (by omega))
  obtain ⟨start, early, rewound⟩ := start
  simp only [searched, rewound]
  obtain ⟨served, sorted, split⟩ := serves.drop start
  rw [prefixBlocks_served served sorted, split, filter_append]
  have noneBefore : (blocks.take start).flatten.filter
      (fun entry => decide (keyPrefix <+: entry.key)) = [] := by
    apply filter_eq_nil_iff.mpr
    intro entry mem
    have below := serves.lt_of_mem_skipped early mem
    simpa using fun starts => absurd below (not_lt.mpr (le_of_isPrefix starts))
  rw [noneBefore, nil_append]

theorem Serves.scanRange (start stop : Bound) :
    SstableReader.scanRange reader start stop =
      .ok (blocks.flatten.filter (inRange start stop)) := by
  rw [SstableReader.scanRange, rangeBlocks_served serves.served serves.sorted]

omit serves in
theorem yields_of_next_eq {left right : SstableStream} {entries : List TableEntry}
    (same : SstableStream.next reader left = SstableStream.next reader right)
    (yields : SstableStream.Yields reader right entries) :
    SstableStream.Yields reader left entries := by
  cases yields with
  | done ended => exact .done (same.trans ended)
  | more found rest => exact .more (same.trans found) rest

omit serves in
theorem next_loaded {entries : List TableEntry} (packable : Packable entries) (blockIdx : Nat)
    {entryIdx : Nat} (inside : entryIdx < entries.length) :
    SstableStream.next reader ⟨blockIdx, entryIdx, some (blockBytes digest entries), entries.length,
        offsetsStart entries⟩ =
      .ok (some (entries[entryIdx], ⟨blockIdx, entryIdx + 1, some (blockBytes digest entries),
        entries.length, offsetsStart entries⟩)) := by
  have notAtEnd : ¬ (some (blockBytes digest entries) = none ∨ entries.length ≤ entryIdx) := by
    simpa using inside
  rw [SstableStream.next, SstableStream.ready, if_neg notAtEnd]
  simp only [SstableStream.yieldEntry, readEntryKey_packed digest packable inside,
    readBehindKey_packed digest packable inside]

omit serves in
theorem yields_block {entries behind : List TableEntry} (packable : Packable entries) (blockIdx : Nat)
    (atEnd : SstableStream.Yields reader ⟨blockIdx, entries.length,
      some (blockBytes digest entries), entries.length, offsetsStart entries⟩ behind)
    (count entryIdx : Nat) (here : entryIdx + count = entries.length) :
    SstableStream.Yields reader ⟨blockIdx, entryIdx, some (blockBytes digest entries),
      entries.length, offsetsStart entries⟩ (entries.drop entryIdx ++ behind) := by
  induction count generalizing entryIdx with
  | zero =>
    obtain rfl : entryIdx = entries.length := by omega
    rwa [drop_length, nil_append]
  | succ count ih =>
    have inside : entryIdx < entries.length := by omega
    rw [drop_eq_getElem_cons inside, cons_append]
    exact .more (next_loaded packable blockIdx inside) (ih _ (by omega))

omit serves in
theorem yields_blocks {spans : List (Bytes × Nat × Nat)} {remaining : List (List TableEntry)}
    (served : List.Forall₂ (ServesBlock digest reader) spans remaining)
    (stream : SstableStream) (here : reader.spans.drop stream.blockIdx = spans)
    (atEnd : stream.currentBlock = none ∨ stream.numOffsets ≤ stream.entryIdx) :
    SstableStream.Yields reader stream remaining.flatten := by
  induction served generalizing stream with
  | nil =>
    apply SstableStream.Yields.done
    rw [SstableStream.next, SstableStream.ready, if_pos atEnd, here]
    rfl
  | @cons span entries spans blocks block others ih =>
    have inhabited : entries.length ≠ 0 := by simpa using block.packable.nonempty
    have behind := ih ⟨stream.blockIdx + 1, entries.length,
      some (blockBytes digest entries), entries.length, offsetsStart entries⟩
      (by
        rw [← drop_drop, here]
        rfl) (.inr le_rfl)
    have inBlock := yields_block block.packable (stream.blockIdx + 1) behind entries.length 0
      (by omega)
    rw [drop_zero] at inBlock
    -- loading the block and yielding its first entry is one call
    have sameNext : SstableStream.next reader stream =
        SstableStream.next reader ⟨stream.blockIdx + 1, 0, some (blockBytes digest entries),
          entries.length, offsetsStart entries⟩ := by
      have loads : SstableStream.ready reader stream =
          .ok (some ⟨stream.blockIdx + 1, 0, some (blockBytes digest entries), entries.length,
            offsetsStart entries⟩) := by
        rw [SstableStream.ready, if_pos atEnd, here, SstableStream.loadBlock, block.read]
        simp only [parseBlockTrailer_packed digest block.packable]
        rw [if_neg inhabited]
      have notAtEnd : ¬ (some (blockBytes digest entries) = none ∨ entries.length ≤ 0) := by
        simpa using block.packable.nonempty
      rw [SstableStream.next, SstableStream.next, loads, SstableStream.ready, if_neg notAtEnd]
    exact yields_of_next_eq sameNext inBlock

theorem Serves.stream : SstableStream.Yields reader SstableStream.start blocks.flatten :=
  yields_blocks serves.served _ rfl (.inl rfl)

end Reader

end Contextra.Store
