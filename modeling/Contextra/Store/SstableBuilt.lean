import Contextra.Store.SstableLookups

/-!
# What the builder has built

After any accepted entries the builder is a function of the blocks it wrote, the entries of
the open block and the nonces it used: `built`.  `add` moves from one such builder to the
next, and `finish` closes the last block.
-/

namespace Contextra.Store

open Library List Option
open scoped Library.ByteOrder

abbrev WrittenBlocks := List (List TableEntry × Bytes)

def WrittenBlocks.entries (written : WrittenBlocks) : List TableEntry := (written.map Prod.fst).flatten

def WrittenBlocks.bytes (written : WrittenBlocks) : Bytes := (written.map Prod.snd).flatten

def lastKeyOf (entries : List TableEntry) : Bytes := (entries.getLast?.map TableEntry.key).getD []

def indexOf : Nat → WrittenBlocks → List (Bytes × Nat)
  | _, [] => []
  | start, (entries, bytes) :: written =>
    (lastKeyOf entries, start) :: indexOf (start + bytes.length) written

theorem WrittenBlocks.entries_concat (written : WrittenBlocks) (entries : List TableEntry) (bytes : Bytes) :
    WrittenBlocks.entries (written ++ [(entries, bytes)]) = written.entries ++ entries := by
  simp [WrittenBlocks.entries]

theorem WrittenBlocks.bytes_concat (written : WrittenBlocks) (entries : List TableEntry) (bytes : Bytes) :
    WrittenBlocks.bytes (written ++ [(entries, bytes)]) = written.bytes ++ bytes := by
  simp [WrittenBlocks.bytes]

theorem indexOf_concat (start : Nat) (written : WrittenBlocks) (entries : List TableEntry) (bytes : Bytes) :
    indexOf start (written ++ [(entries, bytes)]) =
      indexOf start written ++ [(lastKeyOf entries, start + written.bytes.length)] := by
  induction written generalizing start with
  | nil => simp [indexOf, WrittenBlocks.bytes]
  | cons first written ih =>
    rw [cons_append, indexOf, ih, indexOf, cons_append]
    simp [WrittenBlocks.bytes, Nat.add_assoc]

section Built

variable (digest : Bytes → Bytes)

def built (written : WrittenBlocks) (current : List TableEntry) (counter : Nat) : SstableBuilder :=
  let all := written.entries ++ current
  { file := written.bytes
    blockBuilder := packed digest current
    index := indexOf 0 written
    firstKey := all.head?.map TableEntry.key
    lastKey := all.getLast?.map TableEntry.key
    prevKeyLastSeq := all.getLast?.map fun entry => rawSeq entry.seqNo
    offset := written.bytes.length
    counter := counter
    bloomFilter := all.foldl (fun filter entry => filter.insert digest entry.key) BloomFilter.new
    keyCount := all.length
    minTxId := all.foldl (fun least entry => min least entry.txId.toNat) u64Max
    maxTxId := all.foldl (fun greatest entry => max greatest entry.txId.toNat) 0
    minSeq := all.foldl (fun least entry => min least (rawSeq entry.seqNo)) u64Max
    maxSeq := all.foldl (fun greatest entry => max greatest (rawSeq entry.seqNo)) 0 }

theorem built_nil (counter : Nat) : built digest [] [] counter = SstableBuilder.create counter := by
  rfl

/-- What holds of the blocks and the open block in every run of the builder. -/
structure WellBuilt (km : Option KeyManager) (written : WrittenBlocks) (current : List TableEntry) :
    Prop where
  packable : ∀ block ∈ written, Packable block.1
  sealed : ∀ block ∈ written, ∃ counter,
    sealBlock km counter (withCrc (blockBytes digest block.1)) = .ok block.2
  open_ : current = [] ∨ Packable current
  sorted : SortedEntries (written.entries ++ current)
  offset : written.bytes.length ≤ u64Max

theorem WellBuilt.nil (km : Option KeyManager) : WellBuilt digest km [] [] where
  packable := by simp
  sealed := by simp
  open_ := .inl rfl
  sorted := List.Pairwise.nil
  offset := by simp [WrittenBlocks.bytes]

variable {digest} {km : Option KeyManager} {written : WrittenBlocks} {current : List TableEntry}
  {counter : Nat}

theorem getLast_append_of_ne_nil {earlier : List TableEntry} (inhabited : current ≠ []) :
    (earlier ++ current).getLast? = current.getLast? := by
  rw [getLast?_append, getLast?_eq_some_getLast inhabited, some_or]

theorem lastKey_of_ne_nil (inhabited : current ≠ []) :
    current.getLast?.map TableEntry.key = some (lastKeyOf current) := by
  rw [lastKeyOf, getLast?_eq_some_getLast inhabited]
  rfl

variable {next : SstableBuilder}

theorem flushBlock_built (well : WellBuilt digest km written current)
    (flushed : (built digest written current counter).flushBlock km = .ok next) :
    ∃ written' counter', next = built digest written' [] counter' ∧
      WellBuilt digest km written' [] ∧ WrittenBlocks.entries written' = written.entries ++ current := by
  have isEmpty : (built digest written current counter).blockBuilder.isEmpty = current.isEmpty :=
    isEmpty_packed digest current
  rw [SstableBuilder.flushBlock, isEmpty] at flushed
  rcases well.open_ with rfl | packable
  · rw [if_pos (by rfl)] at flushed
    cases flushed
    exact ⟨written, counter, rfl, well, (append_nil _).symm⟩
  · have inhabited := packable.nonempty
    have lastKey : (written.entries ++ current).getLast?.map TableEntry.key =
        some (lastKeyOf current) := by
      rw [getLast_append_of_ne_nil inhabited, lastKey_of_ne_nil inhabited]
    have builtKey : (built digest written current counter).lastKey = some (lastKeyOf current) :=
      lastKey
    rw [if_neg (by simpa using inhabited), builtKey] at flushed
    simp only at flushed
    split at flushed
    · cases flushed
    rename_i block isSealed
    split at flushed
    · cases flushed
    rename_i small
    cases flushed
    have entries := WrittenBlocks.entries_concat written current block
    have bytes := WrittenBlocks.bytes_concat written current block
    refine ⟨written ++ [(current, block)], if km.isSome then counter + 1 else counter, ?_, ?_,
      entries⟩
    · simp only [built, entries, bytes, lastKey, indexOf_concat, append_nil,
        length_append, Nat.zero_add, packed_nil]
    · refine ⟨?_, ?_, .inl rfl, ?_, ?_⟩
      · intro other mem
        rcases mem_append.mp mem with old | new
        · exact well.packable other old
        · rw [mem_singleton.mp new]
          exact packable
      · intro other mem
        rcases mem_append.mp mem with old | new
        · exact well.sealed other old
        · rw [mem_singleton.mp new]
          exact ⟨counter, isSealed⟩
      · rw [entries, append_nil]
        exact well.sorted
      · have offset : (built digest written current counter).offset = written.bytes.length := by rfl
        rw [bytes, length_append]
        omega

/-- `add` before it touches the block: the first key is set. -/
def started (builder : SstableBuilder) (entry : TableEntry) : SstableBuilder :=
  { builder with firstKey := some (builder.firstKey.getD entry.key) }

theorem record_built (entry : TableEntry) :
    SstableBuilder.record digest
        { started (built digest written current counter) entry with
          blockBuilder := packed digest (current ++ [entry]) } entry =
      built digest written (current ++ [entry]) counter := by
  have firstKey : some (((written.entries ++ current).head?.map TableEntry.key).getD entry.key) =
      (written.entries ++ (current ++ [entry])).head?.map TableEntry.key := by
    rw [← append_assoc]
    cases written.entries ++ current <;> rfl
  simp only [SstableBuilder.record, started, built, firstKey]
  simp only [← append_assoc, foldl_append, foldl_cons, foldl_nil,
    getLast?_concat, map_some, length_append, length_singleton]

theorem flushBlock_started (builder : SstableBuilder) (entry : TableEntry) :
    (started builder entry).flushBlock km = (builder.flushBlock km).map (started · entry) := by
  cases empty : builder.blockBuilder.isEmpty with
  | true => simp [SstableBuilder.flushBlock, started, empty, Except.map]
  | false =>
    cases last : builder.lastKey with
    | none => simp [SstableBuilder.flushBlock, started, empty, last, Except.map]
    | some lastKey =>
      cases sealed : sealBlock km builder.counter (withCrc builder.blockBuilder.build) with
      | error error => simp [SstableBuilder.flushBlock, started, empty, last, sealed, Except.map]
      | ok block =>
        by_cases large : u64Max < builder.offset + block.length <;>
          simp [SstableBuilder.flushBlock, started, empty, last, sealed, large, Except.map]

variable {entry : TableEntry}

theorem writable_of_accepted (nonempty : entry.key ≠ [])
    (small : ¬ (maxKeySize < entry.key.length ∨ maxValueSize < entry.value.length)) :
    entry.Writable :=
  ⟨nonempty, not_lt.mp fun long => small (.inl long), not_lt.mp fun long => small (.inr long)⟩

theorem sortedEntries_concat {entries : List TableEntry}
    (sorted : SortedEntries entries) (after : ∀ last ∈ entries.getLast?, last.Before entry) :
    SortedEntries (entries ++ [entry]) := by
  refine sortedEntries_append.mpr ⟨sorted, pairwise_singleton _ _, ?_⟩
  intro earlier mem later isEntry
  obtain rfl := mem_singleton.mp isEntry
  rcases eq_nil_or_concat entries with rfl | ⟨init, last, rfl⟩
  · cases mem
  · have lastBefore := after last (by simp)
    rw [concat_eq_append] at sorted mem
    rcases mem_append.mp mem with inInit | isLast
    · have beforeLast := (sortedEntries_append.mp sorted).2.2 earlier inInit last
        mem_cons_self
      exact beforeLast.trans lastBefore
    · rwa [mem_singleton.mp isLast]

theorem before_of_checkOrder
    (accepted : (built digest written current counter).checkOrder entry = .ok ()) :
    ∀ last ∈ (written.entries ++ current).getLast?, last.Before entry := by
  intro last isLast
  rw [mem_def] at isLast
  have lastKey : (built digest written current counter).lastKey = some last.key := by
    simp only [built, isLast, map_some]
  have lastSeq : (built digest written current counter).prevKeyLastSeq =
      some (rawSeq last.seqNo) := by
    simp only [built, isLast, map_some]
  rw [SstableBuilder.checkOrder, lastKey, lastSeq] at accepted
  simp only at accepted
  split at accepted
  · cases accepted
  rename_i notBelow
  split at accepted
  · rename_i same
    split at accepted
    · cases accepted
    · rename_i notNewer
      exact .inr ⟨same.symm, not_le.mp notNewer⟩
  · rename_i other
    exact .inl (lt_of_le_of_ne (not_lt.mp notBelow) (Ne.symm other))

theorem add_built (well : WellBuilt digest km written current) (added : (built digest written current counter).add digest km entry = .ok next) :
    ∃ written' current' counter', next = built digest written' current' counter' ∧
      WellBuilt digest km written' current' ∧
      WrittenBlocks.entries written' ++ current' = written.entries ++ current ++ [entry] := by
  rw [SstableBuilder.add] at added
  split at added
  · cases added
  rename_i nonempty
  split at added
  · cases added
  rename_i small
  have writable := writable_of_accepted nonempty small
  split at added
  · cases added
  rename_i accepted
  have sorted := sortedEntries_concat well.sorted (before_of_checkOrder accepted)
  change ((started (built digest written current counter) entry).addToBlock digest km entry).map
    (SstableBuilder.record digest · entry) = .ok next at added
  have block : (started (built digest written current counter) entry).blockBuilder =
      packed digest current := by rfl
  rw [SstableBuilder.addToBlock, block, add_packed digest writable well.open_] at added
  by_cases full : current ≠ [] ∧ blockSize < blockLen (current ++ [entry])
  · rw [if_pos full, flushBlock_started] at added
    cases flush : (built digest written current counter).flushBlock km with
    | error error =>
      rw [flush] at added
      cases added
    | ok flushed =>
      obtain ⟨written', counter', rfl, well', entries⟩ := flushBlock_built well flush
      have emptyBlock : (started (built digest written' [] counter') entry).blockBuilder =
          packed digest [] := by rfl
      rw [flush] at added
      simp only [Except.map, emptyBlock] at added
      rw [add_packed digest writable (.inl rfl), if_neg (by simp)] at added
      simp only [Except.ok.injEq] at added
      refine ⟨written', [entry], counter', ?_, ?_, by rw [entries]⟩
      · rw [← added]
        exact record_built entry
      · exact ⟨well'.packable, well'.sealed, .inr (.singleton writable),
          by rwa [entries], well'.offset⟩
  · rw [if_neg full] at added
    simp only [Except.map, Except.ok.injEq] at added
    have packable : Packable (current ++ [entry]) := by
      rcases well.open_ with rfl | packable
      · exact .singleton writable
      · exact packable.concat writable fun long => full ⟨packable.nonempty, long⟩
    refine ⟨written, current ++ [entry], counter, ?_, ?_, by rw [append_assoc]⟩
    · rw [← added]
      exact record_built entry
    · exact ⟨well.packable, well.sealed, .inr packable, by rwa [← append_assoc], well.offset⟩

theorem addEntries_built (well : WellBuilt digest km written current) {entries : List TableEntry}
    (added : addEntries digest km (built digest written current counter) entries = .ok next) :
    ∃ written' current' counter', next = built digest written' current' counter' ∧
      WellBuilt digest km written' current' ∧
      WrittenBlocks.entries written' ++ current' = written.entries ++ current ++ entries := by
  induction entries generalizing written current counter with
  | nil =>
    cases added
    exact ⟨written, current, counter, rfl, well, (append_nil _).symm⟩
  | cons entry entries ih =>
    rw [addEntries] at added
    split at added
    · cases added
    · rename_i step
      obtain ⟨written', current', counter', rfl, well', grown⟩ := add_built well step
      obtain ⟨written'', current'', counter'', same, well'', all⟩ :=
        ih well' added
      refine ⟨written'', current'', counter'', same, well'', ?_⟩
      rw [all, grown, append_assoc, singleton_append]

end Built

end Contextra.Store
