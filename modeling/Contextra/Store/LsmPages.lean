import Contextra.Store.LsmScan

/-!
# Pages of a scan

What a scan collects is the same entry of every key that it selects, whatever else it selects.  So
the pages that follow one another by their cursors are the scan without pages, as long as what the
scan collects fits its accumulator.
-/

namespace Contextra.Store

open Library List Option
open scoped Library.ByteOrder

def mergedRows (lastTx : UInt64) (key : Bytes) (collected : Option (Bytes × UInt64))
    (rows : List TableEntry) : Option (Bytes × UInt64) :=
  (rows.filter fun row => row.version.seenBy lastTx && decide (row.key = key)).foldl
    (fun collected row => mergedValue collected (some row.version)) collected

def mergedNewest (lastTx : UInt64) (key : Bytes) (collected : Option (Bytes × UInt64))
    (table : MemTable) : Option (Bytes × UInt64) :=
  mergedValue collected
    (scannedVersion (.ofNat (2 ^ 64 - 1)) lastTx (fun _ _ _ => true) key (table.versionsOf key))

def LsmStorage.visibleEntry (storage : LsmStorage) (tables : List (List TableEntry)) (key : Bytes) :
    Option (Bytes × UInt64) :=
  mergedNewest storage.lastCommittedTx key
    (storage.immutableMemtables.foldl (mergedNewest storage.lastCommittedTx key)
      (tables.foldl (mergedRows storage.lastCommittedTx key) none))
    storage.memtable

/-- The readers serve the blocks of their tables, and the memtables are made by calls. -/
structure LsmStorage.Sound (digest : Bytes → Bytes) (storage : LsmStorage)
    (tables : List (List (List TableEntry))) : Prop where
  served : List.Forall₂ (Serves digest) storage.sstables tables
  immutable : ∀ table ∈ storage.immutableMemtables, ∃ calls, table = MemTable.new.performAll calls
  active : ∃ calls, storage.memtable = MemTable.new.performAll calls

def SstableScanMode.Reads (key : Bytes) : SstableScanMode → Prop
  | byPrefix keyPrefix => keyPrefix <+: key
  | range start stop => start.AboveStart key ∧ stop.BelowEnd key

structure Selects (mode : SstableScanMode) (entryFilter : ScanPredicate) (selected : Bytes → Prop) :
    Prop where
  reads : ∀ key, selected key → mode.Reads key
  passes : ∀ key (version : MemTableEntry), mode.Reads key →
    (entryFilter key version.raw version.txId = true ↔ selected key)

def Collects (selected : Bytes → Prop) [DecidablePred selected]
    (entry : Bytes → Option (Bytes × UInt64)) (map : ScanTarget) : Prop :=
  ∀ key, map.lookup key = if selected key then entry key else none

section Sources

variable {mode : SstableScanMode} {entryFilter : ScanPredicate} {contextName : String}
  {lastTx : UInt64} {selected : Bytes → Prop} [DecidablePred selected]
  {entry : Bytes → Option (Bytes × UInt64)} {map : ScanTarget}

theorem lookup_mergeRows (rows : List TableEntry) (map : ScanTarget) (key : Bytes) :
    ((rows.filter fun row => row.version.seenBy lastTx && decide (selected row.key)).foldl mergeRow
        map).lookup key =
      if selected key then mergedRows lastTx key (map.lookup key) rows else map.lookup key := by
  induction rows generalizing map with
  | nil => exact (ite_self _).symm
  | cons row rows ih =>
    rw [mergedRows, filter_cons, filter_cons]
    cases row.version.seenBy lastTx with
    | false => exact ih map
    | true =>
      rw [Bool.true_and, Bool.true_and]
      by_cases isKey : row.key = key
      · subst isKey
        rw [if_pos (decide_eq_true rfl)]
        by_cases isSelected : selected row.key
        · rw [if_pos (decide_eq_true isSelected), foldl_cons, ih,
            if_pos isSelected, if_pos isSelected, mergeRow, lookup_mergeInto_self]
          rfl
        · rw [if_neg (by simpa using isSelected), ih, if_neg isSelected,
            if_neg isSelected]
      · rw [if_neg (c := decide (row.key = key) = true) (by simpa using isKey)]
        have others : ∀ map : ScanTarget, (mergeRow map row).lookup key = map.lookup key :=
          fun map => lookup_mergeInto_ne map (Ne.symm isKey) row.version
        split
        · rw [foldl_cons, ih, others]
          rfl
        · exact ih map

theorem foldlM_collectRow (rows : List TableEntry) (map : ScanTarget) :
    rows.foldlM (collectRow entryFilter false contextName lastTx) map =
      .ok ((rows.filter fun row => row.version.seenBy lastTx &&
        entryFilter row.key row.version.raw row.version.txId).foldl mergeRow map) := by
  induction rows generalizing map with
  | nil => rfl
  | cons row rows ih =>
    rw [foldlM_cons, collectRow, filter_cons]
    split
    · exact ih _
    · exact ih _

variable {blocks : List (List TableEntry)} {reader : SstableReader}

theorem not_reads_of_skips {digest : Bytes → Bytes} (serves : Serves digest reader blocks)
    (skipped : mode.skips reader = true) {row : TableEntry} (isRow : row ∈ blocks.flatten) :
    ¬ mode.Reads row.key := by
  cases mode with
  | range start stop => cases skipped
  | byPrefix keyPrefix =>
    intro starts
    rw [SstableScanMode.skips, Bool.and_eq_true, Bool.or_eq_true, decide_eq_true_eq] at skipped
    rcases skipped.2 with below | above
    · have reached := (le_of_isPrefix starts).trans (serves.lastKey row isRow)
      exact absurd below (not_lt.mpr reached)
    · obtain ⟨prefixEnd, raised, behind⟩ := (Option.any_eq_true _ _).mp above
      have inside := ((upperBoundForPrefix_bound raised row.key).mp starts).2
      have first := (of_decide_eq_true behind).trans (serves.firstKey row isRow)
      exact absurd inside (not_lt.mpr first)

theorem scanTable_serves (mode : SstableScanMode) {digest : Bytes → Bytes}
    (serves : Serves digest reader blocks) :
    ∃ reads : TableEntry → Bool, (∀ row, reads row = true ↔ mode.Reads row.key) ∧
      mode.scanTable reader = .ok (blocks.flatten.filter reads) := by
  cases mode with
  | byPrefix keyPrefix =>
    refine ⟨fun row => decide (keyPrefix <+: row.key), fun row => ?_, serves.scanPrefix keyPrefix⟩
    exact ⟨of_decide_eq_true, fun read => decide_eq_true read⟩
  | range start stop =>
    refine ⟨inRange start stop, fun row => ?_, serves.scanRange start stop⟩
    exact ⟨of_decide_eq_true, fun read => decide_eq_true read⟩

theorem collectTable_free (contextName : String) (lastTx : UInt64)
    (selects : Selects mode entryFilter selected) {digest : Bytes → Bytes}
    (serves : Serves digest reader blocks) (collects : Collects selected entry map) :
    ∃ next, collectTable mode entryFilter false contextName lastTx map reader = .ok next ∧
      Collects selected (fun key => mergedRows lastTx key (entry key) blocks.flatten) next := by
  have collected : collectTable mode entryFilter false contextName lastTx map reader =
      .ok ((blocks.flatten.filter fun row =>
        row.version.seenBy lastTx && decide (selected row.key)).foldl mergeRow map) := by
    rw [collectTable]
    by_cases skipped : mode.skips reader = true
    · rw [if_pos skipped]
      have nothing : blocks.flatten.filter (fun row =>
          row.version.seenBy lastTx && decide (selected row.key)) = [] := by
        apply filter_eq_nil_iff.mpr
        intro row isRow isSelected
        rw [Bool.and_eq_true, decide_eq_true_eq] at isSelected
        exact not_reads_of_skips serves skipped isRow (selects.reads row.key isSelected.2)
      rw [nothing]
      rfl
    · obtain ⟨reads, isRead, scanned⟩ := scanTable_serves mode serves
      rw [if_neg skipped, scanned]
      dsimp only
      rw [foldlM_collectRow, List.filter_filter]
      have same : (fun row : TableEntry => (row.version.seenBy lastTx &&
          entryFilter row.key row.version.raw row.version.txId) && reads row) =
          fun row => row.version.seenBy lastTx && decide (selected row.key) := by
        funext row
        rw [Bool.and_assoc]
        congr 1
        apply Bool.eq_iff_iff.mpr
        rw [Bool.and_eq_true, isRead, decide_eq_true_eq]
        constructor
        · exact fun ⟨passed, read⟩ => (selects.passes row.key row.version read).mp passed
        · intro isSelected
          have read := selects.reads row.key isSelected
          exact ⟨(selects.passes row.key row.version read).mpr isSelected, read⟩
      rw [same]
  refine ⟨_, collected, fun key => ?_⟩
  rw [lookup_mergeRows, collects key]
  split <;> rfl

theorem scannedVersion_of_passed {versions : List MemTableEntry} {key : Bytes}
    (passed : ∀ version : MemTableEntry, entryFilter key version.raw version.txId = true)
    (seqNo maxTx : UInt64) :
    scannedVersion seqNo maxTx entryFilter key versions =
      scannedVersion seqNo maxTx (fun _ _ _ => true) key versions := by
  have same : matchingVersion seqNo maxTx entryFilter key =
      matchingVersion seqNo maxTx (fun _ _ _ => true) key := by
    funext version
    rw [matchingVersion, matchingVersion, passed]
  rw [scannedVersion, scannedVersion, same]

theorem scannedVersion_of_refused {versions : List MemTableEntry} {key : Bytes}
    (refused : ∀ version : MemTableEntry, entryFilter key version.raw version.txId = false)
    (seqNo maxTx : UInt64) : scannedVersion seqNo maxTx entryFilter key versions = none := by
  have isBest := bestVersion_isBest (matchingVersion seqNo maxTx entryFilter key) versions
  rw [scannedVersion]
  cases found : bestVersion versions (matchingVersion seqNo maxTx entryFilter key) with
  | none => rfl
  | some version =>
    rw [found] at isBest
    have isMatch := isBest.2.1
    rw [matchingVersion, refused, Bool.and_false] at isMatch
    cases isMatch

theorem scanMemtable_placed (lastTx : UInt64) (selects : Selects mode entryFilter selected) {table : MemTable}
    (placed : table.Placed) (map : ScanTarget) :
    ∃ next, scanMemtable mode entryFilter lastTx map table = some next ∧
      ∀ key, next.lookup key =
        if selected key then mergedNewest lastTx key (map.lookup key) table
        else map.lookup key := by
  have merged (key : Bytes) {next : ScanTarget} (read : mode.Reads key)
      (lookups : next.lookup key = mergedValue (map.lookup key)
        (scannedVersion (.ofNat (2 ^ 64 - 1)) lastTx entryFilter key (table.versionsOf key))) :
      next.lookup key =
        if selected key then mergedNewest lastTx key (map.lookup key) table
        else map.lookup key := by
    rw [lookups]
    by_cases isSelected : selected key
    · rw [if_pos isSelected, mergedNewest, scannedVersion_of_passed]
      exact fun version => (selects.passes key version read).mpr isSelected
    · rw [if_neg isSelected, scannedVersion_of_refused]
      · rfl
      · intro version
        exact Bool.eq_false_iff.mpr (mt (selects.passes key version read).mp isSelected)
  cases mode with
  | byPrefix keyPrefix =>
    refine ⟨_, rfl, fun key => ?_⟩
    have lookups := placed.lookup_scanPrefix (.ofNat (2 ^ 64 - 1)) lastTx entryFilter map
      keyPrefix key
    by_cases starts : keyPrefix <+: key
    · rw [if_pos starts] at lookups
      exact merged key starts lookups
    · rw [if_neg starts] at lookups
      rw [lookups, if_neg (mt (selects.reads key) starts)]
  | range start stop =>
    obtain ⟨next, scanned, lookups⟩ := placed.lookup_scanRange (.ofNat (2 ^ 64 - 1)) lastTx
      entryFilter map start stop
    refine ⟨next, scanned, fun key => ?_⟩
    have lookup := lookups key
    by_cases between : start.AboveStart key ∧ stop.BelowEnd key
    · rw [if_pos between] at lookup
      exact merged key between lookup
    · rw [if_neg between] at lookup
      rw [lookup, if_neg (mt (selects.reads key) between)]

theorem collectMemtable_free (contextName : String) (lastTx : UInt64)
    (selects : Selects mode entryFilter selected) {table : MemTable} (placed : table.Placed) (collects : Collects selected entry map) :
    ∃ next, collectMemtable mode entryFilter false contextName lastTx map table = .ok next ∧
      Collects selected (fun key => mergedNewest lastTx key (entry key) table) next := by
  obtain ⟨next, scanned, lookups⟩ := scanMemtable_placed lastTx selects placed map
  refine ⟨next, ?_, fun key => ?_⟩
  · rw [collectMemtable, scanned]
    rfl
  · rw [lookups, collects key]
    split <;> rfl

end Sources

section Guard

variable (mode : SstableScanMode) {entryFilter : ScanPredicate} (contextName : String)
  (lastTx : UInt64) {selected : Bytes → Prop} [DecidablePred selected]

/-- The steps with the guard are those without it, up to the guard. -/
abbrev Guarded (free guarded : ScanTarget → Except ScanError ScanTarget) : Prop :=
  Guards (fun map : ScanTarget => map.entries.length) maxScanMergeAccumulator
    (accumulatorExceeded contextName) free guarded

theorem mergedValue_ne_none {collected : Option (Bytes × UInt64)} (isSome : collected ≠ none)
    (version : Option MemTableEntry) : mergedValue collected version ≠ none := by
  obtain ⟨⟨value, seqNo⟩, rfl⟩ := ne_none_iff_exists'.mp isSome
  cases version with
  | none => exact some_ne_none _
  | some version =>
    rw [mergedValue]
    split <;> exact some_ne_none _

theorem length_le_mergeRow (map : ScanTarget) (row : TableEntry) :
    map.entries.length ≤ (mergeRow map row).entries.length := by
  apply SortedMap.length_le_of_kept
  intro key isKey
  by_cases same : key = row.key
  · rw [same, mergeRow, lookup_mergeInto_self]
    exact mergedValue_ne_none (same ▸ isKey) _
  · rw [mergeRow, lookup_mergeInto_ne map same]
    exact isKey

theorem guarded_collectRow (row : TableEntry) :
    Guarded contextName (collectRow entryFilter false contextName lastTx · row)
      (collectRow entryFilter true contextName lastTx · row) := by
  unfold collectRow
  split
  · exact Guards.check fun map => length_le_mergeRow map row
  · exact Guards.skip

theorem guarded_collectTable (entryFilter : ScanPredicate) (reader : SstableReader) :
    Guarded contextName (collectTable mode entryFilter false contextName lastTx · reader)
      (collectTable mode entryFilter true contextName lastTx · reader) := by
  unfold collectTable
  split
  · exact Guards.skip
  · split
    · exact ⟨fun _ _ failed => (by cases failed), fun _ _ failed => (by cases failed)⟩
    · exact Guards.foldlM fun row _ => guarded_collectRow contextName lastTx row

theorem guarded_collectMemtable {mode : SstableScanMode} (selects : Selects mode entryFilter selected) {table : MemTable}
    (placed : table.Placed) :
    Guarded contextName (collectMemtable mode entryFilter false contextName lastTx · table)
      (collectMemtable mode entryFilter true contextName lastTx · table) where
  grows before after collected := by
    obtain ⟨next, scanned, lookups⟩ := scanMemtable_placed lastTx selects placed before
    rw [collectMemtable, scanned] at collected
    cases collected
    apply SortedMap.length_le_of_kept
    intro key isKey
    rw [lookups]
    split
    · exact mergedValue_ne_none isKey _
    · exact isKey
  bounds before after collected _ := by
    obtain ⟨next, scanned, _⟩ := scanMemtable_placed lastTx selects placed before
    rw [collectMemtable, scanned] at collected ⊢
    cases collected
    rfl

end Guard

section Storage

variable {storage : LsmStorage} {digest : Bytes → Bytes} {tables : List (List (List TableEntry))}
  {mode : SstableScanMode} {entryFilter : ScanPredicate} {selected : Bytes → Prop}
  [DecidablePred selected]

theorem collectTables_free (selects : Selects mode entryFilter selected) (contextName : String)
    (lastTx : UInt64) {readers : List SstableReader}
    (served : List.Forall₂ (Serves digest) readers tables) {map : ScanTarget}
    {entry : Bytes → Option (Bytes × UInt64)} (collects : Collects selected entry map) :
    ∃ next,
      readers.foldlM (collectTable mode entryFilter false contextName lastTx) map = .ok next ∧
      Collects selected
        (fun key => (tables.map List.flatten).foldl (mergedRows lastTx key) (entry key)) next := by
  induction served generalizing map entry with
  | nil => exact ⟨map, rfl, collects⟩
  | cons serves _ ih =>
    obtain ⟨between, collected, half⟩ :=
      collectTable_free contextName lastTx selects serves collects
    obtain ⟨next, others, whole⟩ := ih half
    refine ⟨next, ?_, whole⟩
    rw [foldlM_cons, collected]
    exact others

theorem collectMemtables_free (selects : Selects mode entryFilter selected) (contextName : String)
    (lastTx : UInt64) {memtables : List MemTable} (placed : ∀ table ∈ memtables, table.Placed)
    {map : ScanTarget} {entry : Bytes → Option (Bytes × UInt64)}
    (collects : Collects selected entry map) :
    ∃ next,
      memtables.foldlM (collectMemtable mode entryFilter false contextName lastTx) map = .ok next ∧
      Collects selected (fun key => memtables.foldl (mergedNewest lastTx key) (entry key)) next := by
  induction memtables generalizing map entry with
  | nil => exact ⟨map, rfl, collects⟩
  | cons table memtables ih =>
    obtain ⟨between, collected, half⟩ := collectMemtable_free contextName lastTx selects
      (placed table mem_cons_self) collects
    obtain ⟨next, others, whole⟩ :=
      ih (fun other isOther => placed other (mem_cons_of_mem table isOther)) half
    refine ⟨next, ?_, whole⟩
    rw [foldlM_cons, collected]
    exact others

theorem isValid_of_reads {key : Bytes} (reads : mode.Reads key) : mode.isValid = true := by
  cases mode with
  | byPrefix keyPrefix => rfl
  | range start stop => exact valid_of_between reads.1 reads.2

theorem LsmStorage.Sound.collects (sound : storage.Sound digest tables)
    (selects : Selects mode entryFilter selected) (contextName : String) :
    ∃ map, storage.collectVisibleEntries mode entryFilter false contextName = .ok map ∧
      storage.collectVisibleEntries mode entryFilter true contextName =
        checkSize true contextName map ∧
      Collects selected (storage.visibleEntry (tables.map List.flatten)) map := by
  have placed : ∀ table ∈ storage.immutableMemtables, table.Placed := by
    intro table isTable
    obtain ⟨calls, rfl⟩ := sound.immutable table isTable
    exact placed_performAll calls
  have active : storage.memtable.Placed := by
    obtain ⟨calls, same⟩ := sound.active
    rw [same]
    exact placed_performAll calls
  have start : Collects selected (fun _ => none) .empty := fun key => (ite_self _).symm
  rw [LsmStorage.collectVisibleEntries, LsmStorage.collectVisibleEntries]
  by_cases valid : mode.isValid = true
  · rw [if_pos valid, if_pos valid]
    obtain ⟨first, fromTables, collected⟩ :=
      collectTables_free selects contextName storage.lastCommittedTx sound.served start
    obtain ⟨second, fromImmutable, collected⟩ :=
      collectMemtables_free selects contextName storage.lastCommittedTx placed collected
    obtain ⟨map, fromActive, collected⟩ := collectMemtable_free contextName storage.lastCommittedTx
      selects active collected
    have guards := (Guards.foldlM fun reader (_ : reader ∈ storage.sstables) =>
      guarded_collectTable mode contextName storage.lastCommittedTx entryFilter reader).bind
      ((Guards.foldlM fun table isTable => guarded_collectMemtable contextName
        storage.lastCommittedTx selects (placed table isTable)).bind
        (guarded_collectMemtable contextName storage.lastCommittedTx selects active))
    have free : (storage.sstables.foldlM
        (collectTable mode entryFilter false contextName storage.lastCommittedTx) .empty >>=
          fun map => storage.immutableMemtables.foldlM
            (collectMemtable mode entryFilter false contextName storage.lastCommittedTx) map >>=
          fun map => collectMemtable mode entryFilter false contextName storage.lastCommittedTx map
            storage.memtable) = .ok map := by
      rw [fromTables]
      change (storage.immutableMemtables.foldlM
        (collectMemtable mode entryFilter false contextName storage.lastCommittedTx) first >>=
          fun map => collectMemtable mode entryFilter false contextName storage.lastCommittedTx map
            storage.memtable) = .ok map
      rw [fromImmutable]
      exact fromActive
    exact ⟨map, free, guards.bounds _ _ free (Nat.zero_le _), collected⟩
  · rw [if_neg valid, if_neg valid]
    refine ⟨.empty, rfl, rfl, fun key => ?_⟩
    rw [if_neg]
    · rfl
    · exact fun isSelected => valid (isValid_of_reads (selects.reads key isSelected))

end Storage

theorem mem_liveEntries {entries : List (Bytes × (Bytes × UInt64))} {live : KeyValue} :
    live ∈ liveEntries entries ↔
      ∃ seqNo : UInt64, (live.1, live.2, seqNo) ∈ entries ∧ ¬ tombstoneBit ≤ seqNo.toNat := by
  rw [liveEntries, mem_filterMap]
  constructor
  · rintro ⟨⟨key, value, seqNo⟩, isEntry, isLive⟩
    dsimp only at isLive
    split at isLive
    · cases isLive
    · rename_i alive
      cases isLive
      exact ⟨seqNo, isEntry, alive⟩
  · rintro ⟨seqNo, isEntry, alive⟩
    exact ⟨_, isEntry, if_neg alive⟩

theorem liveEntries_sorted (map : ScanTarget) :
    (liveEntries map.entries).Pairwise fun left right => left.1 < right.1 := by
  apply map.sorted.filterMap
  intro left right less first isFirst second isSecond
  split at isFirst
  · cases isFirst
  · split at isSecond
    · cases isSecond
    · cases isFirst
      cases isSecond
      exact less

theorem liveEntries_behind (cursor : Option Bytes) (entries : List (Bytes × (Bytes × UInt64))) :
    liveEntries (behind cursor entries) = behind cursor (liveEntries entries) := by
  apply filterMap_behind
  intro entry live isLive
  split at isLive
  · cases isLive
  · cases isLive
    rfl

theorem checkSize_of_le {map : ScanTarget} (fits : map.entries.length ≤ maxScanMergeAccumulator)
    (contextName : String) : checkSize true contextName map = .ok map :=
  if_neg (not_lt.mpr fits)

theorem checkSize_of_lt {map : ScanTarget} (large : maxScanMergeAccumulator < map.entries.length)
    (contextName : String) :
    checkSize true contextName map = .error (accumulatorExceeded contextName) :=
  if_pos large

/-- The pages of a scan and the scan as a whole are the live entries that were collected, in
ascending order, unless the accumulator cannot hold them; then the first page is refused. -/
structure Tiled (contextName : String) (collected : ScanTarget)
    (whole : Except ScanError (List KeyValue))
    (paged : Option Bytes → Except ScanError (List KeyValue × Option Bytes)) : Prop where
  whole : whole = .ok (liveEntries collected.entries)
  ascending : (liveEntries collected.entries).Pairwise fun left right => left.1 < right.1
  tiles : collected.entries.length ≤ maxScanMergeAccumulator →
    ∃ pages, Pages paged none pages ∧ pages.flatten = liveEntries collected.entries ∧
      ∀ others, Pages paged none others → others = pages
  refused : maxScanMergeAccumulator < collected.entries.length →
    paged none = .error (accumulatorExceeded contextName)

theorem tiled_of_collects {contextName : String} {collected : ScanTarget}
    {whole : Except ScanError (List KeyValue)} {limit : Nat}
    {paged : Option Bytes → Except ScanError (List KeyValue × Option Bytes)} (positive : 1 ≤ limit)
    (isWhole : whole = .ok (liveEntries collected.entries))
    (isPage : ∀ cursor : Option Bytes,
      (∀ key ∈ cursor, ∃ value, (key, value) ∈ liveEntries collected.entries) →
      ∃ part : ScanTarget, part.entries = behind cursor collected.entries ∧
        paged cursor = (checkSize true contextName part).map fun map =>
          page limit (liveEntries map.entries)) :
    Tiled contextName collected whole paged where
  whole := isWhole
  ascending := liveEntries_sorted collected
  tiles fits := by
    have reads (cursor : Option Bytes)
        (isKey : ∀ key ∈ cursor, ∃ value, (key, value) ∈ liveEntries collected.entries) :
        paged cursor = .ok (takePage limit (behind cursor (liveEntries collected.entries))) := by
      obtain ⟨part, entries, read⟩ := isPage cursor isKey
      have small : part.entries.length ≤ maxScanMergeAccumulator := by
        rw [entries]
        exact (length_behind_le cursor _).trans fits
      rw [read, checkSize_of_le small, ← liveEntries_behind, ← entries]
      rfl
    obtain ⟨pages, follows, flattened⟩ := exists_pages (liveEntries_sorted collected) positive reads
    exact ⟨pages, follows, flattened, fun others follow => follow.unique follows⟩
  refused large := by
    obtain ⟨part, entries, read⟩ := isPage none fun key impossible => by cases impossible
    have isLarge : maxScanMergeAccumulator < part.entries.length := by
      rw [entries]
      exact large
    rw [read, checkSize_of_lt isLarge]
    rfl

namespace LsmStorage

variable {storage : LsmStorage} {digest : Bytes → Bytes} {tables : List (List (List TableEntry))}

theorem entries_of_collects {whole part : Bytes → Prop} [DecidablePred whole] [DecidablePred part]
    {entry : Bytes → Option (Bytes × UInt64)} {collected onPage : ScanTarget}
    {cursor : Option Bytes} (collects : Collects whole entry collected)
    (collectsPage : Collects part entry onPage)
    (isPart : ∀ key, part key ↔ (∀ last ∈ cursor, last < key) ∧ whole key) :
    onPage.entries = behind cursor collected.entries := by
  apply entries_eq_behind
  · intro key isBehind
    rw [collectsPage key, collects key]
    exact if_congr ((isPart key).trans (and_iff_right isBehind)) rfl rfl
  · intro key notBehind
    rw [collectsPage key, if_neg fun isPartKey => notBehind ((isPart key).mp isPartKey).1]

theorem Sound.scanPrefix_tiled (sound : storage.Sound digest tables) (keyPrefix : Bytes)
    {limit : Nat} (positive : 1 ≤ limit) :
    ∃ collected,
      Collects (keyPrefix <+: ·) (storage.visibleEntry (tables.map List.flatten)) collected ∧
      Tiled "scan_prefix_bounded()" collected (storage.scanPrefix keyPrefix)
        (storage.scanPrefixBounded keyPrefix limit) := by
  have selectsAll : Selects (.byPrefix keyPrefix) (fun key raw _ =>
      decide (raw ≤ (UInt64.ofNat (2 ^ 64 - 1)).toNat) && decide (keyPrefix <+: key))
      (keyPrefix <+: ·) := by
    refine ⟨fun _ starts => starts, fun key version starts => ?_⟩
    have small : version.raw ≤ (UInt64.ofNat (2 ^ 64 - 1)).toNat :=
      (Nat.mod_lt _ (by decide)).le.trans (by decide)
    rw [decide_eq_true small, Bool.true_and, decide_eq_true_eq]
  obtain ⟨collected, free, _, collects⟩ := sound.collects selectsAll "scan_prefix_at()"
  refine ⟨collected, collects, tiled_of_collects positive ?_ ?_⟩
  · rw [scanPrefix, scanPrefixAt, free]
    rfl
  · intro cursor _
    have selectsPage : Selects (.byPrefix keyPrefix) (fun key _ _ =>
        cursor.all (fun last => decide (last < key)) && decide (keyPrefix <+: key))
        fun key => cursor.all (fun last => decide (last < key)) = true ∧ keyPrefix <+: key := by
      refine ⟨fun _ selected => selected.2, fun key version _ => ?_⟩
      rw [Bool.and_eq_true, decide_eq_true_eq]
    obtain ⟨part, _, guarded, collectsPart⟩ := sound.collects selectsPage "scan_prefix_bounded()"
    have isBehind : ∀ key, (cursor.all (fun last => decide (last < key)) = true ∧
        keyPrefix <+: key) ↔ (∀ last ∈ cursor, last < key) ∧ keyPrefix <+: key := by
      intro key
      simp only [Option.all_eq_true, decide_eq_true_eq, mem_def]
    have entries := entries_of_collects collects collectsPart isBehind
    refine ⟨part, entries, ?_⟩
    rw [scanPrefixBounded, guarded]
    rcases Nat.lt_or_ge maxScanMergeAccumulator part.entries.length with large | fits
    · rw [checkSize_of_lt large]
      rfl
    · have once : behind cursor part.entries = part.entries := by
        rw [entries, behind_behind]
      rw [checkSize_of_le fits]
      change Except.ok (page limit (liveEntries (behind cursor part.entries))) = _
      rw [once]
      rfl

theorem aboveStart_of_lt {start : Bound} {first key : Bytes} (above : start.AboveStart first)
    (less : first < key) : start.AboveStart key := by
  cases start with
  | included bound => exact le_trans (show bound ≤ first from above) less.le
  | excluded bound => exact lt_trans (show bound < first from above) less
  | unbounded => trivial

theorem selects_range (start stop : Bound) :
    Selects (.range start stop) (fun key _ _ => checkInRange start stop key)
      fun key => start.AboveStart key ∧ stop.BelowEnd key := by
  refine ⟨fun _ between => between, fun key version _ => ?_⟩
  rw [checkInRange, Bool.and_eq_true, decide_eq_true_eq, decide_eq_true_eq]

theorem Sound.scan_tiled (sound : storage.Sound digest tables) (start stop : Bound) {limit : Nat}
    (positive : 1 ≤ limit) :
    ∃ collected,
      Collects (fun key => start.AboveStart key ∧ stop.BelowEnd key)
        (storage.visibleEntry (tables.map List.flatten)) collected ∧
      Tiled "scan_bounded()" collected (storage.scan start stop none)
        (storage.scanBounded start stop limit) := by
  obtain ⟨collected, free, _, collects⟩ := sound.collects (selects_range start stop) "scan()"
  refine ⟨collected, collects, tiled_of_collects positive ?_ ?_⟩
  · rw [scan, free]
    rfl
  · intro cursor isKey
    obtain ⟨part, _, guarded, collectsPart⟩ := sound.collects
      (selects_range ((cursor.map Bound.excluded).getD start) stop) "scan_bounded()"
    refine ⟨part, entries_of_collects collects collectsPart ?_, ?_⟩
    · intro key
      cases cursor with
      | none => exact (and_iff_right fun last impossible => by cases impossible).symm
      | some last =>
        obtain ⟨value, isLive⟩ := isKey last rfl
        obtain ⟨seqNo, isEntry, _⟩ := mem_liveEntries.mp isLive
        -- a cursor is a key of the scan, so it is in the range itself
        have found := SortedMap.lookup_eq_some.mpr isEntry
        rw [collects last] at found
        have inRange : start.AboveStart last ∧ stop.BelowEnd last := by
          by_contra outside
          rw [if_neg outside] at found
          cases found
        constructor
        · rintro ⟨above, below⟩
          have less : last < key := above
          refine ⟨fun other same => ?_, aboveStart_of_lt inRange.1 less, below⟩
          rw [← some.inj same]
          exact less
        · exact fun both => ⟨both.1 last rfl, both.2.2⟩
    · rw [scanBounded, guarded]
      rfl

/-- The pages of both scans, for what fits the accumulator. -/
theorem scans_tiled (sound : storage.Sound digest tables) {limit : Nat} (positive : 1 ≤ limit) :
    (∀ keyPrefix, ∃ collected,
      Collects (keyPrefix <+: ·) (storage.visibleEntry (tables.map List.flatten)) collected ∧
      Tiled "scan_prefix_bounded()" collected (storage.scanPrefix keyPrefix)
        (storage.scanPrefixBounded keyPrefix limit)) ∧
    ∀ start stop, ∃ collected,
      Collects (fun key => start.AboveStart key ∧ stop.BelowEnd key)
        (storage.visibleEntry (tables.map List.flatten)) collected ∧
      Tiled "scan_bounded()" collected (storage.scan start stop none)
        (storage.scanBounded start stop limit) :=
  ⟨fun keyPrefix => sound.scanPrefix_tiled keyPrefix positive,
    fun start stop => sound.scan_tiled start stop positive⟩

/-- Two versions of a key in a memtable that is being flushed, one of them deleted since. -/
def shadowedStorage : LsmStorage where
  sstables := []
  immutableMemtables := [MemTable.new.performAll [.put [1] [7] 1 1, .put [2] [8] 2 1]]
  memtable := MemTable.new.performAll
    [.put [1] [] (0x8000000000000000 + 3) 2, .put [3] [9] 4 2]
  lastCommittedTx := 2

theorem scans_tiled_shadowed :
    (∀ keyPrefix, ∃ collected,
      Collects (keyPrefix <+: ·) (shadowedStorage.visibleEntry []) collected ∧
      Tiled "scan_prefix_bounded()" collected (shadowedStorage.scanPrefix keyPrefix)
        (shadowedStorage.scanPrefixBounded keyPrefix 1)) ∧
    ∀ start stop, ∃ collected,
      Collects (fun key => start.AboveStart key ∧ stop.BelowEnd key)
        (shadowedStorage.visibleEntry []) collected ∧
      Tiled "scan_bounded()" collected (shadowedStorage.scan start stop none)
        (shadowedStorage.scanBounded start stop 1) := by
  have sound : shadowedStorage.Sound id [] := by
    refine ⟨.nil, fun table isTable => ?_, _, rfl⟩
    exact ⟨_, mem_singleton.mp isTable⟩
  exact scans_tiled sound le_rfl

def putCall (row : TableEntry) : MemTableCall := .put row.key row.value row.seqNo row.txId

theorem liveRows_puts (rows : List TableEntry) : liveRows (rows.map putCall) = rows := by
  induction rows using reverseRecOn with
  | nil => rfl
  | append_singleton rows row ih =>
    rw [map_append, map_singleton, liveRows_concat, ih]
    rfl

variable {rows : List TableEntry}

theorem distinctRaws_puts (distinct : (rows.map fun row => rawSeq row.seqNo).Nodup) :
    DistinctRaws (rows.map putCall) := by
  have raws : (rows.map putCall).filterMap MemTableCall.raw =
      rows.map fun row => rawSeq row.seqNo := by
    rw [filterMap_map]
    exact congrFun filterMap_eq_map rows
  rw [DistinctRaws, raws]
  exact distinct

theorem mergedNewest_ne_none
    (distinct : (rows.map fun row => rawSeq row.seqNo).Nodup) {row : TableEntry} (isRow : row ∈ rows)
    {lastTx : UInt64} (committed : row.txId ≤ lastTx) (collected : Option (Bytes × UInt64)) :
    mergedNewest lastTx row.key collected (MemTable.new.performAll (rows.map putCall)) ≠ none := by
  obtain ⟨represents, distinctRows⟩ := represents_run (distinctRaws_puts distinct)
  rw [liveRows_puts] at represents distinctRows
  rw [mergedNewest, represents.scannedVersion_eq distinctRows]
  have isMatch : TableEntry.Matches row.key (.ofNat (2 ^ 64 - 1)) lastTx row = true := by
    have small : rawSeq row.seqNo ≤ rawSeq (.ofNat (2 ^ 64 - 1)) :=
      Nat.le_of_lt_succ (Nat.mod_lt _ (by decide))
    rw [TableEntry.Matches, decide_eq_true rfl, Bool.true_and, TableEntry.inSnapshot]
    exact decide_eq_true ⟨small, .inl committed⟩
  cases found : newestVersion rows row.key (.ofNat (2 ^ 64 - 1)) lastTx with
  | none =>
    have isCandidate := mem_filter.mpr ⟨isRow, isMatch⟩
    rw [argmax_eq_none.mp found] at isCandidate
    exact absurd isCandidate not_mem_nil
  | some newest =>
    cases collected with
    | none => exact some_ne_none _
    | some before => exact mergedValue_ne_none (some_ne_none _) _

/-- A store whose memtable holds rows of one transaction. -/
def storageOf (rows : List TableEntry) : LsmStorage :=
  ⟨[], [], MemTable.new.performAll (rows.map putCall), 1⟩

/-- The scan returns the whole store, and no page of it can be read. -/
structure Refuses (storage : LsmStorage) : Prop where
  sound : storage.Sound id []
  scans : ∃ entries, storage.scanPrefix [] = .ok entries
  noPages : ∀ limit, 1 ≤ limit → ∀ pages, ¬ Pages (storage.scanPrefixBounded [] limit) none pages

theorem refuses_of_many (distinct : (rows.map fun row => rawSeq row.seqNo).Nodup)
    (distinctKeys : (rows.map TableEntry.key).Nodup) (committed : ∀ row ∈ rows, row.txId ≤ 1)
    (many : maxScanMergeAccumulator < rows.length) : Refuses (storageOf rows) := by
  have sound : (storageOf rows).Sound id [] :=
    ⟨.nil, fun table impossible => absurd impossible not_mem_nil, rows.map putCall, rfl⟩
  have large {collected : ScanTarget}
      (collects : Collects ([] <+: ·) ((storageOf rows).visibleEntry []) collected) :
      maxScanMergeAccumulator < collected.entries.length := by
    have long : (rows.map TableEntry.key).length = rows.length := length_map _
    apply many.trans_le
    rw [← long]
    apply SortedMap.length_le_of_lookup collected distinctKeys
    intro key isKey
    obtain ⟨row, isRow, rfl⟩ := List.mem_map.mp isKey
    rw [collects row.key, if_pos nil_prefix]
    exact mergedNewest_ne_none distinct isRow (committed row isRow) none
  obtain ⟨collected, _, tiled⟩ := sound.scanPrefix_tiled [] le_rfl
  refine ⟨sound, ⟨_, tiled.whole⟩, fun limit positive pages follow => ?_⟩
  obtain ⟨others, collects, tiled⟩ := sound.scanPrefix_tiled [] positive
  have refused := tiled.refused (large collects)
  cases follow with
  | last read =>
    rw [refused] at read
    cases read
  | more read _ =>
    rw [refused] at read
    cases read

def numberRows (count : Nat) : List TableEntry :=
  (List.range count).map fun number => ⟨toLeBytes 4 number, [], .ofNat number, 1⟩

theorem numberRows_nodup {count : Nat} (small : count ≤ 256 ^ 4) :
    ((numberRows count).map fun row => rawSeq row.seqNo).Nodup ∧
      ((numberRows count).map TableEntry.key).Nodup := by
  rw [numberRows, List.map_map, List.map_map]
  constructor
  · apply List.Nodup.map_on _ nodup_range
    intro left isLeft right isRight same
    have leftSmall := mem_range.mp isLeft
    have rightSmall := mem_range.mp isRight
    simp only [Function.comp, rawSeq, tombstoneBit, UInt64.toNat_ofNat'] at same
    omega
  · apply List.Nodup.map_on _ nodup_range
    intro left isLeft right isRight same
    have leftSmall := (mem_range.mp isLeft).trans_le small
    have rightSmall := (mem_range.mp isRight).trans_le small
    have values := congrArg fromLeBytes same
    dsimp only [Function.comp] at values
    rwa [fromLeBytes_toLeBytes leftSmall, fromLeBytes_toLeBytes rightSmall] at values

theorem refuses_wide : Refuses (storageOf (numberRows 100001)) := by
  obtain ⟨distinct, distinctKeys⟩ := numberRows_nodup (show 100001 ≤ 256 ^ 4 by decide)
  apply refuses_of_many distinct distinctKeys
  · intro row isRow
    obtain ⟨number, _, rfl⟩ := List.mem_map.mp isRow
    exact UInt64.le_refl 1
  · rw [numberRows, length_map, length_range]
    exact Nat.lt_succ_self _

end LsmStorage

end Contextra.Store
