import Contextra.Store.MemTableScans

/-!
# A memtable as one map

After any sequence of calls the memtable holds the versions that were put and not rolled back, and
its reads and scans return the newest of them, as if there were no shards.
-/

namespace Contextra.Store

open Library List Option Function
open scoped Library.ByteOrder

def shardRows (entries : MemTableMap) : List TableEntry :=
  entries.entries.flatMap fun entry => entry.2.map (MemTableEntry.row entry.1)

theorem shardRows_split (entries : MemTableMap) (key : Bytes) :
    (shardRows entries).Perm (((entries.lookup key).getD []).map (MemTableEntry.row key) ++
      (entries.others key).flatMap fun entry => entry.2.map (MemTableEntry.row entry.1)) := by
  cases found : entries.lookup key with
  | none =>
    rw [SortedMap.others_of_absent found]
    exact .rfl
  | some versions => exact (SortedMap.perm_of_lookup found).flatMap_right _

theorem shardRows_insert {entries : MemTableMap} {key : Bytes} {version : MemTableEntry}
    {versions : List MemTableEntry}
    (added : versions.Perm (version :: (entries.lookup key).getD [])) :
    (shardRows (entries.insert key versions)).Perm (version.row key :: shardRows entries) := by
  have after := (entries.insert_perm key versions).flatMap_right fun entry =>
    entry.2.map (MemTableEntry.row entry.1)
  have before := (shardRows_split entries key).cons (version.row key)
  apply after.trans
  apply List.Perm.trans _ before.symm
  rw [flatMap_cons]
  exact (added.map (MemTableEntry.row key)).append_right _

theorem shardRows_retain (entries : MemTableMap) (txId : UInt64) :
    shardRows (entries.retain (MemTable.retained txId)) =
      (shardRows entries).filter fun row => row.txId ≠ txId := by
  have retained : (entries.retain (MemTable.retained txId)).entries =
      entries.entries.filterMap fun entry =>
        (MemTable.retained txId entry.1 entry.2).map (entry.1, ·) := rfl
  rw [shardRows, shardRows, retained, filter_flatMap]
  clear retained
  induction entries.entries with
  | nil => rfl
  | cons entry rest ih =>
    have kept : (entry.2.map (MemTableEntry.row entry.1)).filter (fun row => row.txId ≠ txId) =
        (entry.2.filter fun version => version.txId ≠ txId).map (MemTableEntry.row entry.1) :=
      List.filter_map
    rw [filterMap_cons, flatMap_cons, kept, ← ih, MemTable.retained]
    cases entry.2.filter fun version => decide (version.txId ≠ txId) with
    | nil => rfl
    | cons first others => rfl

theorem allVersions_eq (table : MemTable) :
    table.allVersions = allShards.flatMap fun index => shardRows (table.shards index) := rfl

theorem flatMap_update {shards : Fin shardCount → MemTableMap} {index : Fin shardCount}
    {entries : MemTableMap} {row : TableEntry}
    (added : (shardRows entries).Perm (row :: shardRows (shards index))) :
    (allShards.flatMap fun other => shardRows (Function.update shards index entries other)).Perm
      (row :: allShards.flatMap fun other => shardRows (shards other)) := by
  have split := perm_cons_erase (mem_allShards index)
  have others : (allShards.erase index).flatMap
      (fun other => shardRows (Function.update shards index entries other)) =
        (allShards.erase index).flatMap fun other => shardRows (shards other) := by
    apply flatMap_congr
    intro other isOther
    rw [update_of_ne (MemTable.nodup_allShards.mem_erase_iff.mp isOther).1]
  have after := split.flatMap_right fun other =>
    shardRows (Function.update shards index entries other)
  have before := (split.flatMap_right fun other => shardRows (shards other)).cons row
  rw [flatMap_cons, update_self, others] at after
  rw [flatMap_cons] at before
  apply after.trans
  apply List.Perm.trans _ before.symm
  exact added.append_right _

def liveRows (calls : List MemTableCall) : List TableEntry :=
  calls.foldl
    (fun rows call =>
      match call with
      | .put key value seqNo txId => rows ++ [⟨key, value, seqNo, txId⟩]
      | .rollback txId => rows.filter fun row => row.txId ≠ txId) []

/-- The raw sequence number of a put. -/
def MemTableCall.raw : MemTableCall → Option Nat
  | .put _ _ seqNo _ => some (rawSeq seqNo)
  | .rollback _ => none

def DistinctRaws (calls : List MemTableCall) : Prop := (calls.filterMap MemTableCall.raw).Nodup

instance (calls : List MemTableCall) : Decidable (DistinctRaws calls) :=
  inferInstanceAs (Decidable (List.Nodup _))

/-- The smallest and the largest transaction of rows, `(u64::MAX, 0)` when there are none. -/
structure SpansTx (rows : List TableEntry) (range : UInt64 × UInt64) : Prop where
  ofEmpty : rows = [] → range = (.ofNat (2 ^ 64 - 1), 0)
  lower : ∀ row ∈ rows, range.1 ≤ row.txId
  upper : ∀ row ∈ rows, row.txId ≤ range.2
  lowest : rows ≠ [] → ∃ row ∈ rows, row.txId = range.1
  highest : rows ≠ [] → ∃ row ∈ rows, row.txId = range.2

theorem SpansTx.congr {rows others : List TableEntry} {range : UInt64 × UInt64}
    (perm : rows.Perm others) (spans : SpansTx rows range) : SpansTx others range where
  ofEmpty isEmpty := spans.ofEmpty (perm_nil.mp (isEmpty ▸ perm))
  lower row isRow := spans.lower row (perm.mem_iff.mpr isRow)
  upper row isRow := spans.upper row (perm.mem_iff.mpr isRow)
  lowest nonempty := by
    obtain ⟨row, isRow, isLowest⟩ := spans.lowest fun isEmpty =>
      nonempty (nil_perm.mp (isEmpty ▸ perm))
    exact ⟨row, perm.mem_iff.mp isRow, isLowest⟩
  highest nonempty := by
    obtain ⟨row, isRow, isHighest⟩ := spans.highest fun isEmpty =>
      nonempty (nil_perm.mp (isEmpty ▸ perm))
    exact ⟨row, perm.mem_iff.mp isRow, isHighest⟩

theorem SpansTx.put {rows : List TableEntry} {minTx maxTx : UInt64} (spans : SpansTx rows (minTx, maxTx))
    (row : TableEntry) :
    SpansTx (row :: rows) (if minTx ≤ row.txId then minTx else row.txId,
      if row.txId ≤ maxTx then maxTx else row.txId) where
  ofEmpty impossible := by cases impossible
  lower other isOther := by
    dsimp only
    rcases mem_cons.mp isOther with rfl | before
    · split
      · assumption
      · exact UInt64.le_refl _
    · have isLower := spans.lower other before
      split
      · exact isLower
      · rename_i above
        exact UInt64.le_trans (UInt64.le_of_lt (UInt64.not_le.mp above)) isLower
  upper other isOther := by
    dsimp only
    rcases mem_cons.mp isOther with rfl | before
    · split
      · assumption
      · exact UInt64.le_refl _
    · have isUpper := spans.upper other before
      split
      · exact isUpper
      · rename_i below
        exact UInt64.le_trans isUpper (UInt64.le_of_lt (UInt64.not_le.mp below))
  lowest _ := by
    dsimp only
    split
    · rename_i above
      by_cases isEmpty : rows = []
      · -- the range of no rows has the greatest number below
        have isMax : minTx = .ofNat (2 ^ 64 - 1) := congrArg Prod.fst (spans.ofEmpty isEmpty)
        refine ⟨row, mem_cons_self, UInt64.le_antisymm ?_ above⟩
        rw [isMax]
        exact UInt64.le_iff_toNat_le.mpr (Nat.le_of_lt_succ row.txId.toNat_lt)
      · obtain ⟨other, isOther, isLowest⟩ := spans.lowest isEmpty
        exact ⟨other, mem_cons_of_mem row isOther, isLowest⟩
    · exact ⟨row, mem_cons_self, rfl⟩
  highest _ := by
    dsimp only
    split
    · rename_i below
      by_cases isEmpty : rows = []
      · have isZero : maxTx = 0 := congrArg Prod.snd (spans.ofEmpty isEmpty)
        refine ⟨row, mem_cons_self, UInt64.le_antisymm below ?_⟩
        rw [isZero]
        exact UInt64.zero_le
      · obtain ⟨other, isOther, isHighest⟩ := spans.highest isEmpty
        exact ⟨other, mem_cons_of_mem row isOther, isHighest⟩
    · exact ⟨row, mem_cons_self, rfl⟩

theorem spansTx_fold (rows : List TableEntry) :
    SpansTx rows ((rows.map TableEntry.txId).foldl min (.ofNat (2 ^ 64 - 1)),
      (rows.map TableEntry.txId).foldl max 0) := by
  induction rows using reverseRecOn with
  | nil => exact ⟨fun _ => rfl, fun _ impossible => absurd impossible not_mem_nil,
      fun _ impossible => absurd impossible not_mem_nil, fun nonempty => absurd rfl nonempty,
      fun nonempty => absurd rfl nonempty⟩
  | append_singleton rows row ih =>
    have spans := (ih.put row).congr (perm_append_singleton row rows).symm
    rw [map_append, foldl_append, foldl_append]
    have greater (first second : UInt64) :
        max first second = if second ≤ first then first else second := by
      change (if first ≤ second then second else first) = _
      by_cases above : first ≤ second
      · rw [if_pos above]
        split
        · rename_i below
          exact UInt64.le_antisymm below above
        · rfl
      · rw [if_neg above, if_pos (UInt64.le_of_lt (UInt64.not_le.mp above))]
    rw [map_singleton, foldl_cons, foldl_nil, foldl_cons, foldl_nil,
      greater]
    exact spans

structure Represents (table : MemTable) (rows : List TableEntry) : Prop where
  placed : table.Placed
  ascending : ∀ index, ∀ entry ∈ (table.shards index).entries, Ascending entry.2
  perm : table.allVersions.Perm rows
  size : table.size = (rows.map entrySize).sum
  spans : SpansTx rows table.txRange

theorem represents_new : Represents .new [] where
  placed _ _ impossible := absurd impossible not_mem_nil
  ascending _ _ impossible := absurd impossible not_mem_nil
  perm := by
    have none (shards : List (Fin shardCount)) :
        (shards.flatMap fun index => shardRows (MemTable.new.shards index)) = [] :=
      flatMap_eq_nil_iff.mpr fun _ _ => rfl
    rw [allVersions_eq, none]
  size := rfl
  spans := spansTx_fold []

namespace Represents

variable {table : MemTable} {rows : List TableEntry}

theorem row_mem (represents : Represents table rows) {index : Fin shardCount} {key : Bytes}
    {versions : List MemTableEntry} (isEntry : (key, versions) ∈ (table.shards index).entries)
    {version : MemTableEntry} (isVersion : version ∈ versions) : version.row key ∈ rows := by
  apply represents.perm.mem_iff.mp
  apply mem_flatMap.mpr ⟨index, mem_allShards index, _⟩
  exact mem_flatMap.mpr ⟨_, isEntry, List.mem_map_of_mem isVersion⟩

theorem mem_versionsOf (represents : Represents table rows) {key : Bytes} {row : TableEntry} :
    (∃ version ∈ table.versionsOf key, version.row key = row) ↔ row ∈ rows ∧ row.key = key := by
  constructor
  · rintro ⟨version, isVersion, rfl⟩
    rw [MemTable.versionsOf] at isVersion
    cases found : (table.shards (shardFor key)).lookup key with
    | none =>
      rw [found] at isVersion
      exact absurd isVersion not_mem_nil
    | some versions =>
      rw [found] at isVersion
      exact ⟨represents.row_mem (SortedMap.lookup_eq_some.mp found) isVersion, rfl⟩
  · rintro ⟨isRow, rfl⟩
    obtain ⟨index, _, inShard⟩ := mem_flatMap.mp (represents.perm.mem_iff.mpr isRow)
    obtain ⟨⟨key, versions⟩, isEntry, isMapped⟩ := mem_flatMap.mp inShard
    obtain ⟨version, isVersion, rfl⟩ := List.mem_map.mp isMapped
    refine ⟨version, ?_, rfl⟩
    have isHere := represents.placed index _ isEntry
    have found : (table.shards (shardFor key)).lookup key = some versions := by
      rw [isHere]
      exact SortedMap.lookup_eq_some.mpr isEntry
    have sameKey : (MemTableEntry.row key version).key = key := rfl
    rw [sameKey, MemTable.versionsOf, found]
    exact isVersion

theorem versionsOf_ascending (represents : Represents table rows) (key : Bytes) :
    Ascending (table.versionsOf key) := by
  rw [MemTable.versionsOf]
  cases found : (table.shards (shardFor key)).lookup key with
  | none => exact List.Pairwise.nil
  | some versions =>
    exact represents.ascending _ (key, versions) (SortedMap.lookup_eq_some.mp found)

theorem mem_shards_put {key value : Bytes} {seqNo txId : UInt64} {index : Fin shardCount}
    {entry : Bytes × List MemTableEntry}
    (isEntry : entry ∈ ((table.put key value seqNo txId).shards index).entries) :
    (index = shardFor key ∧
        entry = (key, insertVersion (table.versionsOf key) ⟨seqNo, value, txId⟩)) ∨
      entry ∈ (table.shards index).entries := by
  have shards : (table.put key value seqNo txId).shards =
      Function.update table.shards (shardFor key) ((table.shards (shardFor key)).insert key
        (insertVersion (table.versionsOf key) ⟨seqNo, value, txId⟩)) := rfl
  rw [shards] at isEntry
  by_cases same : index = shardFor key
  · rw [same, update_self] at isEntry
    rcases SortedMap.mem_insert.mp isEntry with isNew | ⟨before, _⟩
    · exact Or.inl ⟨same, isNew⟩
    · exact Or.inr (same ▸ before)
  · rw [update_of_ne same] at isEntry
    exact Or.inr isEntry

theorem placed_put (placed : table.Placed) (key value : Bytes) (seqNo txId : UInt64) :
    (table.put key value seqNo txId).Placed := by
  intro index entry isEntry
  rcases mem_shards_put isEntry with ⟨same, rfl⟩ | before
  · exact same.symm
  · exact placed index entry before

theorem placed_rollback (placed : table.Placed) (txId : UInt64) :
    (table.rollback txId).Placed := by
  intro index entry isEntry
  obtain ⟨before, isBefore, _⟩ := SortedMap.mem_retain.mp isEntry
  exact placed index (entry.1, before) isBefore

theorem put (represents : Represents table rows) {row : TableEntry}
    (isNew : ∀ other ∈ rows, rawSeq other.seqNo ≠ rawSeq row.seqNo) :
    Represents (table.put row.key row.value row.seqNo row.txId) (rows ++ [row]) := by
  obtain ⟨ascending, added⟩ :=
    insertVersion_spec (represents.versionsOf_ascending row.key) fun other isOther =>
      show other.raw ≠ MemTableEntry.raw ⟨row.seqNo, row.value, row.txId⟩ from
        isNew _ (represents.mem_versionsOf.mp ⟨other, isOther, rfl⟩).1
  have perm : (row :: rows).Perm (rows ++ [row]) := (perm_append_singleton row rows).symm
  constructor
  · exact placed_put represents.placed _ _ _ _
  · intro index entry isEntry
    rcases mem_shards_put isEntry with ⟨_, rfl⟩ | before
    · exact ascending
    · exact represents.ascending index entry before
  · have grown := flatMap_update (shardRows_insert added)
    exact (grown.trans (represents.perm.cons row)).trans perm
  · have sum := (perm.map entrySize).sum_nat
    rw [map_cons, sum_cons, ← represents.size] at sum
    exact (Nat.add_comm _ _).trans sum
  · exact (represents.spans.put row).congr perm

theorem sum_entrySize_filter (rows : List TableEntry) (txId : UInt64) :
    (rows.map entrySize).sum =
      ((rows.filter fun row => row.txId = txId).map entrySize).sum +
        ((rows.filter fun row => row.txId ≠ txId).map entrySize).sum := by
  have others : rows.filter (fun row => decide (row.txId ≠ txId)) =
      rows.filter fun row => !decide (row.txId = txId) :=
    filter_congr fun row _ => decide_not
  have parts := filter_append_perm (fun row => decide (row.txId = txId)) rows
  have sum := (parts.map entrySize).sum_nat
  rw [map_append, sum_append_nat] at sum
  rw [others]
  exact sum.symm

theorem rollback (represents : Represents table rows) (txId : UInt64) :
    Represents (table.rollback txId) (rows.filter fun row => row.txId ≠ txId) := by
  have stays := represents.perm.filter fun row => decide (row.txId ≠ txId)
  have after : (table.rollback txId).allVersions =
      table.allVersions.filter fun row => row.txId ≠ txId := by
    rw [allVersions_eq, allVersions_eq, filter_flatMap]
    apply flatMap_congr
    intro index _
    exact shardRows_retain (table.shards index) txId
  constructor
  · exact placed_rollback represents.placed txId
  · intro index entry isEntry
    obtain ⟨before, isBefore, kept⟩ := SortedMap.mem_retain.mp isEntry
    rw [MemTable.retained] at kept
    split at kept
    · cases kept
    · rw [← some.inj kept]
      exact List.Pairwise.filter _ (represents.ascending index _ isBefore)
  · rw [after]
    exact stays
  · have whole := (represents.perm.map entrySize).sum_nat
    have split := sum_entrySize_filter table.allVersions txId
    have left := (stays.map entrySize).sum_nat
    rw [whole, ← represents.size] at split
    rw [← left, MemTable.rollback]
    dsimp only
    split <;> omega
  · have spans := (spansTx_fold (table.allVersions.filter fun row => row.txId ≠ txId)).congr stays
    rw [MemTable.txRange, MemTable.rollback]
    dsimp only
    by_cases isEmpty : table.allVersions.filter (fun row => decide (row.txId ≠ txId)) = []
    · rw [isEmpty] at spans ⊢
      exact spans
    · have nonempty : ((table.allVersions.filter fun row => decide (row.txId ≠ txId)).map
          TableEntry.txId).isEmpty = false := by
        rw [isEmpty_map, isEmpty_eq_false_iff]
        exact isEmpty
      rw [nonempty]
      exact spans

end Represents

theorem placed_performAll (calls : List MemTableCall) :
    (MemTable.new.performAll calls).Placed := by
  induction calls using reverseRecOn with
  | nil => exact represents_new.placed
  | append_singleton calls call ih =>
    rw [MemTable.performAll, foldl_append]
    cases call with
    | put key value seqNo txId => exact Represents.placed_put ih _ _ _ _
    | rollback txId => exact Represents.placed_rollback ih txId

theorem liveRows_concat (calls : List MemTableCall) (call : MemTableCall) :
    liveRows (calls ++ [call]) =
      match call with
      | .put key value seqNo txId => liveRows calls ++ [⟨key, value, seqNo, txId⟩]
      | .rollback txId => (liveRows calls).filter fun row => row.txId ≠ txId := by
  rw [liveRows, foldl_append]
  rfl

theorem raw_mem_of_live {calls : List MemTableCall} {row : TableEntry}
    (isLive : row ∈ liveRows calls) : rawSeq row.seqNo ∈ calls.filterMap MemTableCall.raw := by
  induction calls using reverseRecOn with
  | nil => exact absurd isLive not_mem_nil
  | append_singleton calls call ih =>
    rw [liveRows_concat] at isLive
    rw [filterMap_append, mem_append]
    cases call with
    | put key value seqNo txId =>
      rcases mem_append.mp isLive with before | isNew
      · exact Or.inl (ih before)
      · cases mem_singleton.mp isNew
        exact Or.inr mem_cons_self
    | rollback txId => exact Or.inl (ih (mem_filter.mp isLive).1)

theorem represents_run {calls : List MemTableCall} (distinct : DistinctRaws calls) :
    Represents (MemTable.new.performAll calls) (liveRows calls) ∧
      ((liveRows calls).map fun row => rawSeq row.seqNo).Nodup := by
  induction calls using reverseRecOn with
  | nil => exact ⟨represents_new, nodup_nil⟩
  | append_singleton calls call ih =>
    have performed : MemTable.new.performAll (calls ++ [call]) =
        (MemTable.new.performAll calls).perform call := foldl_append
    rw [DistinctRaws, filterMap_append] at distinct
    obtain ⟨distinctBefore, _, apart⟩ := nodup_append.mp distinct
    obtain ⟨represents, distinctRows⟩ := ih distinctBefore
    rw [performed, liveRows_concat]
    cases call with
    | put key value seqNo txId =>
      have isNew : ∀ other ∈ liveRows calls, rawSeq other.seqNo ≠ rawSeq seqNo :=
        fun other isOther => apart _ (raw_mem_of_live isOther) _ mem_cons_self
      let row : TableEntry := ⟨key, value, seqNo, txId⟩
      have added : Represents _ (liveRows calls ++ [row]) := represents.put isNew
      refine ⟨added, ?_⟩
      rw [map_append]
      refine nodup_append.mpr ⟨distinctRows, nodup_singleton _, ?_⟩
      intro raw isRaw new isLast
      obtain ⟨other, isOther, rfl⟩ := List.mem_map.mp isRaw
      rw [mem_singleton.mp isLast]
      exact isNew other isOther
    | rollback txId =>
      refine ⟨represents.rollback txId, ?_⟩
      exact distinctRows.sublist (filter_sublist.map _)

def TableEntry.version (row : TableEntry) : MemTableEntry := ⟨row.seqNo, row.value, row.txId⟩

/-- What reads and scans return, and what the counters say, is what the rows give. -/
structure Unsharded (table : MemTable) (rows : List TableEntry) : Prop where
  getAtSeq : ∀ key seqNo maxTx, table.getAtSeq key seqNo maxTx =
    (newestVersion rows key seqNo maxTx).map fun row => (row.value, row.seqNo, row.txId)
  scanPrefixInto : ∀ seqNo maxTx target keyPrefix key,
    (table.scanPrefixInto seqNo maxTx target keyPrefix).lookup key =
      if keyPrefix <+: key then
        mergedValue (target.lookup key)
          ((newestVersion rows key seqNo maxTx).map TableEntry.version)
      else target.lookup key
  scanRangeInto : ∀ seqNo maxTx target start stop, ∃ result,
    table.scanRangeInto seqNo maxTx target start stop = some result ∧
      ∀ key, result.lookup key =
        if start.AboveStart key ∧ stop.BelowEnd key then
          mergedValue (target.lookup key)
            ((newestVersion rows key seqNo maxTx).map TableEntry.version)
        else target.lookup key
  size : table.size = (rows.map entrySize).sum
  txRange : SpansTx rows table.txRange

theorem matches_row {key : Bytes} {version : MemTableEntry} {seqNo maxTx : UInt64} :
    TableEntry.Matches key seqNo maxTx (version.row key) =
      (decide (version.raw ≤ rawSeq seqNo) && version.seenBy maxTx) := by
  have sameKey : decide ((version.row key).key = key) = true := decide_eq_true rfl
  rw [TableEntry.Matches, sameKey, Bool.true_and, TableEntry.inSnapshot, MemTableEntry.seenBy,
    ← Bool.decide_and]
  rfl

namespace Represents

variable {table : MemTable} {rows : List TableEntry}

theorem newestVersion_eq (represents : Represents table rows)
    (distinct : (rows.map fun row => rawSeq row.seqNo).Nodup) {key : Bytes} {seqNo maxTx : UInt64}
    {best : Option MemTableEntry}
    (isBest : IsBest (fun version => decide (version.raw ≤ rawSeq seqNo) && version.seenBy maxTx)
      (table.versionsOf key) best) :
    newestVersion rows key seqNo maxTx = best.map (MemTableEntry.row key) := by
  have version_of {row : TableEntry} (isRow : row ∈ rows)
      (isMatch : TableEntry.Matches key seqNo maxTx row = true) :
      ∃ version ∈ table.versionsOf key, version.row key = row := by
    apply represents.mem_versionsOf.mpr
    rw [TableEntry.Matches, Bool.and_eq_true, decide_eq_true_eq] at isMatch
    exact ⟨isRow, isMatch.1⟩
  cases best with
  | none =>
    apply argmax_eq_none.mpr
    apply filter_eq_nil_iff.mpr
    intro row isRow isMatch
    obtain ⟨version, isVersion, rfl⟩ := version_of isRow isMatch
    have unmatched : (decide (version.raw ≤ rawSeq seqNo) && version.seenBy maxTx) = false :=
      isBest version isVersion
    rw [matches_row, unmatched] at isMatch
    cases isMatch
  | some best =>
    obtain ⟨isVersion, isMatch, newest⟩ := isBest
    have isRow := (represents.mem_versionsOf.mp ⟨best, isVersion, rfl⟩).1
    have isCandidate : best.row key ∈ rows.filter (TableEntry.Matches key seqNo maxTx) :=
      mem_filter.mpr ⟨isRow, matches_row.trans isMatch⟩
    cases found : newestVersion rows key seqNo maxTx with
    | none =>
      rw [argmax_eq_none.mp found] at isCandidate
      exact absurd isCandidate not_mem_nil
    | some row =>
      have isArgmax : row ∈ List.argmax (fun entry : TableEntry => rawSeq entry.seqNo)
          (rows.filter (TableEntry.Matches key seqNo maxTx)) := found
      have isFound := mem_filter.mp (argmax_mem isArgmax)
      have above := le_of_mem_argmax isCandidate isArgmax
      obtain ⟨version, isOther, rfl⟩ := version_of isFound.1 isFound.2
      have below := newest version isOther (matches_row.symm.trans isFound.2)
      have same : MemTableEntry.row key version = MemTableEntry.row key best :=
        inj_on_of_nodup_map distinct isFound.1 isRow (Nat.le_antisymm below above)
      rw [same]
      rfl

theorem scannedVersion_eq (represents : Represents table rows)
    (distinct : (rows.map fun row => rawSeq row.seqNo).Nodup) (key : Bytes)
    (seqNo maxTx : UInt64) :
    scannedVersion seqNo maxTx (fun _ _ _ => true) key (table.versionsOf key) =
      (newestVersion rows key seqNo maxTx).map TableEntry.version := by
  have matching : matchingVersion seqNo maxTx (fun _ _ _ => true) key =
      fun version => decide (version.raw ≤ rawSeq seqNo) && version.seenBy maxTx := by
    funext version
    rw [matchingVersion, Bool.and_true]
  have isBest := bestVersion_isBest
    (fun version => decide (version.raw ≤ rawSeq seqNo) && version.seenBy maxTx)
    (table.versionsOf key)
  rw [represents.newestVersion_eq distinct isBest, scannedVersion, matching, Option.map_map]
  exact Option.map_id'.symm

theorem unsharded (represents : Represents table rows)
    (distinct : (rows.map fun row => rawSeq row.seqNo).Nodup) : Unsharded table rows where
  getAtSeq := by
    intro key seqNo maxTx
    have isBest := findVisible_isBest (represents.versionsOf_ascending key) (rawSeq seqNo) maxTx
    rw [represents.newestVersion_eq distinct isBest, MemTable.getAtSeq, MemTable.versionsOf,
      Option.map_map]
    cases (table.shards (shardFor key)).lookup key with
    | none =>
      have nothing : findVisible [] (rawSeq seqNo) maxTx = none := by
        rw [findVisible, take_nil]
        rfl
      rw [getD_none, nothing]
      rfl
    | some versions => rfl
  scanPrefixInto := by
    intro seqNo maxTx target keyPrefix key
    rw [MemTable.scanPrefixInto, represents.placed.lookup_scanPrefix,
      represents.scannedVersion_eq distinct]
  scanRangeInto := by
    intro seqNo maxTx target start stop
    obtain ⟨result, scanned, lookups⟩ :=
      represents.placed.lookup_scanRange seqNo maxTx (fun _ _ _ => true) target start stop
    refine ⟨result, scanned, fun key => ?_⟩
    rw [lookups key, represents.scannedVersion_eq distinct]
  size := represents.size
  txRange := represents.spans

end Represents

/-- After any calls whose puts have different raw sequence numbers the shards cannot be seen. -/
theorem performAll_unsharded {calls : List MemTableCall} (distinct : DistinctRaws calls) :
    Unsharded (MemTable.new.performAll calls) (liveRows calls) := by
  obtain ⟨represents, distinctRows⟩ := represents_run distinct
  exact represents.unsharded distinctRows

/-- Versions out of order, a tombstone, a reserved key and a rollback. -/
theorem performAll_unsharded_mixed :
    Unsharded (MemTable.new.performAll
        [.put [1, 2] [7] 9 3, .put [1, 2] [8] 4 2, .put (ascii "__meta:a") [5] 11 6, .rollback 3,
          .put [1, 2] [] (0x8000000000000000 + 10) 5])
      (liveRows [.put [1, 2] [7] 9 3, .put [1, 2] [8] 4 2, .put (ascii "__meta:a") [5] 11 6,
        .rollback 3, .put [1, 2] [] (0x8000000000000000 + 10) 5]) :=
  performAll_unsharded (by decide +kernel)

end Contextra.Store
