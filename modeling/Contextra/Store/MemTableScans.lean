import Contextra.Store.MemTableRouting
import Contextra.Store.MemTableVersions
import Contextra.Store.SstableLookups

/-!
# Scans of the memtable

A scan visits every key that it covers once, whatever its shard, and merges the newest matching
version of the key into what has been collected.
-/

namespace Contextra.Store

open Library List
open scoped Library.ByteOrder

/-- What a scan makes of the collected entry of a key. -/
def mergedValue (collected : Option (Bytes × UInt64)) :
    Option MemTableEntry → Option (Bytes × UInt64)
  | none => collected
  | some version =>
    match collected with
    | none => some (version.value, version.seqNo)
    | some (value, seqNo) =>
      if rawSeq seqNo < version.raw then some (version.value, version.seqNo)
      else some (value, seqNo)

theorem lookup_mergeInto_self (target : ScanTarget) (key : Bytes) (version : MemTableEntry) :
    (mergeInto target key version).lookup key = mergedValue (target.lookup key) (some version) := by
  rw [mergeInto]
  cases collected : target.lookup key with
  | none => exact SortedMap.lookup_insert_self _ _
  | some entry =>
    obtain ⟨value, seqNo⟩ := entry
    have merged : mergedValue (some (value, seqNo)) (some version) =
        if rawSeq seqNo < version.raw then some (version.value, version.seqNo)
        else some (value, seqNo) := rfl
    rw [merged]
    dsimp only
    split
    · exact SortedMap.lookup_insert_self _ _
    · exact collected

theorem lookup_mergeInto_ne (target : ScanTarget) {key other : Bytes} (different : other ≠ key)
    (version : MemTableEntry) :
    (mergeInto target key version).lookup other = target.lookup other := by
  rw [mergeInto]
  split
  · exact SortedMap.lookup_insert_ne different _
  · split
    · exact SortedMap.lookup_insert_ne different _
    · rfl

variable (seqNo maxTx : UInt64) (predicate : ScanPredicate)

def scannedVersion (key : Bytes) (versions : List MemTableEntry) : Option MemTableEntry :=
  bestVersion versions (matchingVersion seqNo maxTx predicate key)

theorem lookup_mergeKey_self (target : ScanTarget) (key : Bytes) (versions : List MemTableEntry) :
    (mergeKey seqNo maxTx predicate target (key, versions)).lookup key =
      mergedValue (target.lookup key) (scannedVersion seqNo maxTx predicate key versions) := by
  rw [mergeKey, scannedVersion]
  cases bestVersion versions (matchingVersion seqNo maxTx predicate key) with
  | none => rfl
  | some version => exact lookup_mergeInto_self target key version

theorem lookup_mergeKey_ne (target : ScanTarget) {entry : Bytes × List MemTableEntry}
    {other : Bytes} (different : other ≠ entry.1) :
    (mergeKey seqNo maxTx predicate target entry).lookup other = target.lookup other := by
  rw [mergeKey]
  split
  · exact lookup_mergeInto_ne target different _
  · rfl

theorem lookup_foldl_of_absent {entries : List (Bytes × List MemTableEntry)} {key : Bytes}
    (absent : key ∉ entries.map Prod.fst) (target : ScanTarget) :
    (entries.foldl (mergeKey seqNo maxTx predicate) target).lookup key = target.lookup key := by
  induction entries generalizing target with
  | nil => rfl
  | cons entry entries ih =>
    rw [map_cons, mem_cons, not_or] at absent
    rw [foldl_cons, ih absent.2, lookup_mergeKey_ne _ _ _ _ absent.1]

theorem lookup_foldl_of_mem {entries : List (Bytes × List MemTableEntry)}
    (distinct : (entries.map Prod.fst).Nodup) {key : Bytes} {versions : List MemTableEntry}
    (isEntry : (key, versions) ∈ entries) (target : ScanTarget) :
    (entries.foldl (mergeKey seqNo maxTx predicate) target).lookup key =
      mergedValue (target.lookup key) (scannedVersion seqNo maxTx predicate key versions) := by
  induction entries generalizing target with
  | nil => exact absurd isEntry not_mem_nil
  | cons entry entries ih =>
    obtain ⟨isNew, distinctRest⟩ := nodup_cons.mp distinct
    rw [foldl_cons]
    rcases mem_cons.mp isEntry with rfl | isRest
    · rw [lookup_foldl_of_absent _ _ _ isNew, lookup_mergeKey_self]
    · have different : key ≠ entry.1 := by
        intro same
        rw [← same] at isNew
        exact isNew (mem_map.mpr ⟨_, isRest, rfl⟩)
      rw [ih distinctRest isRest, lookup_mergeKey_ne _ _ _ _ different]

namespace MemTable

variable {table : MemTable}

def Placed (table : MemTable) : Prop :=
  ∀ index, ∀ entry ∈ (table.shards index).entries, shardFor entry.1 = index

def versionsOf (table : MemTable) (key : Bytes) : List MemTableEntry :=
  ((table.shards (shardFor key)).lookup key).getD []

/-- The entries of the shards that a scan visits, and of them the covered ones. -/
structure Visits (table : MemTable) (covers : Bytes → Prop)
    (entries : List (Bytes × List MemTableEntry)) : Prop where
  distinct : (entries.map Prod.fst).Nodup
  mem : ∀ key versions, (key, versions) ∈ entries ↔
    covers key ∧ (table.shards (shardFor key)).lookup key = some versions

theorem Visits.lookup_foldl {covers : Bytes → Prop} [DecidablePred covers]
    {entries : List (Bytes × List MemTableEntry)} (visits : Visits table covers entries)
    (target : ScanTarget) (key : Bytes) :
    (entries.foldl (mergeKey seqNo maxTx predicate) target).lookup key =
      if covers key then
        mergedValue (target.lookup key) (scannedVersion seqNo maxTx predicate key (table.versionsOf key))
      else target.lookup key := by
  rw [versionsOf]
  cases found : (table.shards (shardFor key)).lookup key with
  | none =>
    have absent : key ∉ entries.map Prod.fst := by
      intro isKey
      obtain ⟨entry, isEntry, rfl⟩ := mem_map.mp isKey
      have isFound := ((visits.mem entry.1 entry.2).mp isEntry).2
      rw [found] at isFound
      cases isFound
    rw [lookup_foldl_of_absent _ _ _ absent]
    split <;> rfl
  | some versions =>
    by_cases covered : covers key
    · rw [if_pos covered]
      exact lookup_foldl_of_mem _ _ _ visits.distinct ((visits.mem key versions).mpr
        ⟨covered, found⟩) target
    · rw [if_neg covered]
      apply lookup_foldl_of_absent
      intro isKey
      obtain ⟨entry, isEntry, rfl⟩ := mem_map.mp isKey
      exact covered ((visits.mem entry.1 entry.2).mp isEntry).1

theorem Placed.visits (placed : table.Placed) {covers : Bytes → Prop} {shards : List (Fin shardCount)}
    {part : Fin shardCount → List (Bytes × List MemTableEntry)} (distinct : shards.Nodup)
    (within : ∀ key, covers key → shardFor key ∈ shards)
    (isPart : ∀ index, (part index).Sublist (table.shards index).entries)
    (mem : ∀ index, ∀ entry ∈ (table.shards index).entries, entry ∈ part index ↔ covers entry.1) :
    Visits table covers (shards.flatMap part) where
  distinct := by
    rw [map_flatMap, nodup_flatMap]
    constructor
    · intro index _
      have sorted : (part index).Pairwise fun left right => left.1 < right.1 :=
        List.Pairwise.sublist (isPart index) (table.shards index).sorted
      exact pairwise_map.mpr (sorted.imp fun less => less.ne)
    · apply List.Pairwise.imp _ distinct
      intro first second different key isFirst isSecond
      obtain ⟨left, isLeft, rfl⟩ := mem_map.mp isFirst
      obtain ⟨right, isRight, same⟩ := mem_map.mp isSecond
      have leftHome := placed first left ((isPart first).subset isLeft)
      have rightHome := placed second right ((isPart second).subset isRight)
      rw [same] at rightHome
      exact different (leftHome.symm.trans rightHome)
  mem := by
    intro key versions
    rw [mem_flatMap, SortedMap.lookup_eq_some]
    constructor
    · rintro ⟨index, _, isEntry⟩
      have isHere := (isPart index).subset isEntry
      have home := placed index _ isHere
      exact ⟨(mem index _ isHere).mp isEntry, home ▸ isHere⟩
    · rintro ⟨covered, isHere⟩
      exact ⟨shardFor key, within key covered, (mem _ _ isHere).mpr covered⟩

theorem mem_prefixRange {keyPrefix : Bytes} {index : Fin shardCount}
    {entry : Bytes × List MemTableEntry} (isEntry : entry ∈ (table.shards index).entries) :
    entry ∈ table.prefixRange keyPrefix index ↔ keyPrefix <+: entry.1 := by
  constructor
  · intro inRange
    have passes := mem_takeWhile_imp inRange
    exact of_decide_eq_true passes
  · intro starts
    have sorted : ((table.shards index).entries.filter
        fun entry => decide (keyPrefix ≤ entry.1)).Pairwise fun left right => left.1 < right.1 :=
      List.Pairwise.filter _ (table.shards index).sorted
    have isCandidate : entry ∈ (table.shards index).entries.filter
        fun entry => decide (keyPrefix ≤ entry.1) :=
      mem_filter.mpr ⟨isEntry, decide_eq_true (le_of_isPrefix starts)⟩
    have above : ∀ other ∈ (table.shards index).entries.filter
        fun entry => decide (keyPrefix ≤ entry.1), keyPrefix ≤ other.1 :=
      fun other isOther => of_decide_eq_true (mem_filter.mp isOther).2
    rw [prefixRange]
    generalize (table.shards index).entries.filter (fun entry => decide (keyPrefix ≤ entry.1)) =
      candidates at sorted isCandidate above
    induction candidates with
    | nil => exact isCandidate
    | cons first candidates ih =>
      obtain ⟨below, sortedRest⟩ := pairwise_cons.mp sorted
      -- what lies between the prefix and a key with it has it too
      have firstStarts : keyPrefix <+: first.1 := by
        rcases mem_cons.mp isCandidate with rfl | isRest
        · exact starts
        · obtain ⟨after, isKey⟩ := starts
          have low : keyPrefix ++ [] ≤ first.1 := by
            rw [append_nil]
            exact above first mem_cons_self
          apply prefix_of_between low
          rw [isKey]
          exact (below entry isRest).le
      rw [takeWhile_cons, if_pos (decide_eq_true firstStarts)]
      rcases mem_cons.mp isCandidate with rfl | isRest
      · exact mem_cons_self
      · apply mem_cons_of_mem
        apply ih sortedRest isRest
        exact fun other isOther => above other (mem_cons_of_mem first isOther)

theorem nodup_allShards : allShards.Nodup := nodup_finRange _

theorem nodup_shardsBetween (first last : Fin shardCount) : (shardsBetween first last).Nodup :=
  nodup_allShards.filter _

theorem nodup_shardRangeForPrefix (keyPrefix : Bytes) : (shardRangeForPrefix keyPrefix).Nodup := by
  unfold shardRangeForPrefix
  split
  · exact nodup_allShards
  · split
    · exact nodup_allShards
    · exact nodup_shardsBetween _ _
    · exact nodup_singleton _

theorem Placed.lookup_scanPrefix (placed : table.Placed) (target : ScanTarget)
    (keyPrefix key : Bytes) :
    (table.scanPrefixIntoMatching seqNo maxTx target predicate keyPrefix).lookup key =
      if keyPrefix <+: key then
        mergedValue (target.lookup key) (scannedVersion seqNo maxTx predicate key (table.versionsOf key))
      else target.lookup key := by
  have visits : Visits table (keyPrefix <+: ·)
      ((shardRangeForPrefix keyPrefix).flatMap (table.prefixRange keyPrefix)) := by
    apply placed.visits (nodup_shardRangeForPrefix keyPrefix)
    · exact fun key starts => shardFor_mem_prefix starts
    · intro index
      exact (takeWhile_sublist _).trans filter_sublist
    · intro index entry isEntry
      exact mem_prefixRange isEntry
  rw [scanPrefixIntoMatching, ← foldl_flatMap]
  exact visits.lookup_foldl seqNo maxTx predicate target key

theorem nodup_shardRangeForBounds (start stop : Bound) : (shardRangeForBounds start stop).Nodup := by
  unfold shardRangeForBounds
  generalize (start.startsSystem || stop.startsSystem || _) = isSystem
  cases isSystem with
  | true => exact nodup_allShards
  | false => exact nodup_shardsBetween _ _

theorem Placed.lookup_scanRange (placed : table.Placed) (target : ScanTarget) (start stop : Bound) :
    ∃ result, table.scanRangeIntoMatching seqNo maxTx target predicate start stop = some result ∧
      ∀ key, result.lookup key =
        if start.AboveStart key ∧ stop.BelowEnd key then
          mergedValue (target.lookup key)
            (scannedVersion seqNo maxTx predicate key (table.versionsOf key))
        else target.lookup key := by
  rw [scanRangeIntoMatching]
  by_cases valid : isValidRangeBounds start stop = true
  · have visits : Visits table (fun key => start.AboveStart key ∧ stop.BelowEnd key)
        ((shardRangeForBounds start stop).flatMap fun index =>
          (table.shards index).entries.filter fun entry =>
            decide (start.AboveStart entry.1) && decide (stop.BelowEnd entry.1)) := by
      apply placed.visits (nodup_shardRangeForBounds start stop)
      · exact fun key between => shardFor_mem_bounds between.1 between.2
      · exact fun index => filter_sublist
      · intro index entry isEntry
        rw [mem_filter, Bool.and_eq_true, decide_eq_true_eq, decide_eq_true_eq]
        exact and_iff_right isEntry
    have scanned : (shardRangeForBounds start stop).foldlM
        (fun target index => (rangeOf (table.shards index) start stop).map fun entries =>
          entries.foldl (mergeKey seqNo maxTx predicate) target) target =
        some (((shardRangeForBounds start stop).flatMap fun index =>
          (table.shards index).entries.filter fun entry =>
            decide (start.AboveStart entry.1) && decide (stop.BelowEnd entry.1)).foldl
              (mergeKey seqNo maxTx predicate) target) := by
      rw [foldl_flatMap]
      generalize shardRangeForBounds start stop = shards
      induction shards generalizing target with
      | nil => rfl
      | cons index shards ih =>
        rw [foldlM_cons, rangeOf, rangePanics_of_valid valid]
        exact ih _
    rw [if_pos valid, scanned]
    exact ⟨_, rfl, visits.lookup_foldl seqNo maxTx predicate target⟩
  · rw [if_neg valid]
    refine ⟨target, rfl, fun key => ?_⟩
    rw [if_neg]
    exact fun between => valid (valid_of_between between.1 between.2)

end MemTable

end Contextra.Store
