import Contextra.Library.Run
import Contextra.Library.StableSort
import Contextra.Store.MergeReads

/-!
# Point reads of the store

The memtable, the memtables that wait for a flush and the tables.  A point read takes the first
version that it finds, the newest of them first.  A commit writes newer versions, a flush makes one
table of the memtables that wait, and a compaction one of neighbouring tables.
-/

namespace Contextra.Store

open Library List

def greatest (numbers : List Nat) : Nat := numbers.foldr max 0

/-- `metadata().max_seq & !TOMBSTONE_BIT` of a table of these entries. -/
def newestSeq (entries : List Entry) : Nat := greatest (entries.map Entry.raw)

def least (numbers : List Nat) : Nat := numbers.foldr min u64Max

def Entry.seenBy (snapshotTx : TxId) (entry : Entry) : Bool :=
  decide (entry.tx ≤ snapshotTx ∨ internalBase ≤ entry.tx)

/-- `MemTable::get_at_seq` and `SstableReader::get_at`. -/
def visibleAt (key : Key) (seqNo : Nat) (snapshotTx : TxId) (entries : List Entry) : Option Entry :=
  newestAt (entries.filter (Entry.seenBy snapshotTx)) key seqNo

/-- A table whose footer shows that it has nothing visible is passed over. -/
def visibleInTable (key : Key) (seqNo : Nat) (snapshotTx : TxId) (table : Sstable) : Option Entry :=
  let minTxId := least (table.entries.map Entry.tx)
  let minSeq := least (table.entries.map Entry.raw)
  if minTxId < internalBase ∧ snapshotTx < minTxId ∨ seqNo < minSeq then none
  else visibleAt key seqNo snapshotTx table.entries

/-- What a flush writes: by key, the versions of all memtables from the newest on. -/
def flushEntries (floorSeq : Nat) (toFlush : List Entry) : List Entry :=
  ((toFlush.map Entry.key).dedup.insertionSort (· ≤ ·)).flatMap fun key =>
    retainKeyVersions ((versionsOf toFlush key).insertionSort fun a b => b.raw ≤ a.raw)
      Entry.seq floorSeq

/-- The store, with all that was committed and the floor below which versions may be gone. -/
structure LsmWorld where
  memtable : List Entry
  immutableMemtables : List (List Entry)
  sstables : List Sstable
  lastCommittedTx : TxId
  committed : List Entry
  floor : Nat

/-- A flush is `rotate`, its second phase, and `flush`, its third. -/
inductive LsmEvent where
  | commit (tx : TxId) (batch : List Entry)
  | rotate
  | flush (floorSeq : Nat)
  | compact (start count : Nat) (encrypted isFullCompaction : Bool) (minSnapshotSeq : Nat)

namespace LsmWorld

def new : LsmWorld := ⟨[], [], [], 0, [], 0⟩

def getAtSeq (world : LsmWorld) (key : Key) (seqNo : Nat) : Option Bytes :=
  let visible := visibleAt key seqNo world.lastCommittedTx
  let inMemory := (visible world.memtable).or (world.immutableMemtables.reverse.findSome? visible)
  let inTable := visibleInTable key seqNo world.lastCommittedTx
  (inMemory.or (world.sstables.reverse.findSome? inTable)).bind Entry.live

def advanceVisibility (world : LsmWorld) (tx : TxId) : LsmWorld :=
  if tx < internalBase then { world with lastCommittedTx := max world.lastCommittedTx tx }
  else world

/-- A new table in the place of the inputs.  From the newest version up to it on, a higher floor
drops nothing that is read. -/
def replace (world : LsmWorld) (floor : Nat) (front : List Sstable) (inputs : List Entry)
    (table : Sstable) (rest : List Sstable) : LsmWorld :=
  { world with
    sstables := sortByKey (fun table => newestSeq table.entries) (front ++ [table] ++ rest)
    floor := max world.floor (min floor (newestSeq (union front ++ inputs))) }

/-- A commit has taken the next sequence numbers.  A full compaction has taken all tables; those
that were flushed since are behind them.  A table that cannot be written changes nothing. -/
def step (world : LsmWorld) : LsmEvent → Option LsmWorld
  | .commit tx batch =>
    if (∀ entry ∈ batch, entry.tx = tx ∧ newestSeq world.committed < entry.raw) ∧
        DistinctVersions batch then
      some (advanceVisibility { world with
        memtable := world.memtable ++ batch
        committed := world.committed ++ batch } tx)
    else none
  | .rotate =>
    if world.memtable = [] then none
    else some { world with
      memtable := []
      immutableMemtables := world.immutableMemtables ++ [world.memtable] }
  | .flush floorSeq =>
    let toFlush := world.immutableMemtables.flatten
    if world.immutableMemtables = [] then none
    else
      match (flushEntries floorSeq toFlush).foldlM Sstable.add .empty with
      | .error _ => some world
      | .ok table => some (advanceVisibility
          (replace { world with immutableMemtables := [] } floorSeq world.sstables toFlush table [])
          (greatest (table.entries.map Entry.tx)))
  | .compact start count encrypted isFullCompaction minSnapshotSeq =>
    let front := world.sstables.take start
    let inputs := (world.sstables.drop start).take count
    if isFullCompaction = true ∧ front ≠ [] then none
    else
      match mergeSstables ⟨none, encrypted, minSnapshotSeq, isFullCompaction⟩ inputs with
      | .error _ => some world
      | .ok merged => some (world.replace minSnapshotSeq front (union inputs) merged.builder
          (world.sstables.drop (start + count)))

end LsmWorld

theorem greatest_le {numbers : List Nat} {bound : Nat} :
    greatest numbers ≤ bound ↔ ∀ number ∈ numbers, number ≤ bound := by
  induction numbers <;> simp_all [greatest]

theorem le_least {numbers : List Nat} {bound : Nat} :
    bound ≤ least numbers ↔ bound ≤ u64Max ∧ ∀ number ∈ numbers, bound ≤ number := by
  induction numbers <;> simp_all [least, and_left_comm]

theorem newestSeq_le {entries : List Entry} {bound : Nat} :
    newestSeq entries ≤ bound ↔ ∀ entry ∈ entries, entry.raw ≤ bound :=
  greatest_le.trans forall_mem_map

theorem le_newestSeq {entries : List Entry} {entry : Entry} (isEntry : entry ∈ entries) :
    entry.raw ≤ newestSeq entries :=
  newestSeq_le.mp le_rfl entry isEntry

theorem Sstable.distinct (table : Sstable) : DistinctVersions table.entries :=
  table.sorted.imp fun before same => (Entry.raw_lt_of_before before same).ne'

def Older (first second : List Entry) : Prop :=
  ∀ left ∈ first, ∀ right ∈ second, left.raw < right.raw

abbrev NewestLast (sources : List (List Entry)) : Prop := sources.Pairwise Older

section Sources

variable {sources front inputs rest : List (List Entry)} {first second batch : List Entry}
  {committed : List Entry} {floor : Nat}

theorem Older.mono {part part' : List Entry} (older : Older first second) (left : part ⊆ first)
    (right : part' ⊆ second) : Older part part' :=
  fun old isOld new isNew => older old (left isOld) new (right isNew)

theorem older_append_left {third : List Entry} :
    Older (first ++ second) third ↔ Older first third ∧ Older second third := forall_mem_append

theorem older_append_right {third : List Entry} :
    Older first (second ++ third) ↔ Older first second ∧ Older first third := by
  simp only [Older, forall_mem_append, forall_and]

theorem newestLast_append :
    NewestLast (front ++ rest) ↔
      NewestLast front ∧ NewestLast rest ∧ Older front.flatten rest.flatten := by
  refine pairwise_append.trans (and_congr_right' (and_congr_right' ⟨fun older => ?_, ?_⟩))
  · intro left isLeft right isRight
    obtain ⟨source, isSource, isLeft⟩ := mem_flatten.mp isLeft
    obtain ⟨other, isOther, isRight⟩ := mem_flatten.mp isRight
    exact older source isSource other isOther left isLeft right isRight
  · exact fun older source isSource other isOther => older.mono
      (fun _ => mem_flatten_of_mem isSource) fun _ => mem_flatten_of_mem isOther

theorem Older.distinct (older : Older first second) (left : DistinctVersions first)
    (right : DistinctVersions second) : DistinctVersions (first ++ second) :=
  pairwise_append.mpr ⟨left, right, fun old isOld new isNew _ => (older old isOld new isNew).ne⟩

theorem versionSet_append (left right : List Entry) (key : Key) :
    versionSet (left ++ right) key = versionSet left key ∪ versionSet right key := by
  ext entry
  simp [or_and_right]

theorem Older.keys (older : Older first second) (key : Key) :
    ∀ left ∈ versionSet first key, ∀ right ∈ versionSet second key, left.raw < right.raw :=
  fun left isLeft right isRight => older left isLeft.1 right isRight.1

theorem walk_reads (ascending : NewestLast sources) (key : Key) (seqNo : Nat) :
    ReadsAs Entry.raw Entry.live (versionSet sources.flatten key) seqNo
      ((sources.reverse.findSome? (newestAt · key seqNo)).bind Entry.live) := by
  induction sources using reverseRecOn with
  | nil => exact .inr ⟨fun entry impossible => by simp at impossible, rfl⟩
  | append_singleton sources source ih =>
    obtain ⟨before, -, older⟩ := newestLast_append.mp ascending
    rw [flatten_singleton] at older
    rw [flatten_concat, versionSet_append, readsAs_union (older.keys key), reverse_concat,
      findSome?_cons]
    cases found : newestAt source key seqNo with
    | some entry => exact .inl ⟨entry, isNewest_of_newestAt found, rfl⟩
    | none => exact .inr ⟨newestAt_eq_none.mp found, ih before⟩

structure Keeps (sources : List (List Entry)) (committed : List Entry) (floor : Nat) : Prop where
  ascending : NewestLast sources
  distinct : DistinctVersions sources.flatten
  within : sources.flatten ⊆ committed
  reads : ∀ key, SameReads Entry.raw Entry.live (versionSet committed key)
    (versionSet sources.flatten key) floor
  floor_le : floor ≤ newestSeq committed

theorem Keeps.push (holds : Keeps sources committed floor) (distinct : DistinctVersions batch)
    (newer : ∀ entry ∈ batch, newestSeq committed < entry.raw) :
    Keeps (sources ++ [batch]) (committed ++ batch) floor := by
  have older : Older committed batch := fun left isOld right isNew =>
    (le_newestSeq isOld).trans_lt (newer right isNew)
  have olderSources : Older sources.flatten batch := older.mono holds.within (Subset.refl _)
  constructor
  case ascending =>
    rw [newestLast_append, flatten_singleton]
    exact ⟨holds.ascending, pairwise_singleton _ _, olderSources⟩
  case distinct => exact flatten_concat ▸ olderSources.distinct holds.distinct distinct
  case within =>
    rw [flatten_concat]
    exact append_subset.mpr
      ⟨subset_append_of_subset_left _ holds.within, subset_append_right _ _⟩
  case reads =>
    intro key
    rw [flatten_concat, versionSet_append, versionSet_append]
    exact (holds.reads key).union (older.keys key) (olderSources.keys key)
  case floor_le =>
    exact holds.floor_le.trans
      (newestSeq_le.mpr fun entry isEntry => le_newestSeq (mem_append_left _ isEntry))

/-- The two newest sources as one. -/
theorem Keeps.join (holds : Keeps (front ++ [first] ++ [second]) committed floor) :
    Keeps (front ++ [first ++ second]) committed floor := by
  have same : (front ++ [first] ++ [second]).flatten = (front ++ [first ++ second]).flatten := by
    simp
  obtain ⟨ascending, distinct, within, reads, floor_le⟩ := holds
  rw [same] at distinct within reads
  refine ⟨?_, distinct, within, reads, floor_le⟩
  simp only [newestLast_append, flatten_append, flatten_singleton, older_append_left,
    older_append_right] at ascending ⊢
  obtain ⟨⟨before, -, older⟩, -, older', -⟩ := ascending
  exact ⟨before, pairwise_singleton _ _, older, older'⟩

/-- One source in the place of neighbours of which it keeps what is read from a floor on. -/
theorem Keeps.swap (holds : Keeps (front ++ inputs ++ rest) committed floor) {output : List Entry}
    {minSeq : Nat} {dead : Entry → Prop} (distinct : DistinctVersions output)
    (retains : ∀ key, Retains Entry.raw dead (versionSet inputs.flatten key) (versionSet output key)
      minSeq)
    (deadLive : ∀ entry, dead entry → entry.live = none)
    (alive : front.flatten = [] ∨ ∀ entry, ¬ dead entry) :
    Keeps (front ++ [output] ++ rest) committed
      (max floor (min minSeq (newestSeq (front.flatten ++ inputs.flatten)))) := by
  have subset : output ⊆ inputs.flatten := fun entry isEntry =>
    ((retains entry.key).subset ⟨isEntry, rfl⟩).1
  obtain ⟨ascending, apart, within, reads, floor_le⟩ := holds
  simp only [newestLast_append, flatten_append] at ascending apart within reads
  obtain ⟨⟨before, -, older⟩, after, behind⟩ := ascending
  have kept : front.flatten ++ output ⊆ front.flatten ++ inputs.flatten :=
    append_subset.mpr ⟨subset_append_left _ _, subset_append_of_subset_right _ subset⟩
  have newer := behind.mono kept (Subset.refl _)
  obtain ⟨isWithin, isBehind⟩ := append_subset.mp within
  have together := pairwise_append.mp apart
  constructor
  case ascending =>
    simp only [newestLast_append, flatten_append, flatten_singleton]
    exact ⟨⟨before, pairwise_singleton _ _, older.mono (Subset.refl _) subset⟩, after, newer⟩
  case distinct =>
    simp only [flatten_append, flatten_singleton]
    refine newer.distinct ?_ together.2.1
    exact (older.mono (Subset.refl _) subset).distinct (pairwise_append.mp together.1).1 distinct
  case within =>
    simp only [flatten_append, flatten_singleton]
    exact append_subset.mpr ⟨fun entry isEntry => isWithin (kept isEntry), isBehind⟩
  case reads =>
    intro key
    simp only [flatten_append, flatten_singleton]
    have beside : Retains Entry.raw dead (versionSet (front.flatten ++ inputs.flatten) key)
        (versionSet (front.flatten ++ output) key) minSeq := by
      rw [versionSet_append, versionSet_append]
      refine (retains key).union (alive.imp_left fun noFront => ?_)
      simp [noFront, versionSet]
    have same := ((beside.lower fun entry isEntry => le_newestSeq isEntry.1).sameReads deadLive
      (DistinctVersions.injOn together.1 key)).union (behind.keys key) (newer.keys key)
    rw [← versionSet_append, ← versionSet_append] at same
    intro seqNo above result
    obtain ⟨above, above'⟩ := max_le_iff.mp above
    exact (reads key seqNo above result).trans (same seqNo above' result)
  case floor_le =>
    refine max_le floor_le ((min_le_right _ _).trans ?_)
    exact newestSeq_le.mpr fun entry isEntry => le_newestSeq (isWithin isEntry)

theorem Keeps.sort {tables : List Sstable}
    (holds : Keeps (tables.map Sstable.entries ++ rest) committed floor) :
    Keeps ((sortByKey (fun table => newestSeq table.entries) tables).map Sstable.entries ++ rest)
      committed floor := by
  let sorted := sortByKey (fun table => newestSeq table.entries) tables
  have perm : (sorted.map Sstable.entries).Perm (tables.map Sstable.entries) :=
    (perm_insertionSort _ _).map _
  have permAll := (perm.append_right rest).flatten
  obtain ⟨ascending, distinct, within, reads, floor_le⟩ := holds
  obtain ⟨inOrder, after, behind⟩ := newestLast_append.mp ascending
  refine ⟨newestLast_append.mpr ⟨?_, after, behind.mono perm.flatten.subset (Subset.refl _)⟩,
    (permAll.symm.pairwise_iff (Std.Symm.symm _ _)).mp distinct,
    fun entry isEntry => within (permAll.subset isEntry), fun key => ?_, floor_le⟩
  · have comparable : (sorted.map Sstable.entries).Pairwise fun left right =>
        Older left right ∨ Older right left :=
      (perm.symm.pairwise_iff Or.symm).mp (inOrder.imp Or.inl)
    refine pairwise_map.mpr (((pairwise_map.mp comparable).and (sortByKey_sorted _ tables)).imp ?_)
    rintro left right ⟨older | newer, ordered⟩
    · exact older
    · intro entry isLeft other isRight
      have := newer other isRight entry isLeft
      have below : newestSeq right.entries ≤ entry.raw - 1 := newestSeq_le.mpr
        fun later isLater => Nat.le_sub_one_of_lt (newer later isLater entry isLeft)
      have := (le_newestSeq isLeft).trans (ordered.trans below)
      omega
  · have same : versionSet (sorted.map Sstable.entries ++ rest).flatten key =
        versionSet (tables.map Sstable.entries ++ rest).flatten key :=
      Set.ext fun entry => and_congr_left' permAll.mem_iff
    exact same ▸ reads key

end Sources

theorem Sstable.foldlM_entries {entries : List Entry} {built table : Sstable}
    (written : entries.foldlM Sstable.add built = .ok table) :
    table.entries = built.entries ++ entries := by
  induction entries generalizing built with
  | nil =>
    cases written
    exact (append_nil _).symm
  | cons entry entries ih =>
    cases added : built.add entry with
    | error error => simp [added, bind, Except.bind] at written
    | ok next =>
      rw [ih (by simpa [added, bind, Except.bind] using written), Sstable.add_entries added,
        append_assoc, singleton_append]

theorem flushEntries_retains {toFlush : List Entry} (floorSeq : Nat)
    (distinct : DistinctVersions toFlush) (key : Key) :
    Retains Entry.raw (fun _ => False) (versionSet toFlush key)
      (versionSet (flushEntries floorSeq toFlush) key) floorSeq := by
  let versions (key : Key) := (versionsOf toFlush key).insertionSort fun a b => b.raw ≤ a.raw
  have mem_versions {entry : Entry} {key : Key} :
      entry ∈ versions key ↔ entry ∈ toFlush ∧ entry.key = key :=
    (mem_insertionSort _).trans mem_versionsOf
  have total : Std.Total fun a b : Entry => b.raw ≤ a.raw := ⟨fun a b => le_total b.raw a.raw⟩
  have trans : IsTrans Entry fun a b => b.raw ≤ a.raw := ⟨fun _ _ _ ab bc => bc.trans ab⟩
  have apart : (versionsOf toFlush key).Pairwise fun a b => a.raw ≠ b.raw := by
    refine (distinct.sublist filter_sublist).imp_of_mem fun isA isB apart => apart ?_
    exact (mem_versionsOf.mp isA).2.trans (mem_versionsOf.mp isB).2.symm
  have descending : (versions key).Pairwise fun a b => b.raw < a.raw :=
    ((pairwise_insertionSort _ _).and
      (((perm_insertionSort _ _).symm.pairwise_iff Ne.symm).mp apart)).imp
      fun ⟨le, ne⟩ => lt_of_le_of_ne le ne.symm
  have retained := retainKeyVersions_filter_retains floorSeq (fun _ => False) (fun _ => true)
    descending fun _ impossible => Bool.noConfusion impossible
  rw [filter_true] at retained
  convert retained using 1
  · exact Set.ext fun entry => mem_versions.symm
  · ext entry
    have inside {key : Key} (kept : entry ∈ retainKeyVersions (versions key) Entry.seq floorSeq) :=
      mem_versions.mp ((retainLoop_sublist _ _ _ _).subset kept)
    simp only [mem_versionSet, flushEntries, mem_flatMap, mem_insertionSort, mem_dedup]
    constructor
    · rintro ⟨⟨other, -, kept⟩, rfl⟩
      exact (inside kept).2 ▸ kept
    · exact fun kept => ⟨⟨key, (inside kept).2 ▸ mem_map_of_mem (inside kept).1, kept⟩,
        (inside kept).2⟩

namespace LsmWorld

def sources (world : LsmWorld) : List (List Entry) :=
  world.sstables.map Sstable.entries ++ (world.immutableMemtables ++ [world.memtable])

structure Sound (world : LsmWorld) : Prop where
  holds : Keeps world.sources world.committed world.floor
  seen : ∀ entry ∈ world.committed, entry.seenBy world.lastCommittedTx = true

variable {world next : LsmWorld} {key : Key} {seqNo : Nat}

theorem visibleAt_eq {entries : List Entry} {snapshotTx : TxId}
    (seen : ∀ entry ∈ entries, entry.seenBy snapshotTx = true) :
    visibleAt key seqNo snapshotTx entries = newestAt entries key seqNo := by
  rw [visibleAt, filter_eq_self.mpr seen]

theorem visibleInTable_eq {table : Sstable} {snapshotTx : TxId}
    (seen : ∀ entry ∈ table.entries, entry.seenBy snapshotTx = true) :
    visibleInTable key seqNo snapshotTx table = newestAt table.entries key seqNo := by
  rw [visibleInTable]
  split
  · rename_i passed
    refine (newestAt_eq_none.mpr fun entry isEntry => ?_).symm
    rcases passed with ⟨inside, behind⟩ | above
    · -- all transactions are behind the snapshot, so internal, and so is the least of them
      refine absurd (le_least.mpr ⟨by decide, forall_mem_map.mpr fun other isOther => ?_⟩)
        (not_le.mpr inside)
      have later := (le_least.mp behind).2 _ (mem_map_of_mem isOther)
      exact (of_decide_eq_true (seen other isOther)).resolve_left (not_le.mpr later)
    · exact (le_least.mp above).2 _ (mem_map_of_mem isEntry.1)
  · exact visibleAt_eq seen

theorem findSome?_congr {α : Type} {find find' : α → Option Entry} {list : List α}
    (same : ∀ a ∈ list, find a = find' a) : list.findSome? find = list.findSome? find' := by
  induction list <;> simp_all [findSome?_cons]

theorem Sound.getAtSeq_eq (sound : world.Sound) (key : Key) (seqNo : Nat) :
    world.getAtSeq key seqNo =
      (world.sources.reverse.findSome? (newestAt · key seqNo)).bind Entry.live := by
  have seen {source : List Entry} (isSource : source ∈ world.sources) :
      ∀ entry ∈ source, entry.seenBy world.lastCommittedTx = true := fun entry isEntry =>
    sound.seen entry (sound.holds.within (mem_flatten_of_mem isSource isEntry))
  have memtable := @visibleAt_eq key seqNo _ _ (seen (by simp [sources] : world.memtable ∈ _))
  have waiting := findSome?_congr
    fun source (isSource : source ∈ world.immutableMemtables.reverse) =>
      @visibleAt_eq key seqNo source _ (seen (by simp [sources, mem_reverse.mp isSource]))
  have tables := findSome?_congr fun table (isTable : table ∈ world.sstables.reverse) =>
    @visibleInTable_eq key seqNo table _
      (seen (mem_append_left _ (mem_map_of_mem (mem_reverse.mp isTable))))
  simp only [getAtSeq, memtable, waiting, tables]
  simp [sources, ← map_reverse, findSome?_cons, findSome?_map, Function.comp_def]
  cases newestAt world.memtable key seqNo <;> rfl

theorem Sound.advance {tx : TxId} (holds : Keeps world.sources world.committed world.floor)
    (seen : ∀ entry ∈ world.committed, entry.seenBy world.lastCommittedTx = true ∨ entry.tx = tx) :
    (world.advanceVisibility tx).Sound := by
  simp only [Entry.seenBy, decide_eq_true_eq] at seen
  unfold advanceVisibility
  split
  · refine ⟨holds, fun entry isEntry => decide_eq_true ?_⟩
    rcases seen entry isEntry with (before | internal) | rfl
    · exact .inl (before.trans (le_max_left _ _))
    · exact .inr internal
    · exact .inl (le_max_right _ _)
  · rename_i internal
    refine ⟨holds, fun entry isEntry => decide_eq_true ?_⟩
    rcases seen entry isEntry with before | rfl
    · exact before
    · exact .inr (not_lt.mp internal)

theorem Sound.replace {front rest : List Sstable} {inputs behind : List (List Entry)}
    {table : Sstable} {minSeq : Nat} {dead : Entry → Prop}
    (holds : Keeps (front.map Sstable.entries ++ inputs ++ (rest.map Sstable.entries ++ behind))
      world.committed world.floor)
    (retains : ∀ key, Retains Entry.raw dead (versionSet inputs.flatten key)
      (versionSet table.entries key) minSeq)
    (deadLive : ∀ entry, dead entry → entry.live = none)
    (alive : front = [] ∨ ∀ entry, ¬ dead entry) :
    Keeps ((world.replace minSeq front inputs.flatten table rest).sstables.map Sstable.entries ++
      behind) world.committed (world.replace minSeq front inputs.flatten table rest).floor := by
  have swapped := holds.swap table.distinct retains deadLive
    (alive.imp_left fun noFront => by rw [noFront]; rfl)
  rw [← append_assoc] at swapped
  exact Keeps.sort (by simpa only [map_append, map_singleton, LsmWorld.replace, union,
    flatMap_def] using swapped)

theorem Sound.step (sound : world.Sound) {event : LsmEvent} (taken : world.step event = some next) :
    next.Sound := by
  have holds := sound.holds
  cases event with
  | commit tx batch =>
    obtain ⟨⟨newer, distinct⟩, isNext⟩ := Option.ite_none_right_eq_some.mp taken
    obtain rfl := Option.some.inj isNext
    rw [sources, ← append_assoc] at holds
    have joined := (holds.push distinct fun entry isNew => (newer entry isNew).2).join
    rw [append_assoc] at joined
    refine Sound.advance joined ?_
    exact forall_mem_append.mpr ⟨fun entry isOld => .inl (sound.seen entry isOld),
      fun entry isNew => .inr (newer entry isNew).1⟩
  | rotate =>
    obtain ⟨-, isNext⟩ := Option.ite_none_left_eq_some.mp taken
    obtain rfl := Option.some.inj isNext
    have pushed := @Keeps.push _ [] _ _ holds Pairwise.nil (forall_mem_nil _)
    rw [append_nil, sources, append_assoc] at pushed
    exact ⟨pushed, sound.seen⟩
  | flush floorSeq =>
    obtain ⟨-, taken⟩ := Option.ite_none_left_eq_some.mp taken
    split at taken
    · cases taken
      exact sound
    · rename_i table written
      obtain rfl := Option.some.inj taken
      rw [sources, ← append_assoc] at holds
      have distinct := holds.distinct.sublist
        ((sublist_append_right (world.sstables.map Sstable.entries) _).trans
          (sublist_append_left _ _)).flatten
      have replaced := @Sound.replace world world.sstables [] _ _ table floorSeq (fun _ => False)
        holds (Sstable.foldlM_entries written ▸ flushEntries_retains floorSeq distinct)
        (fun _ => False.elim) (.inr fun _ => id)
      exact Sound.advance replaced fun entry isEntry => .inl (sound.seen entry isEntry)
  | compact start count encrypted isFullCompaction minSnapshotSeq =>
    obtain ⟨permitted, taken⟩ := Option.ite_none_left_eq_some.mp taken
    split at taken
    · cases taken
      exact sound
    · rename_i merged isMerged
      obtain rfl := Option.some.inj taken
      have tables := take_append_drop (start + count) world.sstables
      rw [take_add] at tables
      rw [sources, ← tables, map_append, map_append, append_assoc] at holds
      have distinct := holds.distinct.sublist
        ((sublist_append_right (map Sstable.entries (take start world.sstables)) _).trans
          (sublist_append_left _ _)).flatten
      rw [← flatMap_def] at distinct
      let config : MergeConfig := ⟨none, encrypted, minSnapshotSeq, isFullCompaction⟩
      have noOperator : config.mergeOperator = none := rfl
      obtain ⟨final, finished, -, written⟩ := mergeSstables_alone noOperator distinct
      obtain rfl := Except.ok.inj (finished.symm.trans isMerged)
      let dead (entry : Entry) := isFullCompaction = true ∧ entry.seq.tombstone = true
      have retains (key : Key) := output_retains config distinct key dead
        fun entry collected => by
          simp only [MergeState.collects, Bool.and_eq_true] at collected
          exact ⟨collected.1.2, collected.1.1⟩
      rw [← written, union, flatMap_def] at retains
      have replaced := @Sound.replace world _ _ _ _ final.builder minSnapshotSeq _ holds retains
        (fun _ dropped => Entry.live_eq_none dropped.2)
        (or_iff_not_imp_left.mpr fun isFront _ dropped => permitted ⟨dropped.1, isFront⟩)
      rw [← flatMap_def] at replaced
      exact ⟨replaced, sound.seen⟩

/-- A key is written and deleted, another commit comes before the end of the flush, and a full
compaction follows. -/
def deletedBefore : List LsmEvent :=
  let key := Key.ofByte 1
  [.commit 1 [.put key [7] 1 1], .rotate, .flush u64Max, .commit 2 [.delete key 2 2], .rotate,
    .commit 3 [.put key [9] 3 3], .flush u64Max, .compact 0 2 false true u64Max]

end LsmWorld

end Contextra.Store
