import Contextra.Store.MergeRound

/-!
# Compaction with a merge operator

A round folds the popped version and the newest version among the heads of the other streams, so a
version of its own stream between the two is passed over, and a fold below a collected tombstone
makes the key live again.  Both depend on how the inputs spread the versions of a key.
-/

namespace Contextra.Store

open Library MergeState List

/-- The operator calls of a compaction that ended either way. -/
def callsOf : Except MergeFailure MergeState → List MergeCall
  | .ok final => final.calls
  | .error failure => failure.calls

/-- The inputs hold no version of the key between the two that a call combines. -/
def NothingBetween (inputs : List Sstable) (call : MergeCall) : Prop :=
  ∀ entry ∈ union inputs, entry.key = call.new.key →
    ¬ (call.existing.raw < entry.raw ∧ entry.raw < call.new.raw)

/-- A key whose newest visible version is a tombstone reads as missing in the output,
and no call folds across another version. -/
structure NeverBringsBack (config : MergeConfig) (inputs : List Sstable) : Prop where
  reads : ∀ final, mergeSstables config inputs = .ok final →
    ∀ key bound deleted, config.minSnapshotSeq ≤ bound →
      newestAt (union inputs) key bound = some deleted → deleted.seq.tombstone = true →
      readAt final.builder.entries key bound = none
  calls : ∀ call ∈ callsOf (mergeSstables config inputs), NothingBetween inputs call

/-- In table `index` the put `item` lies below the floor, and of the versions of its key
older than it in the other tables the newest is the put `next`, while none of these
tables continues the key with a tombstone. -/
structure Folds (encrypted : Bool) (floor : Nat) (inputs : List Sstable) (index : Nat)
    (item next : Entry) : Prop where
  plain : encrypted = false
  own : ∃ table, inputs[index]? = some table ∧ item ∈ table.entries
  itemPut : item.seq.tombstone = false
  itemBelow : item.raw < floor
  other : ∃ partner table, index ≠ partner ∧ inputs[partner]? = some table ∧ next ∈ table.entries
  sameKey : next.key = item.key
  older : next.raw < item.raw
  nextPut : next.seq.tombstone = false
  newest : ∀ partner table, index ≠ partner → inputs[partner]? = some table →
    ∀ entry ∈ table.entries, entry.key = item.key → entry.raw < item.raw → entry.raw ≤ next.raw
  noTombstone : ∀ partner table, index ≠ partner → inputs[partner]? = some table →
    ∀ entry ∈ table.entries, entry.key = item.key → entry.raw < item.raw →
      (∀ version ∈ table.entries, version.key = item.key → version.raw < item.raw →
        version.raw ≤ entry.raw) →
      entry.seq.tombstone = false

def FloorCollected (full : Bool) (floor : Nat) (inputs : List Sstable) (key : Key) : Prop :=
  full = true ∧ ∃ deleted, newestAt (union inputs) key floor = some deleted ∧
    deleted.seq.tombstone = true ∧ deleted.raw < floor

/-- Wherever two versions can be folded, the item's own table has nothing between them
and the key is not deleted at the floor. -/
def FoldsSafely (encrypted full : Bool) (floor : Nat) (inputs : List Sstable) : Prop :=
  ∀ index item next, Folds encrypted floor inputs index item next →
    (∀ table, inputs[index]? = some table → ∀ entry ∈ table.entries, entry.key = item.key →
      ¬ (next.raw < entry.raw ∧ entry.raw < item.raw)) ∧
    ¬ FloorCollected full floor inputs item.key

/-- Every stream is the rest of its table, and what was taken from any table comes
before everything left in all of them. -/
structure Drained (inputs : List Sstable) (sources : List (List Entry)) : Prop where
  length : sources.length = inputs.length
  split : ∀ (index : Nat) (table : Sstable), inputs[index]? = some table →
    ∃ done rest, sources[index]? = some rest ∧ table.entries = done ++ rest ∧
      ∀ gone ∈ done, ∀ later ∈ sources.flatten, gone.Before later

theorem drained_initial (inputs : List Sstable) : Drained inputs (initial inputs).sources where
  length := by simp [initial]
  split index table found := ⟨[], table.entries, by simp [initial, found], rfl, by simp⟩

section Drained

variable {inputs : List Sstable} {sources : List (List Entry)}

theorem Drained.table (drained : Drained inputs sources) {index : Nat} {rest : List Entry}
    (found : sources[index]? = some rest) :
    ∃ table, inputs[index]? = some table ∧ ∀ entry ∈ rest, entry ∈ table.entries := by
  have inside : index < inputs.length := by
    rw [← drained.length]
    exact (List.getElem?_eq_some_iff.mp found).1
  obtain ⟨done, same, isSame, whole, -⟩ :=
    drained.split index inputs[index] (getElem?_eq_getElem inside)
  obtain rfl := Option.some.inj (found.symm.trans isSame)
  refine ⟨inputs[index], getElem?_eq_getElem inside, fun entry mem => ?_⟩
  rw [whole]
  exact mem_append_right done mem

theorem Drained.mem_union (drained : Drained inputs sources) {entry : Entry}
    (left : entry ∈ sources.flatten) : entry ∈ union inputs := by
  obtain ⟨stream, inStreams, inStream⟩ := mem_flatten.mp left
  obtain ⟨index, isStream⟩ := mem_iff_getElem?.mp inStreams
  obtain ⟨table, isTable, entries⟩ := drained.table isStream
  exact mem_flatMap.mpr ⟨table, mem_of_getElem? isTable, entries entry inStream⟩

theorem Drained.mem_rest (drained : Drained inputs sources) {index : Nat} {table : Sstable}
    (found : inputs[index]? = some table) {item entry : Entry} (left : item ∈ sources.flatten)
    (mem : entry ∈ table.entries) (after : item.Before entry) :
    ∃ rest, sources[index]? = some rest ∧ entry ∈ rest := by
  obtain ⟨done, rest, isRest, whole, gone⟩ := drained.split index table found
  refine ⟨rest, isRest, ?_⟩
  rw [whole] at mem
  refine (mem_append.mp mem).resolve_left fun taken => ?_
  exact Entry.before_irrefl item (Entry.before_trans _ _ _ after (gone entry taken item left))

theorem Drained.advance (drained : Drained inputs sources) {index : Nat} {head : Entry}
    {tail : List Entry} (found : sources[index]? = some (head :: tail))
    (first : ∀ later ∈ (Library.advance sources index).flatten, head.Before later) :
    Drained inputs (Library.advance sources index) where
  length := by rw [Library.advance, length_modify, drained.length]
  split position table isTable := by
    obtain ⟨done, rest, isRest, whole, gone⟩ := drained.split position table isTable
    have kept : ∀ later ∈ (Library.advance sources index).flatten, later ∈ sources.flatten :=
      fun later left => (flatten_advance found).mem_iff.mpr (mem_cons_of_mem head left)
    by_cases same : index = position
    · subst same
      obtain rfl := Option.some.inj (found.symm.trans isRest)
      refine ⟨done ++ [head], tail, ?_, by simpa using whole, fun taken mem later left => ?_⟩
      · rw [Library.advance, getElem?_modify, found]
        simp
      · rcases mem_append.mp mem with old | new
        · exact gone taken old later (kept later left)
        · exact mem_singleton.mp new ▸ first later left
    · refine ⟨done, rest, ?_, whole, fun taken mem later left =>
        gone taken mem later (kept later left)⟩
      rw [Library.advance, getElem?_modify, isRest]
      simp [same]

end Drained

section Partner

variable {config : MergeConfig} {inputs : List Sstable} {state : MergeState} {index : Nat}
  {item next : Entry}

variable {partner : Nat}

theorem heapDuring_cons {head : Entry} {tail : List Entry}
    (found : (state.heapDuring index)[partner]? = some (head :: tail)) :
    index ≠ partner ∧ state.sources[partner]? = some (head :: tail) := by
  by_cases same : index = partner
  · subst same
    rw [heapDuring, getElem?_set] at found
    split at found
    · split at found <;> simp at found
    · contradiction
  · rw [heapDuring, getElem?_set_ne same] at found
    exact ⟨same, found⟩

theorem item_before_other (placed : state.Placed) (pops : state.Pops index item)
    {rest : List Entry} (different : index ≠ partner) (found : state.sources[partner]? = some rest)
    {entry : Entry} (mem : entry ∈ rest) : item.Before entry := by
  refine placed.item_before pops (mem_flatten.mpr ⟨rest, ?_, mem⟩)
  refine mem_of_getElem? (i := partner) ?_
  rw [advance, getElem?_modify, found]
  simp [different]

theorem head_before (placed : state.Placed) {head entry : Entry}
    {tail : List Entry} (found : state.sources[partner]? = some (head :: tail))
    (mem : entry ∈ head :: tail) : head = entry ∨ head.Before entry := by
  have sorted := placed.sorted _ (mem_of_getElem? found)
  rcases mem_cons.mp mem with same | inTail
  · exact .inl same.symm
  · exact .inr ((pairwise_cons.mp sorted).1 entry inTail)

theorem folds_of_partner (placed : state.Placed) (drained : Drained inputs state.sources)
    (pops : state.Pops index item)
    (paired : mergePartner config (state.heapDuring index) item = some (partner, next)) :
    Folds config.encrypted config.minSnapshotSeq inputs index item next := by
  obtain ⟨⟨plain, itemPut, itemBelow⟩, chosen, sameKey, nextPut, -, noTombstone⟩ :=
    mergePartner_eq_some paired
  obtain ⟨ownTail, ownFound⟩ := firstHead_getElem? pops
  obtain ⟨ownTable, isOwn, ownEntries⟩ := drained.table ownFound
  obtain ⟨tail, found⟩ := firstHead_getElem? chosen
  obtain ⟨different, found⟩ := heapDuring_cons found
  obtain ⟨table, isTable, entries⟩ := drained.table found
  have after := item_before_other placed pops different found mem_cons_self
  -- what another table has of the key below the item is still in its stream
  have inRest (position : Nat) (other : Sstable) (isOther : inputs[position]? = some other)
      (entry : Entry) (mem : entry ∈ other.entries) (key : entry.key = item.key)
      (below : entry.raw < item.raw) :
      ∃ head rest, state.sources[position]? = some (head :: rest) ∧ entry ∈ head :: rest := by
    obtain ⟨rest, isRest, inRest⟩ :=
      drained.mem_rest isOther pops.mem mem (.inr ⟨key.symm, below⟩)
    cases rest with
    | nil => simp at inRest
    | cons head rest => exact ⟨head, rest, isRest, inRest⟩
  have inHeap (position : Nat) (distinct : index ≠ position) (head : Entry) (rest : List Entry)
      (isRest : state.sources[position]? = some (head :: rest)) :
      head :: rest ∈ state.heapDuring index := by
    refine mem_of_getElem? (i := position) ?_
    rw [heapDuring, getElem?_set_ne distinct, isRest]
  refine ⟨plain, ⟨ownTable, isOwn, ownEntries item mem_cons_self⟩, itemPut, itemBelow,
    ⟨partner, table, different, isTable, entries next mem_cons_self⟩, sameKey,
    Entry.raw_lt_of_before after sameKey.symm, nextPut, ?_, ?_⟩
  · intro position other distinct isOther entry mem key below
    obtain ⟨head, rest, isRest, inStream⟩ := inRest position other isOther entry mem key below
    have minimal := firstHead_minimal Entry.before_trans Entry.before_irrefl chosen
      (inHeap position distinct head rest isRest)
    by_contra higher
    have sooner : entry.Before next := .inr ⟨key.trans sameKey.symm, not_le.mp higher⟩
    rcases head_before placed isRest inStream with rfl | headFirst
    · exact minimal sooner
    · exact minimal (Entry.before_trans _ _ _ headFirst sooner)
  · intro position other distinct isOther entry mem key below newest
    obtain ⟨head, rest, isRest, inStream⟩ := inRest position other isOther entry mem key below
    have headAfter := item_before_other placed pops distinct isRest mem_cons_self
    rcases head_before placed isRest inStream with rfl | headFirst
    · -- the newest version below the item is the head of its stream
      have silent := any_eq_false.mp noTombstone _ (inHeap position distinct head rest isRest)
      simpa [key] using silent
    · have headKey : head.key = item.key := by
        rcases headAfter with less | ⟨same, -⟩
        · rcases headFirst with lessEntry | ⟨sameEntry, -⟩
          · exact absurd (less.trans lessEntry) (key ▸ lt_irrefl _)
          · exact sameEntry.trans key
        · exact same.symm
      obtain ⟨otherTable, isOtherTable, otherEntries⟩ := drained.table isRest
      obtain rfl := Option.some.inj (isOther.symm.trans isOtherTable)
      have upper := newest head (otherEntries head mem_cons_self) headKey
        (Entry.raw_lt_of_before headAfter headKey.symm)
      have lower := Entry.raw_lt_of_before headFirst (headKey.trans key.symm)
      omega

theorem partner_of_folds (placed : state.Placed) (drained : Drained inputs state.sources)
    (pops : state.Pops index item)
    (folds : Folds config.encrypted config.minSnapshotSeq inputs index item next) :
    ∃ partner, mergePartner config (state.heapDuring index) item = some (partner, next) := by
  obtain ⟨source, table, different, isTable, inTable⟩ := folds.other
  have nextAfter : item.Before next := .inr ⟨folds.sameKey.symm, folds.older⟩
  obtain ⟨rest, isRest, inRest⟩ := drained.mem_rest isTable pops.mem inTable nextAfter
  obtain ⟨first, firstTail, rfl⟩ : ∃ first firstTail, rest = first :: firstTail := by
    cases rest with
    | nil => simp at inRest
    | cons first firstTail => exact ⟨first, firstTail, rfl⟩
  have inHeap : first :: firstTail ∈ state.heapDuring index := by
    refine mem_of_getElem? (i := source) ?_
    rw [heapDuring, getElem?_set_ne different, isRest]
  cases chosen : firstHead Entry.Before (state.heapDuring index) with
  | none => exact absurd (firstHead_eq_none.mp chosen _ inHeap) (by simp)
  | some pick =>
    obtain ⟨partner, head⟩ := pick
    obtain ⟨tail, found⟩ := firstHead_getElem? chosen
    obtain ⟨apartIndex, found⟩ := heapDuring_cons found
    have headAfter := item_before_other placed pops apartIndex found mem_cons_self
    have minimal := firstHead_minimal Entry.before_trans Entry.before_irrefl chosen inHeap
    have notSooner : ¬ next.Before head := fun sooner => by
      rcases head_before placed isRest inRest with rfl | firstFirst
      · exact minimal sooner
      · exact minimal (Entry.before_trans _ _ _ firstFirst sooner)
    obtain ⟨headTable, isHeadTable, headEntries⟩ := drained.table found
    -- another head before `next` would be a newer version of the key
    have same : head = next := by
      by_contra distinct
      have inHead : head ∈ state.sources.flatten :=
        mem_flatten.mpr ⟨_, mem_of_getElem? found, mem_cons_self⟩
      have inNext : next ∈ state.sources.flatten :=
        mem_flatten.mpr ⟨_, mem_of_getElem? isRest, inRest⟩
      have sooner := Entry.before_total notSooner
        (placed.apart.forall inHead inNext distinct)
      have headKey : head.key = item.key := by
        rcases headAfter with less | ⟨key, -⟩
        · rcases sooner with lessNext | ⟨sameNext, -⟩
          · exact absurd (less.trans lessNext) (folds.sameKey ▸ lt_irrefl _)
          · exact sameNext.trans folds.sameKey
        · exact key.symm
      have upper := folds.newest partner headTable apartIndex isHeadTable head
        (headEntries head mem_cons_self) headKey
        (Entry.raw_lt_of_before headAfter headKey.symm)
      have lower := Entry.raw_lt_of_before sooner (headKey.trans folds.sameKey.symm)
      omega
    subst same
    have silent : tombstoneInHeap (state.heapDuring index) item.key = false := by
      refine any_eq_false.mpr fun stream inStreams => ?_
      cases stream with
      | nil => simp
      | cons other otherTail =>
        obtain ⟨position, isStream⟩ := mem_iff_getElem?.mp inStreams
        obtain ⟨apartOther, isOther⟩ := heapDuring_cons isStream
        obtain ⟨otherTable, isOtherTable, otherEntries⟩ := drained.table isOther
        have otherAfter := item_before_other placed pops apartOther isOther mem_cons_self
        by_cases key : other.key = item.key
        · have below := Entry.raw_lt_of_before otherAfter key.symm
          have live := folds.noTombstone position otherTable apartOther isOtherTable other
            (otherEntries other mem_cons_self) key below
            fun version inOther versionKey versionBelow => by
              obtain ⟨stream, isSame, inStream⟩ := drained.mem_rest isOtherTable pops.mem
                inOther (.inr ⟨versionKey.symm, versionBelow⟩)
              obtain rfl := Option.some.inj (isOther.symm.trans isSame)
              rcases head_before placed isOther inStream with rfl | sooner
              · exact le_rfl
              · exact (Entry.raw_lt_of_before sooner (key.trans versionKey.symm)).le
          simp [live]
        · simp [key]
    refine ⟨partner, ?_⟩
    have nextBelow : head.raw < config.minSnapshotSeq := folds.older.trans folds.itemBelow
    simp only [mergePartner, chosen]
    rw [if_pos ⟨folds.plain, folds.itemPut, folds.itemBelow⟩,
      if_pos ⟨folds.sameKey, folds.nextPut, nextBelow, silent⟩]

theorem Drained.round (placed : state.Placed) (drained : Drained inputs state.sources)
    (pops : state.Pops index item) {after : MergeState}
    (round : Round config state index item after)
    (clean : ∀ partner next,
      mergePartner config (state.heapDuring index) item = some (partner, next) →
      NothingBetween inputs ⟨next, item⟩) :
    Drained inputs after.sources := by
  obtain ⟨ownTail, ownFound⟩ := firstHead_getElem? pops
  have itemOut := drained.advance ownFound fun later left => placed.item_before pops left
  cases round with
  | alone builder silent grown => exact itemOut
  | failed builder partner other paired grown => exact itemOut
  | merged builder partner other mergedVal paired grown =>
    obtain ⟨tail, found⟩ := partner_head paired
    refine itemOut.advance found fun later left => ?_
    have taken := flatten_advance found
    have inRest := taken.mem_iff.mpr (mem_cons_of_mem other left)
    have otherInRest := taken.mem_iff.mpr mem_cons_self
    have distinct := (pairwise_cons.mp
      ((taken.pairwise_iff (Std.Symm.symm _ _)).mp (placed.apart_rest pops).2)).1 later left
    refine Entry.before_total (fun sooner => ?_) distinct
    -- a version before the partner stands between it and the item
    have laterAfter := placed.item_before pops inRest
    have sameKey := (mergePartner_eq_some paired).2.2.1
    have laterKey : later.key = item.key := by
      rcases laterAfter with less | ⟨same, -⟩
      · rcases sooner with lessOther | ⟨sameOther, -⟩
        · exact absurd (less.trans lessOther) (sameKey ▸ lt_irrefl _)
        · exact sameOther.trans sameKey
      · exact same.symm
    have inUnion := drained.mem_union (pops.mem_of_rest inRest)
    exact clean partner other paired later inUnion laterKey
      ⟨Entry.raw_lt_of_before sooner (laterKey.trans sameKey.symm),
        Entry.raw_lt_of_before laterAfter laterKey.symm⟩

theorem nothingBetween_of_folds {encrypted full : Bool} {floor : Nat}
    (safe : FoldsSafely encrypted full floor inputs)
    (folds : Folds encrypted floor inputs index item next) : NothingBetween inputs ⟨next, item⟩ := by
  rintro entry mem key ⟨above, below⟩
  obtain ⟨table, inInputs, inTable⟩ := mem_flatMap.mp mem
  obtain ⟨position, isTable⟩ := mem_iff_getElem?.mp inInputs
  by_cases own : index = position
  · exact (safe index item next folds).1 table (own ▸ isTable) entry inTable key ⟨above, below⟩
  · have := folds.newest position table own isTable entry inTable key below
    simp only at above
    omega

end Partner

/-- The invariant of the loop over safe inputs. -/
structure Clean (inputs : List Sstable) (state : MergeState) : Prop where
  drained : Drained inputs state.sources
  calls : ∀ call ∈ state.calls, NothingBetween inputs call

section Clean

variable {config : MergeConfig} {inputs : List Sstable} {state : MergeState} {index : Nat}
  {item : Entry}

theorem Clean.partner (placed : state.Placed) (clean : Clean inputs state)
    (pops : state.Pops index item)
    (safe : FoldsSafely config.encrypted config.isFullCompaction config.minSnapshotSeq inputs)
    {partner : Nat} {next : Entry}
    (paired : mergePartner config (state.heapDuring index) item = some (partner, next)) :
    NothingBetween inputs ⟨next, item⟩ :=
  nothingBetween_of_folds safe (folds_of_partner placed clean.drained pops paired)

theorem clean_initial (inputs : List Sstable) : Clean inputs (initial inputs) :=
  ⟨drained_initial inputs, by simp [initial]⟩

theorem Clean.round (placed : state.Placed) (clean : Clean inputs state)
    (pops : state.Pops index item)
    (safe : FoldsSafely config.encrypted config.isFullCompaction config.minSnapshotSeq inputs)
    {after : MergeState} (round : Round config state index item after) : Clean inputs after where
  drained := clean.drained.round placed pops round fun _ _ paired =>
    clean.partner placed pops safe paired
  calls call mem := by
    cases round with
    | alone builder silent grown => exact clean.calls call mem
    | failed builder partner other paired grown
    | merged builder partner other mergedVal paired grown =>
      rcases mem_append.mp mem with old | new
      · exact clean.calls call old
      · exact mem_singleton.mp new ▸ clean.partner placed pops safe paired

theorem callsOf_clean (distinct : DistinctVersions (union inputs))
    (safe : FoldsSafely config.encrypted config.isFullCompaction config.minSnapshotSeq inputs) :
    ∀ call ∈ callsOf (mergeSstables config inputs), NothingBetween inputs call := by
  have placed := initial_placed distinct
  have preserved (state : MergeState) (index : Nat) (item : Entry) (after : MergeState)
      (placed : state.Placed) (pops : state.Pops index item) (clean : Clean inputs state)
      (round : Round config state index item after) : Clean inputs after :=
    clean.round placed pops safe round
  intro call mem
  cases result : mergeSstables config inputs with
  | ok final =>
    rw [result] at mem
    exact (loop_invariant preserved placed (clean_initial inputs) result).calls call mem
  | error failure =>
    rw [result] at mem
    obtain ⟨last, index, item, lastPlaced, pops, clean, failed⟩ :=
      loop_error preserved placed (clean_initial inputs) result
    obtain ⟨partner, next, paired, calls⟩ := body_error lastPlaced pops failed
    rw [callsOf, calls] at mem
    rcases mem_append.mp mem with old | new
    · exact clean.calls call old
    · exact mem_singleton.mp new ▸ clean.partner lastPlaced pops safe paired

end Clean

/-- `deleted` is a tombstone above which its key has versions above the floor only. -/
structure Deletes (config : MergeConfig) (inputs : List Sstable) (deleted : Entry) : Prop where
  tombstone : deleted.seq.tombstone = true
  floor : ∀ entry ∈ union inputs, entry.key = deleted.key → deleted.raw < entry.raw →
    config.minSnapshotSeq < entry.raw

/-- Until it is popped no version of the key is the floor version, and then it is written
or collected. -/
structure Written (config : MergeConfig) (deleted : Entry) (state : MergeState) : Prop where
  pending : deleted ∈ state.sources.flatten → state.lastKey = some deleted.key →
    state.floorEmitted = false
  popped : deleted ∉ state.sources.flatten →
    deleted ∈ state.builder.entries ∨ collects config deleted = true

/-- A collected tombstone buries the rest of its key. -/
structure Buried (deleted : Entry) (state : MergeState) : Prop where
  rest : deleted ∉ state.sources.flatten → ∀ entry ∈ state.sources.flatten,
    deleted.Before entry ∧ (entry.key = deleted.key →
      state.lastKey = some deleted.key ∧ state.floorEmitted = true)
  nothing : ∀ entry ∈ state.builder.entries, entry.key = deleted.key → deleted.raw < entry.raw

section Tombstone

variable {config : MergeConfig} {inputs : List Sstable} {state after : MergeState} {index : Nat}
  {item deleted : Entry}

theorem written_initial (config : MergeConfig) {inputs : List Sstable} {deleted : Entry}
    (mem : deleted ∈ union inputs) : Written config deleted (initial inputs) where
  pending _ current := by simp [initial] at current
  popped gone := absurd (initial_flatten inputs ▸ mem) gone

theorem Written.round (placed : state.Placed) (drained : Drained inputs state.sources)
    (pops : state.Pops index item) (deletes : Deletes config inputs deleted)
    (written : Written config deleted state) (round : Round config state index item after) :
    Written config deleted after := by
  by_cases isItem : deleted = item
  · subst isItem
    have gone : deleted ∉ after.sources.flatten := fun left =>
      Entry.before_irrefl deleted (placed.item_before pops (round.sources_subset left))
    have noPartner (partner : Nat) (next : Entry) :
        mergePartner config (state.heapDuring index) deleted ≠ some (partner, next) := fun paired =>
      absurd (mergePartner_eq_some paired).1.2.1 (by simp [deletes.tombstone])
    refine ⟨fun left => absurd left gone, fun _ => ?_⟩
    cases round with
    | alone builder silent grown =>
      have fresh : state.flagOf deleted = false := by
        unfold flagOf
        split
        · exact written.pending pops.mem ‹_›
        · rfl
      cases collected : collects config deleted with
      | true => exact .inr rfl
      | false =>
        refine .inl ?_
        simp [grown, emission, fresh, keeps, collected]
    | failed builder partner next paired grown => exact absurd paired (noPartner _ _)
    | merged builder partner next mergedVal paired grown => exact absurd paired (noPartner _ _)
  · refine ⟨fun left current => ?_, fun gone => ?_⟩
    · have inRest := round.sources_subset left
      rw [round.lastKey, Option.some.injEq] at current
      -- the item is a version above the tombstone, so above the floor
      have newer := Entry.raw_lt_of_before (placed.item_before pops inRest) current
      have above := deletes.floor item (drained.mem_union pops.mem) current newer
      have noPartner (partner : Nat) (next : Entry) :
          mergePartner config (state.heapDuring index) item ≠ some (partner, next) := fun paired => by
        have := (mergePartner_eq_some paired).1.2.2
        omega
      cases round with
      | alone builder silent grown =>
        simp only [emittedAfter, above, if_true, flagOf]
        split
        · rename_i isLast
          exact written.pending (pops.mem_of_rest inRest) (current ▸ isLast)
        · rfl
      | failed builder partner next paired grown => exact absurd paired (noPartner _ _)
      | merged builder partner next mergedVal paired grown => exact absurd paired (noPartner _ _)
    · have goneBefore : deleted ∉ state.sources.flatten := fun left =>
        gone (round.keeps_tombstone pops deletes.tombstone left isItem)
      exact (written.popped goneBefore).imp_left round.builder_subset

theorem buried_initial {inputs : List Sstable} {deleted : Entry}
    (mem : deleted ∈ union inputs) : Buried deleted (initial inputs) where
  rest gone := absurd (initial_flatten inputs ▸ mem) gone
  nothing entry inOutput := by simp [initial, Sstable.empty] at inOutput

theorem Buried.round (placed : state.Placed) (clean : Clean inputs state)
    (pops : state.Pops index item) (deletes : Deletes config inputs deleted)
    (collected : collects config deleted = true)
    (noFold : ∀ index item next,
      Folds config.encrypted config.minSnapshotSeq inputs index item next →
        item.key ≠ deleted.key)
    (buried : Buried deleted state) (round : Round config state index item after) :
    Buried deleted after := by
  have below : deleted.raw < config.minSnapshotSeq := by
    simp only [collects, Bool.and_eq_true, decide_eq_true_eq] at collected
    exact collected.2
  have noPartner (same : item.key = deleted.key) (partner : Nat) (next : Entry) :
      mergePartner config (state.heapDuring index) item ≠ some (partner, next) := fun paired =>
    noFold index item next (folds_of_partner placed clean.drained pops paired) same
  by_cases isItem : deleted = item
  · subst isItem
    cases round with
    | failed builder partner next paired grown => exact absurd paired (noPartner rfl _ _)
    | merged builder partner next mergedVal paired grown => exact absurd paired (noPartner rfl _ _)
    | alone builder silent grown =>
      have nothing : emission config (state.flagOf deleted) deleted = [] := by
        simp [emission, collected]
      refine ⟨fun _ entry left => ⟨placed.item_before pops left, fun _ => ⟨rfl, ?_⟩⟩, ?_⟩
      · simp [emittedAfter, not_lt.mpr below.le]
      · rw [grown, nothing, append_nil]
        exact buried.nothing
  · by_cases left : deleted ∈ state.sources.flatten
    · have still := round.keeps_tombstone pops deletes.tombstone left isItem
      have later := placed.item_before pops (round.sources_subset still)
      refine ⟨fun gone => absurd still gone, fun entry inOutput key => ?_⟩
      rcases round.written inOutput with old | ⟨sameKey, sameSeq⟩
      · exact buried.nothing entry old key
      · have newer := Entry.raw_lt_of_before later (sameKey.symm.trans key)
        rwa [show entry.raw = item.raw from congrArg SeqNo.raw sameSeq]
    · obtain ⟨behind, current⟩ := buried.rest left item pops.mem
      by_cases own : item.key = deleted.key
      · -- the key's flag is set and the item is below the floor, so it is dropped
        obtain ⟨isLast, isSet⟩ := current own
        have flag : state.flagOf item = true := by simp [flagOf, own, isLast, isSet]
        have low := Entry.raw_lt_of_before behind own.symm
        have dropped : emission config true item = [] := by
          simp [emission, keeps, not_lt.mpr (low.trans below).le]
        cases round with
        | failed builder partner next paired grown => exact absurd paired (noPartner own _ _)
        | merged builder partner next mergedVal paired grown => exact absurd paired (noPartner own _ _)
        | alone builder silent grown =>
          refine ⟨fun _ entry inRest => ⟨Entry.before_trans _ _ _ behind
            (placed.item_before pops inRest), fun _ => ⟨own ▸ rfl, ?_⟩⟩, ?_⟩
          · simp only [emittedAfter, flag]
            split <;> rfl
          · rw [grown, flag, dropped, append_nil]
            exact buried.nothing
      · have past : deleted.key < item.key := by
          rcases behind with less | ⟨same, -⟩
          · exact less
          · exact absurd same.symm own
        refine ⟨fun _ entry inRest => ?_, fun entry inOutput key => ?_⟩
        · have itemFirst := placed.item_before pops (round.sources_subset inRest)
          refine ⟨Entry.before_trans _ _ _ behind itemFirst, fun key => ?_⟩
          rcases itemFirst with less | ⟨same, -⟩
          · exact absurd (past.trans less) (key ▸ lt_irrefl _)
          · exact absurd (same.trans key) own
        · rcases round.written inOutput with old | ⟨sameKey, -⟩
          · exact buried.nothing entry old key
          · exact absurd (sameKey.symm.trans key) own

theorem output_from_union (distinct : DistinctVersions (union inputs)) {final : MergeState}
    (finished : mergeSstables config inputs = .ok final) :
    ∀ entry ∈ final.builder.entries, ∃ original ∈ union inputs,
      original.key = entry.key ∧ original.raw = entry.raw := by
  let Follows (state : MergeState) : Prop :=
    (∀ entry ∈ state.sources.flatten, entry ∈ union inputs) ∧
      ∀ entry ∈ state.builder.entries, ∃ original ∈ union inputs,
        original.key = entry.key ∧ original.raw = entry.raw
  have preserved (state : MergeState) (index : Nat) (item : Entry) (after : MergeState)
      (_ : state.Placed) (pops : state.Pops index item) (follows : Follows state)
      (round : Round config state index item after) : Follows after := by
    refine ⟨fun entry left => follows.1 entry (pops.mem_of_rest (round.sources_subset left)),
      fun entry inOutput => ?_⟩
    rcases round.written inOutput with old | ⟨key, seq⟩
    · exact follows.2 entry old
    · exact ⟨item, follows.1 item pops.mem, key.symm, congrArg SeqNo.raw seq.symm⟩
  have start : Follows (initial inputs) :=
    ⟨fun entry left => initial_flatten inputs ▸ left, by simp [initial, Sstable.empty]⟩
  exact (loop_invariant preserved (initial_placed distinct) start finished).2

theorem distinctVersions_of_sorted {entries : List Entry} (sorted : entries.Pairwise Entry.Before) :
    DistinctVersions entries :=
  sorted.imp fun before same => (Entry.raw_lt_of_before before same).ne'

theorem reads_deleted (distinct : DistinctVersions (union inputs))
    (safe : FoldsSafely config.encrypted config.isFullCompaction config.minSnapshotSeq inputs)
    {final : MergeState} (finished : mergeSstables config inputs = .ok final) {key : Key}
    {bound : Nat} (above : config.minSnapshotSeq ≤ bound)
    (newest : newestAt (union inputs) key bound = some deleted)
    (tombstone : deleted.seq.tombstone = true) :
    readAt final.builder.entries key bound = none := by
  have visible := isNewest_of_newestAt newest
  obtain ⟨inUnion, rfl⟩ := visible.mem
  have deletes : Deletes config inputs deleted := by
    refine ⟨tombstone, fun entry mem same newer => ?_⟩
    by_contra low
    have := visible.newest entry ⟨mem, same⟩ (by omega)
    omega
  have outputAbove : ∀ entry ∈ final.builder.entries, entry.key = deleted.key →
      entry.raw ≤ bound → entry.raw ≤ deleted.raw := fun entry inOutput same low => by
    obtain ⟨original, inInputs, key, raw⟩ := output_from_union distinct finished entry inOutput
    have := visible.newest original ⟨inInputs, key.trans same⟩ (by omega)
    omega
  have drained := loop_drained (initial_placed distinct) (initial_flatten inputs ▸ le_rfl) finished
  have gone : deleted ∉ final.sources.flatten := by simp [drained]
  have preserved (state : MergeState) (index : Nat) (item : Entry) (after : MergeState)
      (placed : state.Placed) (pops : state.Pops index item)
      (holds : Clean inputs state ∧ Written config deleted state)
      (round : Round config state index item after) :
      Clean inputs after ∧ Written config deleted after :=
    ⟨holds.1.round placed pops safe round,
      holds.2.round placed holds.1.drained pops deletes round⟩
  have written := (loop_invariant preserved (initial_placed distinct)
    ⟨clean_initial inputs, written_initial config inUnion⟩ finished).2
  rcases written.popped gone with inOutput | collected
  · -- the tombstone itself answers the read
    have answers : IsNewest Entry.raw (versionSet final.builder.entries deleted.key) bound deleted :=
      ⟨⟨inOutput, rfl⟩, visible.le, fun entry member low => outputAbove entry member.1 member.2 low⟩
    rw [readAt, (newestAt_eq_some (distinctVersions_of_sorted final.builder.sorted)).mpr answers]
    exact Entry.live_eq_none tombstone
  · have noFold (index : Nat) (item next : Entry)
        (folds : Folds config.encrypted config.minSnapshotSeq inputs index item next) :
        item.key ≠ deleted.key := fun same => by
      simp only [collects, Bool.and_eq_true, decide_eq_true_eq] at collected
      refine (safe index item next folds).2 ⟨collected.1.2, deleted, ?_, tombstone, collected.2⟩
      rw [same, newestAt_eq_some distinct]
      exact ⟨⟨inUnion, rfl⟩, collected.2.le, fun entry member low =>
        visible.newest entry member (low.trans above)⟩
    have preservedBuried (state : MergeState) (index : Nat) (item : Entry) (after : MergeState)
        (placed : state.Placed) (pops : state.Pops index item)
        (holds : Clean inputs state ∧ Buried deleted state)
        (round : Round config state index item after) :
        Clean inputs after ∧ Buried deleted after :=
      ⟨holds.1.round placed pops safe round,
        holds.2.round placed holds.1 pops deletes collected noFold round⟩
    have buried := (loop_invariant preservedBuried (initial_placed distinct)
      ⟨clean_initial inputs, buried_initial inUnion⟩ finished).2
    have empty : newestAt final.builder.entries deleted.key bound = none := by
      refine newestAt_eq_none.mpr fun entry member => ?_
      by_contra low
      have upper := outputAbove entry member.1 member.2 (not_lt.mp low)
      have lower := buried.nothing entry member.1 member.2
      omega
    rw [readAt, empty]
    rfl

theorem neverBringsBack_of_safe (distinct : DistinctVersions (union inputs))
    (safe : FoldsSafely config.encrypted config.isFullCompaction config.minSnapshotSeq inputs) :
    NeverBringsBack config inputs where
  reads _ finished _ _ _ above newest tombstone :=
    reads_deleted distinct safe finished above newest tombstone
  calls := callsOf_clean distinct safe

end Tombstone

/-- The operator that fails in its first `failures` calls and then gives the empty value. -/
def laterOperator (failures : Nat) : MergeOperator := fun call _ _ =>
  if call < failures then none else some []

section Adversary

variable {encrypted full : Bool} {floor : Nat} {inputs : List Sstable} {state : MergeState}
  {index : Nat} {item next : Entry}

/-- The compaction under test, with the operator that fails `failures` times. -/
def later (encrypted full : Bool) (floor failures : Nat) : MergeConfig :=
  ⟨some (laterOperator failures), encrypted, floor, full⟩

theorem loop_total (failures : Nat) (placed : state.Placed) (fuel : Nat) :
    ∃ final, state.loop (later encrypted full floor failures) fuel = .ok final ∧
      (∀ entry ∈ state.builder.entries, entry ∈ final.builder.entries) ∧
      ∀ call ∈ state.calls, call ∈ final.calls := by
  induction fuel generalizing state with
  | zero => exact ⟨state, rfl, fun _ => id, fun _ => id⟩
  | succ fuel ih =>
    cases chosen : firstHead Entry.Before state.sources with
    | none => exact ⟨state, by simp [loop, chosen], fun _ => id, fun _ => id⟩
    | some pick =>
      obtain ⟨index, item⟩ := pick
      have pops : state.Pops index item := chosen
      cases taken : state.body (later encrypted full floor failures) index item with
      | error failure =>
        obtain ⟨partner, next, paired, -⟩ := body_error placed pops taken
        cases gives : laterOperator failures state.calls.length next.value item.value with
        | none =>
          obtain ⟨builder, -, result⟩ := body_failed placed pops rfl paired gives
          cases result.symm.trans taken
        | some mergedVal =>
          have small : mergedVal.length ≤ maxValueSize := by
            simp only [laterOperator] at gives
            split at gives
            · cases gives
            · obtain rfl := Option.some.inj gives
              exact Nat.zero_le _
          obtain ⟨builder, -, result⟩ := body_merged placed pops rfl paired gives small
          cases result.symm.trans taken
      | ok after =>
        have round := round_of_body placed pops taken
        obtain ⟨final, finished, entries, calls⟩ :=
          ih (round.placed placed pops)
        exact ⟨final, by simp only [loop, chosen, taken, finished],
          fun entry inOutput => entries entry (round.builder_subset inOutput),
          fun call called => calls call (round.calls_subset called)⟩

theorem body_later (failures others : Nat)
    (fails : mergePartner (later encrypted full floor 0) (state.heapDuring index) item = none ∨
      (state.calls.length < failures ∧ state.calls.length < others)) :
    state.body (later encrypted full floor failures) index item =
      state.body (later encrypted full floor others) index item := by
  have same (count : Nat) :
      mergePartner (later encrypted full floor count) (state.heapDuring index) item =
        mergePartner (later encrypted full floor 0) (state.heapDuring index) item := rfl
  rcases fails with silent | ⟨first, second⟩
  · rw [body_of_alone (.inr ((same failures).trans silent)),
      body_of_alone (.inr ((same others).trans silent))]
    rfl
  · cases paired : mergePartner (later encrypted full floor 0) (state.heapDuring index) item with
    | none =>
      rw [body_of_alone (.inr ((same failures).trans paired)),
        body_of_alone (.inr ((same others).trans paired))]
      rfl
    | some pick =>
      rw [body_of_partner rfl ((same failures).trans paired),
        body_of_partner rfl ((same others).trans paired)]
      simp only [MergeState.merge, opened, laterOperator, first, second, if_true]
      rfl

theorem table_unique (distinct : DistinctVersions (union inputs)) {first second : Nat}
    {table other : Sstable} {entry : Entry} (isTable : inputs[first]? = some table)
    (isOther : inputs[second]? = some other) (inTable : entry ∈ table.entries)
    (inOther : entry ∈ other.entries) : first = second := by
  obtain ⟨insideFirst, rfl⟩ := List.getElem?_eq_some_iff.mp isTable
  obtain ⟨insideSecond, rfl⟩ := List.getElem?_eq_some_iff.mp isOther
  have across := (pairwise_flatMap.mp distinct).2
  rcases lt_trichotomy first second with less | same | more
  · exact absurd rfl (pairwise_iff_getElem.mp across first second insideFirst insideSecond
      less entry inTable entry inOther rfl)
  · exact same
  · exact absurd rfl (pairwise_iff_getElem.mp across second first insideSecond insideFirst
      more entry inOther entry inTable rfl)

theorem exists_fold (distinct : DistinctVersions (union inputs))
    (folds : Folds encrypted floor inputs index item next) (fuel : Nat) (placed : state.Placed)
    (drained : Drained inputs state.sources) (left : item ∈ state.sources.flatten)
    (enough : state.sources.flatten.length ≤ fuel) :
    ∃ failures, state.calls.length ≤ failures ∧ ∃ final,
      state.loop (later encrypted full floor failures) fuel = .ok final ∧
      ⟨next, item⟩ ∈ final.calls ∧
      ∃ merged ∈ final.builder.entries, merged.key = item.key ∧ merged.seq = item.seq := by
  induction fuel generalizing state with
  | zero =>
    have empty := length_eq_zero_iff.mp (Nat.le_zero.mp enough)
    simp [empty] at left
  | succ fuel ih =>
    cases chosen : firstHead Entry.Before state.sources with
    | none => simp [flatten_eq_nil_iff.mpr (firstHead_eq_none.mp chosen)] at left
    | some pick =>
      obtain ⟨position, popped⟩ := pick
      have pops : state.Pops position popped := chosen
      by_cases isItem : item = popped
      · subst isItem
        obtain ⟨tail, found⟩ := firstHead_getElem? pops
        obtain ⟨table, isTable, entries⟩ := drained.table found
        obtain ⟨own, isOwn, inOwn⟩ := folds.own
        obtain rfl := table_unique distinct isOwn isTable inOwn (entries item mem_cons_self)
        obtain ⟨partner, paired⟩ :=
          @partner_of_folds (later encrypted full floor state.calls.length) _ _ _ _ _ placed
            drained pops folds
        obtain ⟨builder, grown, taken⟩ := body_merged placed pops rfl paired
          (show laterOperator state.calls.length state.calls.length next.value item.value =
            some [] by simp [laterOperator]) (Nat.zero_le _)
        have round := round_of_body placed pops taken
        obtain ⟨final, finished, outputs, calls⟩ :=
          @loop_total encrypted full floor _ state.calls.length (round.placed placed pops) fuel
        refine ⟨state.calls.length, le_rfl, final,
          by simp only [loop, chosen, taken, finished], calls _ (by simp),
          { item with value := [] }, outputs _ (by simp [grown]), rfl, rfl⟩
      · obtain ⟨tail, found⟩ := firstHead_getElem? pops
        have rest := (mem_cons.mp (pops.perm.mem_iff.mp left)).resolve_left isItem
        have shorter := pops.perm.length_eq
        simp only [length_cons] at shorter
        have drainedRest := drained.advance found fun other => placed.item_before pops
        let failing := later encrypted full floor (state.calls.length + 1)
        cases paired : mergePartner failing (state.heapDuring position) popped with
        | none =>
          obtain ⟨builder, grown, taken⟩ := body_alone placed pops (.inr paired)
          have round := round_of_body placed pops taken
          obtain ⟨failures, many, final, finished, called, written⟩ :=
            ih (round.placed placed pops) drainedRest rest (by simp only; omega)
          refine ⟨failures, many, final, ?_, called, written⟩
          rw [← body_later failures (state.calls.length + 1) (.inl paired)] at taken
          simp only [loop, chosen, taken, finished]
        | some pick =>
          obtain ⟨partner, other⟩ := pick
          obtain ⟨builder, grown, taken⟩ := body_failed placed pops rfl paired
            (show laterOperator (state.calls.length + 1) state.calls.length other.value
              popped.value = none by simp [laterOperator])
          have round := round_of_body placed pops taken
          obtain ⟨failures, many, final, finished, called, written⟩ :=
            ih (round.placed placed pops) drainedRest rest (by simp only; omega)
          simp only [length_append, length_singleton] at many
          refine ⟨failures, by omega, final, ?_, called, written⟩
          rw [← body_later failures (state.calls.length + 1) (.inr ⟨by omega, by omega⟩)] at taken
          simp only [loop, chosen, taken, finished]

theorem output_noLowTombstone {config : MergeConfig} (distinct : DistinctVersions (union inputs))
    (isFull : config.isFullCompaction = true) {final : MergeState}
    (finished : mergeSstables config inputs = .ok final) :
    ∀ entry ∈ final.builder.entries, entry.seq.tombstone = true →
      config.minSnapshotSeq ≤ entry.raw := by
  let High (state : MergeState) : Prop := ∀ entry ∈ state.builder.entries,
    entry.seq.tombstone = true → config.minSnapshotSeq ≤ entry.raw
  have emitted (flag : Bool) (item entry : Entry) (inEmission : entry ∈ emission config flag item)
      (tombstone : entry.seq.tombstone = true) : config.minSnapshotSeq ≤ entry.raw := by
    obtain rfl := mem_singleton.mp ((emission_sublist config flag item).subset inEmission)
    by_contra low
    have collected : collects config entry = true := by
      simp [collects, tombstone, isFull, not_le.mp low]
    simp [emission, collected] at inEmission
  have preserved (state : MergeState) (index : Nat) (item : Entry) (after : MergeState)
      (_ : state.Placed) (_ : state.Pops index item) (high : High state)
      (round : Round config state index item after) : High after := by
    intro entry inOutput tombstone
    cases round with
    | alone builder silent grown
    | failed builder partner next paired grown =>
      rw [grown] at inOutput
      rcases mem_append.mp inOutput with old | new
      · exact high entry old tombstone
      · exact emitted _ item entry new tombstone
    | merged builder partner next mergedVal paired grown =>
      rw [grown] at inOutput
      rcases mem_append.mp inOutput with old | new
      · exact high entry old tombstone
      · obtain rfl := mem_singleton.mp new
        exact absurd (mergePartner_eq_some paired).1.2.1 (by simpa using tombstone)
  have start : High (initial inputs) := by simp [High, initial, Sstable.empty]
  exact loop_invariant preserved (initial_placed distinct) start finished

/-- No operator brings deleted data back exactly when the inputs can be folded safely. -/
theorem neverBringsBack_iff (encrypted full : Bool) (floor : Nat) (inputs : List Sstable)
    (distinct : DistinctVersions (union inputs)) :
    (∀ operator : MergeOperator,
        NeverBringsBack ⟨some operator, encrypted, floor, full⟩ inputs) ↔
      FoldsSafely encrypted full floor inputs := by
  constructor
  · intro never index item next folds
    obtain ⟨own, isOwn, inOwn⟩ := folds.own
    have inUnion {table : Sstable} {entry : Entry} (isTable : inputs[index]? = some table)
        (inTable : entry ∈ table.entries) : entry ∈ union inputs :=
      mem_flatMap.mpr ⟨table, mem_of_getElem? isTable, inTable⟩
    obtain ⟨failures, -, final, finished, called, written, inOutput, sameKey, sameSeq⟩ :=
      @exists_fold encrypted full floor inputs (initial inputs) index item next distinct folds
        (union inputs).length (initial_placed distinct) (drained_initial inputs)
        (initial_flatten inputs ▸ inUnion isOwn inOwn) (initial_flatten inputs ▸ le_rfl)
    have result : mergeSstables (later encrypted full floor failures) inputs = .ok final := finished
    have holds := never (laterOperator failures)
    refine ⟨fun table isTable entry inTable key between => ?_, ?_⟩
    · have inCalls : ⟨next, item⟩ ∈ callsOf (mergeSstables (later encrypted full floor failures)
          inputs) := by
        rw [result]
        exact called
      exact holds.calls ⟨next, item⟩ inCalls entry (inUnion isTable inTable) key between
    · rintro ⟨isFull, deleted, newest, tombstone, low⟩
      have missing := holds.reads final finished item.key floor deleted le_rfl newest tombstone
      have writtenRaw : written.raw = item.raw := congrArg SeqNo.raw sameSeq
      -- what the output holds of the key at the floor is a put
      cases found : newestAt final.builder.entries item.key floor with
      | none =>
        have high := newestAt_eq_none.mp found written ⟨inOutput, sameKey⟩
        have := folds.itemBelow
        omega
      | some answer =>
        have visible := isNewest_of_newestAt found
        have live : answer.seq.tombstone = false := by
          by_contra isTombstone
          have high := output_noLowTombstone distinct
            (show (later encrypted full floor failures).isFullCompaction = true from isFull)
            finished answer visible.mem.1 (by simpa using isTombstone)
          obtain ⟨original, inInputs, key, raw⟩ :=
            output_from_union distinct finished answer visible.mem.1
          have upper := (isNewest_of_newestAt newest).newest original
            ⟨inInputs, key.trans visible.mem.2⟩ (raw.trans_le visible.le)
          simp only [later] at high
          omega
        rw [readAt, found] at missing
        simp [Entry.live, live] at missing
  · exact fun safe operator =>
      @neverBringsBack_of_safe ⟨some operator, encrypted, floor, full⟩ inputs distinct safe

/-- Two puts in two tables fold safely, in a full compaction too. -/
theorem twoPuts_neverBringBack :
    let newer : Sstable := ⟨[.put (.ofByte 1) [9] 5 2], by simp, by decide⟩
    let older : Sstable := ⟨[.put (.ofByte 1) [7] 3 1], by simp, by decide⟩
    NeverBringsBack ⟨some fun _ existing new => some (existing ++ new), false, 10, true⟩
      [newer, older] := by
  intro newer older
  refine (neverBringsBack_iff false true 10 [newer, older] (by decide)).mpr ?_ _
  have raws : ∀ entry ∈ union [newer, older],
      (entry.raw = 5 ∨ entry.raw = 3) ∧ entry.seq.tombstone = false := by decide
  have inUnion {position : Nat} {table : Sstable} {entry : Entry}
      (isTable : [newer, older][position]? = some table) (inTable : entry ∈ table.entries) :
      entry ∈ union [newer, older] :=
    mem_flatMap.mpr ⟨table, mem_of_getElem? isTable, inTable⟩
  intro index item next folds
  obtain ⟨own, isOwn, inOwn⟩ := folds.own
  obtain ⟨partner, table, -, isTable, inTable⟩ := folds.other
  have itemRaw := (raws item (inUnion isOwn inOwn)).1
  have nextRaw := (raws next (inUnion isTable inTable)).1
  refine ⟨fun other isOther entry inOther _ between => ?_, ?_⟩
  · have entryRaw := (raws entry (inUnion isOther inOther)).1
    omega
  · rintro ⟨-, deleted, newest, tombstone, -⟩
    have live := (raws deleted (isNewest_of_newestAt newest).mem.1).2
    simp [live] at tombstone

/-- A put over a tombstone in one table, an older put in another: the operator is called
on the two puts and the tombstone between them is not in its result. -/
theorem foldAcrossTombstone :
    ¬ ∀ (operator : MergeOperator) (encrypted full : Bool) (floor : Nat) (inputs : List Sstable),
      DistinctVersions (union inputs) →
        NeverBringsBack ⟨some operator, encrypted, floor, full⟩ inputs := by
  intro never
  let newer : Sstable :=
    ⟨[.put (.ofByte 1) [9] 5 3, .delete (.ofByte 1) 4 2], by decide, by decide⟩
  let older : Sstable := ⟨[.put (.ofByte 1) [7] 3 1], by simp, by decide⟩
  have calls := (never (fun _ existing new => some (existing ++ new)) false false 10
    [newer, older] (by decide)).calls
  exact calls ⟨.put (.ofByte 1) [7] 3 1, .put (.ofByte 1) [9] 5 3⟩ (by decide)
    (.delete (.ofByte 1) 4 2) (by decide) rfl (by decide)

end Adversary

end Contextra.Store
