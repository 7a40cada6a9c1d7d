import Contextra.Library.Run
import Contextra.Store.Manifest

/-!
# Flush, compaction and MANIFEST rollover

The MANIFEST and the table list are changed under different locks.  A flush appends `Add` and pushes
its table in a later step; a compaction appends `Replace` and swaps in a later step, with the write
lock of the list; a rollover reads the list under its read lock and rewrites the file in a later
step, under the lock of the file alone.
-/

namespace Contextra.Store

open Library Manifest List Option

/-- An entry of the table list.  Every reader gets a new `handle`, so two entries are
equal exactly when `Arc::ptr_eq` says so. -/
structure TableRef where
  handle : Nat
  path : Path
  maxTx : TxId
  maxSeq : Nat
  deriving DecidableEq

/-- Where the flush that holds `flush_mutex` stands. -/
inductive FlushPhase where
  | idle
  | built (table : TableRef)
  | appended (table : TableRef)
  | pushed
  deriving DecidableEq

/-- Where a call of `maybe_compact`, or a round of `run_loop`, stands. -/
inductive TaskPhase where
  | idle
  | merging (background : Bool) (inputs : List TableRef)
  | swapping
  /-- The live list is read next, for a rollover. -/
  | checking
  | holding (liveEntries : Manifest)
  deriving DecidableEq

/-- The holder of the write lock between its `Replace` and its swap. -/
structure Swap where
  task : Nat
  inputs : List TableRef
  output : TableRef
  deriving DecidableEq

structure TableState where
  manifest : Manifest
  sstables : List TableRef
  flush : FlushPhase
  tasks : List TaskPhase
  writer : Option Swap
  nextHandle : Nat
  deriving DecidableEq

inductive TableEvent where
  | flushBuild (path : Path) (maxTx : TxId) (maxSeq : Nat)
  | flushFail
  | flushAppend (checkpoint : Option Bytes)
  | flushPush
  | flushDeleteWals
  | selectInputs (task : Nat) (background : Bool) (inputs : List TableRef)
  | nothingToCompact (task : Nat)
  | mergeFail (task : Nat)
  | discard (task : Nat)
  | replaceAppend (task : Nat) (path : Path) (maxTx : TxId) (maxSeq : Nat)
  | swap (task : Nat)
  | readLive (task : Nat)
  | rollover (task : Nat)

namespace TableState

/-- `sort_by_key(max_seq)`, stable. -/
def sortByMaxSeq (tables : List TableRef) : List TableRef :=
  tables.insertionSort fun left right => left.maxSeq ≤ right.maxSeq

def position (tables : List TableRef) (table : TableRef) : Option Nat :=
  tables.findIdx? fun other => other = table

def isContiguous (tables inputs : List TableRef) : Bool :=
  match inputs.head? with
  | none => false
  | some first =>
    match position tables first with
    | none => false
    | some start =>
      (tables.drop start).take inputs.length = inputs

/-- `retain`, `insert` at the window's place and the sort of the swap. -/
def swapTables (tables inputs : List TableRef) (output : TableRef) : List TableRef :=
  let insertionPoint := (inputs.head?.bind (position tables)).getD 0
  let kept := tables.filter fun table => table ∉ inputs
  sortByMaxSeq (kept.insertIdx (min insertionPoint kept.length) output)

/-- The `Add` entries of the live list. -/
def liveEntries (tables : List TableRef) : Manifest :=
  tables.map fun table => .add table.path table.maxTx

def setTask (state : TableState) (task : Nat) (phase : TaskPhase) : TableState :=
  { state with tasks := state.tasks.set task phase }

def step (state : TableState) : TableEvent → Option TableState
  | .flushBuild path maxTx maxSeq =>
    match state.flush with
    | .idle => some { state with
        flush := .built ⟨state.nextHandle, path, maxTx, maxSeq⟩
        nextHandle := state.nextHandle + 1 }
    | _ => none
  | .flushFail =>
    match state.flush with
    | .built _ => some { state with flush := .idle }
    | _ => none
  | .flushAppend checkpoint =>
    match state.flush with
    | .built table => some { state with
        manifest := state.manifest.appendBatch
          (.add table.path table.maxTx :: (checkpoint.map ManifestEntry.walCheckpoint).toList)
        flush := .appended table }
    | _ => none
  | .flushPush =>
    match state.flush, state.writer with
    | .appended table, none => some { state with
        sstables := sortByMaxSeq (state.sstables ++ [table])
        flush := .pushed }
    | _, _ => none
  | .flushDeleteWals =>
    match state.flush with
    | .pushed => some { state with flush := .idle }
    | _ => none
  | .selectInputs task background inputs =>
    match state.tasks[task]?, state.writer with
    | some .idle, none =>
      if 2 ≤ inputs.length ∧ ∀ input ∈ inputs, input ∈ state.sstables then
        some (state.setTask task (.merging background inputs))
      else none
    | _, _ => none
  | .nothingToCompact task =>
    -- `run_loop` on `Ok(false)`
    match state.tasks[task]? with
    | some .idle => some (state.setTask task .checking)
    | _ => none
  | .mergeFail task =>
    match state.tasks[task]? with
    | some (.merging _ _) => some (state.setTask task .idle)
    | _ => none
  | .discard task =>
    match state.tasks[task]?, state.writer with
    | some (.merging background inputs), none =>
      if isContiguous state.sstables inputs then none
      else some (state.setTask task (if background then .checking else .idle))
    | _, _ => none
  | .replaceAppend task path maxTx maxSeq =>
    match state.tasks[task]?, state.writer with
    | some (.merging _ inputs), none =>
      if isContiguous state.sstables inputs then
        some { state.setTask task .swapping with
          manifest := state.manifest.appendBatch
            [.replace (inputs.map TableRef.path) path maxTx]
          writer := some ⟨task, inputs, ⟨state.nextHandle, path, maxTx, maxSeq⟩⟩
          nextHandle := state.nextHandle + 1 }
      else none
    | _, _ => none
  | .swap task =>
    match state.writer with
    | some holder =>
      if holder.task = task then
        some { state.setTask task .checking with
          sstables := swapTables state.sstables holder.inputs holder.output
          writer := none }
      else none
    | none => none
  | .readLive task =>
    match state.tasks[task]?, state.writer with
    | some .checking, none => some (state.setTask task (.holding (liveEntries state.sstables)))
    | _, _ => none
  | .rollover task =>
    match state.tasks[task]? with
    | some (.holding entries) => some { state.setTask task .idle with
        manifest := state.manifest.maybeRollover entries defaultRolloverThresholdBytes }
    | _ => none

def Live (tables : List TableRef) (name : String) : Prop :=
  ∃ table ∈ tables, table.path.fileName = name

structure Quiet (state : TableState) : Prop where
  flush : state.flush = .idle
  tasks : ∀ phase ∈ state.tasks, phase = .idle
  writer : state.writer = none

/-- The MANIFEST and the table list name the same files. -/
def Agrees (state : TableState) : Prop :=
  ∀ name, state.manifest.Valid name ↔ Live state.sstables name

/-- At a rewrite of the file the entries in hand name the tables of the list, and no
table is between its append and its appearance in the list. -/
def RewritesCurrent (state : TableState) (entries : Manifest) : Prop :=
  (∀ name, (∃ path maxTx, .add path maxTx ∈ entries ∧ path.fileName = name) ↔
      Live state.sstables name) ∧
    (∀ table, state.flush ≠ .appended table) ∧ state.writer = none

/-- No file name of an input is that of another table, listed or about to be pushed. -/
def RemovesOwnNames (state : TableState) (inputs : List TableRef) : Prop :=
  ∀ input ∈ inputs,
    (∀ table ∈ state.sstables, table ∉ inputs →
      table.path.fileName ≠ input.path.fileName) ∧
    ∀ table, state.flush = .appended table → table.path.fileName ≠ input.path.fileName

/-- The condition on a step: a rollover that rewrites the file holds a current list, and
a compaction removes the names of its inputs only. -/
def Sparing (state : TableState) : TableEvent → Prop
  | .rollover task => ∀ entries, state.tasks[task]? = some (.holding entries) →
      defaultRolloverThresholdBytes ≤ state.manifest.fileSize → RewritesCurrent state entries
  | .replaceAppend task _ _ _ => ∀ background inputs,
      state.tasks[task]? = some (.merging background inputs) → RemovesOwnNames state inputs
  | _ => True

/-- The names the MANIFEST must hold: a swap under way counts as done, and so does a
flush that has appended. -/
def Expected (state : TableState) (name : String) : Prop :=
  (match state.writer with
    | none => Live state.sstables name
    | some holder =>
      Live (state.sstables.filter fun table => table ∉ holder.inputs) name ∨
        name = holder.output.path.fileName) ∨
    ∃ table, state.flush = .appended table ∧ name = table.path.fileName

/-- The invariant: the MANIFEST holds the expected names, snapshots are made of `Add`
entries, and the inputs of a swap are tables of the list. -/
structure Consistent (state : TableState) : Prop where
  valid : ∀ name, state.manifest.Valid name ↔ state.Expected name
  adds : ∀ entries, .holding entries ∈ state.tasks →
    ∀ entry ∈ entries, ∃ path maxTx, entry = .add path maxTx

variable {tables : List TableRef}

theorem mem_sortByMaxSeq {table : TableRef} :
    table ∈ sortByMaxSeq tables ↔ table ∈ tables := mem_insertionSort _

theorem mem_swapTables {tables inputs : List TableRef} {output table : TableRef} :
    table ∈ swapTables tables inputs output ↔
      table = output ∨ table ∈ tables.filter fun other => other ∉ inputs := by
  rw [swapTables, mem_sortByMaxSeq]
  exact mem_insertIdx (Nat.min_le_right _ _)

variable {name : String}

theorem live_sort : Live (sortByMaxSeq tables) name ↔ Live tables name := by
  simp only [Live, mem_sortByMaxSeq]

theorem live_concat {table : TableRef} :
    Live (tables ++ [table]) name ↔ Live tables name ∨ name = table.path.fileName := by
  simp only [Live, mem_append, mem_singleton]
  constructor
  · rintro ⟨other, old | rfl, rfl⟩
    · exact .inl ⟨other, old, rfl⟩
    · exact .inr rfl
  · rintro (⟨other, old, rfl⟩ | rfl)
    · exact ⟨other, .inl old, rfl⟩
    · exact ⟨table, .inr rfl, rfl⟩

theorem live_swap {tables inputs : List TableRef} {output : TableRef} :
    Live (swapTables tables inputs output) name ↔
      Live (tables.filter fun table => table ∉ inputs) name ∨
        name = output.path.fileName := by
  simp only [Live, mem_swapTables]
  constructor
  · rintro ⟨other, rfl | old, rfl⟩
    · exact .inr rfl
    · exact .inl ⟨other, old, rfl⟩
  · rintro (⟨other, old, rfl⟩ | rfl)
    · exact ⟨other, .inr old, rfl⟩
    · exact ⟨output, .inl rfl, rfl⟩

theorem live_filter {tables inputs : List TableRef} :
    Live (tables.filter fun table => table ∉ inputs) name ↔
      ∃ table ∈ tables, table ∉ inputs ∧ table.path.fileName = name := by
  simp [Live, and_assoc]

variable {state : TableState}

theorem live_without {inputs : List TableRef}
    (own : state.RemovesOwnNames inputs) (name : String) :
    (Live state.sstables name ∧ ∀ path ∈ inputs.map TableRef.path, name ≠ path.fileName) ↔
      Live (state.sstables.filter fun table => table ∉ inputs) name := by
  rw [live_filter]
  constructor
  · rintro ⟨⟨table, mem, rfl⟩, spared⟩
    exact ⟨table, mem, fun isInput => spared table.path
      (List.mem_map_of_mem isInput) rfl, rfl⟩
  · rintro ⟨table, mem, other, rfl⟩
    refine ⟨⟨table, mem, rfl⟩, fun path isPath => ?_⟩
    obtain ⟨input, isInput, rfl⟩ := List.mem_map.mp isPath
    exact (own input isInput).1 table mem other

theorem adds_setTask (adds : ∀ entries, .holding entries ∈ state.tasks →
      ∀ entry ∈ entries, ∃ path maxTx, entry = .add path maxTx)
    {task : Nat} {phase : TaskPhase} (silent : ∀ entries, phase ≠ .holding entries) :
    ∀ entries, .holding entries ∈ state.tasks.set task phase →
      ∀ entry ∈ entries, ∃ path maxTx, entry = .add path maxTx := by
  intro entries holds
  rcases mem_or_eq_of_mem_set holds with old | new
  · exact adds entries old
  · exact absurd new.symm (silent entries)

theorem Consistent.step {state next : TableState} {event : TableEvent}
    (consistent : state.Consistent) (sparing : state.Sparing event)
    (taken : state.step event = some next) : next.Consistent := by
  obtain ⟨valid, adds⟩ := consistent
  cases event with
  | flushBuild path maxTx maxSeq =>
    simp only [TableState.step] at taken
    split at taken
    · rename_i phase
      obtain rfl := some.inj taken
      exact ⟨fun name => by simpa [Expected, phase] using valid name, adds⟩
    · cases taken
  | flushFail =>
    simp only [TableState.step] at taken
    split at taken
    · rename_i table phase
      obtain rfl := some.inj taken
      exact ⟨fun name => by simpa [Expected, phase] using valid name, adds⟩
    · cases taken
  | flushAppend checkpoint =>
    simp only [TableState.step] at taken
    split at taken
    · rename_i table phase
      obtain rfl := some.inj taken
      refine ⟨fun name => ?_, adds⟩
      have before := valid name
      simp only [Expected, phase, reduceCtorEq, false_and, exists_false, or_false] at before
      have appended : Valid (state.manifest.appendBatch (.add table.path table.maxTx ::
          (checkpoint.map ManifestEntry.walCheckpoint).toList)) name ↔
          state.manifest.Valid name ∨ name = table.path.fileName := by
        cases checkpoint with
        | none => exact valid_concat state.manifest (.add table.path table.maxTx) name
        | some hmac =>
          rw [show state.manifest.appendBatch (.add table.path table.maxTx ::
            ((some hmac).map ManifestEntry.walCheckpoint).toList) =
            (state.manifest ++ [.add table.path table.maxTx]) ++ [.walCheckpoint hmac] by
            simp [appendBatch]]
          rw [valid_concat]
          exact valid_concat state.manifest (.add table.path table.maxTx) name
      rw [appended, before]
      simp [Expected]
    · cases taken
  | flushPush =>
    simp only [TableState.step] at taken
    split at taken
    · rename_i table phase free
      obtain rfl := some.inj taken
      refine ⟨fun name => ?_, adds⟩
      have before := valid name
      simp only [Expected, phase, free, FlushPhase.appended.injEq, exists_eq_left'] at before
      simpa [Expected, free, live_sort, live_concat] using before
    · cases taken
  | flushDeleteWals =>
    simp only [TableState.step] at taken
    split at taken
    · rename_i phase
      obtain rfl := some.inj taken
      exact ⟨fun name => by simpa [Expected, phase] using valid name, adds⟩
    · cases taken
  | selectInputs task background inputs =>
    simp only [TableState.step] at taken
    split at taken
    · split at taken
      · obtain rfl := some.inj taken
        exact ⟨valid, adds_setTask adds (by simp)⟩
      · cases taken
    · cases taken
  | nothingToCompact task =>
    simp only [TableState.step] at taken
    split at taken
    · obtain rfl := some.inj taken
      exact ⟨valid, adds_setTask adds (by simp)⟩
    · cases taken
  | mergeFail task =>
    simp only [TableState.step] at taken
    split at taken
    · obtain rfl := some.inj taken
      exact ⟨valid, adds_setTask adds (by simp)⟩
    · cases taken
  | discard task =>
    simp only [TableState.step] at taken
    split at taken
    · split at taken
      · cases taken
      · obtain rfl := some.inj taken
        refine ⟨valid, adds_setTask adds fun entries => ?_⟩
        split <;> simp
    · cases taken
  | replaceAppend task path maxTx maxSeq =>
    simp only [TableState.step] at taken
    split at taken
    · rename_i background inputs merging free
      split at taken
      · obtain rfl := some.inj taken
        have own := sparing background inputs merging
        refine ⟨fun name => ?_, adds_setTask adds (by simp)⟩
        have before := valid name
        simp only [Expected, free] at before
        rw [appendBatch, valid_concat]
        simp only [Expected, setTask, before, ← live_without own]
        -- the flush's name is no input's name
        have flushed (pushed : ∃ table, state.flush = .appended table ∧
            name = table.path.fileName) :
            ∀ removed ∈ inputs.map TableRef.path, name ≠ removed.fileName := by
          obtain ⟨table, appended, rfl⟩ := pushed
          intro removed isRemoved
          obtain ⟨input, isInput, rfl⟩ := List.mem_map.mp isRemoved
          exact (own input isInput).2 table appended
        constructor
        · rintro (⟨live | pushed, spared⟩ | isOutput)
          · exact .inl (.inl ⟨live, spared⟩)
          · exact .inr pushed
          · exact .inl (.inr isOutput)
        · rintro ((⟨live, spared⟩ | isOutput) | pushed)
          · exact .inl ⟨.inl live, spared⟩
          · exact .inr isOutput
          · exact .inl ⟨.inr pushed, flushed pushed⟩
      · cases taken
    · cases taken
  | swap task =>
    simp only [TableState.step] at taken
    split at taken
    · rename_i holder held
      split at taken
      · obtain rfl := some.inj taken
        refine ⟨fun name => ?_, adds_setTask adds (by simp)⟩
        have before := valid name
        simp only [Expected, held] at before
        simpa only [Expected, setTask, live_swap] using before
      · cases taken
    · cases taken
  | readLive task =>
    simp only [TableState.step] at taken
    split at taken
    · obtain rfl := some.inj taken
      refine ⟨valid, fun entries holds => ?_⟩
      rcases mem_or_eq_of_mem_set holds with old | new
      · exact adds entries old
      · rw [TaskPhase.holding.injEq] at new
        subst new
        intro entry mem
        obtain ⟨table, -, rfl⟩ := List.mem_map.mp mem
        exact ⟨table.path, table.maxTx, rfl⟩
    · cases taken
  | rollover task =>
    simp only [TableState.step] at taken
    split at taken
    · rename_i entries holding
      obtain rfl := some.inj taken
      refine ⟨fun name => ?_, adds_setTask adds (by simp)⟩
      by_cases small : state.manifest.fileSize < defaultRolloverThresholdBytes
      · simp only [maybeRollover, small, if_true]
        exact valid name
      · obtain ⟨current, notAppended, free⟩ := sparing entries holding (not_lt.mp small)
        simp only [maybeRollover, small, if_false]
        rw [valid_of_adds (adds entries (mem_of_getElem? holding))]
        simp only [Expected, setTask, free, notAppended, false_and, exists_false, or_false]
        rw [← current name]
        constructor
        · rintro ⟨path, maxTx, mem, rfl⟩
          exact ⟨path, maxTx, mem, rfl⟩
        · rintro ⟨path, maxTx, mem, rfl⟩
          exact ⟨path, maxTx, mem, rfl⟩
    · cases taken

theorem consistent_of_quiet (quiet : state.Quiet) (agrees : state.Agrees) : state.Consistent where
  valid name := by simpa [Expected, quiet.flush, quiet.writer] using agrees name
  adds entries holds := by cases quiet.tasks _ holds

theorem Consistent.agrees (consistent : state.Consistent)
    (quiet : state.Quiet) : state.Agrees := fun name => by
  simpa [Expected, quiet.flush, quiet.writer] using consistent.valid name

/-- In a run from an agreeing state, with every rewrite of the file from a current list,
the MANIFEST and the table list agree whenever no operation is in progress. -/
theorem agrees_of_sparing {start final : TableState} {events : List TableEvent}
    (quiet : start.Quiet) (agrees : start.Agrees)
    (sparing : Along TableState.step Sparing start events)
    (finished : run TableState.step start events = some final) (rests : final.Quiet) :
    final.Agrees := by
  have invariant := run_invariant (fun _ _ _ => Consistent.step)
    (consistent_of_quiet quiet agrees) sparing finished
  exact invariant.agrees rests

/-- A store at rest with the given file and list, and one caller of compaction. -/
def atRest (manifest : Manifest) (sstables : List TableRef) : TableState where
  manifest := manifest
  sstables := sstables
  flush := .idle
  tasks := [.idle]
  writer := none
  nextHandle := sstables.length

theorem quiet_atRest (manifest : Manifest) (sstables : List TableRef) :
    (atRest manifest sstables).Quiet := ⟨rfl, by simp [atRest], rfl⟩

/-- A flush, and then a rollover check of the background loop. -/
theorem flushThenCheck_agrees :
    let events : List TableEvent := [.flushBuild ⟨"data", "sst-1"⟩ 1 2, .flushAppend (some [7]),
      .flushPush, .flushDeleteWals, .nothingToCompact 0, .readLive 0, .rollover 0]
    ∃ final, run TableState.step (atRest [] []) events = some final ∧ final.Quiet ∧
      final.Agrees := by
  intro events
  have finishes : ∃ final, run TableState.step (atRest [] []) events = some final := ⟨_, rfl⟩
  obtain ⟨final, finished⟩ := finishes
  have rests : final.Quiet := by
    obtain rfl := some.inj finished
    exact ⟨rfl, by decide, rfl⟩
  have sparing : Along TableState.step Sparing (atRest [] []) events := by
    refine ⟨trivial, fun _ first => ⟨trivial, fun _ second => ⟨trivial, fun _ third =>
      ⟨trivial, fun _ fourth => ⟨trivial, fun _ fifth => ⟨trivial, fun _ sixth => ⟨?_,
        fun _ _ => trivial⟩⟩⟩⟩⟩⟩⟩
    obtain rfl := some.inj first
    obtain rfl := some.inj second
    obtain rfl := some.inj third
    obtain rfl := some.inj fourth
    obtain rfl := some.inj fifth
    obtain rfl := some.inj sixth
    exact fun entries _ large => absurd large (by decide)
  exact ⟨final, finished, rests, agrees_of_sparing (quiet_atRest [] [])
    (by simp [Agrees, atRest, valid_nil, Live]) sparing finished rests⟩

theorem valid_rollbacks (count : Nat) (name : String) :
    ¬ Manifest.Valid (replicate count (.rollbackComplete 0)) name := by
  induction count with
  | zero => exact valid_nil
  | succ count ih =>
    rw [replicate_succ', valid_concat]
    exact ih

theorem fileSize_rollbacks (count : Nat) (rest : Manifest) :
    17 * count ≤ fileSize (replicate count (.rollbackComplete 0) ++ rest) := by
  simp only [fileSize, map_append, map_replicate, sum_append, sum_replicate,
    ManifestEntry.frameSize, ManifestEntry.payloadSize, smul_eq_mul]
  omega

/-- Over the threshold, here with 4000 rollback records, the background loop reads the empty list, a
flush appends its table, the loop rewrites the file from its list, and the flush pushes the table,
which the file does not name. -/
theorem rolloverDuringFlush_losesTable :
    ¬ ∀ (start final : TableState) (events : List TableEvent), start.Quiet → start.Agrees →
      run TableState.step start events = some final → final.Quiet → final.Agrees := by
  intro law
  obtain ⟨records, many⟩ : ∃ records, records = 4000 := ⟨4000, rfl⟩
  let rollbacks : Manifest := replicate records (.rollbackComplete 0)
  let table : TableRef := ⟨0, ⟨"data", "sst-1"⟩, 1, 2⟩
  let appended : TableState :=
    ⟨rollbacks ++ [.add table.path 1], [], .appended table, [.holding []], none, 1⟩
  let rewritten : TableState := ⟨[], [], .appended table, [.idle], none, 1⟩
  let final : TableState := ⟨[], [table], .idle, [.idle], none, 1⟩
  have large : ¬ fileSize (rollbacks ++ [.add table.path 1]) < defaultRolloverThresholdBytes := by
    have size : 17 * records ≤ fileSize (rollbacks ++ [.add table.path 1]) :=
      fileSize_rollbacks records _
    simp only [defaultRolloverThresholdBytes]
    omega
  have reads : run TableState.step (atRest rollbacks [])
      [.nothingToCompact 0, .readLive 0, .flushBuild table.path 1 2, .flushAppend none] =
      some appended := rfl
  have rewrites : run TableState.step appended [.rollover 0] = some rewritten := by
    simp only [run, step, appended, rewritten, getElem?_cons_zero, maybeRollover, large,
      if_false, setTask, set_cons_zero]
  have pushes : run TableState.step rewritten [.flushPush, .flushDeleteWals] = some final := rfl
  have finished := run_append.mpr ⟨appended, reads, run_append.mpr ⟨rewritten, rewrites, pushes⟩⟩
  have agrees := law (atRest rollbacks []) final _ (quiet_atRest rollbacks [])
    (fun name => ⟨fun valid => absurd valid (valid_rollbacks records name), by simp [atRest, Live]⟩)
    finished ⟨rfl, by simp [final], rfl⟩
  have valid := (agrees "sst-1").mpr ⟨table, by simp [final], rfl⟩
  exact valid_nil valid

end TableState

end Contextra.Store
