import Contextra.Checkpoint.TxIds

/-!
# Ids stay unique over restarts

One store of a namespace draws all numbers.  What was drawn lies below its counter, and below the
last mark that was committed, which is where the next opening starts.
-/

namespace Contextra.Checkpoint

open Library List Option Function

theorem internalTx_inj {first second : Nat} (firstBound : first ≤ 1000000)
    (secondBound : second ≤ 1000000) (same : internalTx first = internalTx second) :
    first = second := by
  have words : (18446744073708551615 + first) % 18446744073709551616 =
      (18446744073708551615 + second) % 18446744073709551616 := same
  omega

theorem internalBase_le_internalTx {raw : Nat} (bounded : raw ≤ 1000000) :
    internalBase ≤ internalTx raw := by
  have words : 18446744073708551615 ≤ (18446744073708551615 + raw) % 18446744073709551616 := by
    omega
  exact words

theorem foldl_advanceVisibility {storage : Storage} {ids : List TxId}
    (areInternal : ∀ tx ∈ ids, internalBase ≤ tx) :
    ids.foldl Storage.advanceVisibility storage = storage := by
  induction ids with
  | nil => rfl
  | cons tx ids ih =>
    have isInternal := areInternal tx mem_cons_self
    have unchanged : storage.advanceVisibility tx = storage := by
      rw [Storage.advanceVisibility, if_pos (.inr isInternal)]
    rw [foldl_cons, unchanged]
    exact ih fun tx mem => areInternal tx (mem_cons_of_mem _ mem)

namespace TxWorld

open CheckpointStore

/-- The numbers of a store's namespace, while it alone draws. -/
structure Unique (home : String) (world : TxWorld) : Prop where
  drawnNodup : world.drawn.Nodup
  marksNodup : world.marks.Nodup
  apart : ∀ raw ∈ world.drawn, raw ∉ world.marks
  bounded : ∀ raw ∈ world.drawn ++ world.marks, raw ≤ 1000000
  covered : ∀ raw ∈ world.drawn, ∃ mark, world.lastMark home = some mark ∧ raw ≤ mark
  ahead : ∀ store, world.stores home = some store →
    (∀ raw ∈ world.drawn, raw < store.txCounter) ∧
    (store.allocatedHwm ≤ store.txCounter ∨
      ∃ mark, world.lastMark home = some mark ∧ store.allocatedHwm ≤ mark)
  outside : world.storage.lastTxId < internalBase ∧ world.storage.lastTxId = world.otherTx
  records : ∀ key checkpoint, world.storage.records.lookup key = some (.manifest checkpoint) →
    checkpoint.txId < internalBase
  indexed : ∀ nameSpace store, world.stores nameSpace = some store →
    ∀ seqNo checkpoint, store.index.bySeq seqNo = some checkpoint → checkpoint.txId < internalBase

/-- The next number, and the number of the mark that it may need, belong to no earlier mark and
still are numbers of the internal range. -/
def Unmarked (world : TxWorld) (store : CheckpointStore) (fault : Option MarkFault) : Prop :=
  ∀ raw ∈ store.drawn fault ++ store.marked, raw ∉ world.marks ∧ raw ≤ 1000000

/-- Only the store at home draws, and no number of a mark; creations are given outer transactions;
an opening at home finds the last mark in its record. -/
def Orderly (home : String) (world : TxWorld) : TxEvent → Prop
  | .openStore nameSpace => nameSpace = home →
      world.lastMark home = none ∨ persistedHwm world.storage home = world.lastMark home
  | .allocateTx nameSpace fault => nameSpace = home ∧
      ∀ store ∈ world.storeAt nameSpace, world.Unmarked store fault
  | .createCheckpoint nameSpace creation conditions => nameSpace = home ∧
      creation.txId < internalBase ∧
      ∀ store ∈ world.storeAt nameSpace, world.Unmarked store conditions.mark
  | .dropCheckpoint nameSpace _ conditions => nameSpace = home ∧
      ∀ store ∈ world.storeAt nameSpace, world.Unmarked store conditions.mark
  | .restoreCheckpoint .. | .commitOther _ | .crash _ => True

/-- No id is used twice, no opening finds a regression, and a restore is refused only because of a
transaction that is not of a store. -/
structure IdsSound (world : TxWorld) : Prop where
  unique : world.used.Nodup
  opens : ∀ nameSpace, ∃ store, openWithOrphanRegistry world.storage nameSpace [] = .ok store
  unblocked : ∀ nameSpace store name kept message, world.storeAt nameSpace = some store →
    (store.restoreCheckpoint name none kept).1 = .error (.transaction message) →
      ∃ checkpoint, (store.getCheckpointInternal name none).1 = .ok (some checkpoint) ∧
        checkpoint.txId < world.otherTx

variable {home nameSpace : String} {world : TxWorld} {store after : CheckpointStore}
  {fault : Option MarkFault}

theorem Unique.external (unique : Unique home world)
    (isOpen : world.storeAt nameSpace = some store) : store.External := by
  obtain ⟨opened, found, rfl⟩ := map_eq_some_iff.mp isOpen
  exact ⟨unique.records, unique.indexed nameSpace opened found⟩

theorem Unique.storeAt_ahead (unique : Unique home world)
    (isOpen : world.storeAt home = some store) :
    (∀ raw ∈ world.drawn, raw < store.txCounter) ∧
    (store.allocatedHwm ≤ store.txCounter ∨
      ∃ mark, world.lastMark home = some mark ∧ store.allocatedHwm ≤ mark) := by
  obtain ⟨opened, found, rfl⟩ := map_eq_some_iff.mp isOpen
  exact unique.ahead opened found

theorem Unique.keeps (unique : Unique home world)
    (isOpen : world.storeAt nameSpace = some store) (kept : store.Keeps after) :
    Unique home { world with
      storage := after.storage
      stores := Function.update world.stores nameSpace (some after) } := by
  obtain ⟨records, indexed⟩ := kept.external (unique.external isOpen)
  have sameTx : after.storage.lastTxId = world.storage.lastTxId := by
    obtain ⟨opened, -, rfl⟩ := map_eq_some_iff.mp isOpen
    exact kept.lastTx
  exact { unique with
    ahead := by
      intro found atHome
      dsimp only at atHome
      by_cases same : home = nameSpace
      · subst same
        rw [update_self] at atHome
        cases atHome
        rw [kept.counter, kept.hwm]
        exact unique.storeAt_ahead isOpen
      · rw [update_of_ne same] at atHome
        exact unique.ahead found atHome
    outside := sameTx ▸ unique.outside
    records
    indexed := by
      intro other found atOther
      dsimp only at atOther
      by_cases same : other = nameSpace
      · subst same
        rw [update_self] at atOther
        cases atOther
        exact indexed
      · rw [update_of_ne same] at atOther
        exact unique.indexed other found atOther }

theorem mem_drawn {raw : Nat} (mem : raw ∈ store.drawn fault) :
    raw = store.txCounter ∧ store.txCounter < 1000000 ∧
      (store.marks = true → fault = none) := by
  unfold CheckpointStore.drawn at mem
  split at mem
  · cases mem
  · rename_i neither
    rw [not_or] at neither
    refine ⟨mem_singleton.mp mem, Nat.lt_of_not_le neither.1, fun isMarked => ?_⟩
    by_contra faulty
    exact neither.2 ⟨isMarked, faulty⟩

theorem mem_marked {raw : Nat} (mem : raw ∈ store.marked) :
    raw = store.txCounter + txBatchSize - 1 ∧ store.marks = true := by
  unfold CheckpointStore.marked at mem
  split at mem
  · rename_i isMarked
    exact ⟨mem_singleton.mp mem, isMarked⟩
  · cases mem

theorem drawn_nodup : (store.drawn fault).Nodup := by
  unfold CheckpointStore.drawn
  split
  · exact nodup_nil
  · exact nodup_singleton _

theorem marked_nodup : store.marked.Nodup := by
  unfold CheckpointStore.marked
  split
  · exact nodup_singleton _
  · exact nodup_nil

theorem below_hwm (inRange : store.txCounter < 1000000) (unmarked : store.marks = false) :
    store.txCounter < store.allocatedHwm := by
  simp only [CheckpointStore.marks, inRange, decide_true, Bool.true_and, decide_eq_false_iff_not,
    not_le] at unmarked
  exact unmarked

theorem Unique.draws (unique : Unique home world) (isOpen : world.storeAt home = some store)
    (unmarked : world.Unmarked store fault) (drew : store.Draws after fault) :
    Unique home { world with
      storage := (idsOf store fault).foldl Storage.advanceVisibility after.storage
      stores := Function.update world.stores home (some after)
      drawn := store.drawn fault ++ world.drawn
      marks := store.marked ++ world.marks
      lastMark := Function.update world.lastMark home
        (committedMark store fault (world.lastMark home)) } := by
  obtain ⟨records, indexed⟩ := drew.external (unique.external isOpen)
  obtain ⟨below, hwm⟩ := unique.storeAt_ahead isOpen
  have sameTx : after.storage.lastTxId = world.storage.lastTxId := by
    obtain ⟨opened, -, rfl⟩ := map_eq_some_iff.mp isOpen
    exact drew.lastTx
  have invisible : (idsOf store fault).foldl Storage.advanceVisibility after.storage =
      after.storage := by
    apply foldl_advanceVisibility
    intro tx mem
    obtain ⟨raw, isNumber, rfl⟩ := List.mem_map.mp mem
    exact internalBase_le_internalTx (unmarked raw isNumber).2
  have newDrawn : ∀ raw ∈ store.drawn fault, raw ∉ world.marks := fun raw mem =>
    (unmarked raw (mem_append_left _ mem)).1
  have newMarked : ∀ raw ∈ store.marked, raw ∉ world.marks := fun raw mem =>
    (unmarked raw (mem_append_right _ mem)).1
  constructor
  · apply drawn_nodup.append unique.drawnNodup
    intro raw isNew isOld
    exact absurd (mem_drawn isNew).1 (below raw isOld).ne
  · exact marked_nodup.append unique.marksNodup newMarked
  · intro raw isDrawn isMark
    have notFar : raw ≤ store.txCounter := by
      rcases mem_append.mp isDrawn with isNew | isOld
      · exact (mem_drawn isNew).1.le
      · exact (below raw isOld).le
    rcases mem_append.mp isMark with isNewMark | isOldMark
    · have far := (mem_marked isNewMark).1
      rw [txBatchSize] at far
      omega
    · rcases mem_append.mp isDrawn with isNew | isOld
      · exact newDrawn raw isNew isOldMark
      · exact unique.apart raw isOld isOldMark
  · intro raw mem
    have cases : raw ∈ store.drawn fault ++ store.marked ∨ raw ∈ world.drawn ++ world.marks := by
      simp only [mem_append] at *
      tauto
    rcases cases with isNew | isOld
    · exact (unmarked raw isNew).2
    · exact unique.bounded raw isOld
  · intro raw isDrawn
    dsimp only at isDrawn ⊢
    rw [update_self]
    have old : raw ∈ world.drawn → ∃ mark, world.lastMark home = some mark ∧ raw ≤ mark :=
      unique.covered raw
    have atMost : raw ≤ store.txCounter := by
      rcases mem_append.mp isDrawn with isNew | isOld
      · exact (mem_drawn isNew).1.le
      · exact (below raw isOld).le
    cases isMarked : store.marks with
    | true =>
      rcases fault with _ | ⟨_ | _⟩
      · refine ⟨store.txCounter + txBatchSize - 1, by simp [committedMark, isMarked], ?_⟩
        rw [txBatchSize]
        omega
      · rcases mem_append.mp isDrawn with isNew | isOld
        · cases (mem_drawn isNew).2.2 isMarked
        · exact old isOld
      · refine ⟨store.txCounter + txBatchSize - 1, by simp [committedMark, isMarked], ?_⟩
        rw [txBatchSize]
        omega
    | false =>
      have unchanged : committedMark store fault (world.lastMark home) = world.lastMark home := by
        rcases fault with _ | ⟨_ | _⟩ <;> simp [committedMark, isMarked]
      rw [unchanged]
      rcases mem_append.mp isDrawn with isNew | isOld
      · obtain ⟨rfl, inRange, -⟩ := mem_drawn isNew
        have inMemory := below_hwm inRange isMarked
        rcases hwm with reached | ⟨mark, isLast, covers⟩
        · omega
        · exact ⟨mark, isLast, by omega⟩
      · exact old isOld
  · intro found atHome
    dsimp only at atHome
    rw [update_self] at atHome
    cases atHome
    refine ⟨fun raw isDrawn => ?_, ?_⟩
    · rw [drew.counter]
      rcases mem_append.mp isDrawn with isNew | isOld
      · rw [(mem_drawn isNew).1]
        exact Nat.lt_succ_self _
      · exact (below raw isOld).trans (Nat.lt_succ_self _)
    · dsimp only
      rw [drew.counter, drew.hwm, update_self]
      cases isMarked : store.marks with
      | true =>
        have reached : store.allocatedHwm ≤ store.txCounter := by
          simp only [CheckpointStore.marks, Bool.and_eq_true, decide_eq_true_eq] at isMarked
          exact isMarked.2
        rcases fault with _ | fault
        · exact .inr ⟨store.txCounter + txBatchSize - 1, by simp [committedMark, isMarked], by simp⟩
        · exact .inl (by simpa using reached.trans (Nat.le_succ _))
      | false =>
        have unchanged : committedMark store fault (world.lastMark home) =
            world.lastMark home := by
          rcases fault with _ | ⟨_ | _⟩ <;> simp [committedMark, isMarked]
        rw [unchanged]
        simp only [Bool.false_eq_true, false_and, if_false]
        exact hwm.imp (fun reached => reached.trans (Nat.le_succ _)) id
  · dsimp only
    rw [invisible, sameTx]
    exact unique.outside
  · dsimp only
    rw [invisible]
    exact records
  · intro other found atOther
    dsimp only at atOther
    by_cases same : other = home
    · subst same
      rw [update_self] at atOther
      cases atOther
      exact indexed
    · rw [update_of_ne same] at atOther
      exact unique.indexed other found atOther

theorem Unique.call (unique : Unique home world) (isOpen : world.storeAt home = some store)
    (unmarked : world.Unmarked store fault)
    (effect : store.Keeps after ∨ store.Draws after fault) :
    Unique home (world.afterCall home store after fault) := by
  unfold afterCall
  rcases effect with kept | drew
  · rw [if_pos kept.counter]
    exact unique.keeps isOpen kept
  · rw [if_neg (by rw [drew.counter]; exact Nat.succ_ne_self _)]
    exact unique.draws isOpen unmarked drew

theorem determineTxCounterBounds_eq_ok {storage : Storage} {startRaw initialHwm : Nat}
    (bounds : determineTxCounterBounds storage nameSpace = .ok (startRaw, initialHwm)) :
    (∀ mark, persistedHwm storage nameSpace = some mark → startRaw = mark + 1 ∧ initialHwm = mark) ∧
      initialHwm ≤ startRaw := by
  unfold determineTxCounterBounds at bounds
  cases persisted : persistedHwm storage nameSpace with
  | some mark =>
    suffices both : startRaw = mark + 1 ∧ initialHwm = mark by
      obtain ⟨rfl, rfl⟩ := both
      refine ⟨fun other isMark => ?_, Nat.le_succ _⟩
      obtain rfl := some.inj isMark
      exact ⟨rfl, rfl⟩
    cases scan : scannedMaxRaw storage nameSpace with
    | some scanned =>
      rw [persisted, scan] at bounds
      dsimp only at bounds
      by_cases behind : mark < scanned
      · rw [if_pos behind] at bounds
        cases bounds
      · rw [if_neg behind] at bounds
        cases bounds
        exact ⟨rfl, rfl⟩
    | none =>
      rw [persisted, scan] at bounds
      cases bounds
      exact ⟨rfl, rfl⟩
  | none =>
    refine ⟨fun mark isMark => absurd isMark (some_ne_none mark).symm, ?_⟩
    cases scan : scannedMaxRaw storage nameSpace with
    | some scanned =>
      rw [persisted, scan] at bounds
      cases bounds
      exact Nat.le_succ _
    | none =>
      rw [persisted, scan] at bounds
      cases bounds
      exact le_rfl


theorem Unique.openStore (unique : Unique home world)
    (found : nameSpace = home → world.lastMark home = none ∨
      persistedHwm world.storage home = world.lastMark home)
    (opened : openWithOrphanRegistry world.storage nameSpace [] = .ok store) :
    Unique home { world with
      stores := Function.update world.stores nameSpace (some store) } := by
  have started : ∃ startRaw initialHwm,
      determineTxCounterBounds world.storage nameSpace = .ok (startRaw, initialHwm) ∧
        store = ⟨world.storage, .empty, nameSpace, startRaw, initialHwm, [], 0⟩ := by
    simp only [openWithOrphanRegistry] at opened
    split at opened
    · cases opened
    · rename_i startRaw initialHwm bounds
      exact ⟨startRaw, initialHwm, bounds, (Except.ok.inj opened).symm⟩
  obtain ⟨startRaw, initialHwm, bounds, rfl⟩ := started
  exact { unique with
    ahead := by
      intro other atHome
      dsimp only at atHome
      by_cases same : home = nameSpace
      · subst same
        rw [update_self] at atHome
        cases atHome
        obtain ⟨behindMark, ordered⟩ := determineTxCounterBounds_eq_ok bounds
        cases persisted : persistedHwm world.storage home with
        | some mark =>
          have isLast : world.lastMark home = none ∨ world.lastMark home = some mark := by
            rcases found rfl with unwritten | asRecorded
            · exact .inl unwritten
            · exact .inr (asRecorded.symm.trans persisted)
          obtain ⟨rfl, rfl⟩ := behindMark mark persisted
          refine ⟨fun raw isDrawn => ?_, .inl ordered⟩
          obtain ⟨last, isMark, covers⟩ := unique.covered raw isDrawn
          rcases isLast with unwritten | asRecorded
          · rw [unwritten] at isMark
            cases isMark
          · rw [asRecorded] at isMark
            cases isMark
            exact Nat.lt_succ_of_le covers
        | none =>
          have unwritten : world.lastMark home = none := by
            rcases found rfl with unwritten | asRecorded
            · exact unwritten
            · exact asRecorded.symm.trans persisted
          refine ⟨fun raw isDrawn => ?_, .inl ordered⟩
          obtain ⟨last, isMark, -⟩ := unique.covered raw isDrawn
          rw [unwritten] at isMark
          cases isMark
      · rw [update_of_ne same] at atHome
        exact unique.ahead other atHome
    indexed := by
      intro other opened atOther
      dsimp only at atOther
      by_cases same : other = nameSpace
      · subst same
        rw [update_self] at atOther
        cases atOther
        intro seqNo checkpoint isEntry
        cases isEntry
      · rw [update_of_ne same] at atOther
        exact unique.indexed other opened atOther }

theorem restoreCheckpoint_effect (external : store.External) (name : String)
    (kept : String → Bool) :
    (store.restoreCheckpoint name none kept).2.txCounter = store.txCounter ∧
    (store.restoreCheckpoint name none kept).2.allocatedHwm = store.allocatedHwm ∧
    (store.restoreCheckpoint name none kept).2.External ∧
    ((store.restoreCheckpoint name none kept).2.storage.lastTxId = store.storage.lastTxId ∨
      (store.restoreCheckpoint name none kept).2.storage.lastTxId < internalBase) := by
  unfold restoreCheckpoint
  split
  · exact ⟨rfl, rfl, external, .inl rfl⟩
  · have looked : store.Keeps (store.getCheckpointInternal name none).2 := keeps_get name none
    split
    · rename_i isError
      rw [isError] at looked
      exact ⟨looked.counter, looked.hwm, looked.external external, .inl looked.lastTx⟩
    · rename_i isOk
      rw [isOk] at looked
      exact ⟨looked.counter, looked.hwm, looked.external external, .inl looked.lastTx⟩
    · rename_i checkpoint after isOk
      have isExternal : checkpoint.txId < internalBase := get_external external (by rw [isOk])
      rw [isOk] at looked
      have afterExternal : after.External := looked.external external
      split
      · exact ⟨looked.counter, looked.hwm, afterExternal, .inl looked.lastTx⟩
      · have rolledBack : (after.rollbackToTx checkpoint.txId kept).External :=
          ⟨fun key found lookup => afterExternal.1 key found (Records.lookup_keep lookup),
            afterExternal.2⟩
        have listed : (after.rollbackToTx checkpoint.txId kept).Keeps _ := keeps_list none
        have outcome : ∀ final : CheckpointStore,
            (after.rollbackToTx checkpoint.txId kept).Keeps final →
            final.txCounter = store.txCounter ∧ final.allocatedHwm = store.allocatedHwm ∧
              final.External ∧ (final.storage.lastTxId = store.storage.lastTxId ∨
                final.storage.lastTxId < internalBase) := by
          intro final keeps
          refine ⟨keeps.counter.trans looked.counter, keeps.hwm.trans looked.hwm,
            keeps.external rolledBack, .inr ?_⟩
          rw [keeps.lastTx]
          exact isExternal
        split
        · rename_i isError
          rw [isError] at listed
          exact outcome _ listed
        · rename_i isListed
          rw [isListed] at listed
          exact outcome _ listed

theorem Unique.restore (unique : Unique home world)
    (isOpen : world.storeAt nameSpace = some store) (name : String) (kept : String → Bool) :
    Unique home { world with
      storage := (store.restoreCheckpoint name none kept).2.storage
      stores := Function.update world.stores nameSpace
        (some (store.restoreCheckpoint name none kept).2)
      otherTx :=
        if (store.restoreCheckpoint name none kept).2.storage.lastTxId = world.storage.lastTxId
        then world.otherTx else (store.restoreCheckpoint name none kept).2.storage.lastTxId } := by
  obtain ⟨counter, hwm, ⟨records, indexed⟩, lastTx⟩ :=
    restoreCheckpoint_effect (unique.external isOpen) name kept
  have sameTx : store.storage.lastTxId = world.storage.lastTxId := by
    obtain ⟨opened, -, rfl⟩ := map_eq_some_iff.mp isOpen
    rfl
  obtain ⟨isExternal, isOther⟩ := unique.outside
  exact { unique with
    ahead := by
      intro found atHome
      dsimp only at atHome
      by_cases same : home = nameSpace
      · subst same
        rw [update_self] at atHome
        cases atHome
        rw [counter, hwm]
        exact unique.storeAt_ahead isOpen
      · rw [update_of_ne same] at atHome
        exact unique.ahead found atHome
    outside := by
      dsimp only
      by_cases unchanged :
          (store.restoreCheckpoint name none kept).2.storage.lastTxId = world.storage.lastTxId
      · rw [if_pos unchanged, unchanged]
        exact ⟨isExternal, isOther⟩
      · rw [if_neg unchanged]
        refine ⟨lastTx.resolve_left fun same => unchanged (same.trans sameTx), rfl⟩
    records
    indexed := by
      intro other found atOther
      dsimp only at atOther
      by_cases same : other = nameSpace
      · subst same
        rw [update_self] at atOther
        cases atOther
        exact indexed
      · rw [update_of_ne same] at atOther
        exact unique.indexed other found atOther }

theorem Unique.step {next : TxWorld} {event : TxEvent} (unique : Unique home world)
    (orderly : Orderly home world event) (taken : world.step event = some next) :
    Unique home next := by
  cases event with
  | openStore nameSpace =>
    simp only [TxWorld.step] at taken
    split at taken
    · rename_i opened
      cases taken
      exact unique.openStore orderly opened
    · cases taken
      exact unique
  | allocateTx nameSpace fault =>
    obtain ⟨store, isOpen, rfl⟩ := map_eq_some_iff.mp taken
    obtain ⟨rfl, unmarked⟩ := orderly
    exact unique.call isOpen (unmarked store isOpen) (.inr (store.allocateTx_draws fault))
  | createCheckpoint nameSpace creation conditions =>
    obtain ⟨store, isOpen, rfl⟩ := map_eq_some_iff.mp taken
    obtain ⟨rfl, isExternal, unmarked⟩ := orderly
    exact unique.call isOpen (unmarked store isOpen) (createCheckpoint_draws isExternal conditions)
  | dropCheckpoint nameSpace name conditions =>
    obtain ⟨store, isOpen, rfl⟩ := map_eq_some_iff.mp taken
    obtain ⟨rfl, unmarked⟩ := orderly
    exact unique.call isOpen (unmarked store isOpen) (dropCheckpoint_draws name conditions)
  | restoreCheckpoint nameSpace name kept =>
    obtain ⟨store, isOpen, rfl⟩ := map_eq_some_iff.mp taken
    exact unique.restore isOpen name kept
  | commitOther tx =>
    simp only [TxWorld.step] at taken
    split at taken
    · rename_i isExternal
      cases taken
      obtain ⟨below, isOther⟩ := unique.outside
      have committed : (world.storage.advanceVisibility tx).records = world.storage.records ∧
          (world.storage.advanceVisibility tx).lastTxId = max world.storage.lastTxId tx := by
        unfold Storage.advanceVisibility
        split
        · rename_i ignored
          have isZero : tx = 0 := ignored.resolve_right (Nat.not_le.mpr isExternal)
          exact ⟨rfl, by rw [isZero, Nat.max_zero]⟩
        · exact ⟨rfl, rfl⟩
      exact { unique with
        outside := by
          dsimp only
          rw [committed.2, isOther]
          exact ⟨max_lt (isOther ▸ below) isExternal, rfl⟩
        records := by
          dsimp only
          rw [committed.1]
          exact unique.records }
    · cases taken
  | crash lastTxId =>
    simp only [TxWorld.step] at taken
    split at taken
    · rename_i isExternal
      cases taken
      exact { unique with
        ahead := nofun
        outside := ⟨isExternal, rfl⟩
        indexed := nofun }
    · cases taken

theorem Unique.scannedMaxRaw (unique : Unique home world) (nameSpace : String) :
    scannedMaxRaw world.storage nameSpace = none := by
  have ownTx : internalRaw world.storage.lastTxId = none :=
    if_neg (Nat.not_le.mpr unique.outside.1)
  unfold CheckpointStore.scannedMaxRaw
  dsimp only
  rw [ownTx, filterMap_eq_nil_iff.mpr]
  · rfl
  · rintro ⟨key, value⟩ mem
    cases value with
    | txCounter mark => rfl
    | manifest checkpoint =>
      have isExternal := unique.records key checkpoint (Records.mem_scanPrefix.mp mem).1
      exact if_neg (Nat.not_le.mpr isExternal)

theorem Unique.sound (unique : Unique home world) : world.IdsSound where
  unique := by
    have numbers := unique.drawnNodup.append unique.marksNodup unique.apart
    refine numbers.map_on ?_
    intro first isFirst second isSecond same
    exact internalTx_inj (unique.bounded first isFirst) (unique.bounded second isSecond) same
  opens := by
    intro nameSpace
    unfold openWithOrphanRegistry determineTxCounterBounds
    rw [unique.scannedMaxRaw nameSpace]
    cases persistedHwm world.storage nameSpace with
    | none => exact ⟨_, rfl⟩
    | some mark => exact ⟨_, rfl⟩
  unblocked := by
    intro nameSpace store name kept message isOpen refused
    have sameTx : store.storage.lastTxId = world.otherTx := by
      obtain ⟨opened, -, rfl⟩ := map_eq_some_iff.mp isOpen
      exact unique.outside.2
    have looked : store.Keeps (store.getCheckpointInternal name none).2 := keeps_get name none
    unfold restoreCheckpoint at refused
    split at refused
    · rename_i error invalid
      cases refused
      unfold validateIdentifier at invalid
      split at invalid
      · cases invalid
      · split at invalid <;> cases invalid
    · split at refused
      · rename_i error after isError
        cases refused
        unfold getCheckpointInternal at isError
        split at isError
        · cases isError
        · dsimp only at isError
          split at isError <;> cases isError
      · cases refused
      · rename_i checkpoint after isOk
        rw [isOk] at looked
        split at refused
        · rename_i barrier
          rw [looked.lastTx, sameTx] at barrier
          exact ⟨checkpoint, by rw [isOk], barrier⟩
        · split at refused
          · rename_i error _ isError
            cases refused
            unfold listCheckpoints at isError
            dsimp only at isError
            split at isError
            · rename_i parsed
              cases isError
              cases manifestsOf_error parsed
            · cases isError
          · cases refused

/-- A storage that no store has used. -/
def initial (lastTxId : TxId) : TxWorld :=
  ⟨⟨∅, .new, lastTxId⟩, fun _ => none, [], [], fun _ => none, lastTxId⟩

end TxWorld

end Contextra.Checkpoint
