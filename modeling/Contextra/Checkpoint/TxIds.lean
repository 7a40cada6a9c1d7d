import Contextra.Checkpoint.NameRuns

/-!
# Transaction ids of checkpoint stores

Several stores, each of its own namespace, work on one storage.  Beside them stand the numbers that
were drawn from the counters and the numbers under which marks were written; the ids of all writes
are these numbers in the internal range.
-/

namespace Contextra.Checkpoint

open Library List

/-- `TxId::new(TxId::INTERNAL_BASE + raw)`, an addition of 64-bit words. -/
def internalTx (raw : Nat) : TxId := (internalBase + raw) % 2 ^ 64

/-- `advance_visibility` of a commit. -/
def Storage.advanceVisibility (storage : Storage) (tx : TxId) : Storage :=
  if tx = 0 ∨ internalBase ≤ tx then storage
  else { storage with lastTxId := max storage.lastTxId tx }

def Records.keep (records : Records) (kept : String → Bool) : Records :=
  ⟨records.entries.filter fun entry => kept entry.1,
    records.nodupKeys.sublist filter_sublist⟩

theorem Records.lookup_keep {records : Records} {kept : String → Bool} {key : String}
    {value : StoredValue} (found : (records.keep kept).lookup key = some value) :
    records.lookup key = some value :=
  AList.mem_lookup_iff.mpr (mem_of_mem_filter (AList.mem_lookup_iff.mp found))

namespace CheckpointStore

/-- Whether the next draw writes a new mark. -/
def marks (store : CheckpointStore) : Bool :=
  decide (store.txCounter < 1000000) && decide (store.allocatedHwm ≤ store.txCounter)

def drawn (store : CheckpointStore) (fault : Option MarkFault) : List Nat :=
  if 1000000 ≤ store.txCounter ∨ (store.marks ∧ fault ≠ none) then [] else [store.txCounter]

def marked (store : CheckpointStore) : List Nat :=
  if store.marks then [store.txCounter + txBatchSize - 1] else []

/-- `rollback_to_tx` of the storage. -/
def rollbackToTx (store : CheckpointStore) (tx : TxId) (kept : String → Bool) : CheckpointStore :=
  { store with storage := { store.storage with
      records := store.storage.records.keep kept
      lastTxId := tx } }

/-- The restore; the rollback of the storage keeps some of the records. -/
def restoreCheckpoint (store : CheckpointStore) (name : String) (fault : Option ContextraError)
    (kept : String → Bool) : Except CheckpointError CheckpointMeta × CheckpointStore :=
  match validateIdentifier "Checkpoint name" name with
  | .error error => (.error error, store)
  | .ok () =>
    match store.getCheckpointInternal name fault with
    | (.error error, store) => (.error error, store)
    | (.ok none, store) => (.error .checkpointNotFound, store)
    | (.ok (some checkpoint), store) =>
      if checkpoint.txId < store.storage.lastTxId then
        (.error (.transaction (s!"Serialization barrier violation: Cannot restore checkpoint " ++
          s!"'{name}' at TxId {checkpoint.txId} because newer committed transaction TxId " ++
          s!"{store.storage.lastTxId} exists in storage")), store)
      else
        match (store.rollbackToTx checkpoint.txId kept).listCheckpoints none with
        | (.error error, store) => (.error error, store)
        | (.ok _, store) => (.ok checkpoint, store)

end CheckpointStore

/-- The storage, the open stores, and what has happened to the ids: the numbers drawn, those of
marks, the last committed mark of a namespace, and the last transaction id that is not of a store.
-/
structure TxWorld where
  storage : Storage
  stores : String → Option CheckpointStore
  drawn : List Nat
  marks : List Nat
  lastMark : String → Option Nat
  otherTx : TxId

inductive TxEvent where
  | openStore (nameSpace : String)
  | allocateTx (nameSpace : String) (fault : Option MarkFault)
  | createCheckpoint (nameSpace : String) (creation : CheckpointStore.Creation)
      (conditions : Conditions)
  | dropCheckpoint (nameSpace name : String) (conditions : Conditions)
  | restoreCheckpoint (nameSpace name : String) (kept : String → Bool)
  | commitOther (tx : TxId)
  | crash (lastTxId : TxId)

namespace TxWorld

def storeAt (world : TxWorld) (nameSpace : String) : Option CheckpointStore :=
  (world.stores nameSpace).map fun store => { store with storage := world.storage }

def used (world : TxWorld) : List TxId := (world.drawn ++ world.marks).map internalTx

def committedMark (store : CheckpointStore) (fault : Option MarkFault) (before : Option Nat) :
    Option Nat :=
  match fault with
  | some (.commit _) => before
  | _ => if store.marks then some (store.txCounter + CheckpointStore.txBatchSize - 1) else before

def idsOf (store : CheckpointStore) (fault : Option MarkFault) : List TxId :=
  (store.drawn fault ++ store.marked).map internalTx

/-- A call of an open store, from `before` to `after`. -/
def afterCall (world : TxWorld) (nameSpace : String) (before after : CheckpointStore)
    (fault : Option MarkFault) : TxWorld :=
  if after.txCounter = before.txCounter then
    { world with
      storage := after.storage
      stores := Function.update world.stores nameSpace (some after) }
  else
    { world with
      storage := (idsOf before fault).foldl Storage.advanceVisibility after.storage
      stores := Function.update world.stores nameSpace (some after)
      drawn := before.drawn fault ++ world.drawn
      marks := before.marked ++ world.marks
      lastMark := Function.update world.lastMark nameSpace
        (committedMark before fault (world.lastMark nameSpace)) }

/-- A crash closes all stores; the storage recovers its last transaction id from what is not
internal.  A rejected opening leaves the store closed. -/
def step (world : TxWorld) : TxEvent → Option TxWorld
  | .openStore nameSpace =>
    match CheckpointStore.openWithOrphanRegistry world.storage nameSpace [] with
    | .ok store => some { world with stores := Function.update world.stores nameSpace (some store) }
    | .error _ => some world
  | .allocateTx nameSpace fault =>
    (world.storeAt nameSpace).map fun store =>
      world.afterCall nameSpace store (store.allocateTx fault).2 fault
  | .createCheckpoint nameSpace creation conditions =>
    (world.storeAt nameSpace).map fun store =>
      world.afterCall nameSpace store (store.createCheckpoint creation conditions).2
        conditions.mark
  | .dropCheckpoint nameSpace name conditions =>
    (world.storeAt nameSpace).map fun store =>
      world.afterCall nameSpace store (store.dropCheckpoint name conditions).2 conditions.mark
  | .restoreCheckpoint nameSpace name kept =>
    (world.storeAt nameSpace).map fun store =>
      let after := (store.restoreCheckpoint name none kept).2
      { world with
        storage := after.storage
        stores := Function.update world.stores nameSpace (some after)
        otherTx := if after.storage.lastTxId = world.storage.lastTxId then world.otherTx
          else after.storage.lastTxId }
  | .commitOther tx =>
    if tx < internalBase then
      some { world with
        storage := world.storage.advanceVisibility tx
        otherTx := max world.otherTx tx }
    else none
  | .crash lastTxId =>
    if lastTxId < internalBase then
      some { world with
        storage := { world.storage with lastTxId }
        stores := fun _ => none
        otherTx := lastTxId }
    else none

end TxWorld

namespace CheckpointStore

def External (store : CheckpointStore) : Prop :=
  (∀ key checkpoint, store.storage.records.lookup key = some (.manifest checkpoint) →
    checkpoint.txId < internalBase) ∧
  ∀ seqNo checkpoint, store.index.bySeq seqNo = some checkpoint → checkpoint.txId < internalBase

/-- A step that draws nothing. -/
structure Keeps (before after : CheckpointStore) : Prop where
  counter : after.txCounter = before.txCounter
  hwm : after.allocatedHwm = before.allocatedHwm
  lastTx : after.storage.lastTxId = before.storage.lastTxId
  external : before.External → after.External

structure Draws (before after : CheckpointStore) (fault : Option MarkFault) : Prop where
  counter : after.txCounter = before.txCounter + 1
  hwm : after.allocatedHwm = if before.marks ∧ fault = none then
    before.txCounter + txBatchSize - 1 else before.allocatedHwm
  lastTx : after.storage.lastTxId = before.storage.lastTxId
  external : before.External → after.External

section Effects

variable {before middle after store : CheckpointStore} {fault : Option MarkFault}
  {checkpoint : CheckpointMeta}

theorem Keeps.refl : Keeps store store := ⟨rfl, rfl, rfl, id⟩

theorem Keeps.trans (first : Keeps before middle) (second : Keeps middle after) :
    Keeps before after :=
  ⟨second.counter.trans first.counter, second.hwm.trans first.hwm,
    second.lastTx.trans first.lastTx, second.external ∘ first.external⟩

theorem Draws.trans (first : Draws before middle fault) (second : Keeps middle after) :
    Draws before after fault :=
  ⟨second.counter.trans first.counter, second.hwm.trans first.hwm,
    second.lastTx.trans first.lastTx, second.external ∘ first.external⟩

theorem Keeps.draws (first : Keeps before middle) (second : Draws middle after fault) :
    Draws before after fault := by
  have sameMarks : middle.marks = before.marks := by
    simp only [marks, first.counter, first.hwm]
  constructor
  · rw [second.counter, first.counter]
  · rw [second.hwm, sameMarks, first.counter, first.hwm]
  · exact second.lastTx.trans first.lastTx
  · exact second.external ∘ first.external

theorem allocateTx_draws (store : CheckpointStore) (fault : Option MarkFault) :
    Draws store (store.allocateTx fault).2 fault := by
  have external : store.External → (store.allocateTx fault).2.External := by
    rintro ⟨records, indexed⟩
    obtain ⟨counter, hwm, written, effect, unchanged | ⟨mark, marked⟩⟩ :=
      store.allocateTx_effect fault
    · rw [effect, unchanged]
      exact ⟨records, indexed⟩
    · rw [effect, marked]
      refine ⟨fun key checkpoint found => ?_, indexed⟩
      by_cases same : key = counterKey store.nameSpace
      · subst same
        cases (AList.lookup_insert _).symm.trans found
      · exact records key checkpoint ((AList.lookup_insert_ne same).symm.trans found)
  refine ⟨?_, ?_, ?_, external⟩
  · unfold allocateTx persistHwm
    dsimp only
    split
    · rfl
    · split
      · rcases fault with _ | ⟨_ | _⟩ <;> rfl
      · rfl
  · unfold allocateTx persistHwm marks
    dsimp only
    split
    · rename_i overflow
      simp [Nat.not_lt.mpr overflow]
    · rename_i inRange
      rw [decide_eq_true (Nat.lt_of_not_le inRange)]
      split
      · rename_i reached
        rcases fault with _ | ⟨_ | _⟩ <;> simp [reached, putRecord]
      · rename_i below
        simp [below]
  · obtain ⟨counter, hwm, written, effect, -⟩ := store.allocateTx_effect fault
    rw [effect]

variable {index : CheckpointIndex}

theorem keeps_withIndex
    (indexed : store.External → ∀ seqNo checkpoint, index.bySeq seqNo = some checkpoint →
      checkpoint.txId < internalBase) : Keeps store (store.withIndex index) :=
  ⟨rfl, rfl, rfl, fun external => ⟨external.1, indexed external⟩⟩

theorem insert_external (indexed : ∀ seqNo checkpoint, index.bySeq seqNo = some checkpoint →
      checkpoint.txId < internalBase) (isExternal : checkpoint.txId < internalBase) :
    ∀ seqNo found, (index.insert checkpoint).bySeq seqNo = some found →
      found.txId < internalBase := by
  intro seqNo found present
  by_cases same : seqNo = checkpoint.seqNo
  · subst same
    rw [CheckpointIndex.insert_bySeq_self] at present
    cases present
    exact isExternal
  · exact indexed seqNo found (CheckpointIndex.insert_bySeq_of_ne same present).1

theorem keeps_get (name : String) (fault : Option ContextraError) :
    Keeps store (store.getCheckpointInternal name fault).2 := by
  unfold getCheckpointInternal
  split
  · exact .refl
  · split
    · exact .refl
    · split
      · rename_i found
        exact keeps_withIndex fun external => insert_external external.2 (external.1 _ _ found)
      · exact .refl
      · exact .refl

theorem get_external (external : store.External) {name : String} {fault : Option ContextraError}
    (found : (store.getCheckpointInternal name fault).1 = .ok (some checkpoint)) :
    checkpoint.txId < internalBase := by
  unfold getCheckpointInternal at found
  split at found
  · rename_i indexed
    cases found
    obtain ⟨seqNo, -, present⟩ := Option.bind_eq_some_iff.mp indexed
    exact external.2 seqNo _ present
  · split at found
    · cases found
    · split at found
      · rename_i lookup
        cases found
        exact external.1 _ _ lookup
      · cases found
      · cases found

theorem keeps_unpin (seqNo : Nat) (fault : Option ContextraError) :
    Keeps store (store.unpinCheckpoint seqNo fault) := by
  cases fault <;> exact ⟨rfl, rfl, rfl, id⟩

theorem keeps_removeBySeq (seqNo : Nat) :
    Keeps store (store.withIndex (store.index.removeBySeq seqNo)) := by
  apply keeps_withIndex
  intro external other checkpoint present
  unfold CheckpointIndex.removeBySeq at present
  split at present
  · by_cases same : other = seqNo
    · simp [same] at present
    · exact external.2 other checkpoint ((Function.update_of_ne same ..).symm.trans present)
  · exact external.2 other checkpoint present

theorem keeps_removeByName (name : String) :
    Keeps store (store.withIndex (store.index.removeByName name)) := by
  apply keeps_withIndex
  intro external other checkpoint present
  unfold CheckpointIndex.removeByName at present
  split at present
  · rename_i seqNo _
    by_cases same : other = seqNo
    · simp [same] at present
    · exact external.2 other checkpoint ((Function.update_of_ne same ..).symm.trans present)
  · exact external.2 other checkpoint present

theorem keeps_insert (isExternal : checkpoint.txId < internalBase) :
    Keeps store (store.withIndex (store.index.insert checkpoint)) :=
  keeps_withIndex fun external => insert_external external.2 isExternal

theorem keeps_put (isExternal : checkpoint.txId < internalBase) (key : String) :
    Keeps store (store.putRecord key (.manifest checkpoint)) := by
  refine ⟨rfl, rfl, rfl, fun external => ⟨fun other found lookup => ?_, external.2⟩⟩
  by_cases same : other = key
  · subst same
    cases (AList.lookup_insert _).symm.trans lookup
    exact isExternal
  · exact external.1 other found ((AList.lookup_insert_ne same).symm.trans lookup)

theorem keeps_delete (key : String) : Keeps store (store.deleteRecord key) := by
  refine ⟨rfl, rfl, rfl, fun external => ⟨fun other found lookup => ?_, external.2⟩⟩
  have different : other ≠ key := by
    rintro rfl
    cases (AList.lookup_erase _ _).symm.trans lookup
  exact external.1 other found ((AList.lookup_erase_ne different).symm.trans lookup)

theorem keeps_releaseOld (old : Option CheckpointMeta) (seqNo : Nat)
    (fault : Option ContextraError) : Keeps store (store.releaseOld old seqNo fault) := by
  unfold releaseOld
  split
  · split
    · exact (keeps_unpin ..).trans (keeps_removeBySeq _)
    · exact .refl
  · exact .refl

theorem saveInternal_draws (isExternal : checkpoint.txId < internalBase)
    (conditions : Conditions) :
    Draws store (store.saveCheckpointInternal checkpoint conditions).2 conditions.mark := by
  have drew := store.allocateTx_draws conditions.mark
  unfold saveCheckpointInternal
  split
  · rename_i isError
    rwa [isError] at drew
  · rename_i isOk
    rw [isOk] at drew
    cases conditions.write with
    | some error => exact drew
    | none =>
      apply drew.trans
      exact (keeps_put isExternal _).trans (keeps_insert isExternal)

theorem savePinned_draws (isExternal : checkpoint.txId < internalBase) (conditions : Conditions) :
    Keeps store (store.saveCheckpointWithPinGuard checkpoint conditions).2 ∨
      Draws store (store.saveCheckpointWithPinGuard checkpoint conditions).2 conditions.mark := by
  unfold saveCheckpointWithPinGuard
  cases conditions.pin with
  | some error => exact .inl .refl
  | none =>
    have pinned : Keeps store (store.pinCheckpoint checkpoint.seqNo conditions.wallMs) :=
      ⟨rfl, rfl, rfl, id⟩
    have drew := pinned.draws (saveInternal_draws isExternal conditions)
    refine .inr ?_
    dsimp only
    split
    · rename_i isError
      rw [isError] at drew
      exact drew.trans (keeps_unpin ..)
    · rename_i isOk
      rwa [isOk] at drew

theorem createCheckpoint_draws {creation : Creation} (isExternal : creation.txId < internalBase)
    (conditions : Conditions) :
    Keeps store (store.createCheckpoint creation conditions).2 ∨
      Draws store (store.createCheckpoint creation conditions).2 conditions.mark := by
  unfold createCheckpoint
  split
  · exact .inl .refl
  · have stamped : Keeps store (store.monotonicTimestampMs conditions.wallMs).2 :=
      ⟨rfl, rfl, rfl, id⟩
    have looked := stamped.trans (keeps_get creation.name conditions.get)
    dsimp only
    split
    · rename_i isError
      rw [isError] at looked
      exact .inl looked
    · rename_i after isOk
      rw [isOk] at looked
      have checkpointExternal : (creation.checkpoint
        (store.monotonicTimestampMs conditions.wallMs).1).txId < internalBase := isExternal
      have outcome : Keeps after _ ∨ Draws after _ conditions.mark :=
        savePinned_draws checkpointExternal conditions
      split
      · rename_i isError
        rw [isError] at outcome
        exact outcome.imp looked.trans looked.draws
      · rename_i saved isSaved
        rw [isSaved] at outcome
        have finish (old : Option CheckpointMeta) : Keeps saved
            ((saved.releaseOld old creation.seqNo conditions.unpin).withIndex
              ((saved.releaseOld old creation.seqNo conditions.unpin).index.insert
                (creation.checkpoint (store.monotonicTimestampMs conditions.wallMs).1))) :=
          (keeps_releaseOld ..).trans (keeps_insert checkpointExternal)
        rcases outcome with kept | drew
        · exact .inl ((looked.trans kept).trans (finish _))
        · exact .inr ((looked.draws drew).trans (finish _))

theorem dropCheckpoint_draws (name : String) (conditions : Conditions) :
    Keeps store (store.dropCheckpoint name conditions).2 ∨
      Draws store (store.dropCheckpoint name conditions).2 conditions.mark := by
  unfold dropCheckpoint
  split
  · exact .inl .refl
  · have looked : Keeps store _ := keeps_get name conditions.get
    split
    · rename_i isError
      rw [isError] at looked
      exact .inl looked
    · rename_i isOk
      rw [isOk] at looked
      exact .inl looked
    · rename_i checkpoint after isOk
      rw [isOk] at looked
      have drew := looked.draws (after.allocateTx_draws conditions.mark)
      refine .inr ?_
      split
      · rename_i isError
        rwa [isError] at drew
      · rename_i isAllocated
        rw [isAllocated] at drew
        cases conditions.write with
        | some error => exact drew
        | none =>
          apply drew.trans
          exact (keeps_delete _).trans ((keeps_unpin ..).trans (keeps_removeByName _))

theorem manifestsOf_mem {entries : List (String × StoredValue)} {checkpoints : List CheckpointMeta}
    (parsed : manifestsOf entries = .ok checkpoints) :
    ∀ checkpoint ∈ checkpoints, ∃ key, (key, .manifest checkpoint) ∈ entries := by
  induction entries generalizing checkpoints with
  | nil =>
    cases parsed
    nofun
  | cons entry entries ih =>
    obtain ⟨key, value⟩ := entry
    unfold manifestsOf at parsed
    split at parsed
    · intro checkpoint mem
      obtain ⟨other, later⟩ := ih parsed checkpoint mem
      exact ⟨other, mem_cons_of_mem _ later⟩
    · split at parsed
      · cases parsed
      · rename_i first
        split at parsed
        · cases parsed
        · rename_i rest isRest
          cases parsed
          intro checkpoint mem
          rcases mem_cons.mp mem with rfl | inRest
          · exact ⟨key, mem_cons_self⟩
          · obtain ⟨other, later⟩ := ih isRest checkpoint inRest
            exact ⟨other, mem_cons_of_mem _ later⟩

theorem manifestsOf_error {entries : List (String × StoredValue)} {error : CheckpointError}
    (failed : manifestsOf entries = .error error) : error = .malformedRecord := by
  induction entries with
  | nil => cases failed
  | cons entry entries ih =>
    obtain ⟨key, value⟩ := entry
    unfold manifestsOf at failed
    split at failed
    · exact ih failed
    · split at failed
      · cases failed
        rfl
      · split at failed
        · rename_i isError
          cases failed
          exact ih isError
        · cases failed

theorem foldl_insert_external {checkpoints : List CheckpointMeta}
    (areExternal : ∀ checkpoint ∈ checkpoints, checkpoint.txId < internalBase)
    (indexed : ∀ seqNo checkpoint, index.bySeq seqNo = some checkpoint →
      checkpoint.txId < internalBase) :
    ∀ seqNo checkpoint, (checkpoints.foldl CheckpointIndex.insert index).bySeq seqNo =
      some checkpoint → checkpoint.txId < internalBase := by
  induction checkpoints generalizing index with
  | nil => exact indexed
  | cons first checkpoints ih =>
    apply ih fun checkpoint mem =>
      areExternal checkpoint (mem_cons_of_mem _ mem)
    exact insert_external indexed (areExternal first mem_cons_self)

theorem keeps_list (fault : Option ContextraError) :
    Keeps store (store.listCheckpoints fault).2 := by
  unfold listCheckpoints
  split
  · exact .refl
  · split
    · exact .refl
    · rename_i checkpoints parsed
      apply keeps_withIndex
      intro external
      have none : ∀ seqNo checkpoint, CheckpointIndex.empty.bySeq seqNo = some checkpoint →
        checkpoint.txId < internalBase := fun _ _ impossible => nomatch impossible
      apply foldl_insert_external (fun checkpoint mem => ?_) none
      obtain ⟨key, isEntry⟩ := manifestsOf_mem parsed checkpoint mem
      exact external.1 key checkpoint (Records.mem_scanPrefix.mp isEntry).1

end Effects

end CheckpointStore

end Contextra.Checkpoint
