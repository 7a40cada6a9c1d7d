import Contextra.Checkpoint.Names

/-!
# Calls keep names resolved

What each call of the store does to its records and its index, and the run over any sequence of
calls with a reopening between them.
-/

namespace Contextra.Checkpoint

open Library Function

structure NamesSound (nameSpace : String) (records : Records) (index : CheckpointIndex) (live : Live) :
    Prop where
  forms : ∀ key value, records.lookup key = some value →
    (scanKey nameSpace).toList <+: key.toList →
      (key = counterKey nameSpace ∧ ∃ mark, value = .txCounter mark) ∨
      ∃ checkpoint, value = .manifest checkpoint ∧ key = recordKey nameSpace checkpoint.name ∧
        isCounterKey key = false
  stored : ∀ name checkpoint, live name = some checkpoint ↔
    records.lookup (recordKey nameSpace name) = some (.manifest checkpoint)
  apart : ∀ first second checkpoint other, live first = some checkpoint →
    live second = some other → checkpoint.seqNo = other.seqNo → first = second
  index : IndexSound live index

abbrev CheckpointStore.Sound (store : CheckpointStore) (live : Live) : Prop :=
  NamesSound store.nameSpace store.storage.records store.index live

namespace NamesSound

variable {nameSpace name : String} {records : Records} {index later : CheckpointIndex}
  {live : Live} {checkpoint : CheckpointMeta}

theorem record (sound : NamesSound nameSpace records index live) {value : StoredValue}
    (found : records.lookup (recordKey nameSpace name) = some value) :
    (name = counterName ∧ ∃ mark, value = .txCounter mark) ∨
      ∃ checkpoint, value = .manifest checkpoint ∧ checkpoint.name = name ∧
        isCounterKey (recordKey nameSpace name) = false := by
  rcases sound.forms _ value found (recordKey_scanned nameSpace name) with
    ⟨same, mark⟩ | ⟨checkpoint, isManifest, same, ordinary⟩
  · exact .inl ⟨recordKey_inj.mp same, mark⟩
  · exact .inr ⟨checkpoint, isManifest, (recordKey_inj.mp same).symm, ordinary⟩

theorem name_eq (sound : NamesSound nameSpace records index live)
    (isLive : live name = some checkpoint) :
    checkpoint.name = name ∧ isCounterKey (recordKey nameSpace name) = false := by
  rcases sound.record ((sound.stored name checkpoint).mp isLive) with
    ⟨-, mark, impossible⟩ | ⟨other, same, named, ordinary⟩
  · cases impossible
  · cases same
    exact ⟨named, ordinary⟩

theorem withIndex (sound : NamesSound nameSpace records index live)
    (indexSound : IndexSound live later) : NamesSound nameSpace records later live :=
  { sound with index := indexSound }

theorem mark (sound : NamesSound nameSpace records index live) (mark : Nat) :
    NamesSound nameSpace (AList.insert (counterKey nameSpace) (.txCounter mark) records) index live where
  forms := by
    intro key value found scanned
    by_cases same : key = counterKey nameSpace
    · subst same
      rw [AList.lookup_insert] at found
      exact .inl ⟨rfl, mark, (Option.some.inj found).symm⟩
    · rw [AList.lookup_insert_ne same] at found
      exact sound.forms key value found scanned
  stored := by
    intro name checkpoint
    by_cases same : name = counterName
    · subst same
      have notLive : live counterName ≠ some checkpoint := by
        intro isLive
        have ordinary := (sound.name_eq isLive).2
        rw [show recordKey nameSpace counterName = counterKey nameSpace from rfl,
          isCounterKey_counterKey] at ordinary
        cases ordinary
      rw [show recordKey nameSpace counterName = counterKey nameSpace from rfl,
        AList.lookup_insert]
      simp [notLive]
    · rw [AList.lookup_insert_ne (by simpa [counterKey] using same)]
      exact sound.stored name checkpoint
  apart := sound.apart
  index := sound.index

theorem put (sound : NamesSound nameSpace records index live)
    (ordinary : isCounterKey (recordKey nameSpace checkpoint.name) = false)
    (alone : ∀ other found, other ≠ checkpoint.name → live other = some found →
      found.seqNo ≠ checkpoint.seqNo) :
    NamesSound nameSpace
      (AList.insert (recordKey nameSpace checkpoint.name) (.manifest checkpoint) records)
      (index.insert checkpoint) (Function.update live checkpoint.name (some checkpoint)) where
  forms := by
    intro key value found scanned
    by_cases same : key = recordKey nameSpace checkpoint.name
    · subst same
      rw [AList.lookup_insert] at found
      exact .inr ⟨checkpoint, (Option.some.inj found).symm, rfl, ordinary⟩
    · rw [AList.lookup_insert_ne same] at found
      exact sound.forms key value found scanned
  stored := by
    intro name other
    by_cases same : name = checkpoint.name
    · subst same
      rw [update_self, AList.lookup_insert]
      simp
    · rw [update_of_ne same, AList.lookup_insert_ne (by simpa using same)]
      exact sound.stored name other
  apart := by
    intro first second found other firstLive secondLive sameSeq
    by_cases isFirst : first = checkpoint.name <;> by_cases isSecond : second = checkpoint.name
    · rw [isFirst, isSecond]
    · rw [isFirst, update_self] at firstLive
      rw [update_of_ne isSecond] at secondLive
      cases firstLive
      exact absurd sameSeq.symm (alone second other isSecond secondLive)
    · rw [update_of_ne isFirst] at firstLive
      rw [isSecond, update_self] at secondLive
      cases secondLive
      exact absurd sameSeq (alone first found isFirst firstLive)
    · rw [update_of_ne isFirst] at firstLive
      rw [update_of_ne isSecond] at secondLive
      exact sound.apart first second found other firstLive secondLive sameSeq
  index := sound.index.insert (fun name other => update_of_ne other ..)
    (update_self ..)

theorem erase (sound : NamesSound nameSpace records index live) (notCounter : name ≠ counterName) :
    NamesSound nameSpace (AList.erase (recordKey nameSpace name) records) (index.removeByName name)
      (Function.update live name none) where
  forms := by
    intro key value found scanned
    by_cases same : key = recordKey nameSpace name
    · subst same
      rw [AList.lookup_erase] at found
      cases found
    · rw [AList.lookup_erase_ne same] at found
      exact sound.forms key value found scanned
  stored := by
    intro other checkpoint
    by_cases same : other = name
    · subst same
      rw [update_self, AList.lookup_erase]
      simp
    · rw [update_of_ne same, AList.lookup_erase_ne (by simpa using same)]
      exact sound.stored other checkpoint
  apart := by
    intro first second found other firstLive secondLive
    have firstOther : first ≠ name := by
      rintro rfl
      rw [update_self] at firstLive
      cases firstLive
    have secondOther : second ≠ name := by
      rintro rfl
      rw [update_self] at secondLive
      cases secondLive
    rw [update_of_ne firstOther] at firstLive
    rw [update_of_ne secondOther] at secondLive
    exact sound.apart first second found other firstLive secondLive
  index := sound.index.removeByName fun other different => update_of_ne different ..

end NamesSound

namespace CheckpointStore

variable {store : CheckpointStore} {live : Live}

theorem allocateTx_effect (store : CheckpointStore) (fault : Option MarkFault) :
    ∃ counter hwm records,
      (store.allocateTx fault).2 = { store with
        txCounter := counter
        allocatedHwm := hwm
        storage := { store.storage with records } } ∧
      (records = store.storage.records ∨ ∃ mark, records =
        AList.insert (counterKey store.nameSpace) (.txCounter mark) store.storage.records) := by
  unfold allocateTx persistHwm
  dsimp only
  split
  · exact ⟨_, store.allocatedHwm, _, rfl, .inl rfl⟩
  · split
    · rcases fault with _ | ⟨_ | _⟩
      · exact ⟨_, store.txCounter + txBatchSize - 1, _, rfl, .inr ⟨_, rfl⟩⟩
      · exact ⟨_, store.allocatedHwm, _, rfl, .inl rfl⟩
      · exact ⟨_, store.allocatedHwm, _, rfl, .inr ⟨_, rfl⟩⟩
    · exact ⟨_, store.allocatedHwm, _, rfl, .inl rfl⟩

theorem allocateTx_sound (sound : store.Sound live) (fault : Option MarkFault) :
    (store.allocateTx fault).2.Sound live := by
  obtain ⟨counter, hwm, records, after, unchanged | ⟨mark, marked⟩⟩ :=
    store.allocateTx_effect fault
  · rw [after, unchanged]
    exact sound
  · rw [after, marked]
    exact sound.mark mark

@[simp] theorem allocateTx_nameSpace (fault : Option MarkFault) :
    (store.allocateTx fault).2.nameSpace = store.nameSpace := by
  obtain ⟨counter, hwm, records, after, -⟩ := store.allocateTx_effect fault
  rw [after]

@[simp] theorem unpinCheckpoint_sound (seqNo : Nat) (fault : Option ContextraError) :
    (store.unpinCheckpoint seqNo fault).Sound live ↔ store.Sound live := by
  cases fault <;> rfl

theorem getCheckpointInternal_sound (sound : store.Sound live) (name : String)
    (fault : Option ContextraError) :
    (store.getCheckpointInternal name fault).2.Sound live ∧
      ∀ found, (store.getCheckpointInternal name fault).1 = .ok found → found = live name := by
  unfold getCheckpointInternal
  cases indexed : store.index.getByName name with
  | some checkpoint =>
    refine ⟨sound, fun found isOk => ?_⟩
    cases isOk
    exact (sound.index.getByName sound.apart indexed).symm
  | none =>
    cases fault with
    | some error => exact ⟨sound, nofun⟩
    | none =>
      cases lookup : store.storage.records.lookup (recordKey store.nameSpace name) with
      | none =>
        refine ⟨sound, fun found isOk => ?_⟩
        cases isOk
        cases isLive : live name with
        | none => rfl
        | some checkpoint =>
          rw [(sound.stored name checkpoint).mp isLive] at lookup
          cases lookup
      | some value =>
        cases value with
        | txCounter mark => exact ⟨sound, nofun⟩
        | manifest checkpoint =>
          have isLive := (sound.stored name checkpoint).mpr lookup
          have named := (sound.name_eq isLive).1
          refine ⟨sound.withIndex ?_, fun found isOk => ?_⟩
          · apply sound.index.insert fun _ _ => rfl
            rw [named]
            exact isLive
          · cases isOk
            exact isLive.symm

@[simp] theorem getCheckpointInternal_nameSpace (store : CheckpointStore) (name : String)
    (fault : Option ContextraError) :
    (store.getCheckpointInternal name fault).2.nameSpace = store.nameSpace := by
  unfold getCheckpointInternal
  split
  · rfl
  · split
    · rfl
    · split <;> rfl

theorem getCheckpointInternal_eq (sound : store.Sound live) {name : String}
    (notCounter : name ≠ counterName) :
    (store.getCheckpointInternal name none).1 = .ok (live name) := by
  have found := (getCheckpointInternal_sound sound name none).2
  cases result : (store.getCheckpointInternal name none).1 with
  | ok checkpoint => rw [found checkpoint result]
  | error error =>
    unfold getCheckpointInternal at result
    split at result
    · cases result
    · dsimp only at result
      split at result
      · cases result
      · rename_i mark lookup
        rcases sound.record lookup with ⟨isCounter, -⟩ | ⟨checkpoint, impossible, -⟩
        · exact absurd isCounter notCounter
        · cases impossible
      · cases result

/-- What a creation needs to keep names apart. -/
structure Fits (store : CheckpointStore) (live : Live) (name : String) (seqNo : Nat) : Prop where
  ordinary : isCounterKey (recordKey store.nameSpace name) = false
  alone : ∀ other found, other ≠ name → live other = some found → found.seqNo ≠ seqNo

theorem saveCheckpointInternal_sound (sound : store.Sound live) {checkpoint : CheckpointMeta}
    (fits : store.Fits live checkpoint.name checkpoint.seqNo) (conditions : Conditions) :
    (store.saveCheckpointInternal checkpoint conditions).2.Sound
      (if (store.saveCheckpointInternal checkpoint conditions).1.isOk then
        Function.update live checkpoint.name (some checkpoint) else live) := by
  have allocated := allocateTx_sound sound conditions.mark
  have sameSpace := store.allocateTx_nameSpace conditions.mark
  unfold saveCheckpointInternal
  split
  · rename_i after isError
    rw [isError] at allocated
    exact allocated
  · rename_i after isOk
    rw [isOk] at allocated sameSpace
    cases conditions.write with
    | some error => exact allocated
    | none =>
      apply allocated.put
      · rw [sameSpace]
        exact fits.ordinary
      · exact fits.alone

theorem saveCheckpointWithPinGuard_sound (sound : store.Sound live) {checkpoint : CheckpointMeta}
    (fits : store.Fits live checkpoint.name checkpoint.seqNo) (conditions : Conditions) :
    (store.saveCheckpointWithPinGuard checkpoint conditions).2.Sound
      (if (store.saveCheckpointWithPinGuard checkpoint conditions).1.isOk then
        Function.update live checkpoint.name (some checkpoint) else live) := by
  unfold saveCheckpointWithPinGuard
  cases conditions.pin with
  | some error => exact sound
  | none =>
    have pinned : (store.pinCheckpoint checkpoint.seqNo conditions.wallMs).Sound live := sound
    have pinnedFits : (store.pinCheckpoint checkpoint.seqNo conditions.wallMs).Fits live
      checkpoint.name checkpoint.seqNo := ⟨fits.ordinary, fits.alone⟩
    have saved := saveCheckpointInternal_sound pinned pinnedFits conditions
    dsimp only
    split
    · rename_i isError
      rw [isError] at saved
      exact (unpinCheckpoint_sound ..).mpr saved
    · rename_i isOk
      rw [isOk] at saved
      exact saved

theorem releaseOld_sound (sound : store.Sound live) (old : Option CheckpointMeta) (seqNo : Nat)
    (fault : Option ContextraError) : (store.releaseOld old seqNo fault).Sound live := by
  unfold releaseOld
  split
  · rename_i old
    split
    · have unpinned : (store.unpinCheckpoint old.seqNo fault).Sound live :=
        (unpinCheckpoint_sound ..).mpr sound
      exact unpinned.withIndex unpinned.index.removeBySeq
    · exact sound
  · exact sound

def liveAfter (live : Live) (name : String) : Except CheckpointError CheckpointMeta → Live
  | .ok checkpoint => Function.update live name (some checkpoint)
  | .error _ => live

theorem createCheckpoint_sound (sound : store.Sound live) {creation : Creation}
    (fits : creation.validate = .ok () → store.Fits live creation.name creation.seqNo)
    (conditions : Conditions) :
    (store.createCheckpoint creation conditions).2.Sound
      (liveAfter live creation.name (store.createCheckpoint creation conditions).1) := by
  unfold createCheckpoint
  split
  · exact sound
  · rename_i valid
    obtain ⟨ordinary, alone⟩ := fits valid
    have stamped : (store.monotonicTimestampMs conditions.wallMs).2.Sound live := sound
    have looked := (getCheckpointInternal_sound stamped creation.name conditions.get).1
    have sameSpace := getCheckpointInternal_nameSpace
      (store.monotonicTimestampMs conditions.wallMs).2 creation.name conditions.get
    dsimp only
    split
    · rename_i isError
      rw [isError] at looked
      exact looked
    · rename_i old after isOk
      rw [isOk] at looked sameSpace
      have afterFits : after.Fits live
          (creation.checkpoint (store.monotonicTimestampMs conditions.wallMs).1).name
          creation.seqNo := ⟨by rw [sameSpace]; exact ordinary, alone⟩
      have saved := saveCheckpointWithPinGuard_sound looked afterFits conditions
      split
      · rename_i isError
        rw [isError] at saved
        exact saved
      · rename_i isSaved
        rw [isSaved] at saved
        have released := releaseOld_sound saved old creation.seqNo conditions.unpin
        apply released.withIndex
        exact released.index.insert (fun _ _ => rfl) (update_self ..)

def liveAfterDrop (live : Live) (name : String) : Except CheckpointError Unit → Live
  | .ok () => Function.update live name none
  | .error _ => live

theorem dropCheckpoint_sound (sound : store.Sound live) (name : String)
    (conditions : Conditions) :
    (store.dropCheckpoint name conditions).2.Sound
      (liveAfterDrop live name (store.dropCheckpoint name conditions).1) := by
  unfold dropCheckpoint
  split
  · exact sound
  · obtain ⟨looked, found⟩ := getCheckpointInternal_sound sound name conditions.get
    have sameSpace := getCheckpointInternal_nameSpace store name conditions.get
    split
    · rename_i isError
      rw [isError] at looked
      exact looked
    · rename_i isOk
      rw [isOk] at looked found
      have unchanged : liveAfterDrop live name (.ok ()) = live := by
        rw [liveAfterDrop, found none rfl, update_eq_self]
      rw [unchanged]
      exact looked
    · rename_i checkpoint after isOk
      rw [isOk] at looked found sameSpace
      have isLive : live name = some checkpoint := (found _ rfl).symm
      obtain ⟨named, ordinary⟩ := looked.name_eq isLive
      have allocated := allocateTx_sound looked conditions.mark
      have sameSpaceAgain := after.allocateTx_nameSpace conditions.mark
      split
      · rename_i isError
        rw [isError] at allocated
        exact allocated
      · rename_i allocatedStore isAllocated
        rw [isAllocated] at allocated
        cases conditions.write with
        | some error => exact allocated
        | none =>
          have notCounter : name ≠ counterName := by
            rintro rfl
            rw [show recordKey after.nameSpace counterName = counterKey after.nameSpace from rfl,
              isCounterKey_counterKey] at ordinary
            cases ordinary
          have erased := allocated.erase notCounter
          dsimp only
          rw [named]
          cases conditions.unpin <;> exact erased

end CheckpointStore

end Contextra.Checkpoint
