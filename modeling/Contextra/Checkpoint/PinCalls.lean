import Contextra.Checkpoint.Pins

/-!
# Calls keep pins and checkpoints matched

Each call from the registrations it takes to those it leaves, and the run over any sequence of
creations, drops and recoveries.
-/

namespace Contextra.Checkpoint

open Library List Option

namespace CheckpointStore

section Records

variable {store : CheckpointStore} {held : List Nat} {name : String} {seqNo : Nat}
  {checkpoint : CheckpointMeta}

theorem contribution_txCounter (raw mark : Nat) (nameSpace key : String) :
    contribution (refersTo nameSpace raw) key (some (.txCounter mark)) = 0 := by
  simp [contribution, refersTo]

theorem contribution_manifest (raw : Nat) (nameSpace name : String) :
    contribution (refersTo nameSpace raw) (recordKey nameSpace name) (some (.manifest checkpoint)) =
      [checkpoint.seqNo % tombstoneBit].count raw := by
  have scanned := isPrefixOf_iff_prefix.mpr (recordKey_scanned nameSpace name)
  simp only [contribution, refersTo, scanned, Bool.true_and, count_singleton,
    decide_eq_true_eq, beq_iff_eq]

def storedPins (store : CheckpointStore) (name : String) : List Nat :=
  ((store.stored name).map fun checkpoint => checkpoint.seqNo % tombstoneBit).toList

theorem contribution_stored (raw : Nat) (name : String) :
    contribution (refersTo store.nameSpace raw) (recordKey store.nameSpace name)
      (store.storage.records.lookup (recordKey store.nameSpace name)) =
        (store.storedPins name).count raw := by
  unfold storedPins stored
  split
  · rename_i found isStored
    rw [isStored, contribution_manifest]
    rfl
  · rename_i other
    cases found : store.storage.records.lookup (recordKey store.nameSpace name) with
    | none => rfl
    | some value =>
      cases value with
      | txCounter mark => rw [contribution_txCounter]; rfl
      | manifest checkpoint => exact absurd found (other checkpoint)

theorem stored_counterName (sound : store.PinsSound held) : store.stored counterName = none := by
  cases found : store.stored counterName with
  | none => rfl
  | some checkpoint =>
    rcases sound.forms _ _ (stored_eq_some.mp found) (recordKey_scanned _ _) with
      ⟨-, mark, impossible⟩ | ⟨other, -, same, notCounter⟩
    · cases impossible
    · exact absurd (recordKey_inj.mp same).symm notCounter

theorem stored_name (sound : store.PinsSound held) (found : store.stored name = some checkpoint) :
    checkpoint.name = name := by
  rcases sound.forms _ _ (stored_eq_some.mp found) (recordKey_scanned _ _) with
    ⟨-, mark, impossible⟩ | ⟨other, isOther, same, -⟩
  · cases impossible
  · cases isOther
    exact (recordKey_inj.mp same).symm

theorem stored_putRecord_self :
    (store.putRecord (recordKey store.nameSpace name) (.manifest checkpoint)).stored name =
      some checkpoint :=
  stored_eq_some.mpr (AList.lookup_insert _)

theorem stored_putRecord_of_ne (name : String) {other : String} {value : StoredValue}
    (different : other ≠ name) :
    (store.putRecord (recordKey store.nameSpace name) value).stored other =
      store.stored other := by
  have unchanged : (store.storage.records.insert (recordKey store.nameSpace name) value).lookup
      (recordKey store.nameSpace other) =
        store.storage.records.lookup (recordKey store.nameSpace other) :=
    AList.lookup_insert_ne (by simpa using different)
  simp only [stored, putRecord, unchanged]

theorem stored_deleteRecord {other : String}
    (found : (store.deleteRecord (recordKey store.nameSpace name)).stored other =
      some checkpoint) : other ≠ name ∧ store.stored other = some checkpoint := by
  have lookup : (store.storage.records.erase (recordKey store.nameSpace name)).lookup
      (recordKey store.nameSpace other) = some (.manifest checkpoint) := stored_eq_some.mp found
  have different : other ≠ name := by
    rintro rfl
    rw [AList.lookup_erase] at lookup
    cases lookup
  rw [AList.lookup_erase_ne (by simpa using different)] at lookup
  exact ⟨different, stored_eq_some.mpr lookup⟩

theorem PinsSound.mark (sound : store.PinsSound held) (mark : Nat) :
    (store.putRecord (counterKey store.nameSpace) (.txCounter mark)).PinsSound held where
  counted := by
    intro raw
    have before := sound.counted raw
    have counts : (store.storage.records.insert (counterKey store.nameSpace)
        (.txCounter mark)).entries.countP (refersTo store.nameSpace raw) + _ = _ := countP_insert
    have nothing : contribution (refersTo store.nameSpace raw) (counterKey store.nameSpace)
        (store.storage.records.lookup (counterKey store.nameSpace)) = 0 := by
      rw [counterKey, contribution_stored, storedPins, stored_counterName sound]
      rfl
    rw [nothing, contribution_txCounter] at counts
    simp only [putRecord]
    omega
  forms := by
    intro key value found scanned
    by_cases same : key = counterKey store.nameSpace
    · subst same
      have isMark : some (StoredValue.txCounter mark) = some value :=
        (AList.lookup_insert _).symm.trans found
      exact .inl ⟨rfl, mark, (some.inj isMark).symm⟩
    · exact sound.forms key value ((AList.lookup_insert_ne same).symm.trans found) scanned
  bySeq := sound.bySeq
  byName := by
    intro name seqNo checkpoint named atName
    by_cases same : name = counterName
    · subst same
      have lookup := stored_eq_some.mp atName
      have isMark : (store.storage.records.insert (counterKey store.nameSpace)
        (.txCounter mark)).lookup (recordKey store.nameSpace counterName) =
          some (.txCounter mark) := AList.lookup_insert _
      cases isMark.symm.trans lookup
    · rw [counterKey, stored_putRecord_of_ne _ same] at atName
      exact sound.byName name seqNo checkpoint named atName
  orphans := sound.orphans

theorem PinsSound.put (sound : store.PinsSound (checkpoint.seqNo % tombstoneBit :: held))
    (notCounter : checkpoint.name ≠ counterName) :
    ((store.putRecord (recordKey store.nameSpace checkpoint.name)
      (.manifest checkpoint)).withIndex (store.index.insert checkpoint)).PinsSound
        (store.storedPins checkpoint.name ++ held) where
  counted := by
    intro raw
    have before := sound.counted raw
    have counts : (store.storage.records.insert (recordKey store.nameSpace checkpoint.name)
        (.manifest checkpoint)).entries.countP (refersTo store.nameSpace raw) + _ = _ :=
      countP_insert
    rw [contribution_stored, contribution_manifest] at counts
    rw [← singleton_append, count_append] at before
    change (store.storage.pins.entriesAt raw).length =
      (store.storage.records.insert (recordKey store.nameSpace checkpoint.name)
        (.manifest checkpoint)).entries.countP (refersTo store.nameSpace raw) +
          store.orphans.countP (fun orphan => orphan.seqNo % tombstoneBit = raw) +
            (store.storedPins checkpoint.name ++ held).count raw
    rw [count_append]
    omega
  forms := by
    intro key value found scanned
    by_cases same : key = recordKey store.nameSpace checkpoint.name
    · subst same
      have isNew : some (StoredValue.manifest checkpoint) = some value :=
        (AList.lookup_insert _).symm.trans found
      exact .inr ⟨checkpoint, (some.inj isNew).symm, rfl, notCounter⟩
    · exact sound.forms key value ((AList.lookup_insert_ne same).symm.trans found) scanned
  bySeq := by
    intro seqNo found present
    by_cases same : seqNo = checkpoint.seqNo
    · subst same
      have isNew : (store.index.insert checkpoint).bySeq checkpoint.seqNo = some found := present
      rw [CheckpointIndex.insert_bySeq_self] at isNew
      cases isNew
      rfl
    · exact sound.bySeq seqNo found (CheckpointIndex.insert_bySeq_of_ne same present).1
  byName := by
    intro name seqNo found named atName
    have present : Function.update store.index.byName checkpoint.name (some checkpoint.seqNo) name =
      some seqNo := named
    by_cases same : name = checkpoint.name
    · subst same
      have isNew : some checkpoint = some found := stored_putRecord_self.symm.trans atName
      rw [Function.update_self] at present
      cases present
      cases isNew
      rfl
    · rw [Function.update_of_ne same] at present
      exact sound.byName name seqNo found present ((stored_putRecord_of_ne _ same).symm.trans atName)
  orphans := sound.orphans

theorem PinsSound.erase (sound : store.PinsSound held) (name : String) :
    (store.deleteRecord (recordKey store.nameSpace name)).PinsSound
      (store.storedPins name ++ held) where
  counted := by
    intro raw
    have before := sound.counted raw
    have counts : store.storage.records.entries.countP (refersTo store.nameSpace raw) = _ :=
      countP_erase (recordKey store.nameSpace name)
    rw [contribution_stored] at counts
    simp only [deleteRecord, count_append]
    omega
  forms := by
    intro key value found
    have different : key ≠ recordKey store.nameSpace name := by
      rintro rfl
      cases (AList.lookup_erase _ _).symm.trans found
    exact sound.forms key value ((AList.lookup_erase_ne different).symm.trans found)
  bySeq := sound.bySeq
  byName := fun name seqNo found named atName =>
    sound.byName name seqNo found named (stored_deleteRecord atName).2
  orphans := sound.orphans

theorem PinsSound.registerOrphan (sound : store.PinsSound (seqNo % tombstoneBit :: held))
    (unknown : ∀ orphan ∈ store.orphans, orphan.seqNo ≠ seqNo) (timestampMs : Nat) :
    (store.registerOrphanSync ⟨seqNo, timestampMs⟩).PinsSound held := by
  have absent : ¬ (store.orphans.any fun known => known.seqNo = seqNo) = true := by
    simpa using unknown
  rw [registerOrphanSync, if_neg absent]
  exact { sound with
    counted := by
      intro raw
      have before := sound.counted raw
      rw [count_cons] at before
      simp only [countP_append, countP_singleton, decide_eq_true_eq, beq_iff_eq] at *
      omega
    orphans := by
      rw [map_append, map_singleton, nodup_append]
      refine ⟨sound.orphans, nodup_singleton _, ?_⟩
      intro known isKnown new isNew
      obtain ⟨orphan, mem, rfl⟩ := List.mem_map.mp isKnown
      rw [mem_singleton.mp isNew]
      exact unknown orphan mem }

end Records

section Calls

variable {store : CheckpointStore} {held : List Nat} {name : String} {creation : Creation}

theorem PinsSound.allocate (sound : store.PinsSound held) (fault : Option MarkFault) :
    (store.allocateTx fault).2.PinsSound held := by
  obtain ⟨counter, hwm, records, after, unchanged | ⟨mark, marked⟩⟩ :=
    store.allocateTx_effect fault
  · rw [after, unchanged]
    exact { sound with }
  · rw [after, marked]
    exact { sound.mark mark with }

def Known (store : CheckpointStore) (name : String) : Prop :=
  store.index.getByName name ≠ none → store.stored name ≠ none

theorem PinsSound.get (sound : store.PinsSound held) (name : String) (known : store.Known name)
    (fault : Option ContextraError) :
    (store.getCheckpointInternal name fault).2.PinsSound held ∧
      ∀ found, (store.getCheckpointInternal name fault).1 = .ok found →
        found.map (·.seqNo) = (store.stored name).map (·.seqNo) := by
  unfold getCheckpointInternal
  cases indexed : store.index.getByName name with
  | some checkpoint =>
    refine ⟨sound, fun found isOk => ?_⟩
    cases isOk
    obtain ⟨own, isStored⟩ := ne_none_iff_exists'.mp (known (by simp [indexed]))
    obtain ⟨seqNo, named, present⟩ := bind_eq_some_iff.mp indexed
    rw [isStored, map_some, map_some, sound.bySeq seqNo checkpoint present,
      sound.byName name seqNo own named isStored]
  | none =>
    cases fault with
    | some error => exact ⟨sound, nofun⟩
    | none =>
      unfold stored
      cases lookup : store.storage.records.lookup (recordKey store.nameSpace name) with
      | none =>
        refine ⟨sound, fun found isOk => ?_⟩
        cases isOk
        rfl
      | some value =>
        cases value with
        | txCounter mark => exact ⟨sound, nofun⟩
        | manifest checkpoint =>
          have isStored := stored_eq_some.mpr lookup
          have named := stored_name sound isStored
          refine ⟨sound.insert (by rw [named]; exact isStored), fun found isOk => ?_⟩
          cases isOk
          rfl

theorem getCheckpointInternal_effect (store : CheckpointStore) (name : String)
    (fault : Option ContextraError) :
    ∃ index, (store.getCheckpointInternal name fault).2 = store.withIndex index := by
  unfold getCheckpointInternal
  split
  · exact ⟨store.index, rfl⟩
  · split
    · exact ⟨store.index, rfl⟩
    · split
      · exact ⟨_, rfl⟩
      · exact ⟨store.index, rfl⟩
      · exact ⟨store.index, rfl⟩

theorem stored_allocateTx (notCounter : name ≠ counterName) (fault : Option MarkFault) :
    (store.allocateTx fault).2.stored name = store.stored name := by
  obtain ⟨counter, hwm, records, after, unchanged | ⟨mark, marked⟩⟩ :=
    store.allocateTx_effect fault
  · rw [after, unchanged]
    rfl
  · rw [after, marked]
    exact stored_putRecord_of_ne counterName notCounter

theorem PinsSound.saveInternal {checkpoint : CheckpointMeta}
    (sound : store.PinsSound (checkpoint.seqNo % tombstoneBit :: held))
    (notCounter : checkpoint.name ≠ counterName) (conditions : Conditions) :
    ((store.saveCheckpointInternal checkpoint conditions).1 = .ok () ∧
      (store.saveCheckpointInternal checkpoint conditions).2.PinsSound
        (store.storedPins checkpoint.name ++ held) ∧
      (store.saveCheckpointInternal checkpoint conditions).2.stored checkpoint.name =
        some checkpoint) ∨
    (∃ error, (store.saveCheckpointInternal checkpoint conditions).1 = .error error) ∧
      (store.saveCheckpointInternal checkpoint conditions).2.PinsSound
        (checkpoint.seqNo % tombstoneBit :: held) := by
  have allocated := sound.allocate conditions.mark
  have sameStored : (store.allocateTx conditions.mark).2.stored checkpoint.name = _ :=
    stored_allocateTx notCounter conditions.mark
  unfold saveCheckpointInternal
  split
  · rename_i isError
    rw [isError] at allocated
    exact .inr ⟨⟨_, rfl⟩, allocated⟩
  · rename_i after isOk
    rw [isOk] at allocated sameStored
    cases conditions.write with
    | some error => exact .inr ⟨⟨_, rfl⟩, allocated⟩
    | none =>
      refine .inl ⟨rfl, ?_, stored_putRecord_self⟩
      have saved := allocated.put notCounter
      rw [storedPins, sameStored] at saved
      exact saved

variable {conditions : Conditions}

theorem PinsSound.save (sound : store.PinsSound held) (checkpoint : CheckpointMeta)
    (notCounter : checkpoint.name ≠ counterName) (unpins : conditions.unpin = none) :
    ((store.saveCheckpointWithPinGuard checkpoint conditions).1 = .ok () ∧
      (store.saveCheckpointWithPinGuard checkpoint conditions).2.PinsSound
        (store.storedPins checkpoint.name ++ held) ∧
      (store.saveCheckpointWithPinGuard checkpoint conditions).2.stored checkpoint.name =
        some checkpoint) ∨
    (∃ error, (store.saveCheckpointWithPinGuard checkpoint conditions).1 = .error error) ∧
      (store.saveCheckpointWithPinGuard checkpoint conditions).2.PinsSound held := by
  unfold saveCheckpointWithPinGuard
  cases conditions.pin with
  | some error => exact .inr ⟨⟨_, rfl⟩, sound⟩
  | none =>
    have pinned := sound.pin checkpoint.seqNo conditions.wallMs
    have outcome := pinned.saveInternal notCounter conditions
    dsimp only
    split
    · rename_i isError
      rw [isError] at outcome
      rcases outcome with ⟨impossible, -⟩ | ⟨-, kept⟩
      · cases impossible
      · rw [unpins]
        exact .inr ⟨⟨_, rfl⟩, kept.unpin⟩
    · rename_i isOk
      rw [isOk] at outcome
      rcases outcome with ⟨-, saved⟩ | ⟨⟨error, impossible⟩, -⟩
      · exact .inl ⟨rfl, saved⟩
      · cases impossible

theorem PinsSound.releaseOld {old : Option CheckpointMeta} {seqNo : Nat} {pins : List Nat}
    (sound : store.PinsSound (pins ++ held))
    (isOld : pins = (old.map fun checkpoint => checkpoint.seqNo % tombstoneBit).toList)
    (moves : ∀ checkpoint ∈ old, checkpoint.seqNo ≠ seqNo) :
    (store.releaseOld old seqNo none).PinsSound held := by
  cases old with
  | none =>
    rw [isOld] at sound
    exact sound
  | some checkpoint =>
    rw [isOld] at sound
    simp only [CheckpointStore.releaseOld, moves checkpoint rfl, ne_eq, not_false_eq_true, if_true]
    exact PinsSound.removeBySeq (PinsSound.unpin sound) checkpoint.seqNo

@[simp] theorem stored_releaseOld (old : Option CheckpointMeta) (seqNo : Nat) :
    (store.releaseOld old seqNo none).stored name = store.stored name := by
  unfold CheckpointStore.releaseOld
  split
  · split
    · rfl
    · rfl
  · rfl

/-- What a creation needs to keep the pins matched. -/
structure Replaces (store : CheckpointStore) (name : String) (seqNo : Nat)
    (conditions : Conditions) : Prop where
  notCounter : name ≠ counterName
  known : store.Known name
  moves : ∀ checkpoint ∈ store.stored name, checkpoint.seqNo ≠ seqNo
  unpins : conditions.unpin = none

theorem PinsSound.create (sound : store.PinsSound [])
    (replaces : creation.validate = .ok () →
      store.Replaces creation.name creation.seqNo conditions) :
    (store.createCheckpoint creation conditions).2.PinsSound [] := by
  unfold createCheckpoint
  split
  · exact sound
  · rename_i valid
    obtain ⟨notCounter, known, moves, unpins⟩ := replaces valid
    have stamped : (store.monotonicTimestampMs conditions.wallMs).2.PinsSound [] := { sound with }
    obtain ⟨looked, found⟩ := stamped.get creation.name known conditions.get
    obtain ⟨index, effect⟩ := getCheckpointInternal_effect
      (store.monotonicTimestampMs conditions.wallMs).2 creation.name conditions.get
    dsimp only
    split
    · rename_i isError
      rw [isError] at looked
      exact looked
    · rename_i old after isOk
      rw [isOk] at looked found effect
      have sameStored : after.stored creation.name = store.stored creation.name := by
        rw [show after = _ from effect]
        rfl
      have sameSeq : old.map (·.seqNo) = (store.stored creation.name).map (·.seqNo) := found old rfl
      have outcome := looked.save (creation.checkpoint
        (store.monotonicTimestampMs conditions.wallMs).1) notCounter unpins
      split
      · rename_i isError
        rw [isError] at outcome
        rcases outcome with ⟨impossible, -⟩ | ⟨-, kept⟩
        · cases impossible
        · exact kept
      · rename_i saved isSaved
        rw [isSaved] at outcome
        rcases outcome with ⟨-, swapped, isStored⟩ | ⟨⟨error, impossible⟩, -⟩
        · rw [unpins]
          have oldPins : after.storedPins creation.name =
              (old.map fun checkpoint => checkpoint.seqNo % tombstoneBit).toList := by
            have viaSeq : ∀ found : Option CheckpointMeta,
                found.map (fun checkpoint => checkpoint.seqNo % tombstoneBit) =
                  (found.map (·.seqNo)).map (· % tombstoneBit) := fun found => by
              cases found <;> rfl
            rw [storedPins, sameStored, viaSeq, viaSeq, sameSeq]
          have oldMoves : ∀ checkpoint ∈ old, checkpoint.seqNo ≠ creation.seqNo := by
            rintro checkpoint rfl
            rw [map_some] at sameSeq
            obtain ⟨own, isOwn, ownSeq⟩ := map_eq_some_iff.mp sameSeq.symm
            rw [← ownSeq]
            exact moves own isOwn
          have released := swapped.releaseOld oldPins oldMoves
          exact released.insert ((stored_releaseOld old creation.seqNo).trans isStored)
        · cases impossible

/-- What an abandoned creation needs: nothing was written, and no orphan stands for the number. -/
structure Abandons (store : CheckpointStore) (name : String) (seqNo : Nat) (written : Bool) :
    Prop where
  known : store.Known name
  unwritten : written = false
  unknown : ∀ orphan ∈ store.orphans, orphan.seqNo ≠ seqNo

theorem PinsSound.abandon (sound : store.PinsSound []) {written : Bool}
    (abandons : creation.validate = .ok () →
      store.Abandons creation.name creation.seqNo written) :
    (store.abandonCreation creation conditions written).PinsSound [] := by
  unfold abandonCreation
  split
  · exact sound
  · rename_i valid
    obtain ⟨known, unwritten, unknown⟩ := abandons valid
    have stamped : (store.monotonicTimestampMs conditions.wallMs).2.PinsSound [] := { sound with }
    obtain ⟨looked, -⟩ := stamped.get creation.name known conditions.get
    obtain ⟨index, effect⟩ := getCheckpointInternal_effect
      (store.monotonicTimestampMs conditions.wallMs).2 creation.name conditions.get
    dsimp only
    split
    · rename_i isError
      rw [isError] at looked
      exact looked
    · rename_i after isOk
      rw [isOk] at looked effect
      cases conditions.pin with
      | some error => exact looked
      | none =>
        have allocated := (looked.pin creation.seqNo conditions.wallMs).allocate conditions.mark
        obtain ⟨counter, hwm, records, allocatedStore, -⟩ :=
          (after.pinCheckpoint creation.seqNo conditions.wallMs).allocateTx_effect conditions.mark
        simp only [unwritten, Bool.false_eq_true, if_false]
        apply allocated.registerOrphan
        rw [allocatedStore, show after = _ from effect]
        exact unknown

theorem PinsSound.drop (sound : store.PinsSound [])
    (known : store.Known name) (unpins : conditions.unpin = none) :
    (store.dropCheckpoint name conditions).2.PinsSound [] := by
  unfold dropCheckpoint
  split
  · exact sound
  · obtain ⟨looked, found⟩ := sound.get name known conditions.get
    obtain ⟨index, effect⟩ := getCheckpointInternal_effect store name conditions.get
    split
    · rename_i isError
      rw [isError] at looked
      exact looked
    · rename_i isOk
      rw [isOk] at looked
      exact looked
    · rename_i checkpoint after isOk
      rw [isOk] at looked found effect
      have sameStored : after.stored name = store.stored name := by
        rw [show after = _ from effect]
        rfl
      obtain ⟨own, isOwn, ownSeq⟩ := map_eq_some_iff.mp (found _ rfl).symm
      have notCounter : name ≠ counterName := by
        rintro rfl
        rw [stored_counterName sound] at isOwn
        cases isOwn
      have allocated := looked.allocate conditions.mark
      have stillStored : (after.allocateTx conditions.mark).2.stored name = _ :=
        stored_allocateTx notCounter conditions.mark
      split
      · rename_i isError
        rw [isError] at allocated
        exact allocated
      · rename_i isAllocated
        rw [isAllocated] at allocated stillStored
        cases conditions.write with
        | some error => exact allocated
        | none =>
          have erased := allocated.erase name
          rw [storedPins, stillStored, sameStored, isOwn, map_some, ownSeq] at erased
          rw [unpins]
          exact PinsSound.removeByName (PinsSound.unpin erased) checkpoint.name

end Calls


end CheckpointStore

end Contextra.Checkpoint
