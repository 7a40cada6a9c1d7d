import Contextra.Checkpoint.PinCalls

/-!
# Runs of creations, drops and recoveries

In every state of a run a sequence number is pinned exactly while a live checkpoint refers to it or
an abandoned creation's orphan waits for its recovery.
-/

namespace Contextra.Checkpoint

open Library List

theorem filter_seqNo_eq {orphans : List PinnedSeqNoOrphan} {orphan : PinnedSeqNoOrphan}
    (distinct : (orphans.map (·.seqNo)).Nodup) (mem : orphan ∈ orphans) :
    orphans.filter (fun known => known.seqNo = orphan.seqNo) = [orphan] := by
  induction orphans with
  | nil => cases mem
  | cons first orphans ih =>
    rw [map_cons, nodup_cons] at distinct
    obtain ⟨apart, rest⟩ := distinct
    rcases mem_cons.mp mem with rfl | later
    · have none : orphans.filter (fun known => known.seqNo = orphan.seqNo) = [] := by
        apply filter_eq_nil_iff.mpr
        intro known isKnown same
        exact apart (mem_map.mpr ⟨known, isKnown, by simpa using same⟩)
      rw [filter_cons_of_pos (by simp), none]
    · have different : ¬ first.seqNo = orphan.seqNo := by
        intro same
        exact apart (same ▸ mem_map_of_mem later)
      rw [filter_cons_of_neg (by simpa using different), ih rest later]

namespace CheckpointStore

variable {store : CheckpointStore} {held : List Nat} {orphan : PinnedSeqNoOrphan}

def clearOrphanPin (store : CheckpointStore) (seqNo : Nat) : CheckpointStore :=
  { store with orphans := store.orphans.filter fun known => known.seqNo ≠ seqNo }

theorem PinsSound.clear (sound : store.PinsSound held) (mem : orphan ∈ store.orphans) :
    (store.clearOrphanPin orphan.seqNo).PinsSound (orphan.seqNo % tombstoneBit :: held) :=
  { sound with
    counted := by
      intro raw
      have before := sound.counted raw
      have own := filter_seqNo_eq sound.orphans mem
      have parts := countP_eq_countP_filter_add store.orphans
        (fun known => decide (known.seqNo % tombstoneBit = raw))
        (fun known => decide (known.seqNo = orphan.seqNo))
      rw [own, countP_singleton] at parts
      have others : (store.orphans.filter fun known => !decide (known.seqNo = orphan.seqNo)) =
          (store.clearOrphanPin orphan.seqNo).orphans :=
        filter_congr fun known _ => by simp
      rw [others] at parts
      change (store.storage.pins.entriesAt raw).length =
        store.storage.records.entries.countP (refersTo store.nameSpace raw) +
          (store.clearOrphanPin orphan.seqNo).orphans.countP
            (fun known => known.seqNo % tombstoneBit = raw) +
              (orphan.seqNo % tombstoneBit :: held).count raw
      simp only [count_cons, beq_iff_eq, decide_eq_true_eq] at *
      omega
    orphans := sound.orphans.sublist (filter_sublist.map _) }

theorem PinsSound.recoverFrom (fails : Nat → Option ContextraError)
    {waiting : List PinnedSeqNoOrphan} {recovered : List Nat} (sound : store.PinsSound [])
    (distinct : (waiting.map (·.seqNo)).Nodup) (known : ∀ orphan ∈ waiting, orphan ∈ store.orphans) :
    (waiting.foldl (fun (recovered, store) orphan =>
      match fails orphan.seqNo with
      | some _ => (recovered, store)
      | none => (recovered ++ [orphan.seqNo],
          (store.unpinCheckpoint orphan.seqNo none).clearOrphanPin orphan.seqNo))
      (recovered, store)).2.PinsSound [] := by
  induction waiting generalizing store recovered with
  | nil => exact sound
  | cons orphan waiting ih =>
    rw [map_cons, nodup_cons] at distinct
    have later : ∀ orphan ∈ waiting, orphan ∈ store.orphans :=
      fun orphan mem => known orphan (mem_cons_of_mem _ mem)
    rw [foldl_cons]
    cases fails orphan.seqNo with
    | some error => exact ih sound distinct.2 later
    | none =>
      have cleared := sound.clear (known orphan mem_cons_self)
      apply ih (PinsSound.unpin cleared) distinct.2
      intro other mem
      apply mem_filter.mpr
      refine ⟨later other mem, ?_⟩
      have different : other.seqNo ≠ orphan.seqNo := by
        intro same
        exact distinct.1 (same ▸ mem_map_of_mem mem)
      simpa using different

theorem PinsSound.recover (sound : store.PinsSound []) (fails : Nat → Option ContextraError) :
    (store.recoverOrphanedPins fails).2.PinsSound [] :=
  sound.recoverFrom fails sound.orphans fun _ mem => mem

end CheckpointStore

inductive PinEvent where
  | createCheckpoint (creation : CheckpointStore.Creation) (conditions : Conditions)
  | abandonCreation (creation : CheckpointStore.Creation) (conditions : Conditions)
      (written : Bool)
  | dropCheckpoint (name : String) (conditions : Conditions)
  | recoverOrphanedPins (fails : Nat → Option ContextraError)

namespace CheckpointStore

def pinStep (store : CheckpointStore) : PinEvent → Option CheckpointStore
  | .createCheckpoint creation conditions => some (store.createCheckpoint creation conditions).2
  | .abandonCreation creation conditions written =>
    some (store.abandonCreation creation conditions written)
  | .dropCheckpoint name conditions => some (store.dropCheckpoint name conditions).2
  | .recoverOrphanedPins fails => some (store.recoverOrphanedPins fails).2

/-- A creation moves its name to another sequence number, names that the index knows have
checkpoints, an abandoned creation wrote nothing and its orphan is new, and no unpinning fails. -/
def Matching (store : CheckpointStore) : PinEvent → Prop
  | .createCheckpoint creation conditions =>
    creation.validate = .ok () → store.Replaces creation.name creation.seqNo conditions
  | .abandonCreation creation _ written =>
    creation.validate = .ok () → store.Abandons creation.name creation.seqNo written
  | .dropCheckpoint name conditions => store.Known name ∧ conditions.unpin = none
  | .recoverOrphanedPins _ => True

/-- The pinned sequence numbers are those of live checkpoints, and of orphans that wait. -/
structure PinsMatch (store : CheckpointStore) : Prop where
  exact : ∀ raw, store.Pinned raw ↔ store.LiveAt raw ∨ store.OrphanedAt raw
  settled : store.orphans = [] → ∀ raw, store.Pinned raw ↔ store.LiveAt raw

variable {store : CheckpointStore}

theorem countP_refersTo_pos (sound : store.PinsSound []) {raw : Nat} :
    0 < store.storage.records.entries.countP (refersTo store.nameSpace raw) ↔
      store.LiveAt raw := by
  rw [countP_pos_iff]
  constructor
  · rintro ⟨⟨key, value⟩, mem, refers⟩
    have found : store.storage.records.lookup key = some value := AList.mem_lookup_iff.mpr mem
    simp only [refersTo, Bool.and_eq_true, isPrefixOf_iff_prefix] at refers
    rcases sound.forms key value found refers.1 with ⟨-, mark, rfl⟩ | ⟨checkpoint, rfl, rfl, -⟩
    · exact absurd refers.2 (by simp)
    · exact ⟨checkpoint.name, checkpoint, found, by simpa using refers.2⟩
  · rintro ⟨name, checkpoint, found, atRaw⟩
    refine ⟨⟨_, _⟩, AList.mem_lookup_iff.mp found, ?_⟩
    have scanned := isPrefixOf_iff_prefix.mpr (recordKey_scanned store.nameSpace name)
    simp [refersTo, scanned, atRaw]

theorem PinsSound.match (sound : store.PinsSound []) : store.PinsMatch := by
  have exact : ∀ raw, store.Pinned raw ↔ store.LiveAt raw ∨ store.OrphanedAt raw := by
    intro raw
    have counted := sound.counted raw
    have orphaned : 0 < store.orphans.countP (fun orphan => orphan.seqNo % tombstoneBit = raw) ↔
        store.OrphanedAt raw := by
      simp [countP_pos_iff, OrphanedAt]
    rw [← countP_refersTo_pos sound, ← orphaned, Pinned, ← length_pos_iff, counted,
      count_nil]
    omega
  refine ⟨exact, fun noOrphans raw => ?_⟩
  rw [exact raw]
  simp [OrphanedAt, noOrphans]

theorem PinsSound.step {next : CheckpointStore} {event : PinEvent} (sound : store.PinsSound [])
    (matching : store.Matching event) (taken : store.pinStep event = some next) :
    next.PinsSound [] := by
  cases event with
  | createCheckpoint creation conditions =>
    cases taken
    exact sound.create matching
  | abandonCreation creation conditions written =>
    cases taken
    exact sound.abandon matching
  | dropCheckpoint name conditions =>
    cases taken
    exact sound.drop matching.1 matching.2
  | recoverOrphanedPins fails =>
    cases taken
    exact sound.recover fails

/-- In every run whose steps are matching, the pins match the live checkpoints. -/
theorem pins_match {storage : Storage} {nameSpace : String} {final : CheckpointStore}
    {events : List PinEvent}
    (empty : ∀ key ∈ storage.records, ¬ (scanKey nameSpace).toList <+: key.toList)
    (unpinned : ∀ raw, storage.pins.entriesAt raw = [])
    (opened : openWithOrphanRegistry storage nameSpace [] = .ok store)
    (matching : Along pinStep Matching store events)
    (finished : run pinStep store events = some final) : final.PinsMatch := by
  have start : store.PinsSound [] := by
    have absent : ∀ key value, storage.records.lookup key = some value →
        ¬ (scanKey nameSpace).toList <+: key.toList := fun key value found =>
      empty key (AList.lookup_isSome.mp (found ▸ rfl))
    simp only [openWithOrphanRegistry] at opened
    split at opened
    · cases opened
    · cases opened
      constructor
      · intro raw
        have nothing : storage.records.entries.countP (refersTo nameSpace raw) = 0 := by
          apply countP_eq_zero.mpr
          rintro ⟨key, value⟩ mem refers
          simp only [refersTo, Bool.and_eq_true, isPrefixOf_iff_prefix] at refers
          exact absent key value (AList.mem_lookup_iff.mpr mem) refers.1
        rw [unpinned raw, nothing]
        rfl
      · intro key value found scanned
        exact absurd scanned (absent key value found)
      · intro seqNo checkpoint isEntry
        cases isEntry
      · intro name seqNo checkpoint isEntry
        cases isEntry
      · exact nodup_nil
  have preserved : ∀ (store : CheckpointStore) event next, store.PinsSound [] →
      store.Matching event → store.pinStep event = some next → next.PinsSound [] :=
    fun store event next sound matching taken => sound.step matching taken
  exact (run_invariant preserved start matching finished).match

open NamedCheckpoints in
/-- A creation, and a creation of the same name at another sequence number. -/
theorem fresh_pins_match : ∃ final,
    run pinStep fresh [.createCheckpoint (creationAt "a" 5) .good, .recoverOrphanedPins fun _ => none] =
      some final ∧ final.PinsMatch := by
  have runs : (run pinStep fresh [.createCheckpoint (creationAt "a" 5) .good,
      .recoverOrphanedPins fun _ => none]).isSome = true := by rfl
  obtain ⟨final, finished⟩ := Option.isSome_iff_exists.mp runs
  have opened : openWithOrphanRegistry ⟨∅, .new, 0⟩ "agent" [] = .ok fresh := rfl
  have replaces : fresh.Replaces "a" 5 .good :=
    ⟨by decide, fun found => absurd rfl found, nofun, rfl⟩
  have matching : Along pinStep Matching fresh
      [.createCheckpoint (creationAt "a" 5) .good, .recoverOrphanedPins fun _ => none] :=
    ⟨fun _ => replaces, fun _ _ => ⟨trivial, fun _ _ => trivial⟩⟩
  refine ⟨final, finished, pins_match (fun key present => ?_) (fun raw => ?_) opened matching
    finished⟩
  · exact absurd present (AList.notMem_empty key)
  · simp [Mvcc.SnapshotRegistry.entriesAt, Mvcc.SnapshotRegistry.new]

open NamedCheckpoints in
/-- A name is created twice at one sequence number and dropped; the number stays pinned. -/
theorem recreated_not_pinsMatch :
    ¬ ∀ events final, run pinStep fresh events = some final → final.PinsMatch := by
  intro claim
  have leftover : (run pinStep fresh [.createCheckpoint (creationAt "a" 5) .good,
      .createCheckpoint (creationAt "a" 5) .good, .dropCheckpoint "a" .good]).map (fun final =>
        (final.orphans, (final.storage.pins.entriesAt 5).length,
          final.storage.records.entries.map Sigma.snd)) = some ([], 1, [.txCounter 99]) := by
    decide +kernel
  obtain ⟨final, finished, answers⟩ := Option.map_eq_some_iff.mp leftover
  simp only [Prod.mk.injEq] at answers
  obtain ⟨noOrphans, pinned, records⟩ := answers
  have isPinned : final.Pinned 5 := by
    intro nothing
    rw [nothing] at pinned
    cases pinned
  obtain ⟨name, checkpoint, found, -⟩ := ((claim _ final finished).settled noOrphans 5).mp isPinned
  have mem := mem_map_of_mem (f := Sigma.snd) (AList.mem_lookup_iff.mp found)
  rw [records, mem_singleton] at mem
  cases mem

end CheckpointStore

end Contextra.Checkpoint
