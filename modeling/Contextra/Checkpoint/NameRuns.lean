import Contextra.Checkpoint.NameCalls

/-!
# Runs of a checkpoint store

Any sequence of calls, with the storage failing where it likes and reopenings in between.  Beside
the store stand the live checkpoints, as the answers of the calls make them.
-/

namespace Contextra.Checkpoint

open Library List Option

section Listing

variable {records : Records} {start key : String} {value : StoredValue}

theorem Records.mem_scanPrefix : (key, value) ∈ records.scanPrefix start ↔
    records.lookup key = some value ∧ start.toList <+: key.toList := by
  rw [← mem_def, AList.mem_lookup_iff]
  simp only [scanPrefix, mem_insertionSort, List.mem_map, mem_filter,
    isPrefixOf_iff_prefix]
  constructor
  · rintro ⟨⟨found, stored⟩, ⟨mem, scanned⟩, same⟩
    cases same
    exact ⟨mem, scanned⟩
  · rintro ⟨mem, scanned⟩
    exact ⟨⟨key, value⟩, ⟨mem, scanned⟩, rfl⟩

theorem Records.scanPrefix_keys : (records.scanPrefix start).Pairwise
    fun first second => first.1 ≠ second.1 := by
  have distinct := (nodupKeys_iff_pairwise.mp records.nodupKeys).filter
    fun entry => start.toList.isPrefixOf entry.1.toList
  unfold scanPrefix
  rw [(perm_insertionSort _ _).pairwise_iff fun different => different.symm, pairwise_map]
  exact distinct

def manifestOf (entry : String × StoredValue) : Option CheckpointMeta :=
  if isCounterKey entry.1 then none
  else
    match entry.2 with
    | .manifest checkpoint => some checkpoint
    | .txCounter _ => none

theorem CheckpointStore.manifestsOf_eq {entries : List (String × StoredValue)}
    (forms : ∀ key value, (key, value) ∈ entries →
      isCounterKey key = true ∨ ∃ checkpoint, value = .manifest checkpoint) :
    manifestsOf entries = .ok (entries.filterMap manifestOf) := by
  induction entries with
  | nil => rfl
  | cons entry entries ih =>
    obtain ⟨key, value⟩ := entry
    have rest := ih fun key value mem =>
      forms key value (mem_cons_of_mem _ mem)
    rcases forms key value mem_cons_self with skipped | ⟨checkpoint, rfl⟩
    · simp [manifestsOf, manifestOf, skipped, rest]
    · cases ordinary : isCounterKey key with
      | true => simp [manifestsOf, manifestOf, ordinary, rest]
      | false => simp [manifestsOf, manifestOf, ordinary, rest]

end Listing

namespace CheckpointStore

variable {store : CheckpointStore} {live : Live}

def scanned (store : CheckpointStore) : List CheckpointMeta :=
  (store.storage.records.scanPrefix (scanKey store.nameSpace)).filterMap manifestOf

theorem manifestsOf_scanned (sound : store.Sound live) :
    manifestsOf (store.storage.records.scanPrefix (scanKey store.nameSpace)) =
      .ok store.scanned := by
  apply manifestsOf_eq
  intro key value mem
  obtain ⟨found, inScan⟩ := Records.mem_scanPrefix.mp mem
  rcases sound.forms key value found inScan with ⟨rfl, -⟩ | ⟨checkpoint, isManifest, -⟩
  · exact .inl (isCounterKey_counterKey _)
  · exact .inr ⟨checkpoint, isManifest⟩

theorem mem_scanned (sound : store.Sound live) {checkpoint : CheckpointMeta} :
    checkpoint ∈ store.scanned ↔ live checkpoint.name = some checkpoint := by
  simp only [scanned, mem_filterMap]
  constructor
  · rintro ⟨⟨key, value⟩, mem, isManifest⟩
    obtain ⟨found, inScan⟩ := Records.mem_scanPrefix.mp mem
    rcases sound.forms key value found inScan with ⟨rfl, -⟩ | ⟨other, rfl, rfl, ordinary⟩
    · simp [manifestOf, isCounterKey_counterKey] at isManifest
    · simp only [manifestOf, ordinary, Bool.false_eq_true, if_false, Option.some.injEq] at isManifest
      subst isManifest
      exact (sound.stored other.name other).mpr found
  · intro isLive
    have found := (sound.stored _ _).mp isLive
    refine ⟨(recordKey store.nameSpace checkpoint.name, .manifest checkpoint),
      Records.mem_scanPrefix.mpr ⟨found, recordKey_scanned ..⟩, ?_⟩
    simp [manifestOf, (sound.name_eq isLive).2]

theorem scanned_names (sound : store.Sound live) : (store.scanned.map (·.name)).Nodup := by
  rw [List.Nodup, pairwise_map, scanned, pairwise_filterMap]
  apply Records.scanPrefix_keys.imp_of_mem
  rintro ⟨key, value⟩ ⟨otherKey, otherValue⟩ mem otherMembership different
    checkpoint isManifest other isOther sameName
  have form : ∀ key value checkpoint, (key, value) ∈
      store.storage.records.scanPrefix (scanKey store.nameSpace) →
        manifestOf (key, value) = some checkpoint →
          key = recordKey store.nameSpace checkpoint.name := by
    intro key value checkpoint mem isManifest
    obtain ⟨found, inScan⟩ := Records.mem_scanPrefix.mp mem
    rcases sound.forms key value found inScan with ⟨rfl, -⟩ | ⟨own, rfl, rfl, ordinary⟩
    · simp [manifestOf, isCounterKey_counterKey] at isManifest
    · simp only [manifestOf, ordinary, Bool.false_eq_true, if_false, Option.some.injEq] at isManifest
      rw [isManifest]
  apply different
  rw [form key value checkpoint mem isManifest,
    form otherKey otherValue other otherMembership isOther, sameName]

theorem listCheckpoints_sound (sound : store.Sound live) (fault : Option ContextraError) :
    (store.listCheckpoints fault).2.Sound live := by
  unfold listCheckpoints
  rw [manifestsOf_scanned sound]
  cases fault with
  | some error => exact sound
  | none =>
    apply sound.withIndex
    exact IndexSound.empty.refill fun checkpoint mem => (mem_scanned sound).mp mem

end CheckpointStore

structure NamedCheckpoints where
  store : CheckpointStore
  live : Live

inductive NameEvent where
  | createCheckpoint (creation : CheckpointStore.Creation) (conditions : Conditions)
  | dropCheckpoint (name : String) (conditions : Conditions)
  | getCheckpoint (name : String) (fault : Option ContextraError)
  | listCheckpoints (fault : Option ContextraError)
  | reopen
  deriving DecidableEq, Repr

namespace NamedCheckpoints

/-- A reopening that is refused leaves no store behind. -/
def step (state : NamedCheckpoints) : NameEvent → Option NamedCheckpoints
  | .createCheckpoint creation conditions =>
    let (result, store) := state.store.createCheckpoint creation conditions
    some ⟨store, CheckpointStore.liveAfter state.live creation.name result⟩
  | .dropCheckpoint name conditions =>
    let (result, store) := state.store.dropCheckpoint name conditions
    some ⟨store, CheckpointStore.liveAfterDrop state.live name result⟩
  | .getCheckpoint name fault =>
    some { state with store := (state.store.getCheckpoint name fault).2 }
  | .listCheckpoints fault => some { state with store := (state.store.listCheckpoints fault).2 }
  | .reopen =>
    match CheckpointStore.openWithOrphanRegistry state.store.storage state.store.nameSpace
        state.store.orphans with
    | .ok store => some { state with store }
    | .error _ => none

/-- A valid creation uses no sequence number of another live checkpoint, and its record's key does
not end like the counter's. -/
def Separate (state : NamedCheckpoints) : NameEvent → Prop
  | .createCheckpoint creation _ =>
    creation.validate = .ok () → state.store.Fits state.live creation.name creation.seqNo
  | _ => True

/-- Every name but the counter's resolves to its live checkpoint, and a listing gives each live
checkpoint once. -/
structure Resolves (state : NamedCheckpoints) : Prop where
  get : ∀ name, validateIdentifier "Checkpoint name" name = .ok () → name ≠ counterName →
    (state.store.getCheckpoint name none).1 = .ok (state.live name)
  list : ∃ checkpoints, (state.store.listCheckpoints none).1 = .ok checkpoints ∧
    (checkpoints.map (·.name)).Nodup ∧
      ∀ name checkpoint, checkpoint ∈ checkpoints ∧ checkpoint.name = name ↔
        state.live name = some checkpoint

theorem resolves_of_sound {state : NamedCheckpoints} (sound : state.store.Sound state.live) :
    state.Resolves where
  get := by
    intro name valid notCounter
    rw [CheckpointStore.getCheckpoint, valid]
    exact CheckpointStore.getCheckpointInternal_eq sound notCounter
  list := by
    have isPerm := perm_insertionSort
      (fun first second : CheckpointMeta => first.seqNo ≤ second.seqNo) state.store.scanned
    refine ⟨state.store.scanned.insertionSort fun first second => first.seqNo ≤ second.seqNo,
      ?_, ?_, ?_⟩
    · rw [CheckpointStore.listCheckpoints, CheckpointStore.manifestsOf_scanned sound]
    · exact (isPerm.map _).nodup_iff.mpr (CheckpointStore.scanned_names sound)
    · intro name checkpoint
      rw [isPerm.mem_iff, CheckpointStore.mem_scanned sound]
      constructor
      · rintro ⟨isLive, rfl⟩
        exact isLive
      · intro isLive
        have named := (sound.name_eq isLive).1
        exact ⟨named ▸ isLive, named⟩

theorem Sound.step {state next : NamedCheckpoints} {event : NameEvent}
    (sound : state.store.Sound state.live) (separate : state.Separate event)
    (taken : state.step event = some next) : next.store.Sound next.live := by
  cases event with
  | createCheckpoint creation conditions =>
    cases taken
    exact CheckpointStore.createCheckpoint_sound sound separate conditions
  | dropCheckpoint name conditions =>
    cases taken
    exact CheckpointStore.dropCheckpoint_sound sound name conditions
  | getCheckpoint name fault =>
    cases taken
    dsimp only [CheckpointStore.getCheckpoint]
    split
    · exact sound
    · exact (CheckpointStore.getCheckpointInternal_sound sound name fault).1
  | listCheckpoints fault =>
    cases taken
    exact CheckpointStore.listCheckpoints_sound sound fault
  | reopen =>
    simp only [NamedCheckpoints.step, CheckpointStore.openWithOrphanRegistry] at taken
    split at taken
    · rename_i reopened isOk
      cases taken
      split at isOk
      · cases isOk
      · cases isOk
        exact sound.withIndex .empty
    · cases taken

/-- Where no creation uses the sequence number of another live checkpoint or a key that ends like
the counter's, each name resolves to its own checkpoint. -/
theorem names_resolve {storage : Storage} {nameSpace : String} {orphans : List PinnedSeqNoOrphan}
    {store : CheckpointStore} {events : List NameEvent} {final : NamedCheckpoints}
    (fresh : ∀ key ∈ storage.records, ¬ (scanKey nameSpace).toList <+: key.toList)
    (opened : CheckpointStore.openWithOrphanRegistry storage nameSpace orphans = .ok store)
    (separate : Along step Separate ⟨store, fun _ => none⟩ events)
    (finished : run step ⟨store, fun _ => none⟩ events = some final) : final.Resolves := by
  have start : store.Sound fun _ => none := by
    have absent : ∀ key value, storage.records.lookup key = some value →
        ¬ (scanKey nameSpace).toList <+: key.toList := fun key value found =>
      fresh key (AList.lookup_isSome.mp (found ▸ rfl))
    simp only [CheckpointStore.openWithOrphanRegistry] at opened
    split at opened
    · cases opened
    · cases opened
      constructor
      · intro key value found inScan
        exact absurd inScan (absent key value found)
      · intro name checkpoint
        constructor
        · nofun
        · intro found
          exact absurd (recordKey_scanned nameSpace name) (absent _ _ found)
      · nofun
      · exact .empty
  have preserved : ∀ (state : NamedCheckpoints) event next, state.store.Sound state.live →
      state.Separate event → state.step event = some next → next.store.Sound next.live :=
    fun state event next sound separate taken => Sound.step sound separate taken
  exact resolves_of_sound (run_invariant preserved start separate finished)

def fresh : CheckpointStore := ⟨⟨∅, .new, 0⟩, .empty, "agent", 0, 0, [], 0⟩

def creationAt (name : String) (seqNo : Nat) : CheckpointStore.Creation :=
  ⟨name, "memories", seqNo, 1, "{}"⟩

theorem fresh_names_resolve : ∃ final,
    run step ⟨fresh, fun _ => none⟩ [.createCheckpoint (creationAt "a" 5) .good, .reopen] =
      some final ∧ final.Resolves := by
  have runs : (run step ⟨fresh, fun _ => none⟩
      [.createCheckpoint (creationAt "a" 5) .good, .reopen]).isSome = true := by decide +kernel
  obtain ⟨final, finished⟩ := isSome_iff_exists.mp runs
  have opened : CheckpointStore.openWithOrphanRegistry ⟨∅, .new, 0⟩ "agent" [] = .ok fresh := rfl
  have fits : fresh.Fits (fun _ => none) "a" 5 := ⟨by decide +kernel, nofun⟩
  have separate : Along step Separate ⟨fresh, fun _ => none⟩
      [.createCheckpoint (creationAt "a" 5) .good, .reopen] :=
    ⟨fun _ => fits, fun _ _ => ⟨trivial, fun _ _ => trivial⟩⟩
  refine ⟨final, finished, names_resolve (fun key present => ?_) opened separate finished⟩
  exact absurd present (AList.notMem_empty key)

/-- Two names share a sequence number, and the first one resolves to the second's metadata. -/
theorem sharedSeq_not_resolves :
    ¬ ∀ events final, run step ⟨fresh, fun _ => none⟩ events = some final → final.Resolves := by
  intro claim
  have wrong : (run step ⟨fresh, fun _ => none⟩ [.createCheckpoint (creationAt "a" 5) .good,
      .createCheckpoint (creationAt "b" 5) .good]).map (fun final =>
        ((final.store.getCheckpoint "a" none).1.toOption.join.map (·.name),
          (final.live "a").map (·.name))) = some (some "b", some "a") := by decide +kernel
  obtain ⟨final, finished, answers⟩ := map_eq_some_iff.mp wrong
  have resolved := (claim _ final finished).get "a" (by decide +kernel) (by decide +kernel)
  simp only [Prod.mk.injEq] at answers
  obtain ⟨got, isLive⟩ := answers
  rw [resolved] at got
  simp only [Except.toOption, join_some, isLive, Option.some.injEq] at got
  exact absurd got (by decide)

end NamedCheckpoints

end Contextra.Checkpoint
