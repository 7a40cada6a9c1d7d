import Contextra.Checkpoint.NameRuns

/-!
# Pins and live checkpoints

Every record of a checkpoint, every registered orphan and every guard that is still at work
accounts for one registration of its sequence number in the storage.  Each step of a call moves a
registration from one of them to another, or takes it away with its owner.
-/

namespace Contextra.Checkpoint

open Library List Function
open Mvcc (SnapshotRegistry releaseMeta)

section Counting

variable {value : StoredValue} {records : Records} {key : String}
  {refers : (Sigma fun _ : String => StoredValue) → Bool}

def contribution (refers : (Sigma fun _ : String => StoredValue) → Bool) (key : String)
    (value : Option StoredValue) : Nat :=
  match value with
  | some value => if refers ⟨key, value⟩ then 1 else 0
  | none => 0

theorem countP_erase (key : String) : records.entries.countP refers =
    (records.erase key).entries.countP refers + contribution refers key (records.lookup key) := by
  cases found : records.lookup key with
  | none =>
    have absent : key ∉ records.entries.keys := AList.lookup_eq_none.mp found
    have unchanged : (records.erase key).entries = records.entries :=
      kerase_of_notMem_keys absent
    rw [unchanged, contribution, Nat.add_zero]
  | some value =>
    have present : key ∈ records.entries.keys := AList.lookup_isSome.mp (found ▸ rfl)
    obtain ⟨stored, front, back, -, split, erased⟩ := exists_of_kerase present
    have same : stored = value := by
      have mem : (⟨key, stored⟩ : Sigma fun _ : String => StoredValue) ∈
          records.entries := by rw [split]; simp
      rw [← AList.mem_lookup_iff, Option.mem_def, found] at mem
      exact (Option.some.inj mem).symm
    subst same
    have erasedEntries : (records.erase key).entries = front ++ back := erased
    rw [erasedEntries, split, countP_append, countP_cons, countP_append]
    simp only [contribution]
    omega

theorem countP_insert : (records.insert key value).entries.countP refers +
    contribution refers key (records.lookup key) =
      records.entries.countP refers + contribution refers key (some value) := by
  have inserted : (records.insert key value).entries.countP refers =
      (records.erase key).entries.countP refers + contribution refers key (some value) := by
    rw [AList.entries_insert, countP_cons]
    rfl
  have erased : records.entries.countP refers = _ := countP_erase key
  omega

end Counting

/-- The entry is a checkpoint of the namespace at this sequence number. -/
def refersTo (nameSpace : String) (raw : Nat) (entry : Sigma fun _ : String => StoredValue) :
    Bool :=
  (scanKey nameSpace).toList.isPrefixOf entry.1.toList &&
    match entry.2 with
    | .manifest checkpoint => checkpoint.seqNo % tombstoneBit = raw
    | .txCounter _ => false

namespace CheckpointStore

/-- The storage knows sequence numbers without their tombstone bit. -/
def Pinned (store : CheckpointStore) (raw : Nat) : Prop := store.storage.pins.entriesAt raw ≠ []

def LiveAt (store : CheckpointStore) (raw : Nat) : Prop :=
  ∃ name checkpoint, store.storage.records.lookup (recordKey store.nameSpace name) =
    some (.manifest checkpoint) ∧ checkpoint.seqNo % tombstoneBit = raw

def OrphanedAt (store : CheckpointStore) (raw : Nat) : Prop :=
  ∃ orphan ∈ store.orphans, orphan.seqNo % tombstoneBit = raw

def stored (store : CheckpointStore) (name : String) : Option CheckpointMeta :=
  match store.storage.records.lookup (recordKey store.nameSpace name) with
  | some (.manifest checkpoint) => some checkpoint
  | _ => none

/-- `held` are the registrations of guards at work. -/
structure PinsSound (store : CheckpointStore) (held : List Nat) : Prop where
  counted : ∀ raw, (store.storage.pins.entriesAt raw).length =
    store.storage.records.entries.countP (refersTo store.nameSpace raw) +
      store.orphans.countP (fun orphan => orphan.seqNo % tombstoneBit = raw) + held.count raw
  forms : ∀ key value, store.storage.records.lookup key = some value →
    (scanKey store.nameSpace).toList <+: key.toList →
      (key = counterKey store.nameSpace ∧ ∃ mark, value = .txCounter mark) ∨
      ∃ checkpoint, value = .manifest checkpoint ∧
        key = recordKey store.nameSpace checkpoint.name ∧ checkpoint.name ≠ counterName
  bySeq : ∀ seqNo checkpoint, store.index.bySeq seqNo = some checkpoint →
    checkpoint.seqNo = seqNo
  byName : ∀ name seqNo checkpoint, store.index.byName name = some seqNo →
    store.stored name = some checkpoint → checkpoint.seqNo = seqNo
  orphans : (store.orphans.map (·.seqNo)).Nodup

section Steps

variable {store : CheckpointStore} {held : List Nat} {name : String} {seqNo : Nat}
  {checkpoint : CheckpointMeta}

theorem stored_eq_some : store.stored name = some checkpoint ↔
    store.storage.records.lookup (recordKey store.nameSpace name) =
      some (.manifest checkpoint) := by
  unfold stored
  split
  · rename_i found isStored
    simp [isStored]
  · rename_i other
    simpa using fun found => other checkpoint found

theorem PinsSound.pin (sound : store.PinsSound held) (seqNo wallMs : Nat) :
    (store.pinCheckpoint seqNo wallMs).PinsSound (seqNo % tombstoneBit :: held) :=
  { sound with
    counted := by
      intro raw
      have before := sound.counted raw
      simp only [pinCheckpoint, SnapshotRegistry.pinAt, SnapshotRegistry.entriesAt_push,
        count_cons, beq_iff_eq] at *
      by_cases same : raw = seqNo % tombstoneBit
      · subst same
        simp only [if_true, length_append, length_singleton]
        omega
      · rw [if_neg same, if_neg (Ne.symm same)]
        omega }

theorem PinsSound.unpin (sound : store.PinsSound (seqNo % tombstoneBit :: held)) :
    (store.unpinCheckpoint seqNo none).PinsSound held :=
  { sound with
    counted := by
      intro raw
      have before := sound.counted raw
      simp only [unpinCheckpoint, SnapshotRegistry.unpin,
        SnapshotRegistry.entriesAt_releaseForTenantAt, releaseMeta, count_cons,
        beq_iff_eq] at *
      by_cases same : raw = seqNo % tombstoneBit
      · subst same
        simp only [if_true, length_dropLast] at *
        omega
      · rw [if_neg (Ne.symm same)] at before
        rw [if_neg same]
        omega }

theorem PinsSound.withIndex (sound : store.PinsSound held) {index : CheckpointIndex}
    (bySeq : ∀ seqNo checkpoint, index.bySeq seqNo = some checkpoint → checkpoint.seqNo = seqNo)
    (byName : ∀ name seqNo checkpoint, index.byName name = some seqNo →
      store.stored name = some checkpoint → checkpoint.seqNo = seqNo) :
    (store.withIndex index).PinsSound held :=
  { sound with bySeq, byName }

theorem PinsSound.shrink (sound : store.PinsSound held) {index : CheckpointIndex}
    (bySeq : ∀ seqNo checkpoint, index.bySeq seqNo = some checkpoint →
      store.index.bySeq seqNo = some checkpoint)
    (byName : ∀ name seqNo, index.byName name = some seqNo →
      store.index.byName name = some seqNo) : (store.withIndex index).PinsSound held :=
  sound.withIndex (fun seqNo checkpoint found => sound.bySeq seqNo checkpoint (bySeq _ _ found))
    fun name seqNo checkpoint found => sound.byName name seqNo checkpoint (byName _ _ found)

theorem update_none_eq_some {κ ν : Type} [DecidableEq κ] {map : κ → Option ν} {gone key : κ}
    {value : ν} (found : Function.update map gone none key = some value) :
    map key = some value := by
  by_cases same : key = gone
  · rw [same, update_self] at found
    cases found
  · rwa [update_of_ne same] at found

theorem PinsSound.removeBySeq (sound : store.PinsSound held) (seqNo : Nat) :
    (store.withIndex (store.index.removeBySeq seqNo)).PinsSound held := by
  unfold CheckpointIndex.removeBySeq
  split
  · apply sound.shrink
    · exact fun _ _ found => update_none_eq_some found
    · intro name other found
      dsimp only at found
      split at found
      · exact update_none_eq_some found
      · exact found
  · exact sound

theorem PinsSound.removeByName (sound : store.PinsSound held) (name : String) :
    (store.withIndex (store.index.removeByName name)).PinsSound held := by
  unfold CheckpointIndex.removeByName
  split
  · apply sound.shrink
    · exact fun _ _ found => update_none_eq_some found
    · exact fun _ _ found => update_none_eq_some found
  · exact sound

theorem PinsSound.insert (sound : store.PinsSound held)
    (isStored : store.stored checkpoint.name = some checkpoint) :
    (store.withIndex (store.index.insert checkpoint)).PinsSound held := by
  apply sound.withIndex
  · intro seqNo found present
    by_cases same : seqNo = checkpoint.seqNo
    · subst same
      rw [CheckpointIndex.insert_bySeq_self] at present
      cases present
      rfl
    · exact sound.bySeq seqNo found (CheckpointIndex.insert_bySeq_of_ne same present).1
  · intro name seqNo found named atName
    by_cases same : name = checkpoint.name
    · subst same
      rw [CheckpointIndex.insert_byName, update_self] at named
      rw [isStored] at atName
      cases named
      cases atName
      rfl
    · rw [CheckpointIndex.insert_byName, update_of_ne same] at named
      exact sound.byName name seqNo found named atName

end Steps

end CheckpointStore

end Contextra.Checkpoint
