import Contextra.Checkpoint.Store

/-!
# Names resolve to their own checkpoints

The index is judged against the live checkpoints: those of the last successful creation of each
name that no drop followed.  As long as no two live checkpoints share a sequence number, each call
keeps the index sound, and the records decide what a name resolves to.
-/

namespace Contextra.Checkpoint

open Library List Option Function

abbrev Live := String → Option CheckpointMeta

structure IndexSound (live : Live) (index : CheckpointIndex) : Prop where
  byName : ∀ name seqNo, index.byName name = some seqNo →
    ∃ checkpoint, live name = some checkpoint ∧ checkpoint.seqNo = seqNo
  bySeq : ∀ seqNo checkpoint, index.bySeq seqNo = some checkpoint →
    live checkpoint.name = some checkpoint ∧ checkpoint.seqNo = seqNo ∧
      index.byName checkpoint.name = some seqNo

namespace CheckpointIndex

variable {index : CheckpointIndex} {checkpoint : CheckpointMeta} {name : String} {seqNo : Nat}

@[simp] theorem insert_byName : (index.insert checkpoint).byName =
    Function.update index.byName checkpoint.name (some checkpoint.seqNo) := rfl

theorem insert_bySeq_of_ne {found : CheckpointMeta} (other : seqNo ≠ checkpoint.seqNo)
    (present : (index.insert checkpoint).bySeq seqNo = some found) :
    index.bySeq seqNo = some found ∧ index.byName checkpoint.name ≠ some seqNo := by
  simp only [insert, update_of_ne other] at present
  cases lookup : index.byName checkpoint.name with
  | none =>
    rw [lookup] at present
    exact ⟨present, nofun⟩
  | some oldSeq =>
    simp only [lookup] at present
    by_cases isOld : seqNo = oldSeq
    · subst isOld
      rw [if_pos other, update_self] at present
      cases present
    · have unchanged : index.bySeq seqNo = some found := by
        split at present
        · rwa [update_of_ne isOld] at present
        · exact present
      exact ⟨unchanged, fun same => isOld (some.inj same).symm⟩

theorem removeByName_of_some {oldSeq : Nat} (lookup : index.byName name = some oldSeq) :
    index.removeByName name =
      ⟨Function.update index.bySeq oldSeq none, Function.update index.byName name none⟩ := by
  simp only [removeByName, lookup]

theorem removeByName_of_none (lookup : index.byName name = none) :
    index.removeByName name = index := by
  simp only [removeByName, lookup]

theorem insert_bySeq_self : (index.insert checkpoint).bySeq checkpoint.seqNo = some checkpoint :=
  update_self ..

end CheckpointIndex

namespace IndexSound

variable {live later : Live} {index : CheckpointIndex} {checkpoint : CheckpointMeta}
  {name : String} {seqNo : Nat}

theorem empty : IndexSound live .empty := ⟨nofun, nofun⟩

theorem insert (sound : IndexSound live index)
    (others : ∀ name, name ≠ checkpoint.name → later name = live name)
    (stored : later checkpoint.name = some checkpoint) :
    IndexSound later (index.insert checkpoint) where
  byName := by
    intro name seqNo present
    by_cases same : name = checkpoint.name
    · subst same
      simp only [CheckpointIndex.insert_byName, update_self] at present
      exact ⟨checkpoint, stored, some.inj present⟩
    · simp only [CheckpointIndex.insert_byName, update_of_ne same] at present
      rw [others name same]
      exact sound.byName name seqNo present
  bySeq := by
    intro seqNo found present
    by_cases same : seqNo = checkpoint.seqNo
    · subst same
      rw [CheckpointIndex.insert_bySeq_self] at present
      cases present
      exact ⟨stored, rfl, update_self ..⟩
    · obtain ⟨before, notOld⟩ := CheckpointIndex.insert_bySeq_of_ne same present
      obtain ⟨isLive, atSeq, named⟩ := sound.bySeq seqNo found before
      have different : found.name ≠ checkpoint.name := fun equal => notOld (equal ▸ named)
      refine ⟨(others _ different).trans isLive, atSeq, ?_⟩
      rw [CheckpointIndex.insert_byName, update_of_ne different]
      exact named

theorem removeByName (sound : IndexSound live index)
    (others : ∀ other, other ≠ name → later other = live other) :
    IndexSound later (index.removeByName name) := by
  cases lookup : index.byName name with
  | none =>
    rw [CheckpointIndex.removeByName_of_none lookup]
    constructor
    · intro other seqNo present
      have different : other ≠ name := by
        rintro rfl
        rw [lookup] at present
        cases present
      rw [others other different]
      exact sound.byName other seqNo present
    · intro seqNo found present
      obtain ⟨isLive, atSeq, named⟩ := sound.bySeq seqNo found present
      have different : found.name ≠ name := by
        intro equal
        rw [equal, lookup] at named
        cases named
      exact ⟨(others _ different).trans isLive, atSeq, named⟩
  | some oldSeq =>
    rw [CheckpointIndex.removeByName_of_some lookup]
    constructor
    · intro other seqNo present
      dsimp only at present
      by_cases same : other = name
      · rw [same, update_self] at present
        cases present
      · rw [update_of_ne same] at present
        rw [others other same]
        exact sound.byName other seqNo present
    · intro seqNo found present
      dsimp only at present
      by_cases same : seqNo = oldSeq
      · rw [same, update_self] at present
        cases present
      · rw [update_of_ne same] at present
        obtain ⟨isLive, atSeq, named⟩ := sound.bySeq seqNo found present
        have different : found.name ≠ name := by
          intro equal
          rw [equal, lookup] at named
          exact same (some.inj named).symm
        exact ⟨(others _ different).trans isLive, atSeq,
          (update_of_ne different ..).trans named⟩

theorem removeBySeq (sound : IndexSound live index) :
    IndexSound live (index.removeBySeq seqNo) := by
  unfold CheckpointIndex.removeBySeq
  cases lookup : index.bySeq seqNo with
  | none => exact sound
  | some gone =>
    obtain ⟨-, -, named⟩ := sound.bySeq seqNo gone lookup
    simp only [named, if_true]
    constructor
    · intro name other present
      dsimp only at present
      by_cases same : name = gone.name
      · rw [same, update_self] at present
        cases present
      · rw [update_of_ne same] at present
        exact sound.byName name other present
    · intro other found present
      dsimp only at present
      by_cases same : other = seqNo
      · rw [same, update_self] at present
        cases present
      · rw [update_of_ne same] at present
        obtain ⟨isLive, atSeq, foundNamed⟩ := sound.bySeq other found present
        have different : found.name ≠ gone.name := by
          intro equal
          rw [equal, named] at foundNamed
          exact same (some.inj foundNamed).symm
        exact ⟨isLive, atSeq, (update_of_ne different ..).trans foundNamed⟩

theorem getByName (sound : IndexSound live index)
    (apart : ∀ first second checkpoint other, live first = some checkpoint →
      live second = some other → checkpoint.seqNo = other.seqNo → first = second)
    (found : index.getByName name = some checkpoint) : live name = some checkpoint := by
  obtain ⟨seqNo, named, present⟩ := bind_eq_some_iff.mp found
  obtain ⟨own, isLive, ownSeq⟩ := sound.byName name seqNo named
  obtain ⟨foundLive, foundSeq, -⟩ := sound.bySeq seqNo checkpoint present
  rw [apart name checkpoint.name own checkpoint isLive foundLive (ownSeq.trans foundSeq.symm)]
  exact foundLive

theorem refill {checkpoints : List CheckpointMeta}
    (stored : ∀ checkpoint ∈ checkpoints, live checkpoint.name = some checkpoint)
    (sound : IndexSound live index) :
    IndexSound live (checkpoints.foldl CheckpointIndex.insert index) := by
  induction checkpoints generalizing index with
  | nil => exact sound
  | cons first checkpoints ih =>
    apply ih fun checkpoint mem =>
      stored checkpoint (mem_cons_of_mem _ mem)
    exact sound.insert (fun _ _ => rfl) (stored first mem_cons_self)

end IndexSound

section Keys

variable {nameSpace first second : String}

@[simp] theorem recordKey_inj : recordKey nameSpace first = recordKey nameSpace second ↔
    first = second := by
  simp [recordKey]

theorem recordKey_scanned (nameSpace name : String) :
    (scanKey nameSpace).toList <+: (recordKey nameSpace name).toList := by
  simp [recordKey]

theorem isCounterKey_counterKey (nameSpace : String) : isCounterKey (counterKey nameSpace) := by
  have split : ":checkpoint:".toList = ":checkpoint".toList ++ ":".toList := by decide
  simp only [isCounterKey, counterKey, recordKey, scanKey, isSuffixOf_iff_suffix,
    String.toList_append, split, ← append_assoc]
  simp only [append_assoc]
  exact ⟨nameSpace.toList ++ ":checkpoint".toList, by simp⟩

end Keys

end Contextra.Checkpoint
