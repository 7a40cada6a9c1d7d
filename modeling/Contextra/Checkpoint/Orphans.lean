import Contextra.Checkpoint.Store

/-!
# The orphan registry and its file

Calls on one registry, each in the steps between its locks: a registration pushes and then sets the
dirty flag; a clearing changes the lists, copies them one after the other, writes the file and then
resets the flag; a flush takes the flag first.  Any number of calls interleave.
-/

namespace Contextra.Checkpoint

open Contextra.Library

structure StateCheckpoint where
  txId : TxId
  timestampMs : Nat
  nameSpace : Option String
  deriving DecidableEq, Repr

structure OrphanState where
  checkpoints : List StateCheckpoint
  pinnedSeqNos : List PinnedSeqNoOrphan
  deriving DecidableEq, Repr

/-- Without a VFS all goes to the file system.  With one, the start and the clearings use it, and
its files may be others than those of the file system. -/
inductive Backing where
  | fileSystem
  | vfsOnFileSystem
  | vfsApart
  deriving DecidableEq, Repr

inductive OrphanChange where
  | clearPin (seqNo : Nat)
  | clearPins
  | clearCheckpoint (txId : TxId)
  | clearCheckpoints
  deriving DecidableEq, Repr

inductive ClearCall where
  | drainOrphanPins
  | clearOrphanPin (seqNo : Nat)
  | drainOrphanedCheckpoints
  | clearOrphanedCheckpoint (txId : TxId)
  | clearAll
  deriving DecidableEq, Repr

def ClearCall.changes : ClearCall → List OrphanChange
  | .drainOrphanPins => [.clearPins]
  | .clearOrphanPin seqNo => [.clearPin seqNo]
  | .drainOrphanedCheckpoints => [.clearCheckpoints]
  | .clearOrphanedCheckpoint txId => [.clearCheckpoint txId]
  | .clearAll => [.clearPins, .clearCheckpoints]

/-- What a call that writes the file does next. -/
inductive WriterStage where
  | change (changes : List OrphanChange)
  | copyCheckpoints
  | copyPins (checkpoints : List StateCheckpoint)
  | write (state : OrphanState)
  | mark (written : Bool)
  deriving DecidableEq, Repr

/-- A clearing, which ends in `persist_sync`, or a flush. -/
structure Writer where
  isFlush : Bool
  stage : WriterStage
  deriving DecidableEq, Repr

/-- How a write ends: after an error the file holds anything; the blocking task of a flush may
also end without a result. -/
inductive WriteOutcome where
  | written
  | failed (left : Option OrphanState)
  | lost (left : Option OrphanState)
  deriving DecidableEq, Repr

/-- `none` stands for a file that is missing or does not parse. -/
structure OrphanRegistry where
  pins : List PinnedSeqNoOrphan
  checkpoints : List StateCheckpoint
  isDirty : Bool
  hasPath : Bool
  backing : Backing
  file : Option OrphanState
  vfsFile : Option OrphanState
  /-- Registrations that have pushed and not yet set the flag. -/
  registering : Nat
  writers : List Writer
  deriving DecidableEq, Repr

namespace OrphanRegistry

def memory (registry : OrphanRegistry) : OrphanState := ⟨registry.checkpoints, registry.pins⟩

/-- `load_sync`, or `load_vfs` -/
def load (hasPath : Bool) (backing : Backing) (file vfsFile : Option OrphanState) : OrphanState :=
  if hasPath then
    match backing with
    | .vfsApart => vfsFile.getD ⟨[], []⟩
    | .fileSystem | .vfsOnFileSystem => file.getD ⟨[], []⟩
  else ⟨[], []⟩

def loaded (registry : OrphanRegistry) : OrphanState :=
  load registry.hasPath registry.backing registry.file registry.vfsFile

def openOver (hasPath : Bool) (backing : Backing) (file vfsFile : Option OrphanState) :
    OrphanRegistry :=
  let state := load hasPath backing file vfsFile
  ⟨state.pinnedSeqNos, state.checkpoints, false, hasPath, backing, file, vfsFile, 0, []⟩

def registerOrphanSync (registry : OrphanRegistry) (orphan : PinnedSeqNoOrphan) : OrphanRegistry :=
  if registry.pins.any fun known => known.seqNo = orphan.seqNo then registry
  else { registry with
    pins := registry.pins ++ [orphan]
    registering := registry.registering + 1 }

def registerCheckpointSync (registry : OrphanRegistry) (checkpoint : StateCheckpoint) :
    OrphanRegistry :=
  if registry.checkpoints.any fun known => known.txId = checkpoint.txId then registry
  else { registry with
    checkpoints := registry.checkpoints ++ [checkpoint]
    registering := registry.registering + 1 }

def applyChange (registry : OrphanRegistry) : OrphanChange → OrphanRegistry
  | .clearPin seqNo =>
    { registry with pins := registry.pins.filter fun orphan => orphan.seqNo ≠ seqNo }
  | .clearPins => { registry with pins := [] }
  | .clearCheckpoint txId =>
    { registry with
      checkpoints := registry.checkpoints.filter fun orphan => orphan.txId ≠ txId }
  | .clearCheckpoints => { registry with checkpoints := [] }

def putFile (registry : OrphanRegistry) (isFlush : Bool) (content : Option OrphanState) :
    OrphanRegistry :=
  if registry.backing = .vfsApart ∧ isFlush = false then { registry with vfsFile := content }
  else { registry with file := content }

/-- One step of a writer, which the list does not hold meanwhile; it returns with its next stage. -/
def stepWriter (registry : OrphanRegistry) (writer : Writer) (outcome : WriteOutcome) :
    OrphanRegistry × Option WriterStage :=
  match writer.stage with
  | .change (change :: changes) => (registry.applyChange change, some (.change changes))
  -- `persist_sync` does nothing without a path
  | .change [] => (registry, some (if registry.hasPath then .copyCheckpoints else .mark true))
  | .copyCheckpoints => (registry, some (.copyPins registry.checkpoints))
  | .copyPins checkpoints => (registry, some (.write ⟨checkpoints, registry.pins⟩))
  | .write state =>
    match outcome with
    | .written => (registry.putFile writer.isFlush (some state), some (.mark true))
    | .failed left => (registry.putFile writer.isFlush left, some (.mark false))
    -- the early return of the flush, which only a flush has
    | .lost left =>
      (registry.putFile writer.isFlush left, if writer.isFlush then none else some (.mark false))
  | .mark written =>
    if writer.isFlush then
      (if written then registry else { registry with isDirty := true }, none)
    else ({ registry with isDirty := !written }, none)

end OrphanRegistry

inductive OrphanEvent where
  | registerOrphan (orphan : PinnedSeqNoOrphan)
  | registerCheckpoint (checkpoint : StateCheckpoint)
  | finishRegistration
  | clear (call : ClearCall)
  | flush
  | step (index : Nat) (outcome : WriteOutcome)
  deriving DecidableEq, Repr

namespace OrphanRegistry

def flushOrphanRegistry (registry : OrphanRegistry) : OrphanRegistry :=
  if registry.hasPath ∧ registry.isDirty then
    { registry with
      isDirty := false
      writers := registry.writers ++ [⟨true, .copyCheckpoints⟩] }
  else registry

def step (registry : OrphanRegistry) : OrphanEvent → Option OrphanRegistry
  | .registerOrphan orphan => some (registry.registerOrphanSync orphan)
  | .registerCheckpoint checkpoint => some (registry.registerCheckpointSync checkpoint)
  | .finishRegistration =>
    if registry.registering = 0 then none
    else some { registry with isDirty := true, registering := registry.registering - 1 }
  | .clear call =>
    some { registry with writers := registry.writers ++ [⟨false, .change call.changes⟩] }
  | .flush => some registry.flushOrphanRegistry
  | .step index outcome =>
    match registry.writers[index]? with
    | none => none
    | some writer =>
      let others := registry.writers.eraseIdx index
      match { registry with writers := others }.stepWriter writer outcome with
      | (registry, some stage) =>
        some { registry with writers := { writer with stage } :: others }
      | (registry, none) => some registry

/-- One writer at a time; a clearing has the registry, which has a path, for itself; a flush writes
the file that the start reads and ends with a result. -/
def Exclusive (registry : OrphanRegistry) : OrphanEvent → Prop
  | .registerOrphan _ | .registerCheckpoint _ =>
    ∀ writer ∈ registry.writers, writer.isFlush = true
  | .finishRegistration => True
  | .clear _ => registry.hasPath = true ∧ registry.registering = 0 ∧ registry.writers = []
  | .flush => registry.isDirty = true → registry.writers = [] ∧ registry.backing ≠ .vfsApart
  | .step index outcome => ∀ writer ∈ registry.writers[index]?, writer.isFlush = true →
      ∀ left, outcome ≠ .lost left

instance (registry : OrphanRegistry) : ∀ event, Decidable (registry.Exclusive event)
  | .registerOrphan _ | .registerCheckpoint _ =>
    inferInstanceAs (Decidable (∀ writer ∈ registry.writers, writer.isFlush = true))
  | .finishRegistration => inferInstanceAs (Decidable True)
  | .clear _ => inferInstanceAs (Decidable
      (registry.hasPath = true ∧ registry.registering = 0 ∧ registry.writers = []))
  | .flush => inferInstanceAs (Decidable
      (registry.isDirty = true → registry.writers = [] ∧ registry.backing ≠ .vfsApart))
  | .step index (.lost left) => decidable_of_iff (∀ writer ∈ registry.writers[index]?,
      writer.isFlush = false) (by simp [Exclusive])
  | .step _ (.written) => .isTrue fun _ _ _ _ => nofun
  | .step _ (.failed _) => .isTrue fun _ _ _ _ => nofun

/-- At rest and not dirty, the file yields what is in memory. -/
def Converged (registry : OrphanRegistry) : Prop :=
  registry.registering = 0 → registry.writers = [] → registry.isDirty = false →
    registry.loaded = registry.memory

/-- Someone will make the registry dirty, or already has. -/
def Pending (registry : OrphanRegistry) : Prop :=
  registry.isDirty = true ∨ registry.registering ≠ 0

def StageSound (registry : OrphanRegistry) : WriterStage → Prop
  | .change _ | .copyCheckpoints => True
  | .copyPins checkpoints => registry.Pending ∨ checkpoints = registry.checkpoints
  | .write state => registry.Pending ∨ state = registry.memory
  | .mark written => written = true → registry.Pending ∨ registry.loaded = registry.memory

inductive WritersSound (registry : OrphanRegistry) : List Writer → Prop
  | idle (settled : registry.Pending ∨ registry.loaded = registry.memory) :
      WritersSound registry []
  | flush {stage : WriterStage} (hasPath : registry.hasPath = true)
      (seen : registry.backing ≠ .vfsApart) (isCopy : ∀ changes, stage ≠ .change changes)
      (sound : registry.StageSound stage) : WritersSound registry [⟨true, stage⟩]
  | clear {stage : WriterStage} (hasPath : registry.hasPath = true)
      (alone : registry.registering = 0)
      (sound : { registry with isDirty := false }.StageSound stage) :
      WritersSound registry [⟨false, stage⟩]

section Steps

variable {registry next : OrphanRegistry} {isFlush : Bool} {state : OrphanState}
  {stage : WriterStage}

theorem loaded_putFile (hasPath : registry.hasPath = true)
    (seen : isFlush = true → registry.backing ≠ .vfsApart) :
    (registry.putFile isFlush (some state)).loaded = state := by
  cases backing : registry.backing with
  | fileSystem => simp [putFile, loaded, load, backing, hasPath]
  | vfsOnFileSystem => simp [putFile, loaded, load, backing, hasPath]
  | vfsApart =>
    cases isFlush with
    | false => simp [putFile, loaded, load, backing, hasPath]
    | true => exact absurd backing (seen rfl)

theorem StageSound.of_pending (pending : registry.Pending) : registry.StageSound stage := by
  cases stage with
  | change changes => trivial
  | copyCheckpoints => trivial
  | copyPins checkpoints => exact .inl pending
  | write state => exact .inl pending
  | mark written => exact fun _ => .inl pending

variable {outcome : WriteOutcome} {after : WriterStage}

theorem stepWriter_sound (hasPath : registry.hasPath = true)
    (seen : isFlush = true → registry.backing ≠ .vfsApart)
    (isChange : isFlush = true → ∀ changes, stage ≠ .change changes)
    (sound : registry.StageSound stage)
    (stepped : registry.stepWriter ⟨isFlush, stage⟩ outcome = (next, some after)) :
    next.StageSound after ∧ next.hasPath = true ∧ next.backing = registry.backing ∧
      next.registering = registry.registering ∧ next.writers = registry.writers ∧
        (isFlush = true → ∀ changes, after ≠ .change changes) := by
  cases stage with
  | change changes =>
    have notFlush : isFlush = false := by
      cases isFlush with
      | false => rfl
      | true => exact absurd rfl (isChange rfl changes)
    subst notFlush
    cases changes with
    | nil =>
      simp only [stepWriter, hasPath, if_true, Prod.mk.injEq, Option.some.injEq] at stepped
      obtain ⟨rfl, rfl⟩ := stepped
      exact ⟨trivial, hasPath, rfl, rfl, rfl, nofun⟩
    | cons change changes =>
      simp only [stepWriter, Prod.mk.injEq, Option.some.injEq] at stepped
      obtain ⟨rfl, rfl⟩ := stepped
      cases change <;> exact ⟨trivial, hasPath, rfl, rfl, rfl, nofun⟩
  | copyCheckpoints =>
    simp only [stepWriter, Prod.mk.injEq, Option.some.injEq] at stepped
    obtain ⟨rfl, rfl⟩ := stepped
    exact ⟨.inr rfl, hasPath, rfl, rfl, rfl, fun _ _ => nofun⟩
  | copyPins checkpoints =>
    simp only [stepWriter, Prod.mk.injEq, Option.some.injEq] at stepped
    obtain ⟨rfl, rfl⟩ := stepped
    refine ⟨?_, hasPath, rfl, rfl, rfl, fun _ _ => nofun⟩
    rcases sound with pending | same
    · exact .inl pending
    · exact .inr (by rw [same]; rfl)
  | write state =>
    have frame : ∀ content, (registry.putFile isFlush content).hasPath = registry.hasPath ∧
        (registry.putFile isFlush content).backing = registry.backing ∧
        (registry.putFile isFlush content).registering = registry.registering ∧
        (registry.putFile isFlush content).writers = registry.writers ∧
        (registry.putFile isFlush content).isDirty = registry.isDirty ∧
        (registry.putFile isFlush content).memory = registry.memory := by
      intro content
      unfold putFile
      split <;> exact ⟨rfl, rfl, rfl, rfl, rfl, rfl⟩
    cases outcome with
    | written =>
      simp only [stepWriter, Prod.mk.injEq, Option.some.injEq] at stepped
      obtain ⟨rfl, rfl⟩ := stepped
      obtain ⟨samePath, sameBacking, sameRegistering, sameWriters, sameDirty, sameMemory⟩ :=
        frame (some state)
      refine ⟨fun _ => ?_, samePath.trans hasPath, sameBacking, sameRegistering, sameWriters,
        fun _ _ => nofun⟩
      rcases sound with pending | same
      · refine .inl ?_
        unfold Pending
        rw [sameDirty, sameRegistering]
        exact pending
      · refine .inr ?_
        rw [loaded_putFile hasPath seen, sameMemory, same]
    | failed left =>
      simp only [stepWriter, Prod.mk.injEq, Option.some.injEq] at stepped
      obtain ⟨rfl, rfl⟩ := stepped
      obtain ⟨samePath, sameBacking, sameRegistering, sameWriters, -⟩ := frame left
      exact ⟨nofun, samePath.trans hasPath, sameBacking, sameRegistering, sameWriters,
        fun _ _ => nofun⟩
    | lost left =>
      cases isFlush with
      | true => simp [stepWriter] at stepped
      | false =>
        simp only [stepWriter, Bool.false_eq_true, if_false, Prod.mk.injEq,
          Option.some.injEq] at stepped
        obtain ⟨rfl, rfl⟩ := stepped
        obtain ⟨samePath, sameBacking, sameRegistering, sameWriters, -⟩ := frame left
        exact ⟨nofun, samePath.trans hasPath, sameBacking, sameRegistering, sameWriters,
          nofun⟩
  | mark written =>
    simp only [stepWriter] at stepped
    split at stepped <;> simp at stepped

variable {writers : List Writer}

theorem WritersSound.congr (sound : registry.WritersSound writers)
    (stages : ∀ stage, registry.StageSound stage → next.StageSound stage)
    (settled : registry.Pending ∨ registry.loaded = registry.memory →
      next.Pending ∨ next.loaded = next.memory)
    (samePath : next.hasPath = registry.hasPath) (sameBacking : next.backing = registry.backing)
    (onlyFlushes : ∀ writer ∈ writers, writer.isFlush = true) : next.WritersSound writers := by
  cases sound with
  | idle isSettled => exact .idle (settled isSettled)
  | flush hasPath seen isCopy stageSound =>
    exact .flush (samePath.trans hasPath) (by rwa [sameBacking]) isCopy (stages _ stageSound)
  | clear hasPath alone stageSound => cases onlyFlushes _ List.mem_cons_self

theorem WritersSound.withWriters (sound : registry.WritersSound writers)
    (others : List Writer) : { registry with writers := others }.WritersSound writers := by
  cases sound with
  | idle settled => exact .idle settled
  | flush hasPath seen isCopy stageSound =>
    refine .flush hasPath seen isCopy ?_
    cases ‹WriterStage› <;> exact stageSound
  | clear hasPath alone stageSound =>
    refine .clear hasPath alone ?_
    cases ‹WriterStage› <;> exact stageSound

theorem WritersSound.register (sound : registry.WritersSound writers)
    (onlyFlushes : ∀ writer ∈ writers, writer.isFlush = true)
    (pending : next.Pending) (samePath : next.hasPath = registry.hasPath)
    (sameBacking : next.backing = registry.backing) : next.WritersSound writers :=
  sound.congr (fun _ _ => .of_pending pending) (fun _ => .inl pending) samePath sameBacking
    onlyFlushes

theorem WritersSound.startFlush (sound : registry.WritersSound writers)
    (same : registry.writers = writers)
    (exclusive : registry.isDirty = true → registry.writers = [] ∧ registry.backing ≠ .vfsApart) :
    registry.flushOrphanRegistry.WritersSound registry.flushOrphanRegistry.writers := by
  unfold flushOrphanRegistry
  split
  · rename_i starts
    obtain ⟨idle, seen⟩ := exclusive starts.2
    dsimp only
    rw [idle]
    exact .flush starts.1 seen nofun trivial
  · rwa [same]

theorem WritersSound.finishWriter {writer : Writer} (sound : registry.WritersSound [writer])
    (answers : writer.isFlush = true → ∀ left, outcome ≠ .lost left)
    (idle : registry.writers = []) (stepped : registry.stepWriter writer outcome = (next, none)) :
    next.WritersSound next.writers := by
  cases sound with
  | @flush stage hasPath seen isCopy stageSound =>
    cases stage with
    | change changes => exact absurd rfl (isCopy changes)
    | copyCheckpoints => simp [stepWriter] at stepped
    | copyPins checkpoints => simp [stepWriter] at stepped
    | write state =>
      cases outcome with
      | written => simp [stepWriter] at stepped
      | failed left => simp [stepWriter] at stepped
      | lost left => exact absurd rfl (answers rfl left)
    | mark written =>
      cases written with
      | true =>
        simp only [stepWriter, if_true, Prod.mk.injEq, and_true] at stepped
        subst stepped
        rw [idle]
        exact .idle (stageSound rfl)
      | false =>
        simp only [stepWriter, if_true, Bool.false_eq_true, if_false, Prod.mk.injEq,
          and_true] at stepped
        subst stepped
        dsimp only
        rw [idle]
        exact .idle (.inl (.inl rfl))
  | @clear stage hasPath alone stageSound =>
    cases stage with
    | change changes => cases changes <;> simp [stepWriter] at stepped
    | copyCheckpoints => simp [stepWriter] at stepped
    | copyPins checkpoints => simp [stepWriter] at stepped
    | write state => cases outcome <;> simp [stepWriter] at stepped
    | mark written =>
      simp only [stepWriter, Bool.false_eq_true, if_false, Prod.mk.injEq, and_true] at stepped
      subst stepped
      dsimp only
      rw [idle]
      cases written with
      | true => exact .idle (stageSound rfl)
      | false => exact .idle (.inl (.inl rfl))

theorem stepWriter_dirty (stepped : registry.stepWriter ⟨isFlush, stage⟩ outcome = (next, some after)) :
    { registry with isDirty := false }.stepWriter ⟨isFlush, stage⟩ outcome =
      ({ next with isDirty := false }, some after) := by
  have putFile_dirty : ∀ content, { registry with isDirty := false }.putFile isFlush content =
      { registry.putFile isFlush content with isDirty := false } := by
    intro content
    unfold putFile
    split <;> rfl
  cases stage with
  | change changes =>
    cases changes with
    | nil =>
      simp only [stepWriter, Prod.mk.injEq, Option.some.injEq] at stepped ⊢
      obtain ⟨rfl, rfl⟩ := stepped
      exact ⟨rfl, rfl⟩
    | cons change changes =>
      simp only [stepWriter, Prod.mk.injEq, Option.some.injEq] at stepped ⊢
      obtain ⟨rfl, rfl⟩ := stepped
      cases change <;> exact ⟨rfl, rfl⟩
  | copyCheckpoints =>
    simp only [stepWriter, Prod.mk.injEq, Option.some.injEq] at stepped ⊢
    obtain ⟨rfl, rfl⟩ := stepped
    exact ⟨rfl, rfl⟩
  | copyPins checkpoints =>
    simp only [stepWriter, Prod.mk.injEq, Option.some.injEq] at stepped ⊢
    obtain ⟨rfl, rfl⟩ := stepped
    exact ⟨rfl, rfl⟩
  | write state =>
    cases outcome with
    | written =>
      simp only [stepWriter, putFile_dirty, Prod.mk.injEq] at stepped ⊢
      exact ⟨by rw [stepped.1], stepped.2⟩
    | failed left =>
      simp only [stepWriter, putFile_dirty, Prod.mk.injEq] at stepped ⊢
      exact ⟨by rw [stepped.1], stepped.2⟩
    | lost left =>
      simp only [stepWriter, putFile_dirty, Prod.mk.injEq] at stepped ⊢
      exact ⟨by rw [stepped.1], stepped.2⟩
  | mark written =>
    simp only [stepWriter] at stepped
    split at stepped <;> simp at stepped

theorem WritersSound.continueWriter {writer : Writer} (sound : registry.WritersSound [writer])
    (stepped : registry.stepWriter writer outcome = (next, some after)) :
    next.WritersSound [{ writer with stage := after }] := by
  cases sound with
  | flush hasPath seen isCopy stageSound =>
    obtain ⟨sound, path, backing, -, -, notChange⟩ :=
      stepWriter_sound hasPath (fun _ => seen) (fun _ => isCopy) stageSound stepped
    exact .flush path (by rwa [backing]) (notChange rfl) sound
  | clear hasPath alone stageSound =>
    have notFlush : ∀ {p : Prop}, false = true → p := nofun
    obtain ⟨sound, path, -, registering, -, -⟩ :=
      stepWriter_sound (by exact hasPath) notFlush notFlush stageSound (stepWriter_dirty stepped)
    exact .clear path (registering.trans alone) sound

theorem WritersSound.step {event : OrphanEvent} (sound : registry.WritersSound registry.writers)
    (exclusive : registry.Exclusive event) (taken : registry.step event = some next) :
    next.WritersSound next.writers := by
  cases event with
  | registerOrphan orphan =>
    cases taken
    unfold registerOrphanSync
    split
    · exact sound
    · exact sound.register exclusive (.inr (Nat.succ_ne_zero _)) rfl rfl
  | registerCheckpoint checkpoint =>
    cases taken
    unfold registerCheckpointSync
    split
    · exact sound
    · exact sound.register exclusive (.inr (Nat.succ_ne_zero _)) rfl rfl
  | finishRegistration =>
    simp only [OrphanRegistry.step] at taken
    split at taken
    · cases taken
    · rename_i busy
      cases taken
      generalize registry.writers = writers at sound
      cases sound with
      | idle settled => exact .idle (.inl (.inl rfl))
      | flush hasPath seen isCopy stageSound =>
        exact .flush hasPath seen isCopy (.of_pending (.inl rfl))
      | clear hasPath alone stageSound => exact absurd alone busy
  | clear call =>
    cases taken
    obtain ⟨hasPath, alone, idle⟩ := exclusive
    dsimp only
    rw [idle]
    exact .clear hasPath alone trivial
  | flush =>
    cases taken
    exact sound.startFlush rfl exclusive
  | step index outcome =>
    simp only [OrphanRegistry.step] at taken
    cases found : registry.writers[index]? with
    | none => simp [found] at taken
    | some writer =>
      have only : registry.writers = [writer] ∧ registry.writers.eraseIdx index = [] := by
        generalize registry.writers = writers at sound found
        cases sound with
        | idle settled => simp at found
        | flush hasPath seen isCopy stageSound =>
          cases index <;> simp_all
        | clear hasPath alone stageSound =>
          cases index <;> simp_all
      have answers : writer.isFlush = true → ∀ left, outcome ≠ .lost left :=
        exclusive writer found
      simp only [found, only.2] at taken
      rw [only.1] at sound
      have detached : { registry with writers := [] }.WritersSound [writer] :=
        sound.withWriters []
      cases stepped : { registry with writers := [] }.stepWriter writer outcome with
      | mk after stage =>
        rw [stepped] at taken
        cases stage with
        | none =>
          cases taken
          exact detached.finishWriter answers rfl stepped
        | some stage =>
          cases taken
          exact (detached.continueWriter stepped).withWriters _

def flushedPin : List OrphanEvent :=
  [.registerOrphan ⟨5, 1⟩, .finishRegistration, .flush, .step 0 .written, .step 0 .written,
    .step 0 .written, .step 0 .written]

end Steps

end OrphanRegistry

end Contextra.Checkpoint
