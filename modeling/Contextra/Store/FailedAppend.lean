import Contextra.Library.Tasks
import Contextra.Store.GroupCommit
import Contextra.Store.Wal

/-!
# The failing append of a commit

`single_commit_path` and `execute_group_commit_append` take `truncate_lock`, append,
and on an error repair the WAL with `truncate` and `recover_from_poison`.  Both of
these take `truncate_lock` themselves.  The commit is one task; any number of others
use the same lock and do to the WAL whatever they like.
-/

namespace Contextra.Store

open Library Option

inductive CommitPath where
  | single
  | group
  deriving DecidableEq, Repr

/-- The tasks that use `truncate_lock`. -/
inductive LockUser where
  | commit
  | other (task : Nat)
  deriving DecidableEq, Repr

/-- What the commit has in its local variables while it holds the lock. -/
structure AppendFrame where
  prevHmac : Hmac
  startOffset : Nat
  startHmac : Hmac
  deriving DecidableEq, Repr

/-- Control points of the commit, from `prepare_batch` to its return. -/
inductive AppendPhase where
  | start
  | prepared (entries : List WalEntry) (prevHmac : Hmac)
  | locked (entries : List WalEntry) (frame : AppendFrame)
  /-- The append returned an error; `wal.truncate(..).await` is next. -/
  | failed (frame : AppendFrame) (error : String)
  | truncating (frame : AppendFrame) (error : String)
  | truncated (frame : AppendFrame) (error : String)
  | recovering (frame : AppendFrame) (error : String)
  | recoverTruncating (frame : AppendFrame) (error : String)
  | repaired (frame : AppendFrame) (error : String)
  | returned (result : Except String Unit)
  deriving DecidableEq

structure AppendState where
  wal : Wal
  truncateLock : Option LockUser
  phase : AppendPhase

structure AppendCall where
  codec : WalCodec
  path : CommitPath
  durability : DurabilityMode
  tx : TxId
  walOps : List (WalOp × Nat)

/-- One turn of the commit, with what the disk does in it, or of another task. -/
inductive AppendEvent where
  | commit (append : AppendIo) (truncate : TruncateIo)
  | lock (task : Nat)
  | unlock (task : Nat)
  | change (task : Nat) (wal : Wal)

namespace AppendState

def goto (state : AppendState) (phase : AppendPhase) : AppendState := { state with phase }

def release (state : AppendState) (user : LockUser) : AppendState :=
  if state.truncateLock = some user then { state with truncateLock := none } else state

/-- `truncate` from its lock to the return of its guard. -/
def finishTruncate (state : AppendState) (offset : Nat) (hmac : Hmac) (io : TruncateIo) :
    Except String Unit × AppendState :=
  let (result, wal) := state.wal.truncateLocked offset hmac io
  (result, { state with wal }.release .commit)

def commitTurn (call : AppendCall) (state : AppendState) (append : AppendIo)
    (truncate : TruncateIo) : Option AppendState :=
  match state.phase with
  | .start =>
    match state.wal.prepareBatch call.codec call.walOps with
    | (.error message, _) => some (state.goto (.returned (.error message)))
    | (.ok (entries, prevHmac), wal) =>
      some ({ state with wal }.goto (.prepared entries prevHmac))
  | .prepared entries prevHmac =>
    match call.durability, state.truncateLock with
    | .memoryOnly, _ =>
      some ({ state with wal := { state.wal with lastHmac := prevHmac } }.goto
        (.returned (.ok ())))
    | _, none =>
      -- the group path reads the HMAC that `prepare_batch` has already moved on
      let startHmac :=
        match call.path with
        | .single => prevHmac
        | .group => state.wal.lastHmac
      some ({ state with truncateLock := some .commit }.goto
        (.locked entries ⟨prevHmac, state.wal.size, startHmac⟩))
    | _, some _ => none
  | .locked entries frame =>
    match state.wal.appendBatchLocked call.codec entries append with
    | (.ok (), wal) =>
      some (({ state with wal }.release .commit).goto (.returned (.ok ())))
    | (.error message, wal) => some ({ state with wal }.goto (.failed frame message))
  | .failed frame error =>
    match state.truncateLock with
    | none => some ({ state with truncateLock := some .commit }.goto (.truncating frame error))
    | some _ => none
  | .truncating frame error =>
    let (_, next) := state.finishTruncate frame.startOffset frame.startHmac truncate
    some (next.goto (.truncated frame error))
  | .truncated frame error =>
    if state.wal.poisoned then some (state.goto (.recovering frame error))
    else some (state.goto (.repaired frame error))
  | .recovering frame error =>
    -- the flag is cleared before `truncate` waits for the lock
    match state.truncateLock with
    | none =>
      some ({ state with
        wal := { state.wal with poisoned := false }
        truncateLock := some .commit }.goto (.recoverTruncating frame error))
    | some _ => none
  | .recoverTruncating frame error =>
    let (offset, hmac) := state.wal.verifiedEnd
    match state.finishTruncate offset hmac truncate with
    | (.ok (), next) =>
      some ({ next with wal := { next.wal with size := offset, lastHmac := hmac } }.goto
        (.repaired frame error))
    | (.error _, next) =>
      some ({ next with wal := { next.wal with poisoned := true } }.goto
        (.repaired frame error))
  | .repaired frame error =>
    -- the lock is dropped and the commit's guard puts the HMAC back
    some (({ state with wal := { state.wal with lastHmac := frame.prevHmac } }.release
      .commit).goto (.returned (.error error)))
  | .returned _ => none

def step (call : AppendCall) (state : AppendState) : AppendEvent → Option AppendState
  | .commit append truncate => state.commitTurn call append truncate
  | .lock task =>
    match state.truncateLock with
    | none => some { state with truncateLock := some (.other task) }
    | some _ => none
  | .unlock task =>
    if state.truncateLock = some (.other task) then some (state.release (.other task)) else none
  | .change _ wal => some { state with wal }

def actor : AppendEvent → LockUser
  | .commit _ _ => .commit
  | .lock task => .other task
  | .unlock task => .other task
  | .change task _ => .other task

def AppendFailed (state : AppendState) : Prop := ∃ frame error, state.phase = .failed frame error

/-- The commit waits for `truncate_lock` in the repair of a failed append. -/
def WaitsForLock (state : AppendState) (task : LockUser) : Prop :=
  task = .commit ∧ state.AppendFailed

/-- The commit has returned an error and left the WAL as it was before it. -/
structure Restored (call : AppendCall) (before after : AppendState) : Prop where
  returned : ∃ error, after.phase = .returned (.error error)
  entries : after.wal.file.entries = before.wal.file.entries
  size : after.wal.size = before.wal.size
  lastHmac : after.wal.lastHmac = before.wal.lastHmac
  poisoned : after.wal.poisoned = false
  replay : ∀ entry ∈ replayCommitted after.wal.file.entries, entry.op.txId ≠ call.tx

section Lock

variable {call : AppendCall}

@[simp] theorem release_phase (state : AppendState) (user : LockUser) :
    (state.release user).phase = state.phase := by
  unfold release
  split <;> rfl

variable {state : AppendState}

theorem release_lock {user holder : LockUser}
    (holds : state.truncateLock = some holder) (other : user ≠ holder) :
    (state.release user).truncateLock = some holder := by
  unfold release
  rw [if_neg (by simpa [holds] using other.symm)]
  exact holds

theorem commitTurn_lock {state next : AppendState} {append : AppendIo} {truncate : TruncateIo}
    {holder : LockUser} (taken : state.commitTurn call append truncate = some next)
    (holds : state.truncateLock = some holder) (other : LockUser.commit ≠ holder) :
    next.truncateLock = some holder := by
  obtain ⟨wal, lock, phase⟩ := state
  obtain rfl : lock = some holder := holds
  have kept (wal : Wal) :
      (AppendState.release ⟨wal, some holder, phase⟩ .commit).truncateLock = some holder :=
    release_lock rfl other
  cases phase with
  | start =>
    simp only [commitTurn] at taken
    split at taken
    · obtain rfl := some.inj taken
      rfl
    · obtain rfl := some.inj taken
      rfl
  | prepared entries prevHmac =>
    simp only [commitTurn] at taken
    split at taken
    · obtain rfl := some.inj taken
      rfl
    · contradiction
    · cases taken
  | locked entries frame =>
    simp only [commitTurn] at taken
    split at taken
    · obtain rfl := some.inj taken
      exact kept _
    · obtain rfl := some.inj taken
      rfl
  | failed frame error => cases taken
  | truncating frame error =>
    obtain rfl := some.inj taken
    exact kept _
  | truncated frame error =>
    simp only [commitTurn] at taken
    split at taken
    · obtain rfl := some.inj taken
      rfl
    · obtain rfl := some.inj taken
      rfl
  | recovering frame error => cases taken
  | recoverTruncating frame error =>
    simp only [commitTurn, finishTruncate] at taken
    split at taken
    · rename_i result
      obtain rfl := some.inj taken
      rw [← (Prod.mk.inj result).2]
      exact kept _
    · rename_i result
      obtain rfl := some.inj taken
      rw [← (Prod.mk.inj result).2]
      exact kept _
  | repaired frame error =>
    obtain rfl := some.inj taken
    exact kept _
  | returned result => cases taken

theorem lockDiscipline (call : AppendCall) :
    MutexDiscipline (step call) actor AppendState.truncateLock WaitsForLock where
  released state event next task taken holds other := by
    cases event with
    | commit append truncate =>
      exact commitTurn_lock taken holds other
    | lock user =>
      simp only [step, holds] at taken
      cases taken
    | unlock user =>
      simp only [step] at taken
      split at taken
      · rename_i held
        exact absurd (some.inj (held.symm.trans holds)) other
      · cases taken
    | change user wal =>
      obtain rfl := some.inj taken
      exact holds
  blocked state event waiting held := by
    obtain ⟨isCommit, frame, error, phase⟩ := waiting
    cases event with
    | commit append truncate =>
      simp only [step, commitTurn, phase]
      cases lock : state.truncateLock with
      | none => exact absurd lock held
      | some holder => rfl
    | lock user => cases isCommit
    | unlock user => cases isCommit
    | change user wal => cases isCommit
  patient state event next task taken waiting other := by
    obtain ⟨rfl, frame, error, phase⟩ := waiting
    refine ⟨rfl, frame, error, ?_⟩
    cases event with
    | commit append truncate => exact absurd rfl other
    | lock user =>
      simp only [step] at taken
      split at taken
      · obtain rfl := some.inj taken
        exact phase
      · cases taken
    | unlock user =>
      simp only [step] at taken
      split at taken
      · obtain rfl := some.inj taken
        rw [release_phase]
        exact phase
      · cases taken
    | change user wal =>
      obtain rfl := some.inj taken
      exact phase

/-- From the lock to the end of the append, and in a failed append, the commit holds the
lock. -/
structure Guarded (state : AppendState) : Prop where
  locked : ∀ entries frame, state.phase = .locked entries frame →
    state.truncateLock = some .commit
  failed : ∀ frame error, state.phase = .failed frame error → state.truncateLock = some .commit

theorem guarded_of_start (begins : state.phase = .start) :
    state.Guarded := ⟨by simp [begins], by simp [begins]⟩

theorem guarded_goto {phase : AppendPhase}
    (notLocked : ∀ entries frame, phase ≠ .locked entries frame)
    (notFailed : ∀ frame error, phase ≠ .failed frame error) : (state.goto phase).Guarded :=
  ⟨fun entries frame isLocked => absurd isLocked (notLocked entries frame),
    fun frame error isFailed => absurd isFailed (notFailed frame error)⟩

theorem Guarded.commitTurn {state next : AppendState} {append : AppendIo} {truncate : TruncateIo}
    (guarded : state.Guarded) (taken : state.commitTurn call append truncate = some next) :
    next.Guarded := by
  obtain ⟨wal, lock, phase⟩ := state
  cases phase with
  | start =>
    simp only [AppendState.commitTurn] at taken
    split at taken
    · obtain rfl := some.inj taken
      exact guarded_goto (by simp) (by simp)
    · obtain rfl := some.inj taken
      exact guarded_goto (by simp) (by simp)
  | prepared entries prevHmac =>
    simp only [AppendState.commitTurn] at taken
    split at taken
    · obtain rfl := some.inj taken
      exact guarded_goto (by simp) (by simp)
    · obtain rfl := some.inj taken
      exact ⟨fun _ _ _ => rfl, by simp [goto]⟩
    · cases taken
  | locked entries frame =>
    have holds : lock = some .commit := guarded.locked entries frame rfl
    simp only [AppendState.commitTurn] at taken
    split at taken
    · obtain rfl := some.inj taken
      exact guarded_goto (by simp) (by simp)
    · obtain rfl := some.inj taken
      exact ⟨by simp [goto], fun _ _ _ => holds⟩
  | failed frame error =>
    obtain rfl : lock = some .commit := guarded.failed frame error rfl
    cases taken
  | truncating frame error =>
    obtain rfl := some.inj taken
    exact guarded_goto (by simp) (by simp)
  | truncated frame error =>
    simp only [AppendState.commitTurn] at taken
    split at taken
    · obtain rfl := some.inj taken
      exact guarded_goto (by simp) (by simp)
    · obtain rfl := some.inj taken
      exact guarded_goto (by simp) (by simp)
  | recovering frame error =>
    simp only [AppendState.commitTurn] at taken
    split at taken
    · obtain rfl := some.inj taken
      exact guarded_goto (by simp) (by simp)
    · cases taken
  | recoverTruncating frame error =>
    simp only [AppendState.commitTurn] at taken
    split at taken
    · obtain rfl := some.inj taken
      exact guarded_goto (by simp) (by simp)
    · obtain rfl := some.inj taken
      exact guarded_goto (by simp) (by simp)
  | repaired frame error =>
    obtain rfl := some.inj taken
    exact guarded_goto (by simp) (by simp)
  | returned result => cases taken

theorem Guarded.step {state next : AppendState} {event : AppendEvent} (guarded : state.Guarded)
    (taken : state.step call event = some next) : next.Guarded := by
  cases event with
  | commit append truncate => exact guarded.commitTurn taken
  | lock user =>
    simp only [AppendState.step] at taken
    split at taken
    · rename_i free
      obtain rfl := some.inj taken
      -- a free lock means that the commit is in neither phase
      exact ⟨fun entries frame phase => absurd (guarded.locked entries frame phase) (by simp [free]),
        fun frame error phase => absurd (guarded.failed frame error phase) (by simp [free])⟩
    · cases taken
  | unlock user =>
    simp only [AppendState.step] at taken
    split at taken
    · rename_i held
      obtain rfl := some.inj taken
      refine ⟨fun entries frame phase => ?_, fun frame error phase => ?_⟩
      · rw [release_phase] at phase
        exact absurd (guarded.locked entries frame phase) (by simp [held])
      · rw [release_phase] at phase
        exact absurd (guarded.failed frame error phase) (by simp [held])
    · cases taken
  | change user wal =>
    obtain rfl := some.inj taken
    exact ⟨guarded.locked, guarded.failed⟩

theorem failedAppend_waits {start failed final : AppendState} {events more : List AppendEvent}
    (begins : start.phase = .start) (reached : run (step call) start events = some failed)
    (fails : failed.AppendFailed) (finished : run (step call) failed more = some final) :
    final.truncateLock = some .commit ∧ final.AppendFailed := by
  have guarded : failed.Guarded :=
    run_preserves Guarded (fun _ _ _ guarded => guarded.step) (guarded_of_start begins) reached
  obtain ⟨frame, error, phase⟩ := fails
  obtain ⟨holds, waiting⟩ := (lockDiscipline call).selfDeadlock
    (guarded.failed frame error phase) ⟨rfl, frame, error, phase⟩ finished
  exact ⟨holds, waiting.2⟩

/-- The failing-append path never restores the state before the commit: on both paths, however the
append fails, the commit never returns. -/
theorem failedAppend_never_restores (call : AppendCall) {start failed : AppendState}
    {events : List AppendEvent} (begins : start.phase = .start)
    (reached : run (step call) start events = some failed) (fails : failed.AppendFailed) :
    ¬ ∃ more final, run (step call) failed more = some final ∧ Restored call start final := by
  rintro ⟨more, final, finished, restored⟩
  obtain ⟨frame, error, phase⟩ := (failedAppend_waits begins reached fails finished).2
  obtain ⟨result, returned⟩ := restored.returned
  rw [phase] at returned
  cases returned

end Lock

/-- An open WAL without entries, and the commit of one put at its start. -/
def fresh : AppendState where
  wal := ⟨⟨false, [], 0⟩, 0, [], false, false, false, true⟩
  truncateLock := none
  phase := .start

/-- The commit of a put of transaction 7, with the sequence number as checksum. -/
def onePut (path : CommitPath) : AppendCall where
  codec := .plain fun _ seqNo _ => [UInt8.ofNat seqNo]
  path
  durability := .full
  tx := 7
  walOps := [(.put 7 [1] [2], 1), (.txEnd 7 true, 2)]

def upToAppend (io : AppendIo) : List AppendEvent :=
  [.commit io .ok, .commit io .ok, .commit io .ok]

/-- A complete write of the group path whose `sync_all` fails. -/
theorem syncFailure_never_restores :
    ∃ failed, run (step (onePut .group)) fresh (upToAppend .syncFails) = some failed ∧
      ¬ ∃ more final, run (step (onePut .group)) failed more = some final ∧
        Restored (onePut .group) fresh final := by
  have reaches : ∃ failed, run (step (onePut .group)) fresh (upToAppend .syncFails) =
      some failed ∧ failed.AppendFailed := ⟨_, rfl, _, _, rfl⟩
  obtain ⟨failed, reached, fails⟩ := reaches
  exact ⟨failed, reached, failedAppend_never_restores (onePut .group) rfl reached fails⟩

/-- A write of 3 bytes of the batch and then an error. -/
theorem partialWrite_deadlocks :
    ¬ ∀ (call : AppendCall) (start failed : AppendState) (events : List AppendEvent),
      start.phase = .start → run (step call) start events = some failed → failed.AppendFailed →
      ∃ more final, run (step call) failed more = some final ∧ Restored call start final := by
  intro law
  have reaches : ∃ failed, run (step (onePut .single)) fresh (upToAppend (.writeFails true 3)) =
      some failed ∧ failed.AppendFailed := ⟨_, rfl, _, _, rfl⟩
  obtain ⟨failed, reached, fails⟩ := reaches
  obtain ⟨more, final, finished, restored⟩ :=
    law (onePut .single) fresh failed _ rfl reached fails
  obtain ⟨frame, error, phase⟩ := (failedAppend_waits rfl reached fails finished).2
  obtain ⟨result, returned⟩ := restored.returned
  rw [phase] at returned
  cases returned

end AppendState

end Contextra.Store
