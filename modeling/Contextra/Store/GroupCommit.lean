import Contextra.Library.Run
import Contextra.Mvcc.Register
import Contextra.Store.Prepare

/-!
# The group commit pipeline

Any number of `commit` calls, each a task with its own control point, share the commit mutex, the
pending queue behind its own mutex, the sequence counter and the SSI validator.  An event lets one
task run to its next scheduling point.  Sleeping, channel waits and lock waits may be cut short by
`cancel`, which is the caller dropping the future.
-/

namespace Contextra.Store

open Contextra.Mvcc

inductive DurabilityMode where
  | full
  | walNoHmac
  | memoryOnly
  deriving DecidableEq, Repr

/-- A queued commit; its sender is the channel of `txId`. -/
structure GroupCommitRequest where
  txId : TxId
  walOps : List (WalOp × Nat)
  memUpdates : List MemUpdate
  deriving DecidableEq, Repr

/-- The queue of a leader.  The shared `committed_flag` is named by its leader. -/
structure PendingCommitQueue where
  leader : TxId
  requests : List GroupCommitRequest
  deriving DecidableEq, Repr

inductive Channel where
  | pending
  | sent (error : Option ContextraError)
  | closed
  deriving DecidableEq, Repr

/-- One step of a rollback: forget from `firstSeq`, then tell the follower. -/
structure Unwind where
  firstSeq : Nat
  notify : Option TxId
  deriving DecidableEq, Repr

/-- Control points of a commit call, in the order of the source. -/
inductive CommitTask where
  | idle
  | recording (recorded rest : List MemUpdate)
  | ready
  | waiting (leader : TxId)
  | timedOut (leader : TxId)
  | detached (leader : TxId)
  | leading
  | awake
  | batching (requests : List GroupCommitRequest)
  | appended (requests : List GroupCommitRequest)
  | durable (requests : List GroupCommitRequest)
  | unwinding (todo : List Unwind) (result : Option ContextraError)
  | returned (error : Option ContextraError)
  | cancelled
  deriving DecidableEq, Repr

/-- The shared state.  `params` holds the local variables of each call. -/
structure Pipeline where
  nextSeqNo : Nat
  validator : SsiValidator
  commitMutex : Option TxId
  queueMutex : Option TxId
  pendingCommitQueue : Option PendingCommitQueue
  committedFlag : TxId → Bool
  channel : TxId → Channel
  params : TxId → PreparedCommit
  task : TxId → CommitTask

namespace Pipeline

def initial (nextSeqNo maxTrackedKeys : Nat) : Pipeline where
  nextSeqNo
  validator := .newWithBounds maxTrackedKeys
  commitMutex := none
  queueMutex := none
  pendingCommitQueue := none
  committedFlag := fun _ => false
  channel := fun _ => .pending
  params := fun _ => ⟨[], [], 0⟩
  task := fun _ => .idle

inductive Event where
  | begin (tx : TxId) (ops : List IndexOp) (reads : ReadSet)
  | record (tx : TxId)
  | lockQueue (tx : TxId)
  | enqueue (tx : TxId)
  | timeout (tx : TxId)
  | resolveTimeout (tx : TxId)
  | receive (tx : TxId)
  | wake (tx : TxId)
  | takeQueue (tx : TxId)
  | appendOk (tx : TxId)
  | disarm (tx : TxId)
  | appendFail (tx : TxId) (error : ContextraError)
  | publish (tx : TxId)
  | cancel (tx : TxId)
  | unlockQueue (tx : TxId)
  | forget (tx : TxId)
  | prune (bound : Nat)

def goto (pipeline : Pipeline) (tx : TxId) (task : CommitTask) : Pipeline :=
  { pipeline with task := Function.update pipeline.task tx task }

def releaseCommit (pipeline : Pipeline) : Pipeline := { pipeline with commitMutex := none }

def releaseQueue (pipeline : Pipeline) : Pipeline := { pipeline with queueMutex := none }

/-- Send one result to, or drop the senders of, all the requests of a batch. -/
def answer (pipeline : Pipeline) (requests : List GroupCommitRequest) (reply : Channel) :
    Pipeline :=
  { pipeline with
    channel := fun tx =>
      if tx ∈ requests.map (·.txId) then reply else pipeline.channel tx }

/-- The requests of a queue as the loop of `LeaderCancelGuard::drop` undoes them. -/
def unwindRequests (requests : List GroupCommitRequest) : List Unwind :=
  requests.map fun request => ⟨firstSeqOf request.memUpdates, some request.txId⟩

/-- `LeaderCancelGuard::drop` before the batch is committed.  The commit lock, a later local, is
gone already; without a taken queue the guard tries the queue lock and leaves the queue when it is
busy. -/
def leaderCancelGuard (pipeline : Pipeline) (tx : TxId)
    (pendingQueue : Option (List GroupCommitRequest)) (result : Option ContextraError) :
    Pipeline :=
  let own : Unwind := ⟨(pipeline.params tx).firstSeq, none⟩
  match pendingQueue with
  | some requests => pipeline.goto tx (.unwinding (unwindRequests requests ++ [own]) result)
  | none =>
    match pipeline.queueMutex with
    | some _ => pipeline.goto tx (.unwinding [own] result)
    | none =>
      let requests := (pipeline.pendingCommitQueue.map (·.requests)).getD []
      { pipeline with queueMutex := some tx, pendingCommitQueue := none }.goto tx
        (.unwinding (unwindRequests requests ++ [own]) result)

/-- `commit_internal` up to the recording of the written keys. -/
def begin (pipeline : Pipeline) (tx : TxId) (ops : List IndexOp) (reads : ReadSet) :
    Option Pipeline :=
  match pipeline.task tx, pipeline.commitMutex with
  | .idle, none =>
    if ops.isEmpty then some (pipeline.goto tx (.returned none))
    else
      match pipeline.validator.validate tx reads with
      | .error error => some (pipeline.goto tx (.returned (some error)))
      | .ok () =>
        match prepareCommitOps tx ops pipeline.nextSeqNo with
        | (.error error, next) =>
          some ({ pipeline with nextSeqNo := next }.goto tx (.returned (some error)))
        | (.ok commit, next) =>
          some ({ pipeline with
            nextSeqNo := next
            commitMutex := some tx
            params := Function.update pipeline.params tx commit }.goto tx
              (.recording [] commit.memUpdates))
  | _, _ => none

/-- One round of the loop that calls `record_commit_key`. -/
def record (pipeline : Pipeline) (tx : TxId) : Option Pipeline :=
  match pipeline.task tx with
  | .recording _ [] => some (pipeline.goto tx .ready)
  | .recording recorded (update :: rest) =>
    some ({ pipeline with
      validator := pipeline.validator.recordCommitKey update.key update.seq.raw }.goto tx
        (.recording (recorded ++ [update]) rest))
  | _ => none

/-- The three places that wait for the lock of the pending queue. -/
def lockQueue (pipeline : Pipeline) (tx : TxId) : Option Pipeline :=
  match pipeline.queueMutex, pipeline.task tx with
  | none, .ready | none, .timedOut _ | none, .awake =>
    some { pipeline with queueMutex := some tx }
  | _, _ => none

/-- Become a follower of the queue that is there, or the leader of a new one. -/
def enqueue (pipeline : Pipeline) (tx : TxId) : Option Pipeline :=
  if pipeline.queueMutex = some tx ∧ pipeline.task tx = .ready then
    let commit := pipeline.params tx
    match pipeline.pendingCommitQueue with
    | some queue =>
      let request : GroupCommitRequest := ⟨tx, commit.walOps, commit.memUpdates⟩
      some ({ pipeline with
        pendingCommitQueue := some { queue with requests := queue.requests ++ [request] }
        channel := Function.update pipeline.channel tx .pending }.releaseQueue.releaseCommit.goto
          tx (.waiting queue.leader))
    | none =>
      some ({ pipeline with
        pendingCommitQueue := some ⟨tx, []⟩
        committedFlag := Function.update pipeline.committedFlag tx false
        }.releaseQueue.releaseCommit.goto tx .leading)
  else none

def timeout (pipeline : Pipeline) (tx : TxId) : Option Pipeline :=
  match pipeline.task tx with
  | .waiting leader => some (pipeline.goto tx (.timedOut leader))
  | _ => none

/-- Leave the queue and roll back, or keep waiting when a leader took the request. -/
def resolveTimeout (pipeline : Pipeline) (tx : TxId) : Option Pipeline :=
  match pipeline.task tx with
  | .timedOut leader =>
    if pipeline.queueMutex = some tx then
      match pipeline.pendingCommitQueue with
      | some queue =>
        if queue.requests.any (fun request => request.txId == tx) then
          some ({ pipeline with
            pendingCommitQueue := some { queue with
              requests := queue.requests.filter (fun request => request.txId != tx) }
            channel := Function.update pipeline.channel tx .closed }.releaseQueue.goto tx
              (.unwinding [⟨(pipeline.params tx).firstSeq, none⟩] (some (.commitTimeout tx))))
        else some (pipeline.releaseQueue.goto tx (.detached leader))
      | none => some (pipeline.releaseQueue.goto tx (.detached leader))
    else none
  | _ => none

/-- The follower's receive: a result, or a dropped sender and the committed flag. -/
def receive (pipeline : Pipeline) (tx : TxId) : Option Pipeline :=
  match pipeline.task tx with
  | .waiting leader | .detached leader =>
    match pipeline.channel tx with
    | .pending => none
    | .sent error => some (pipeline.goto tx (.returned error))
    | .closed =>
      if pipeline.committedFlag leader then some (pipeline.goto tx (.returned none))
      else
        some (pipeline.goto tx (.unwinding [⟨(pipeline.params tx).firstSeq, none⟩]
          (some (.storage "Commit failed at WAL append after leader cancellation"))))
  | _ => none

def wake (pipeline : Pipeline) (tx : TxId) : Option Pipeline :=
  match pipeline.task tx, pipeline.commitMutex with
  | .leading, none => some ({ pipeline with commitMutex := some tx }.goto tx .awake)
  | _, _ => none

def takeQueue (pipeline : Pipeline) (tx : TxId) : Option Pipeline :=
  if pipeline.queueMutex = some tx ∧ pipeline.task tx = .awake then
    match pipeline.pendingCommitQueue with
    | some queue =>
      some ({ pipeline with pendingCommitQueue := none }.releaseQueue.goto tx
        (.batching queue.requests))
    | none =>
      some (pipeline.releaseQueue.releaseCommit.leaderCancelGuard tx none
        (some (.internal "Group commit queue invariant violated")))
  else none

/-- `execute_group_commit_append` succeeded and stored the committed flag. -/
def appendOk (pipeline : Pipeline) (tx : TxId) : Option Pipeline :=
  match pipeline.task tx with
  | .batching requests =>
    some ({ pipeline with committedFlag := Function.update pipeline.committedFlag tx true }.goto
      tx (.appended requests))
  | _ => none

/-- `leader_guard.committed = true`. -/
def disarm (pipeline : Pipeline) (tx : TxId) : Option Pipeline :=
  match pipeline.task tx with
  | .appended requests => some (pipeline.goto tx (.durable requests))
  | _ => none

/-- `prepare_batch` or the append refused the batch. -/
def appendFail (pipeline : Pipeline) (tx : TxId) (error : ContextraError) : Option Pipeline :=
  match pipeline.task tx with
  | .batching requests =>
    some (pipeline.releaseCommit.leaderCancelGuard tx (some requests) (some error))
  | _ => none

/-- Apply the batch and answer the followers. -/
def publish (pipeline : Pipeline) (tx : TxId) : Option Pipeline :=
  match pipeline.task tx with
  | .durable requests =>
    some ((pipeline.answer requests (.sent none)).releaseCommit.goto tx (.returned none))
  | _ => none

/-- The future is dropped at one of its await points.  Between the stored flag and
the disarmed guard there is one only in the memory-only mode. -/
def cancel (mode : DurabilityMode) (pipeline : Pipeline) (tx : TxId) : Option Pipeline :=
  match pipeline.task tx with
  | .ready =>
    if pipeline.queueMutex = some tx then none
    else some (pipeline.releaseCommit.goto tx .cancelled)
  | .waiting _ | .detached _ => some (pipeline.goto tx .cancelled)
  | .timedOut _ =>
    if pipeline.queueMutex = some tx then none else some (pipeline.goto tx .cancelled)
  | .leading => some (pipeline.leaderCancelGuard tx none none)
  | .awake =>
    if pipeline.queueMutex = some tx then none
    else some (pipeline.releaseCommit.leaderCancelGuard tx none none)
  | .batching requests =>
    some (pipeline.releaseCommit.leaderCancelGuard tx (some requests) none)
  | .appended requests =>
    if mode = .memoryOnly then
      some (pipeline.releaseCommit.leaderCancelGuard tx (some requests) none)
    else none
  | .durable requests => some ((pipeline.answer requests .closed).releaseCommit.goto tx .cancelled)
  | _ => none

/-- The guard lets go of the queue lock after the last request. -/
def unlockQueue (pipeline : Pipeline) (tx : TxId) : Option Pipeline :=
  match pipeline.task tx with
  | .unwinding [⟨_, none⟩] _ =>
    if pipeline.queueMutex = some tx then some pipeline.releaseQueue else none
  | _ => none

/-- `if first_seq > 0 { forget_from(first_seq) }`. -/
def forgetFrom (pipeline : Pipeline) (firstSeq : Nat) : Pipeline :=
  { pipeline with
    validator :=
      if 0 < firstSeq then pipeline.validator.forgetFrom firstSeq else pipeline.validator }

/-- What a rollback ends with: an error for the caller, or a dropped future. -/
def afterUnwind : List Unwind → Option ContextraError → CommitTask
  | [], some error => .returned (some error)
  | [], none => .cancelled
  | item :: todo, result => .unwinding (item :: todo) result

def forget (pipeline : Pipeline) (tx : TxId) : Option Pipeline :=
  match pipeline.task tx with
  | .unwinding (⟨firstSeq, some follower⟩ :: todo) result =>
    let forgotten := pipeline.forgetFrom firstSeq
    some ({ forgotten with
      channel := Function.update forgotten.channel follower
        (.sent (some (.storage "Leader cancelled group commit"))) }.goto tx
          (afterUnwind todo result))
  | .unwinding (⟨firstSeq, none⟩ :: todo) result =>
    if pipeline.queueMutex = some tx then none
    else some ((pipeline.forgetFrom firstSeq).goto tx (afterUnwind todo result))
  | _ => none

def step (mode : DurabilityMode) (pipeline : Pipeline) : Event → Option Pipeline
  | .begin tx ops reads => pipeline.begin tx ops reads
  | .record tx => pipeline.record tx
  | .lockQueue tx => pipeline.lockQueue tx
  | .enqueue tx => pipeline.enqueue tx
  | .timeout tx => pipeline.timeout tx
  | .resolveTimeout tx => pipeline.resolveTimeout tx
  | .receive tx => pipeline.receive tx
  | .wake tx => pipeline.wake tx
  | .takeQueue tx => pipeline.takeQueue tx
  | .appendOk tx => pipeline.appendOk tx
  | .disarm tx => pipeline.disarm tx
  | .appendFail tx error => pipeline.appendFail tx error
  | .publish tx => pipeline.publish tx
  | .cancel tx => pipeline.cancel mode tx
  | .unlockQueue tx => pipeline.unlockQueue tx
  | .forget tx => pipeline.forget tx
  | .prune bound => some { pipeline with validator := pipeline.validator.pruneThrough bound }

end Pipeline

end Contextra.Store
