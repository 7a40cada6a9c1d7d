import Contextra.Store.GroupCommit

/-!
# What a step of the pipeline can do

Every event is one of a few kinds of move on the queue, the batches, the channels
and the validator.  The safety argument looks at the moves only.
-/

namespace Contextra.Store

open Option

open Mvcc

namespace CommitTask

/-- The followers a leader has taken out of the queue. -/
def batchIds : CommitTask → List TxId
  | .batching requests | .appended requests | .durable requests => requests.map (·.txId)
  | _ => []

/-- The followers whose rollback a leader still has to do. -/
def todoIds : CommitTask → List TxId
  | .unwinding todo _ => todo.filterMap (·.notify)
  | _ => []

/-- The call is past the point at which it entered a queue. -/
def Enqueued : CommitTask → Prop
  | .waiting _ | .timedOut _ | .detached _ | .unwinding _ _ | .returned _ | .cancelled => True
  | _ => False

def HoldsMutex : CommitTask → Prop
  | .recording _ _ | .ready | .awake | .batching _ | .appended _ | .durable _ => True
  | _ => False

def Recording : CommitTask → Prop
  | .recording _ _ => True
  | _ => False

end CommitTask

namespace Pipeline

open CommitTask

def queueIds (pipeline : Pipeline) : List TxId :=
  match pipeline.pendingCommitQueue with
  | some queue => queue.requests.map (·.txId)
  | none => []

/-- A call at control point `task` may still return `Ok`: its channel has not
failed, and no leader is about to fail it. -/
def LiveAt (pipeline : Pipeline) (tx : TxId) : CommitTask → Prop
  | .idle | .unwinding _ _ | .cancelled | .returned (some _) => False
  | .waiting _ | .timedOut _ | .detached _ =>
    match pipeline.channel tx with
    | .pending => ∀ leader, tx ∉ (pipeline.task leader).todoIds
    | .sent (some _) => False
    | .sent none | .closed => True
  | _ => True

def Live (pipeline : Pipeline) (tx : TxId) : Prop := pipeline.LiveAt tx (pipeline.task tx)

/-- The updates whose keys the call has recorded so far. -/
def writtenUpdates (pipeline : Pipeline) (tx : TxId) : List MemUpdate :=
  match pipeline.task tx with
  | .recording recorded _ => recorded
  | _ => (pipeline.params tx).memUpdates

/-- How a step that leads `tx` to `task` may change the commit mutex. -/
def MutexStep (pipeline : Pipeline) (tx : TxId) (task : CommitTask) (mutex : Option TxId) : Prop :=
  (mutex = pipeline.commitMutex ∧ (task.HoldsMutex → (pipeline.task tx).HoldsMutex)) ∨
  (pipeline.commitMutex = none ∧ mutex = some tx) ∨
  ((pipeline.task tx).HoldsMutex ∧ ¬ task.HoldsMutex ∧ mutex = none)

/-- A change of control point that no other call can see. -/
structure Quiet (p : Pipeline) (tx : TxId) (task : CommitTask) (mutex : Option TxId) : Prop where
  step : p.MutexStep tx task mutex
  started : p.task tx ≠ .idle
  finished : ∀ done rest, p.task tx = .recording done rest → rest = []
  settled : ¬ task.Recording
  notIdle : task ≠ .idle
  batch : task.batchIds = (p.task tx).batchIds
  todo : task.todoIds = (p.task tx).todoIds
  enqueued : (p.task tx).Enqueued → task.Enqueued
  live : p.LiveAt tx task → p.Live tx

/-- What a step removes from the commit register. -/
inductive Removal where
  | nothing
  | since (first : Nat)
  | through (bound : Nat)

inductive Move (p : Pipeline) : Removal → Pipeline → Prop
  /-- Operations are staged: numbers are allocated, recording starts. -/
  | begun (tx : TxId) (commit : PreparedCommit) (next : Nat)
      (idle : p.task tx = .idle) (free : p.commitMutex = none) (grows : p.nextSeqNo ≤ next)
      (ordered : commit.memUpdates.Pairwise (fun left right => left.seq.raw < right.seq.raw))
      (bounded : ∀ update ∈ commit.memUpdates,
        p.nextSeqNo ≤ update.seq.raw ∧ update.seq.raw < next) :
      Move p .nothing { p with
        nextSeqNo := next
        commitMutex := some tx
        params := Function.update p.params tx commit
        task := Function.update p.task tx (.recording [] commit.memUpdates) }
  /-- Nothing to commit, or refused before anything was recorded. -/
  | skipped (tx : TxId) (next : Nat) (error : Option ContextraError)
      (idle : p.task tx = .idle) (grows : p.nextSeqNo ≤ next) :
      Move p .nothing { p with
        nextSeqNo := next
        task := Function.update p.task tx (.returned error) }
  | recorded (tx : TxId) (done : List MemUpdate) (update : MemUpdate) (rest : List MemUpdate)
      (here : p.task tx = .recording done (update :: rest)) :
      Move p .nothing { p with
        validator := p.validator.recordCommitKey update.key update.seq.raw
        task := Function.update p.task tx (.recording (done ++ [update]) rest) }
  | quiet (tx : TxId) (task : CommitTask) (mutex lock : Option TxId) (flag : TxId → Bool)
      (unseen : p.Quiet tx task mutex) :
      Move p .nothing { p with
        commitMutex := mutex
        queueMutex := lock
        committedFlag := flag
        task := Function.update p.task tx task }
  | locks (lock : Option TxId) : Move p .nothing { p with queueMutex := lock }
  | join (tx : TxId) (queue : PendingCommitQueue) (request : GroupCommitRequest)
      (here : p.task tx = .ready) (found : p.pendingCommitQueue = some queue)
      (own : request.txId = tx) :
      Move p .nothing { p with
        commitMutex := none
        queueMutex := none
        pendingCommitQueue := some { queue with requests := queue.requests ++ [request] }
        channel := Function.update p.channel tx .pending
        task := Function.update p.task tx (.waiting queue.leader) }
  | lead (tx : TxId) (flag : TxId → Bool) (here : p.task tx = .ready)
      (vacant : p.pendingCommitQueue = none) :
      Move p .nothing { p with
        commitMutex := none
        queueMutex := none
        pendingCommitQueue := some ⟨tx, []⟩
        committedFlag := flag
        task := Function.update p.task tx .leading }
  | leave (tx leader : TxId) (queue : PendingCommitQueue) (error : ContextraError)
      (here : p.task tx = .timedOut leader) (found : p.pendingCommitQueue = some queue)
      (inQueue : tx ∈ queue.requests.map (·.txId)) :
      Move p .nothing { p with
        queueMutex := none
        pendingCommitQueue := some { queue with
          requests := queue.requests.filter (fun request => request.txId != tx) }
        channel := Function.update p.channel tx .closed
        task := Function.update p.task tx
          (.unwinding [⟨(p.params tx).firstSeq, none⟩] (some error)) }
  | take (tx : TxId) (queue : PendingCommitQueue) (here : p.task tx = .awake)
      (found : p.pendingCommitQueue = some queue) :
      Move p .nothing { p with
        queueMutex := none
        pendingCommitQueue := none
        task := Function.update p.task tx (.batching queue.requests) }
  /-- The guard gives a taken batch up. -/
  | abortBatch (tx : TxId) (requests : List GroupCommitRequest) (result : Option ContextraError)
      (here : p.task tx = .batching requests ∨ p.task tx = .appended requests) :
      Move p .nothing { p with
        commitMutex := none
        task := Function.update p.task tx
          (.unwinding (unwindRequests requests ++ [⟨(p.params tx).firstSeq, none⟩]) result) }
  /-- The guard gives the queue up that the leader had not taken. -/
  | abortQueue (tx : TxId) (mutex : Option TxId) (requests : List GroupCommitRequest)
      (result : Option ContextraError)
      (here : p.task tx = .leading ∨ p.task tx = .awake)
      (step : p.MutexStep tx .cancelled mutex)
      (found : requests.map (·.txId) = p.queueIds) :
      Move p .nothing { p with
        commitMutex := mutex
        queueMutex := some tx
        pendingCommitQueue := none
        task := Function.update p.task tx
          (.unwinding (unwindRequests requests ++ [⟨(p.params tx).firstSeq, none⟩]) result) }
  /-- A durable batch is answered, or its senders are dropped. -/
  | answered (tx : TxId) (requests : List GroupCommitRequest) (reply : Channel)
      (task : CommitTask) (here : p.task tx = .durable requests)
      (outcome : (reply = .sent none ∧ task = .returned none) ∨
        (reply = .closed ∧ task = .cancelled)) :
      Move p .nothing { p with
        commitMutex := none
        channel := fun other =>
          if other ∈ requests.map (·.txId) then reply else p.channel other
        task := Function.update p.task tx task }
  | forgot (tx : TxId) (firstSeq : Nat) (todo : List Unwind) (result : Option ContextraError)
      (here : p.task tx = .unwinding (⟨firstSeq, none⟩ :: todo) result) :
      Move p (.since firstSeq) { p with
        validator := (p.forgetFrom firstSeq).validator
        task := Function.update p.task tx (afterUnwind todo result) }
  | notified (tx follower : TxId) (firstSeq : Nat) (todo : List Unwind)
      (result : Option ContextraError) (error : ContextraError)
      (here : p.task tx = .unwinding (⟨firstSeq, some follower⟩ :: todo) result) :
      Move p (.since firstSeq) { p with
        validator := (p.forgetFrom firstSeq).validator
        channel := Function.update p.channel follower (.sent (some error))
        task := Function.update p.task tx (afterUnwind todo result) }
  | pruned (bound : Nat) : Move p (.through bound) { p with validator := p.validator.pruneThrough bound }

variable {p p' : Pipeline} {tx : TxId}

theorem begin_move {ops : List IndexOp} {reads : ReadSet}
    (taken : p.begin tx ops reads = some p') : Move p .nothing p' := by
  unfold begin at taken
  split at taken
  · rename_i idle free
    split at taken
    · obtain rfl := some.inj taken
      exact .skipped tx p.nextSeqNo none idle le_rfl
    · split at taken
      · obtain rfl := some.inj taken
        exact .skipped tx p.nextSeqNo (some _) idle le_rfl
      · split at taken
        · rename_i error next refused
          obtain rfl := some.inj taken
          have grows := prepareCommitOps_le tx ops p.nextSeqNo
          rw [refused] at grows
          exact .skipped tx next (some error) idle grows
        · rename_i commit next prepared
          obtain rfl := some.inj taken
          have grows := prepareCommitOps_le tx ops p.nextSeqNo
          rw [prepared] at grows
          obtain ⟨ordered, bounded⟩ := prepareCommitOps_updates prepared
          exact .begun tx commit next idle free grows ordered bounded
  · simp at taken

theorem record_move (taken : p.record tx = some p') : Move p .nothing p' := by
  unfold record at taken
  split at taken
  · rename_i done here
    obtain rfl := some.inj taken
    refine .quiet tx .ready p.commitMutex p.queueMutex p.committedFlag ?_
    constructor
    case step => exact .inl ⟨rfl, fun _ => by rw [here]; trivial⟩
    all_goals simp_all [Recording, batchIds, todoIds, Enqueued, Live, LiveAt]
  · rename_i done update rest here
    obtain rfl := some.inj taken
    exact .recorded tx done update rest here
  · simp at taken

theorem lockQueue_move (taken : p.lockQueue tx = some p') : Move p .nothing p' := by
  unfold lockQueue at taken
  split at taken
  all_goals first
    | (obtain rfl := some.inj taken; exact .locks (some tx))
    | simp at taken

theorem enqueue_move (taken : p.enqueue tx = some p') : Move p .nothing p' := by
  unfold enqueue at taken
  split at taken
  · rename_i holds
    dsimp only at taken
    split at taken
    · rename_i queue found
      obtain rfl := some.inj taken
      exact .join tx queue _ holds.2 found rfl
    · rename_i vacant
      obtain rfl := some.inj taken
      exact .lead tx _ holds.2 vacant
  · simp at taken

theorem timeout_move (taken : p.timeout tx = some p') : Move p .nothing p' := by
  unfold timeout at taken
  split at taken
  · rename_i leader here
    obtain rfl := some.inj taken
    refine .quiet tx (.timedOut leader) p.commitMutex p.queueMutex p.committedFlag ?_
    constructor
    case step => exact .inl ⟨rfl, fun holds => holds.elim⟩
    all_goals simp_all [Recording, batchIds, todoIds, Enqueued, Live, LiveAt]
  · simp at taken

theorem resolveTimeout_move (taken : p.resolveTimeout tx = some p') : Move p .nothing p' := by
  unfold resolveTimeout at taken
  split at taken
  · rename_i leader here
    have detach : Move p .nothing (p.releaseQueue.goto tx (.detached leader)) := by
      refine .quiet tx (.detached leader) p.commitMutex none p.committedFlag ?_
      constructor
      case step => exact .inl ⟨rfl, fun holds => holds.elim⟩
      all_goals simp_all [Recording, batchIds, todoIds, Enqueued, Live, LiveAt]
    split at taken
    · split at taken
      · rename_i queue found
        split at taken
        · rename_i hit
          obtain rfl := some.inj taken
          refine .leave tx leader queue _ here found ?_
          obtain ⟨request, inRequests, own⟩ := List.any_eq_true.mp hit
          exact List.mem_map.mpr ⟨request, inRequests, beq_iff_eq.mp own⟩
        · obtain rfl := some.inj taken
          exact detach
      · obtain rfl := some.inj taken
        exact detach
    · simp at taken
  · simp at taken

theorem receive_move (taken : p.receive tx = some p') : Move p .nothing p' := by
  unfold receive at taken
  split at taken
  case h_3 => simp at taken
  all_goals
    rename_i leader here
    split at taken
    · simp at taken
    · rename_i error arrived
      obtain rfl := some.inj taken
      refine .quiet tx (.returned error) p.commitMutex p.queueMutex p.committedFlag ?_
      constructor
      case step => exact .inl ⟨rfl, fun holds => holds.elim⟩
      all_goals cases error <;>
        simp_all [Recording, batchIds, todoIds, Enqueued, Live, LiveAt]
    · rename_i arrived
      split at taken
      · obtain rfl := some.inj taken
        refine .quiet tx (.returned none) p.commitMutex p.queueMutex p.committedFlag ?_
        constructor
        case step => exact .inl ⟨rfl, fun holds => holds.elim⟩
        all_goals simp_all [Recording, batchIds, todoIds, Enqueued, Live, LiveAt]
      · obtain rfl := some.inj taken
        refine .quiet tx (.unwinding [⟨(p.params tx).firstSeq, none⟩]
          (some (.storage "Commit failed at WAL append after leader cancellation")))
          p.commitMutex p.queueMutex p.committedFlag ?_
        constructor
        case step => exact .inl ⟨rfl, fun holds => holds.elim⟩
        all_goals simp_all [Recording, batchIds, todoIds, Enqueued, Live, LiveAt]

theorem wake_move (taken : p.wake tx = some p') : Move p .nothing p' := by
  unfold wake at taken
  split at taken
  · rename_i here free
    obtain rfl := some.inj taken
    refine .quiet tx .awake (some tx) p.queueMutex p.committedFlag ?_
    constructor
    case step => exact .inr (.inl ⟨free, rfl⟩)
    all_goals simp_all [Recording, batchIds, todoIds, Enqueued, Live, LiveAt]
  · simp at taken

theorem leaderCancelGuard_none_move {q : Pipeline} (mutex lock : Option TxId)
    (result : Option ContextraError) (here : p.task tx = .leading ∨ p.task tx = .awake)
    (step : p.MutexStep tx .cancelled mutex)
    (same : q = { p with commitMutex := mutex, queueMutex := lock }) :
    Move p .nothing (q.leaderCancelGuard tx none result) := by
  subst same
  unfold leaderCancelGuard
  dsimp only
  split
  · refine .quiet tx (.unwinding [⟨(p.params tx).firstSeq, none⟩] result) mutex _
      p.committedFlag ?_
    constructor
    case step => exact step
    all_goals rcases here with here | here <;>
      simp_all [Recording, batchIds, todoIds, Enqueued, Live, LiveAt]
  · refine .abortQueue tx mutex _ result here step ?_
    unfold queueIds
    cases p.pendingCommitQueue <;> rfl

theorem takeQueue_move (taken : p.takeQueue tx = some p') : Move p .nothing p' := by
  unfold takeQueue at taken
  split at taken
  · rename_i holds
    split at taken
    · rename_i queue found
      obtain rfl := some.inj taken
      exact .take tx queue holds.2 found
    · obtain rfl := some.inj taken
      refine leaderCancelGuard_none_move none none _ (.inr holds.2) ?_ rfl
      exact .inr (.inr ⟨by rw [holds.2]; trivial, fun impossible => impossible, rfl⟩)
  · simp at taken

theorem appendOk_move (taken : p.appendOk tx = some p') : Move p .nothing p' := by
  unfold appendOk at taken
  split at taken
  · rename_i requests here
    obtain rfl := some.inj taken
    refine .quiet tx (.appended requests) p.commitMutex p.queueMutex _ ?_
    constructor
    case step => exact .inl ⟨rfl, fun _ => by rw [here]; trivial⟩
    all_goals simp_all [Recording, batchIds, todoIds, Enqueued, Live, LiveAt]
  · simp at taken

theorem disarm_move (taken : p.disarm tx = some p') : Move p .nothing p' := by
  unfold disarm at taken
  split at taken
  · rename_i requests here
    obtain rfl := some.inj taken
    refine .quiet tx (.durable requests) p.commitMutex p.queueMutex p.committedFlag ?_
    constructor
    case step => exact .inl ⟨rfl, fun _ => by rw [here]; trivial⟩
    all_goals simp_all [Recording, batchIds, todoIds, Enqueued, Live, LiveAt]
  · simp at taken

theorem appendFail_move {error : ContextraError} (taken : p.appendFail tx error = some p') :
    Move p .nothing p' := by
  unfold appendFail at taken
  split at taken
  · rename_i requests here
    obtain rfl := some.inj taken
    exact .abortBatch tx requests (some error) (.inl here)
  · simp at taken

theorem publish_move (taken : p.publish tx = some p') : Move p .nothing p' := by
  unfold publish at taken
  split at taken
  · rename_i requests here
    obtain rfl := some.inj taken
    exact .answered tx requests (.sent none) (.returned none) here (.inl ⟨rfl, rfl⟩)
  · simp at taken

theorem cancelled_move (mutex : Option TxId) (step : p.MutexStep tx .cancelled mutex)
    (started : p.task tx ≠ .idle) (notRecording : ¬ (p.task tx).Recording)
    (noBatch : (p.task tx).batchIds = []) (noTodo : (p.task tx).todoIds = []) :
    Move p .nothing { p with commitMutex := mutex, task := Function.update p.task tx .cancelled } := by
  refine .quiet tx .cancelled mutex p.queueMutex p.committedFlag ?_
  constructor
  case step => exact step
  case started => exact started
  case finished =>
    intro done rest here
    rw [here] at notRecording
    exact (notRecording trivial).elim
  case settled => exact fun impossible => impossible
  case notIdle => simp
  case batch => exact noBatch.symm
  case todo => exact noTodo.symm
  case enqueued => exact fun _ => trivial
  case live => exact fun impossible => impossible.elim

theorem cancel_move {mode : DurabilityMode} (taken : p.cancel mode tx = some p') :
    Move p .nothing p' := by
  unfold cancel at taken
  split at taken
  · rename_i here
    split at taken
    · simp at taken
    · obtain rfl := some.inj taken
      refine cancelled_move none ?_ ?_ ?_ ?_ ?_
      · exact .inr (.inr ⟨by rw [here]; trivial, fun impossible => impossible, rfl⟩)
      all_goals simp [here, Recording, batchIds, todoIds]
  · rename_i leader here
    obtain rfl := some.inj taken
    refine cancelled_move p.commitMutex (.inl ⟨rfl, fun holds => holds.elim⟩) ?_ ?_ ?_ ?_
    all_goals simp [here, Recording, batchIds, todoIds]
  · rename_i leader here
    obtain rfl := some.inj taken
    refine cancelled_move p.commitMutex (.inl ⟨rfl, fun holds => holds.elim⟩) ?_ ?_ ?_ ?_
    all_goals simp [here, Recording, batchIds, todoIds]
  · rename_i leader here
    split at taken
    · simp at taken
    · obtain rfl := some.inj taken
      refine cancelled_move p.commitMutex (.inl ⟨rfl, fun holds => holds.elim⟩) ?_ ?_ ?_ ?_
      all_goals simp [here, Recording, batchIds, todoIds]
  · rename_i here
    obtain rfl := some.inj taken
    exact leaderCancelGuard_none_move p.commitMutex p.queueMutex none
      (.inl here) (.inl ⟨rfl, fun holds => holds.elim⟩) rfl
  · rename_i here
    split at taken
    · simp at taken
    · obtain rfl := some.inj taken
      refine leaderCancelGuard_none_move none p.queueMutex none
        (.inr here) ?_ rfl
      exact .inr (.inr ⟨by rw [here]; trivial, fun impossible => impossible, rfl⟩)
  · rename_i requests here
    obtain rfl := some.inj taken
    exact .abortBatch tx requests none (.inl here)
  · rename_i requests here
    split at taken
    · obtain rfl := some.inj taken
      exact .abortBatch tx requests none (.inr here)
    · simp at taken
  · rename_i requests here
    obtain rfl := some.inj taken
    exact .answered tx requests .closed .cancelled here (.inr ⟨rfl, rfl⟩)
  · simp at taken

theorem unlockQueue_move (taken : p.unlockQueue tx = some p') : Move p .nothing p' := by
  unfold unlockQueue at taken
  split at taken
  · split at taken
    · obtain rfl := some.inj taken
      exact .locks none
    · simp at taken
  · simp at taken

def removal (pipeline : Pipeline) : Event → Removal
  | .forget tx =>
    match pipeline.task tx with
    | .unwinding (item :: _) _ => .since item.firstSeq
    | _ => .nothing
  | .prune bound => .through bound
  | _ => .nothing

theorem forget_move (taken : p.forget tx = some p') : Move p (p.removal (.forget tx)) p' := by
  unfold forget at taken
  split at taken
  · rename_i firstSeq follower todo result here
    obtain rfl := some.inj taken
    simp only [removal, here]
    exact .notified tx follower firstSeq todo result _ here
  · rename_i firstSeq todo result here
    split at taken
    · simp at taken
    · obtain rfl := some.inj taken
      simp only [removal, here]
      exact .forgot tx firstSeq todo result here
  · simp at taken

theorem step_move {mode : DurabilityMode} {event : Event}
    (taken : step mode p event = some p') : Move p (p.removal event) p' := by
  cases event with
  | begin tx ops reads => exact begin_move taken
  | record tx => exact record_move taken
  | lockQueue tx => exact lockQueue_move taken
  | enqueue tx => exact enqueue_move taken
  | timeout tx => exact timeout_move taken
  | resolveTimeout tx => exact resolveTimeout_move taken
  | receive tx => exact receive_move taken
  | wake tx => exact wake_move taken
  | takeQueue tx => exact takeQueue_move taken
  | appendOk tx => exact appendOk_move taken
  | disarm tx => exact disarm_move taken
  | appendFail tx error => exact appendFail_move taken
  | publish tx => exact publish_move taken
  | cancel tx => exact cancel_move taken
  | unlockQueue tx => exact unlockQueue_move taken
  | forget tx => exact forget_move taken
  | prune bound =>
    obtain rfl := some.inj taken
    exact .pruned bound

end Pipeline

end Contextra.Store
