import Contextra.Store.GroupCommitMoves

/-!
# When group commit keeps its conflicts

`Placed` says that a follower sits in at most one of the queue, a batch and a rollback; `Locked`
that recording happens under the commit mutex; `Registered` that the register still knows every
write of a call that may return `Ok`.  The third survives a rollback only if it spares the records
of the other calls, which `forget_from` does not check.
-/

namespace Contextra.Store

open List Option Function

open Mvcc Contextra.Library

namespace Pipeline

open CommitTask

variable {p p' : Pipeline} {tx : TxId} {removed : Removal}

/-- Nothing has been sent to the follower and nobody is going to fail it. -/
def Unanswered (p : Pipeline) (tx : TxId) : Prop :=
  p.channel tx = .pending ∧ ∀ leader, tx ∉ (p.task leader).todoIds

structure Placed (p : Pipeline) : Prop where
  queued : ∀ tx ∈ p.queueIds, (p.task tx).Enqueued ∧ p.Unanswered tx ∧
    ∀ leader, tx ∉ (p.task leader).batchIds
  batched : ∀ leader, ∀ tx ∈ (p.task leader).batchIds,
    (p.task tx).Enqueued ∧ p.Unanswered tx ∧
      ∀ other, tx ∈ (p.task other).batchIds → other = leader
  unwinding : ∀ leader, ∀ tx ∈ (p.task leader).todoIds, (p.task tx).Enqueued

theorem initial_placed (nextSeqNo maxTrackedKeys : Nat) :
    (initial nextSeqNo maxTrackedKeys).Placed := by
  constructor <;> simp [initial, queueIds, batchIds, todoIds]

theorem Placed.not_queued (placed : p.Placed) (outside : ¬ (p.task tx).Enqueued) :
    tx ∉ p.queueIds := fun queued => outside (placed.queued tx queued).1

theorem Placed.not_batched (placed : p.Placed) (outside : ¬ (p.task tx).Enqueued)
    (leader : TxId) : tx ∉ (p.task leader).batchIds :=
  fun batched => outside (placed.batched leader tx batched).1

theorem Placed.not_unwinding (placed : p.Placed) (outside : ¬ (p.task tx).Enqueued)
    (leader : TxId) : tx ∉ (p.task leader).todoIds :=
  fun unwinding => outside (placed.unwinding leader tx unwinding)

/-- A follower that no call but `tx` has in a batch or a rollback. -/
def Elsewhere (p : Pipeline) (tx follower : TxId) : Prop :=
  ∀ leader ≠ tx, follower ∉ (p.task leader).batchIds ∧ follower ∉ (p.task leader).todoIds

variable {task : CommitTask}

/-- The invariant after a move of `tx`, from the new queue and the new batch and
rollback of `tx` alone. -/
theorem Placed.rebuild (placed : p.Placed) (tx : TxId)
    (tasks : p'.task = Function.update p.task tx task)
    (enqueued : (p.task tx).Enqueued → task.Enqueued)
    (queued : ∀ follower ∈ p'.queueIds, (p'.task follower).Enqueued ∧
      p'.channel follower = .pending ∧ follower ∉ task.batchIds ∧ follower ∉ task.todoIds ∧
      p.Elsewhere tx follower)
    (batched : ∀ follower ∈ task.batchIds, (p'.task follower).Enqueued ∧
      p'.channel follower = .pending ∧ follower ∉ task.todoIds ∧ p.Elsewhere tx follower)
    (others : ∀ leader ≠ tx, ∀ follower ∈ (p.task leader).batchIds,
      p'.channel follower = .pending ∧ follower ∉ task.todoIds)
    (unwinding : ∀ follower ∈ task.todoIds, (p'.task follower).Enqueued) : p'.Placed := by
  have own : p'.task tx = task := by rw [tasks, update_self]
  have same (other : TxId) (different : other ≠ tx) : p'.task other = p.task other := by
    rw [tasks, update_of_ne different]
  have points (other : TxId) (before : (p.task other).Enqueued) :
      (p'.task other).Enqueued := by
    by_cases here : other = tx
    · subst here; rw [own]; exact enqueued before
    · rw [same other here]; exact before
  constructor
  · intro follower inQueue
    obtain ⟨point, open', notBatch, notTodo, elsewhere⟩ := queued follower inQueue
    refine ⟨point, ⟨open', fun leader => ?_⟩, fun leader => ?_⟩
    · by_cases here : leader = tx
      · subst here; rwa [own]
      · rw [same leader here]; exact (elsewhere leader here).2
    · by_cases here : leader = tx
      · subst here; rwa [own]
      · rw [same leader here]; exact (elsewhere leader here).1
  · intro leader follower inBatch
    by_cases here : leader = tx
    · subst here
      rw [own] at inBatch
      obtain ⟨point, open', notTodo, elsewhere⟩ := batched follower inBatch
      refine ⟨point, ⟨open', fun other => ?_⟩, fun other inOther => ?_⟩
      · by_cases here : other = leader
        · subst here; rwa [own]
        · rw [same other here]; exact (elsewhere other here).2
      · by_contra different
        rw [same other different] at inOther
        exact (elsewhere other different).1 inOther
    · rw [same leader here] at inBatch
      obtain ⟨point, unanswered, unique⟩ := placed.batched leader follower inBatch
      obtain ⟨open', notTodo⟩ := others leader here follower inBatch
      refine ⟨points follower point, ⟨open', fun other => ?_⟩, fun other inOther => ?_⟩
      · by_cases there : other = tx
        · subst there; rwa [own]
        · rw [same other there]; exact unanswered.2 other
      · by_cases there : other = tx
        · subst there
          rw [own] at inOther
          exact absurd inBatch ((batched follower inOther).2.2.2 leader here).1
        · rw [same other there] at inOther
          exact unique other inOther
  · intro leader follower inTodo
    by_cases here : leader = tx
    · subst here
      rw [own] at inTodo
      exact unwinding follower inTodo
    · rw [same leader here] at inTodo
      exact points follower (placed.unwinding leader follower inTodo)

theorem Placed.queued_elsewhere (placed : p.Placed) {follower : TxId}
    (inQueue : follower ∈ p.queueIds) : p.Elsewhere tx follower := fun leader _ =>
  ⟨(placed.queued follower inQueue).2.2 leader, (placed.queued follower inQueue).2.1.2 leader⟩

theorem Placed.batched_elsewhere (placed : p.Placed) {follower : TxId}
    (inBatch : follower ∈ (p.task tx).batchIds) : p.Elsewhere tx follower :=
  fun leader different =>
    ⟨fun inOther => different ((placed.batched tx follower inBatch).2.2 leader inOther),
      (placed.batched tx follower inBatch).2.1.2 leader⟩

theorem Placed.retask (placed : p.Placed) (tx : TxId)
    (queue : p'.queueIds = p.queueIds) (channel : p'.channel = p.channel)
    (tasks : p'.task = Function.update p.task tx task)
    (batch : task.batchIds = (p.task tx).batchIds)
    (todo : task.todoIds ⊆ (p.task tx).todoIds)
    (enqueued : (p.task tx).Enqueued → task.Enqueued) : p'.Placed := by
  have points (other : TxId) (before : (p.task other).Enqueued) :
      (p'.task other).Enqueued := by
    by_cases here : other = tx
    · subst here; rw [tasks, update_self]; exact enqueued before
    · rw [tasks, update_of_ne here]; exact before
  refine placed.rebuild tx tasks enqueued ?_ ?_ ?_ ?_
  · intro follower inQueue
    rw [queue] at inQueue
    obtain ⟨point, unanswered, outside⟩ := placed.queued follower inQueue
    exact ⟨points follower point, by rw [channel]; exact unanswered.1,
      batch ▸ outside tx, fun inTodo => unanswered.2 tx (todo inTodo),
      placed.queued_elsewhere inQueue⟩
  · intro follower inBatch
    rw [batch] at inBatch
    obtain ⟨point, unanswered, -⟩ := placed.batched tx follower inBatch
    exact ⟨points follower point, by rw [channel]; exact unanswered.1,
      fun inTodo => unanswered.2 tx (todo inTodo), placed.batched_elsewhere inBatch⟩
  · intro leader _ follower inBatch
    obtain ⟨-, unanswered, -⟩ := placed.batched leader follower inBatch
    exact ⟨by rw [channel]; exact unanswered.1, fun inTodo => unanswered.2 tx (todo inTodo)⟩
  · intro follower inTodo
    exact points follower (placed.unwinding tx follower (todo inTodo))

theorem unwindRequests_todoIds (requests : List GroupCommitRequest) (firstSeq : Nat)
    (result : Option ContextraError) :
    (unwinding (unwindRequests requests ++ [⟨firstSeq, none⟩]) result).todoIds =
      requests.map (·.txId) := by
  simp [todoIds, unwindRequests, filterMap_map]

theorem afterUnwind_todoIds (todo : List Unwind) (result : Option ContextraError) :
    (afterUnwind todo result).todoIds = todo.filterMap (·.notify) := by
  cases todo with
  | nil => cases result <;> rfl
  | cons item todo => rfl

theorem afterUnwind_batchIds (todo : List Unwind) (result : Option ContextraError) :
    (afterUnwind todo result).batchIds = [] := by
  cases todo with
  | nil => cases result <;> rfl
  | cons item todo => rfl

theorem afterUnwind_enqueued (todo : List Unwind) (result : Option ContextraError) :
    (afterUnwind todo result).Enqueued := by
  cases todo with
  | nil => cases result <;> trivial
  | cons item todo => trivial

theorem Placed.abort (placed : p.Placed) (tx : TxId) {requests : List GroupCommitRequest}
    {result : Option ContextraError} {firstSeq : Nat}
    (queue : p'.queueIds ⊆ p.queueIds) (channel : p'.channel = p.channel)
    (tasks : p'.task = Function.update p.task tx
      (.unwinding (unwindRequests requests ++ [⟨firstSeq, none⟩]) result))
    (free : ∀ follower ∈ requests.map (·.txId), (p.task follower).Enqueued ∧
      follower ∉ p'.queueIds ∧ ∀ leader ≠ tx, follower ∉ (p.task leader).batchIds)
    (noTodo : (p.task tx).todoIds = []) : p'.Placed := by
  have points (other : TxId) (before : (p.task other).Enqueued) :
      (p'.task other).Enqueued := by
    by_cases here : other = tx
    · subst here; rw [tasks, update_self]; trivial
    · rw [tasks, update_of_ne here]; exact before
  refine placed.rebuild tx tasks (fun _ => trivial) ?_ ?_ ?_ ?_
  · intro follower inQueue
    obtain ⟨point, unanswered, outside⟩ := placed.queued follower (queue inQueue)
    refine ⟨points follower point, by rw [channel]; exact unanswered.1, by simp [batchIds], ?_,
      placed.queued_elsewhere (queue inQueue)⟩
    rw [unwindRequests_todoIds]
    exact fun inRequests => (free follower inRequests).2.1 inQueue
  · intro follower inBatch
    simp [batchIds] at inBatch
  · intro leader different follower inBatch
    obtain ⟨-, unanswered, -⟩ := placed.batched leader follower inBatch
    refine ⟨by rw [channel]; exact unanswered.1, ?_⟩
    rw [unwindRequests_todoIds]
    exact fun inRequests => (free follower inRequests).2.2 leader different inBatch
  · intro follower inTodo
    rw [unwindRequests_todoIds] at inTodo
    exact points follower (free follower inTodo).1

theorem Move.placed (move : Move p removed p') (placed : p.Placed) : p'.Placed := by
  cases move with
  | begun tx commit next idle =>
    exact placed.retask tx rfl rfl rfl (by simp [idle, batchIds])
      (by simp [todoIds]) (by simp [idle, Enqueued])
  | skipped tx next error idle =>
    exact placed.retask tx rfl rfl rfl (by simp [idle, batchIds])
      (by simp [todoIds]) (by simp [idle, Enqueued])
  | recorded tx done update rest here =>
    exact placed.retask tx rfl rfl rfl (by simp [here, batchIds])
      (by simp [todoIds]) (by simp [here, Enqueued])
  | quiet tx task mutex lock flag unseen =>
    exact placed.retask tx rfl rfl rfl unseen.batch
      (unseen.todo ▸ List.Subset.refl _) unseen.enqueued
  | locks lock => exact ⟨placed.queued, placed.batched, placed.unwinding⟩
  | join tx queue request here found own =>
    have outside : ¬ (p.task tx).Enqueued := by simp [here, Enqueued]
    have ids : p.queueIds = queue.requests.map (·.txId) := by simp [queueIds, found]
    refine placed.rebuild tx rfl (fun _ => trivial) ?_ ?_ ?_ ?_
    · intro follower inQueue
      simp only [queueIds, map_append, map_cons, map_nil, own,
        mem_append, mem_singleton] at inQueue
      rcases inQueue with before | rfl
      · have inQueue : follower ∈ p.queueIds := ids ▸ before
        have different : follower ≠ tx := by
          rintro rfl
          exact placed.not_queued outside inQueue
        obtain ⟨point, unanswered, -⟩ := placed.queued follower inQueue
        exact ⟨by simpa [different] using point, by simpa [different] using unanswered.1,
          by simp [batchIds], by simp [todoIds], placed.queued_elsewhere inQueue⟩
      · exact ⟨by simp [Enqueued], by simp, by simp [batchIds], by simp [todoIds],
          fun leader _ => ⟨placed.not_batched outside leader,
            placed.not_unwinding outside leader⟩⟩
    · simp [batchIds]
    · intro leader _ follower inBatch
      have different : follower ≠ tx := by
        rintro rfl
        exact placed.not_batched outside leader inBatch
      exact ⟨by simpa [different] using (placed.batched leader follower inBatch).2.1.1,
        by simp [todoIds]⟩
    · simp [todoIds]
  | lead tx flag here vacant =>
    exact placed.retask tx (by simp [queueIds, vacant]) rfl rfl
      (by simp [here, batchIds]) (by simp [todoIds]) (by simp [here, Enqueued])
  | leave tx leader queue error here found member =>
    have ids : p.queueIds = queue.requests.map (·.txId) := by simp [queueIds, found]
    refine placed.rebuild tx rfl (fun _ => trivial) ?_ ?_ ?_ ?_
    · intro follower inQueue
      simp only [queueIds, List.mem_map, mem_filter, bne_iff_ne, ne_eq] at inQueue
      obtain ⟨request, ⟨queued, different⟩, rfl⟩ := inQueue
      have inQueue : request.txId ∈ p.queueIds := ids ▸ List.mem_map_of_mem queued
      obtain ⟨point, unanswered, -⟩ := placed.queued request.txId inQueue
      exact ⟨by simpa [different] using point, by simpa [different] using unanswered.1,
        by simp [batchIds], by simp [todoIds], placed.queued_elsewhere inQueue⟩
    · simp [batchIds]
    · intro other _ follower inBatch
      have different : follower ≠ tx := by
        rintro rfl
        exact (placed.queued follower (ids ▸ member)).2.2 other inBatch
      exact ⟨by simpa [different] using (placed.batched other follower inBatch).2.1.1,
        by simp [todoIds]⟩
    · simp [todoIds]
  | take tx queue here found =>
    have ids : p.queueIds = queue.requests.map (·.txId) := by simp [queueIds, found]
    refine placed.rebuild tx rfl (by simp [here, Enqueued]) ?_ ?_ ?_ ?_
    · simp [queueIds]
    · intro follower inBatch
      have inQueue : follower ∈ p.queueIds := ids ▸ inBatch
      obtain ⟨point, unanswered, -⟩ := placed.queued follower inQueue
      have different : follower ≠ tx := by
        rintro rfl
        simp [here, Enqueued] at point
      exact ⟨by simpa [different] using point, unanswered.1, by simp [todoIds],
        placed.queued_elsewhere inQueue⟩
    · intro leader _ follower inBatch
      exact ⟨(placed.batched leader follower inBatch).2.1.1, by simp [todoIds]⟩
    · simp [todoIds]
  | abortBatch tx requests result here =>
    have batch : (p.task tx).batchIds = requests.map (·.txId) := by
      rcases here with here | here <;> simp [here, batchIds]
    refine placed.abort tx (List.Subset.refl _) rfl rfl ?_ ?_
    · intro follower inRequests
      rw [← batch] at inRequests
      obtain ⟨point, -, unique⟩ := placed.batched tx follower inRequests
      exact ⟨point, fun inQueue => (placed.queued follower inQueue).2.2 tx inRequests,
        fun leader different inOther => different (unique leader inOther)⟩
    · rcases here with here | here <;> simp [here, todoIds]
  | abortQueue tx mutex requests result here step found =>
    refine placed.abort tx (by simp [queueIds]) rfl rfl ?_ ?_
    · intro follower inRequests
      rw [found] at inRequests
      obtain ⟨point, -, outside⟩ := placed.queued follower inRequests
      exact ⟨point, by simp [queueIds], fun leader _ => outside leader⟩
    · rcases here with here | here <;> simp [here, todoIds]
  | answered tx requests reply task here outcome =>
    have batch : (p.task tx).batchIds = requests.map (·.txId) := by simp [here, batchIds]
    have final : task.batchIds = [] ∧ task.todoIds = [] ∧ task.Enqueued := by
      rcases outcome with ⟨-, rfl⟩ | ⟨-, rfl⟩ <;> simp [batchIds, todoIds, Enqueued]
    refine placed.rebuild tx rfl (fun _ => final.2.2) ?_ ?_ ?_ ?_
    · intro follower inQueue
      have inQueue : follower ∈ p.queueIds := inQueue
      obtain ⟨point, unanswered, outside⟩ := placed.queued follower inQueue
      have notHere : follower ∉ requests.map (·.txId) := batch ▸ outside tx
      refine ⟨?_, by simpa [notHere] using unanswered.1, by simp [final.1], by simp [final.2.1],
        placed.queued_elsewhere inQueue⟩
      by_cases own : follower = tx
      · subst own; simpa using final.2.2
      · simpa [own] using point
    · simp [final.1]
    · intro leader different follower inBatch
      obtain ⟨-, unanswered, unique⟩ := placed.batched leader follower inBatch
      have notHere : follower ∉ requests.map (·.txId) := fun inRequests =>
        different (unique tx (batch ▸ inRequests)).symm
      exact ⟨by simpa [notHere] using unanswered.1, by simp [final.2.1]⟩
    · simp [final.2.1]
  | forgot tx firstSeq todo result here =>
    refine placed.retask tx rfl rfl rfl ?_ ?_ ?_
    · rw [afterUnwind_batchIds, here]
      rfl
    · rw [afterUnwind_todoIds, here]
      simp [todoIds]
    · exact fun _ => afterUnwind_enqueued todo result
  | notified tx follower firstSeq todo result error here =>
    have pending : follower ∈ (p.task tx).todoIds := by simp [here, todoIds]
    have remaining : (afterUnwind todo result).todoIds ⊆ (p.task tx).todoIds := by
      rw [afterUnwind_todoIds, here]
      simp [todoIds]
    refine placed.rebuild tx rfl (fun _ => afterUnwind_enqueued todo result)
      ?_ ?_ ?_ ?_
    · intro other inQueue
      have inQueue : other ∈ p.queueIds := inQueue
      obtain ⟨point, unanswered, -⟩ := placed.queued other inQueue
      have different : other ≠ follower := by
        rintro rfl
        exact unanswered.2 tx pending
      refine ⟨?_, by simpa [different] using unanswered.1, by simp [afterUnwind_batchIds],
        fun inTodo => unanswered.2 tx (remaining inTodo), placed.queued_elsewhere inQueue⟩
      by_cases own : other = tx
      · subst own; simpa using afterUnwind_enqueued todo result
      · simpa [own] using point
    · simp [afterUnwind_batchIds]
    · intro leader _ other inBatch
      obtain ⟨-, unanswered, -⟩ := placed.batched leader other inBatch
      have different : other ≠ follower := by
        rintro rfl
        exact unanswered.2 tx pending
      exact ⟨by simpa [different] using unanswered.1,
        fun inTodo => unanswered.2 tx (remaining inTodo)⟩
    · intro other inTodo
      have point := placed.unwinding tx other (remaining inTodo)
      by_cases own : other = tx
      · subst own; simpa using afterUnwind_enqueued todo result
      · simpa [own] using point
  | pruned bound => exact ⟨placed.queued, placed.batched, placed.unwinding⟩

def Locked (p : Pipeline) : Prop :=
  ∀ tx, (p.task tx).HoldsMutex → p.commitMutex = some tx

theorem Locked.step (locked : p.Locked) (tx : TxId)
    (tasks : p'.task = Function.update p.task tx task)
    (step : p.MutexStep tx task p'.commitMutex) : p'.Locked := by
  intro other holds
  rw [tasks] at holds
  by_cases here : other = tx
  · subst here
    rw [update_self] at holds
    rcases step with ⟨kept, before⟩ | ⟨-, acquired⟩ | ⟨-, released, -⟩
    · rw [kept]; exact locked other (before holds)
    · exact acquired
    · exact absurd holds released
  · rw [update_of_ne here] at holds
    have owner := locked other holds
    rcases step with ⟨kept, -⟩ | ⟨free, -⟩ | ⟨before, -, -⟩
    · rw [kept]; exact owner
    · rw [free] at owner; cases owner
    · rw [locked tx before] at owner
      exact absurd (some.inj owner).symm here

theorem Move.locked (move : Move p removed p') (locked : p.Locked) : p'.Locked := by
  cases move with
  | begun tx commit next idle free => exact locked.step tx rfl (.inr (.inl ⟨free, rfl⟩))
  | skipped tx => exact locked.step tx rfl (.inl ⟨rfl, fun holds => holds.elim⟩)
  | recorded tx done update rest here =>
    exact locked.step tx rfl (.inl ⟨rfl, fun _ => by rw [here]; trivial⟩)
  | quiet tx task mutex lock flag unseen => exact locked.step tx rfl unseen.step
  | locks lock => exact locked
  | join tx queue request here =>
    exact locked.step tx rfl
      (.inr (.inr ⟨by rw [here]; trivial, fun holds => holds, rfl⟩))
  | lead tx flag here =>
    exact locked.step tx rfl
      (.inr (.inr ⟨by rw [here]; trivial, fun holds => holds, rfl⟩))
  | leave tx => exact locked.step tx rfl (.inl ⟨rfl, fun holds => holds.elim⟩)
  | take tx queue here =>
    exact locked.step tx rfl (.inl ⟨rfl, fun _ => by rw [here]; trivial⟩)
  | abortBatch tx requests result here =>
    refine locked.step tx rfl (.inr (.inr ⟨?_, fun holds => holds, rfl⟩))
    rcases here with here | here <;> (rw [here]; trivial)
  | abortQueue tx mutex requests result here step => exact locked.step tx rfl step
  | answered tx requests reply task here outcome =>
    refine locked.step tx rfl (.inr (.inr ⟨by rw [here]; trivial, ?_, rfl⟩))
    rcases outcome with ⟨-, rfl⟩ | ⟨-, rfl⟩ <;> exact fun holds => holds
  | forgot tx firstSeq todo result =>
    refine locked.step tx rfl (.inl ⟨rfl, fun holds => ?_⟩)
    cases todo <;> cases result <;> exact holds.elim
  | notified tx follower firstSeq todo result =>
    refine locked.step tx rfl (.inl ⟨rfl, fun holds => ?_⟩)
    cases todo <;> cases result <;> exact holds.elim
  | pruned bound => exact locked

variable {other : TxId}

theorem LiveAt.of_same (channel : p'.channel other = p.channel other)
    (todo : (∀ leader, other ∉ (p'.task leader).todoIds) →
      ∀ leader, other ∉ (p.task leader).todoIds)
    (live : p'.LiveAt other task) : p.LiveAt other task := by
  unfold LiveAt at live ⊢
  rw [channel] at live
  split at live
  any_goals exact live
  all_goals
    split at live
    · exact todo live
    · exact live
    · trivial
    · trivial

theorem LiveAt.of_unanswered (unanswered : p.Unanswered other) (live : p'.LiveAt other task) : p.LiveAt other task := by
  unfold LiveAt at live ⊢
  split at live
  any_goals exact live
  all_goals
    rw [unanswered.1]
    exact unanswered.2

theorem LiveAt.of_failed {error : ContextraError}
    (failed : p'.channel other = .sent (some error)) (live : p'.LiveAt other task) :
    p.LiveAt other task := by
  unfold LiveAt at live ⊢
  rw [failed] at live
  split at live
  any_goals exact live
  all_goals exact live.elim

theorem outside_of_retask (tasks : p'.task = Function.update p.task tx task)
    (todo : other ∈ (p.task tx).todoIds → other ∈ task.todoIds)
    (outside : ∀ leader, other ∉ (p'.task leader).todoIds) (leader : TxId) :
    other ∉ (p.task leader).todoIds := by
  have notNew := outside leader
  rw [tasks] at notNew
  by_cases here : leader = tx
  · subst here
    rw [update_self] at notNew
    exact fun inTodo => notNew (todo inTodo)
  · rwa [update_of_ne here] at notNew

theorem Live.of_other (live : p'.Live other) (tx : TxId)
    (different : other ≠ tx) (tasks : p'.task = Function.update p.task tx task)
    (channel : p'.channel other = p.channel other)
    (todo : other ∈ (p.task tx).todoIds → other ∈ task.todoIds) : p.Live other := by
  unfold Live at live
  rw [tasks, update_of_ne different] at live
  exact LiveAt.of_same channel (outside_of_retask tasks todo) live

theorem Live.of_retask (live : p'.Live other) (tx : TxId)
    (tasks : p'.task = Function.update p.task tx task) (channel : p'.channel = p.channel)
    (todo : (p.task tx).todoIds ⊆ task.todoIds)
    (own : p'.LiveAt tx task → p.Live tx) : p.Live other := by
  by_cases here : other = tx
  · subst here
    unfold Live at live
    rw [tasks, update_self] at live
    exact own live
  · exact live.of_other tx here tasks (congrFun channel other) (fun inTodo => todo inTodo)

theorem Move.live (move : Move p removed p') (placed : p.Placed)
    (started : p.task other ≠ .idle) (live : p'.Live other) : p.Live other := by
  cases move with
  | begun tx commit next idle =>
    have different : other ≠ tx := by rintro rfl; exact started idle
    exact live.of_other tx different rfl rfl (by simp [idle, todoIds])
  | skipped tx next error idle =>
    have different : other ≠ tx := by rintro rfl; exact started idle
    exact live.of_other tx different rfl rfl (by simp [idle, todoIds])
  | recorded tx done update rest here =>
    exact live.of_retask tx rfl rfl (by simp [here, todoIds])
      (fun _ => by simp [Live, LiveAt, here])
  | quiet tx task mutex lock flag unseen =>
    refine live.of_retask tx rfl rfl (unseen.todo ▸ List.Subset.refl _) (fun own => ?_)
    refine unseen.live (LiveAt.of_same ?_ ?_ own)
    · rfl
    · exact outside_of_retask rfl (fun inTodo => unseen.todo ▸ inTodo)
  | locks lock => exact live
  | join tx queue request here found own =>
    by_cases same : other = tx
    · subst same; simp [Live, LiveAt, here]
    · exact live.of_other tx same rfl (update_of_ne same _ _)
        (by simp [here, todoIds])
  | lead tx flag here =>
    exact live.of_retask tx rfl rfl (by simp [here, todoIds])
      (fun _ => by simp [Live, LiveAt, here])
  | leave tx leader queue error here =>
    by_cases same : other = tx
    · subst same
      simp [Live, LiveAt] at live
    · exact live.of_other tx same rfl (update_of_ne same _ _)
        (by simp [here, todoIds])
  | take tx queue here =>
    exact live.of_retask tx rfl rfl (by simp [here, todoIds])
      (fun _ => by simp [Live, LiveAt, here])
  | abortBatch tx requests result here =>
    refine live.of_retask tx rfl rfl ?_ (fun impossible => impossible.elim)
    rcases here with here | here <;> simp [here, todoIds]
  | abortQueue tx mutex requests result here =>
    refine live.of_retask tx rfl rfl ?_ (fun impossible => impossible.elim)
    rcases here with here | here <;> simp [here, todoIds]
  | answered tx requests reply task here outcome =>
    by_cases same : other = tx
    · subst same; simp [Live, LiveAt, here]
    · by_cases inBatch : other ∈ requests.map (·.txId)
      · have batch : other ∈ (p.task tx).batchIds := by simpa [here, batchIds] using inBatch
        unfold Live at live
        simp only [update_of_ne same] at live
        exact LiveAt.of_unanswered (placed.batched tx other batch).2.1 live
      · exact live.of_other tx same rfl (if_neg inBatch) (by simp [here, todoIds])
  | forgot tx firstSeq todo result here =>
    refine live.of_retask tx rfl rfl ?_ (fun own => ?_)
    · rw [afterUnwind_todoIds, here]
      simp [todoIds]
    · cases todo <;> cases result <;> exact own.elim
  | notified tx follower firstSeq todo result error here =>
    by_cases same : other = tx
    · subst same
      unfold Live at live
      simp only [update_self] at live
      cases todo <;> cases result <;> exact live.elim
    · by_cases told : other = follower
      · subst told
        unfold Live at live
        simp only [update_of_ne same] at live
        exact LiveAt.of_failed (update_self _ _ _) live
      · refine live.of_other tx same rfl (update_of_ne told _ _) ?_
        rw [afterUnwind_todoIds, here]
        simp [todoIds, told]
  | pruned bound => exact live

structure Registered (p : Pipeline) : Prop where
  sound : p.validator.Sound p.nextSeqNo
  positive : 0 < p.nextSeqNo ∧ ∀ tx, ∀ update ∈ (p.params tx).memUpdates, 0 < update.seq.raw
  untouched : ∀ tx, p.task tx = .idle → (p.params tx).memUpdates = []
  recording : ∀ tx done rest, p.task tx = .recording done rest →
    (p.params tx).memUpdates = done ++ rest ∧
      rest.Pairwise (fun left right => left.seq.raw < right.seq.raw) ∧
      ∀ update ∈ rest, p.validator.committedWrites.Before update.seq.raw ∧
        update.seq.raw < p.nextSeqNo
  registered : ∀ tx, p.Live tx → ∀ update ∈ p.writtenUpdates tx,
    p.validator.prunedThrough < update.seq.raw →
      p.validator.Recorded update.key update.seq.raw

/-- A rollback from `first` spares the records of every call that is still live. -/
def Spares (p : Pipeline) (first : Nat) : Prop :=
  ∀ tx, p.Live tx → ∀ update ∈ p.writtenUpdates tx,
    p.validator.prunedThrough < update.seq.raw →
      p.validator.RecordedBefore update.key update.seq.raw first

theorem initial_registered {nextSeqNo : Nat} (positive : 0 < nextSeqNo) (maxTrackedKeys : Nat) :
    (initial nextSeqNo maxTrackedKeys).Registered where
  sound := SsiValidator.newWithBounds_sound maxTrackedKeys nextSeqNo
  positive := ⟨positive, by simp [initial]⟩
  untouched := by simp [initial]
  recording := by simp [initial]
  registered := by simp [initial, Live, LiveAt]

theorem Live.started (live : p.Live other) : p.task other ≠ .idle := by
  intro idle
  simp [Live, LiveAt, idle] at live

theorem writtenUpdates_of_not_recording (settled : ¬ (p.task tx).Recording) :
    p.writtenUpdates tx = (p.params tx).memUpdates := by
  unfold writtenUpdates
  split
  · rename_i here
    rw [here] at settled
    exact absurd trivial settled
  · rfl

theorem writtenUpdates_of_same {update : MemUpdate}
    (written : update ∈ p'.writtenUpdates other) (task : p'.task other = p.task other)
    (params : p'.params other = p.params other) : update ∈ p.writtenUpdates other := by
  unfold writtenUpdates at written ⊢
  rwa [task, params] at written

/-- A move that allocates nothing and records nothing.  Whatever it does to the
validator must keep the register sound and the records of the live calls. -/
theorem Registered.retask (registered : p.Registered) (placed : p.Placed)
    (move : Move p removed p') (tx : TxId)
    (tasks : p'.task = Function.update p.task tx task) (params : p'.params = p.params)
    (nextSeqNo : p'.nextSeqNo = p.nextSeqNo)
    (sound : ∀ bound, p.validator.Sound bound → p'.validator.Sound bound)
    (kept : ∀ other, p.Live other → ∀ update ∈ p.writtenUpdates other,
      p'.validator.prunedThrough < update.seq.raw →
        p'.validator.Recorded update.key update.seq.raw)
    (started : p.task tx ≠ .idle)
    (finished : ∀ done rest, p.task tx = .recording done rest → rest = [])
    (settled : ¬ task.Recording) (notIdle : task ≠ .idle) : p'.Registered where
  sound := by rw [nextSeqNo]; exact sound _ registered.sound
  positive := by rw [nextSeqNo, params]; exact registered.positive
  untouched := by
    intro other idle
    rw [params]
    rw [tasks] at idle
    by_cases here : other = tx
    · subst here; rw [update_self] at idle; exact absurd idle notIdle
    · rw [update_of_ne here] at idle; exact registered.untouched other idle
  recording := by
    intro other done rest here
    rw [tasks] at here
    by_cases own : other = tx
    · subst own
      rw [update_self] at here
      exact absurd (by rw [here]; trivial) settled
    · rw [update_of_ne own] at here
      obtain ⟨complete, ordered, pending⟩ := registered.recording other done rest here
      rw [params, nextSeqNo]
      refine ⟨complete, ordered, fun update inRest => ⟨?_, (pending update inRest).2⟩⟩
      exact (sound _ ⟨(pending update inRest).1, registered.sound.tracked⟩).before
  registered := by
    intro other live update written unpruned
    by_cases own : other = tx
    · subst own
      refine kept other (move.live placed started live) update ?_ unpruned
      have now : p'.writtenUpdates other = (p'.params other).memUpdates := by
        refine writtenUpdates_of_not_recording ?_
        rw [tasks, update_self]
        exact settled
      rw [now, params] at written
      by_cases recording : (p.task other).Recording
      · cases point : p.task other <;> rw [point] at recording <;> try exact recording.elim
        rename_i done rest
        have complete := (registered.recording other done rest point).1
        rw [finished done rest point, append_nil] at complete
        simpa [writtenUpdates, point, ← complete] using written
      · rwa [writtenUpdates_of_not_recording recording]
    · have same : p'.task other = p.task other := by
        rw [tasks, update_of_ne own]
      refine kept other (move.live placed (same ▸ live.started) live) update ?_ unpruned
      exact writtenUpdates_of_same written same (congrFun params other)

theorem forgetFrom_sound {first bound : Nat} (sound : p.validator.Sound bound) :
    (p.forgetFrom first).validator.Sound bound := by
  unfold forgetFrom
  dsimp only
  split
  · exact SsiValidator.forgetFrom_sound sound first
  · exact sound

@[simp] theorem forgetFrom_prunedThrough (p : Pipeline) (first : Nat) :
    (p.forgetFrom first).validator.prunedThrough = p.validator.prunedThrough := by
  unfold forgetFrom
  dsimp only
  split <;> rfl

theorem Registered.forgetFrom (registered : p.Registered) {first : Nat}
    (spares : 0 < first → p.Spares first) (live : p.Live other)
    {update : MemUpdate} (written : update ∈ p.writtenUpdates other)
    (unpruned : p.validator.prunedThrough < update.seq.raw) :
    (p.forgetFrom first).validator.Recorded update.key update.seq.raw := by
  unfold Pipeline.forgetFrom
  dsimp only
  split
  · rename_i positive
    exact SsiValidator.forgetFrom_recorded
      (spares positive other live update written unpruned)
  · exact registered.registered other live update written unpruned

theorem Move.registered (move : Move p removed p') (placed : p.Placed) (locked : p.Locked)
    (registered : p.Registered)
    (spares : ∀ first, removed = .since first → 0 < first → p.Spares first) : p'.Registered := by
  have whole := move
  have same (bound : Nat) (sound : p.validator.Sound bound) : p.validator.Sound bound := sound
  cases move with
  | begun tx commit next idle free grows ordered bounded =>
    have nobody (other : TxId) : ¬ (p.task other).HoldsMutex := fun holds => by
      have owner := locked other holds
      rw [free] at owner
      cases owner
    have later (update : MemUpdate) (inCommit : update ∈ commit.memUpdates) :=
      bounded update inCommit
    constructor
    · exact registered.sound.mono grows
    · refine ⟨registered.positive.1.trans_le grows, fun other update inUpdates => ?_⟩
      by_cases own : other = tx
      · subst own
        simp only [update_self] at inUpdates
        exact registered.positive.1.trans_le (later update inUpdates).1
      · simp only [update_of_ne own] at inUpdates
        exact registered.positive.2 other update inUpdates
    · intro other isIdle
      by_cases own : other = tx
      · subst own; simp at isIdle
      · simp only [update_of_ne own] at isIdle ⊢
        exact registered.untouched other isIdle
    · intro other done rest here
      by_cases own : other = tx
      · subst own
        simp only [update_self, CommitTask.recording.injEq] at here ⊢
        obtain ⟨rfl, rfl⟩ := here
        refine ⟨rfl, ordered, fun update inRest => ⟨?_, (later update inRest).2⟩⟩
        exact (registered.sound.mono (later update inRest).1).before
      · simp only [update_of_ne own] at here
        exact absurd (by rw [here]; trivial) (nobody other)
    · intro other live update written unpruned
      by_cases own : other = tx
      · subst own
        simp [writtenUpdates] at written
      · have started : p.task other ≠ .idle := by
          have := live.started
          simpa [own] using this
        refine registered.registered other (whole.live placed started live) update ?_ unpruned
        exact writtenUpdates_of_same written (update_of_ne own _ _)
          (update_of_ne own _ _)
  | skipped tx next error idle grows =>
    constructor
    · exact registered.sound.mono grows
    · exact ⟨registered.positive.1.trans_le grows, registered.positive.2⟩
    · intro other isIdle
      by_cases own : other = tx
      · subst own; simp at isIdle
      · simp only [update_of_ne own] at isIdle
        exact registered.untouched other isIdle
    · intro other done rest here
      by_cases own : other = tx
      · subst own; simp at here
      · simp only [update_of_ne own] at here
        obtain ⟨complete, ordered, pending⟩ := registered.recording other done rest here
        exact ⟨complete, ordered, fun update inRest =>
          ⟨(pending update inRest).1, (pending update inRest).2.trans_le grows⟩⟩
    · intro other live update written unpruned
      by_cases own : other = tx
      · subst own
        rw [writtenUpdates_of_not_recording (by simp [Recording])] at written
        rw [registered.untouched other idle] at written
        cases written
      · have started : p.task other ≠ .idle := by
          have := live.started
          simpa [own] using this
        refine registered.registered other (whole.live placed started live) update ?_ unpruned
        exact writtenUpdates_of_same written (update_of_ne own _ _) rfl
  | recorded tx done update rest here =>
    obtain ⟨complete, ordered, pending⟩ := registered.recording tx done _ here
    obtain ⟨before, within⟩ := pending update mem_cons_self
    obtain ⟨newer, restOrdered⟩ := pairwise_cons.mp ordered
    have recorder : p.commitMutex = some tx := locked tx (by rw [here]; trivial)
    constructor
    · exact SsiValidator.recordCommitKey_sound before registered.sound.tracked within
    · exact registered.positive
    · intro other isIdle
      by_cases own : other = tx
      · subst own; simp at isIdle
      · simp only [update_of_ne own] at isIdle
        exact registered.untouched other isIdle
    · intro other otherDone otherRest there
      by_cases own : other = tx
      · subst own
        simp only [update_self, CommitTask.recording.injEq] at there
        obtain ⟨rfl, rfl⟩ := there
        refine ⟨by simpa using complete, restOrdered, fun later inRest => ⟨?_, ?_⟩⟩
        · exact (SsiValidator.recordCommitKey_sound before registered.sound.tracked
            (newer later inRest)).before
        · exact (pending later (.tail _ inRest)).2
      · simp only [update_of_ne own] at there
        have owner := locked other (by rw [there]; trivial)
        rw [recorder] at owner
        exact absurd (some.inj owner).symm own
    · intro other live written inWritten unpruned
      by_cases own : other = tx
      · subst own
        simp only [writtenUpdates, update_self, mem_append,
          mem_singleton] at inWritten
        rcases inWritten with earlier | rfl
        · refine SsiValidator.recordCommitKey_recorded before ?_
          refine registered.registered other (by simp [Live, LiveAt, here]) written ?_ unpruned
          simpa [writtenUpdates, here] using earlier
        · exact SsiValidator.recordCommitKey_recorded_self before
      · have started : p.task other ≠ .idle := by
          have := live.started
          simpa [own] using this
        refine SsiValidator.recordCommitKey_recorded before ?_
        refine registered.registered other (whole.live placed started live) written ?_ unpruned
        exact writtenUpdates_of_same inWritten (update_of_ne own _ _) rfl
  | quiet tx task mutex lock flag unseen =>
    exact registered.retask placed whole tx rfl rfl rfl same registered.registered
      unseen.started unseen.finished unseen.settled unseen.notIdle
  | locks lock =>
    exact ⟨registered.sound, registered.positive, registered.untouched, registered.recording,
      registered.registered⟩
  | join tx queue request here =>
    exact registered.retask placed whole tx rfl rfl rfl same registered.registered
      (by simp [here]) (by simp [here]) (by simp [Recording]) (by simp)
  | lead tx flag here =>
    exact registered.retask placed whole tx rfl rfl rfl same registered.registered
      (by simp [here]) (by simp [here]) (by simp [Recording]) (by simp)
  | leave tx leader queue error here =>
    exact registered.retask placed whole tx rfl rfl rfl same registered.registered
      (by simp [here]) (by simp [here]) (by simp [Recording]) (by simp)
  | take tx queue here =>
    exact registered.retask placed whole tx rfl rfl rfl same registered.registered
      (by simp [here]) (by simp [here]) (by simp [Recording]) (by simp)
  | abortBatch tx requests result here =>
    refine registered.retask placed whole tx rfl rfl rfl same registered.registered
      ?_ ?_ (by simp [Recording]) (by simp)
    all_goals rcases here with here | here <;> simp [here]
  | abortQueue tx mutex requests result here =>
    refine registered.retask placed whole tx rfl rfl rfl same registered.registered
      ?_ ?_ (by simp [Recording]) (by simp)
    all_goals rcases here with here | here <;> simp [here]
  | answered tx requests reply task here outcome =>
    refine registered.retask placed whole tx rfl rfl rfl same registered.registered
      (by simp [here]) (by simp [here]) ?_ ?_
    all_goals rcases outcome with ⟨-, rfl⟩ | ⟨-, rfl⟩ <;> simp [Recording]
  | forgot tx firstSeq todo result here =>
    refine registered.retask placed whole tx rfl rfl rfl (fun _ => forgetFrom_sound) ?_
      (by simp [here]) (by simp [here]) ?_ ?_
    · intro other live update written unpruned
      exact registered.forgetFrom (spares firstSeq rfl) live written (by simpa using unpruned)
    all_goals cases todo <;> cases result <;> simp [afterUnwind, Recording]
  | notified tx follower firstSeq todo result error here =>
    refine registered.retask placed whole tx rfl rfl rfl (fun _ => forgetFrom_sound) ?_
      (by simp [here]) (by simp [here]) ?_ ?_
    · intro other live update written unpruned
      exact registered.forgetFrom (spares firstSeq rfl) live written (by simpa using unpruned)
    all_goals cases todo <;> cases result <;> simp [afterUnwind, Recording]
  | pruned bound =>
    constructor
    · exact SsiValidator.pruneThrough_sound registered.sound bound
    · exact registered.positive
    · exact registered.untouched
    · intro tx done rest here
      obtain ⟨complete, ordered, pending⟩ := registered.recording tx done rest here
      refine ⟨complete, ordered, fun update inRest => ⟨?_, (pending update inRest).2⟩⟩
      exact (SsiValidator.pruneThrough_sound
        ⟨(pending update inRest).1, registered.sound.tracked⟩ bound).before
    · intro tx live update written unpruned
      have before := (SsiValidator.prunedThrough_le_pruneThrough p.validator bound).trans_lt
        unpruned
      exact SsiValidator.pruneThrough_recorded unpruned
        (registered.registered tx live update written before)

structure Invariant (p : Pipeline) : Prop where
  placed : p.Placed
  locked : p.Locked
  registered : p.Registered

theorem initial_invariant {nextSeqNo : Nat} (positive : 0 < nextSeqNo) (maxTrackedKeys : Nat) :
    (initial nextSeqNo maxTrackedKeys).Invariant where
  placed := initial_placed nextSeqNo maxTrackedKeys
  locked := fun _ holds => holds.elim
  registered := initial_registered positive maxTrackedKeys

/-- Every rollback step of the run spares the records of the calls still live. -/
def SparingStep (p : Pipeline) (event : Event) : Prop :=
  ∀ first, p.removal event = .since first → 0 < first → p.Spares first

theorem step_invariant {mode : DurabilityMode} {event : Event} (holds : p.Invariant)
    (sparing : p.SparingStep event) (taken : step mode p event = some p') : p'.Invariant where
  placed := (step_move taken).placed holds.placed
  locked := (step_move taken).locked holds.locked
  registered := (step_move taken).registered holds.placed holds.locked holds.registered sparing

theorem Move.prunedThrough_lt (move : Move p removed p') {seq : Nat}
    (unpruned : p.validator.prunedThrough < seq)
    (lower : ∀ bound, removed = .through bound → bound < seq) :
    p'.validator.prunedThrough < seq := by
  cases move with
  | pruned bound => exact SsiValidator.pruneThrough_prunedThrough_lt unpruned (lower bound rfl)
  | forgot => simpa using unpruned
  | notified => simpa using unpruned
  | _ => exact unpruned

theorem run_prunedThrough_lt {mode : DurabilityMode} {seq : Nat} {events : List Event}
    (finished : run (step mode) p events = some p') (unpruned : p.validator.prunedThrough < seq)
    (lower : ∀ bound, Event.prune bound ∈ events → bound < seq) :
    p'.validator.prunedThrough < seq := by
  induction events generalizing p with
  | nil =>
    simp only [run_nil, Option.some.injEq] at finished
    exact finished ▸ unpruned
  | cons event events ih =>
    obtain ⟨next, taken, rest⟩ := run_cons_eq_some.mp finished
    refine ih rest ((step_move taken).prunedThrough_lt unpruned ?_)
      (fun bound later => lower bound (.tail _ later))
    intro bound prunes
    cases event with
    | prune limit =>
      simp only [removal, Removal.through.injEq] at prunes
      exact lower bound (by simp [prunes])
    | forget tx =>
      simp only [removal] at prunes
      split at prunes <;> simp at prunes
    | _ => simp [removal] at prunes

/-- The law of group commit in one run: a validation of a key that a successful
commit wrote after the reader's snapshot is refused, unless the write was pruned. -/
def KeepsConflicts (mode : DurabilityMode) (start : Pipeline) (events : List Event) : Prop :=
  ∀ final, run (step mode) start events = some final →
    ∀ tx, final.task tx = .returned none → ∀ update ∈ (final.params tx).memUpdates,
      (∀ bound, Event.prune bound ∈ events → bound < update.seq.raw) →
        ∀ (reader : TxId) (reads : ReadSet) (snapshot : Nat),
          reads.keys[update.key]? = some snapshot → snapshot < update.seq.raw →
            ∃ reason, final.validator.validate reader reads = .error (.conflict reader reason)

/-- Group commit keeps every conflict in the runs whose rollbacks spare the records
of the other calls. -/
theorem keepsConflicts_of_sparing (mode : DurabilityMode) {nextSeqNo : Nat}
    (positive : 0 < nextSeqNo) (maxTrackedKeys : Nat) (events : List Event)
    (sparing : Along (step mode) SparingStep (initial nextSeqNo maxTrackedKeys) events) :
    KeepsConflicts mode (initial nextSeqNo maxTrackedKeys) events := by
  intro final finished tx ok update written lower reader reads snapshot contains older
  have invariant : final.Invariant := run_invariant (fun _ _ _ => step_invariant)
    (initial_invariant positive maxTrackedKeys) sparing finished
  have unpruned : final.validator.prunedThrough < update.seq.raw :=
    run_prunedThrough_lt finished (invariant.registered.positive.2 tx update written) lower
  have live : final.Live tx := by simp [Live, LiveAt, ok]
  have recorded : update ∈ final.writtenUpdates tx := by simpa [writtenUpdates, ok] using written
  exact SsiValidator.validate_conflict invariant.registered.sound
    (invariant.registered.registered tx live update recorded unpruned) contains older reader

theorem sparing_of_no_forget (mode : DurabilityMode) (start : Pipeline) (events : List Event)
    (quiet : ∀ tx, Event.forget tx ∉ events) : Along (step mode) SparingStep start events := by
  induction events generalizing start with
  | nil => trivial
  | cons event events ih =>
    refine ⟨?_, fun next _ => ih next fun tx later => quiet tx (.tail _ later)⟩
    intro first removes
    cases event with
    | forget tx => exact absurd mem_cons_self (quiet tx)
    | _ => simp [removal] at removes

/-- A leader and one follower that commit together. -/
def groupOfTwo : List Event :=
  [.begin 1 [.insert [97] [1]] ⟨∅, ∅⟩, .record 1, .record 1, .lockQueue 1, .enqueue 1,
    .begin 2 [.insert [98] [1]] ⟨∅, ∅⟩, .record 2, .record 2, .lockQueue 2, .enqueue 2,
    .wake 1, .lockQueue 1, .takeQueue 1, .appendOk 1, .disarm 1, .publish 1, .receive 2]

theorem groupOfTwo_keepsConflicts :
    (run (step .full) (initial 1 SsiValidator.defaultMaxTrackedKeys) groupOfTwo).isSome ∧
      KeepsConflicts .full (initial 1 SsiValidator.defaultMaxTrackedKeys) groupOfTwo :=
  ⟨by decide, keepsConflicts_of_sparing .full (by decide) _ groupOfTwo
    (sparing_of_no_forget .full _ groupOfTwo (by simp [groupOfTwo]))⟩

/-- Two followers queue behind a leader; the first one times out and forgets from
its own sequence 3, which takes the record of the second one at 5 with it. -/
def timeoutBetween : List Event :=
  [.begin 1 [.insert [97] [1]] ⟨∅, ∅⟩, .record 1, .record 1, .lockQueue 1, .enqueue 1,
    .begin 2 [.insert [98] [1]] ⟨∅, ∅⟩, .record 2, .record 2, .lockQueue 2, .enqueue 2,
    .begin 3 [.insert [99] [1]] ⟨∅, ∅⟩, .record 3, .record 3, .lockQueue 3, .enqueue 3,
    .timeout 2, .lockQueue 2, .resolveTimeout 2, .forget 2,
    .wake 1, .lockQueue 1, .takeQueue 1, .appendOk 1, .disarm 1, .publish 1, .receive 3]

/-- Group commit does lose a conflict: transaction 3 returned `Ok`, nothing was
pruned, and a reader of its key at an older snapshot passes validation. -/
theorem timeoutBetween_loses_conflict :
    ¬ ∀ (mode : DurabilityMode) (nextSeqNo maxTrackedKeys : Nat), 0 < nextSeqNo →
      ∀ events, KeepsConflicts mode (initial nextSeqNo maxTrackedKeys) events := by
  intro law
  let start := initial 1 SsiValidator.defaultMaxTrackedKeys
  let reads : ReadSet := ⟨(∅ : Std.TreeMap Bytes Nat).insert [99] 4, ∅⟩
  have finishes : (run (step .full) start timeoutBetween).isSome := by decide
  obtain ⟨final, finished⟩ := isSome_iff_exists.mp finishes
  have ok : (run (step .full) start timeoutBetween).map (fun final => final.task 3) =
      some (.returned none) := by decide
  have written : (run (step .full) start timeoutBetween).map
      (fun final => (final.params 3).memUpdates) = some [⟨[99], [1], ⟨5, false⟩⟩] := by decide
  have passes : (run (step .full) start timeoutBetween).map
      (fun final => final.validator.conflictReason reads) = some none := by decide
  simp only [finished, map_some, Option.some.injEq] at ok written passes
  obtain ⟨reason, refused⟩ := law .full 1 SsiValidator.defaultMaxTrackedKeys (by decide)
    timeoutBetween final finished 3 ok ⟨[99], [1], ⟨5, false⟩⟩ (by simp [written])
    (by simp [timeoutBetween]) 9 reads 4 (by decide) (by decide)
  simp [SsiValidator.validate, passes] at refused

end Pipeline

end Contextra.Store
