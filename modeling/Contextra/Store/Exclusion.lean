import Contextra.Store.PutIfAbsent

/-!
# What put_if_absent excludes

The intent lock carries the exclusion: from its lock check until its commit is over a successful
call has the lock, and the committed read under it has seen every earlier winner deleted.  What can
go wrong is a release of the lock that some other call of the transaction still needs.
-/

namespace Contextra.Store

open Library List Option

theorem StagedOp.target_of_wonKey {entry : StagedOp} {key : Bytes}
    (won : entry.wonKey = some key) : entry.op.target = some (key, true) := by
  unfold StagedOp.wonKey at won
  split at won
  · rename_i inserted _ _ isInsert
    rw [isInsert]
    exact congrArg some (Prod.ext (some.inj won) rfl)
  · cases won

def CommitCall.numbers (commit : CommitCall) : List Nat :=
  if commit.phase = .prepared then commit.ops.map Prod.fst else []

namespace Intents

/-- A marked insertion waits in the buffer, or a call has read that the key is absent. -/
def Waiting (state : Intents) (tx : TxId) (key : Bytes) : Prop :=
  (∃ entry ∈ state.buffer, entry.1 = tx ∧ entry.2.wonKey = some key) ∨
    ∃ call ∈ state.calls, call.tx = tx ∧ call.key = key ∧ call.phase = .absent

/-- A call is between its lock check and its committed read. -/
def Reading (state : Intents) (tx : TxId) (key : Bytes) : Prop :=
  ∃ call ∈ state.calls, call.tx = tx ∧ call.key = key ∧ call.phase = .locked

/-- A commit that is neither applied nor failed has drained the marked insertion. -/
def Prepared (state : Intents) (tx : TxId) (key : Bytes) (seq : Nat) : Prop :=
  ∃ commit ∈ state.commits, commit.phase = .prepared ∧ commit.tx = tx ∧
    ∃ op ∈ commit.ops, op.1 = seq ∧ op.2.wonKey = some key

def Engaged (state : Intents) (tx : TxId) (key : Bytes) : Prop :=
  state.Waiting tx key ∨ state.Reading tx key ∨ ∃ seq, state.Prepared tx key seq

instance (state : Intents) (tx : TxId) (key : Bytes) : Decidable (state.Engaged tx key) :=
  decidable_of_iff (((∃ entry ∈ state.buffer, entry.1 = tx ∧ entry.2.wonKey = some key) ∨
      ∃ call ∈ state.calls, call.tx = tx ∧ call.key = key ∧ call.phase = .absent) ∨
    (∃ call ∈ state.calls, call.tx = tx ∧ call.key = key ∧ call.phase = .locked) ∨
    ∃ commit ∈ state.commits, commit.phase = .prepared ∧ commit.tx = tx ∧
      ∃ op ∈ commit.ops, op.2.wonKey = some key) <| by
    simp only [Engaged, Waiting, Reading, Prepared]
    constructor
    · rintro (waiting | reading | ⟨commit, inCommits, phase, own, op, inOps, won⟩)
      · exact .inl waiting
      · exact .inr (.inl reading)
      · exact .inr (.inr ⟨op.1, commit, inCommits, phase, own, op, inOps, rfl, won⟩)
    · rintro (waiting | reading | ⟨_, commit, inCommits, phase, own, op, inOps, -, won⟩)
      · exact .inl waiting
      · exact .inr (.inl reading)
      · exact .inr (.inr ⟨commit, inCommits, phase, own, op, inOps, won⟩)

def Unengaged (state : Intents) (tx : TxId) : Prop :=
  (∀ entry ∈ state.buffer, entry.1 = tx → entry.2.wonKey = none) ∧
    (∀ call ∈ state.calls, call.tx = tx → call.phase ≠ .absent ∧ call.phase ≠ .locked) ∧
    ∀ commit ∈ state.commits, commit.phase = .prepared → commit.tx = tx →
      ∀ op ∈ commit.ops, op.2.wonKey = none

instance (state : Intents) (tx : TxId) : Decidable (state.Unengaged tx) :=
  inferInstanceAs (Decidable (_ ∧ _ ∧ _))

theorem Unengaged.not_engaged {state : Intents} {tx : TxId} (unengaged : state.Unengaged tx)
    (key : Bytes) : ¬ state.Engaged tx key := by
  obtain ⟨noBuffer, noCall, noCommit⟩ := unengaged
  rintro ((⟨entry, inBuffer, own, won⟩ | ⟨call, inCalls, own, -, phase⟩) |
    ⟨call, inCalls, own, -, phase⟩ | ⟨_, commit, inCommits, phase, own, op, inOps, -, won⟩)
  · rw [noBuffer entry inBuffer own] at won
    cases won
  · exact (noCall call inCalls own).1 phase
  · exact (noCall call inCalls own).2 phase
  · rw [noCommit commit inCommits phase own op inOps] at won
    cases won

/-- A step that releases an intent lock finds it needed no more: no insertion of a successful call
is uncommitted, and no other call is between its lock check and its staging. -/
def Spares (state : Intents) : Event → Prop
  | .cleanup index => ∀ call ∈ state.calls[index]?,
      state.intentLocks call.key = some call.tx → ¬ state.Engaged call.tx call.key
  | .releaseLocks index => ∀ commit ∈ state.commits[index]?, state.Unengaged commit.tx
  | .releaseRolledBack index => ∀ tx ∈ state.rollbacks[index]?, state.Unengaged tx
  | _ => True

instance (state : Intents) : ∀ event, Decidable (state.Spares event)
  | .cleanup index => inferInstanceAs (Decidable (∀ call ∈ state.calls[index]?,
      state.intentLocks call.key = some call.tx → ¬ state.Engaged call.tx call.key))
  | .releaseLocks index =>
    inferInstanceAs (Decidable (∀ commit ∈ state.commits[index]?, state.Unengaged commit.tx))
  | .releaseRolledBack index =>
    inferInstanceAs (Decidable (∀ tx ∈ state.rollbacks[index]?, state.Unengaged tx))
  | .enter .. | .checkStaged _ | .checkLock _ | .readCommitted .. | .stage .. | .stageOther ..
  | .stageMany .. | .drain _ | .append .. | .leave _ | .discard _ =>
    inferInstanceAs (Decidable True)

/-- A committed delete of the key lies strictly between the two numbers. -/
def DeletedBetween (applied : List AppliedOp) (key : Bytes) (low high : Nat) : Prop :=
  ∃ entry ∈ applied, entry.staged.op.target = some (key, false) ∧ low < entry.seq ∧
    entry.seq < high

/-- Every committed winner of another transaction was deleted again before `bound`. -/
def Gone (applied : List AppliedOp) (tx : TxId) (key : Bytes) (bound : Nat) : Prop :=
  ∀ entry ∈ applied, entry.staged.wonKey = some key → entry.tx ≠ tx →
    DeletedBetween applied key entry.seq bound

/-- Of two committed winners of a key, a committed delete lies between them. -/
def Settled (state : Intents) : Prop :=
  ∀ first ∈ state.applied, ∀ second ∈ state.applied, ∀ key,
    first.staged.wonKey = some key → second.staged.wonKey = some key → first.tx ≠ second.tx →
    first.seq < second.seq → DeletedBetween state.applied key first.seq second.seq

def numbers (state : Intents) : List Nat :=
  state.applied.map AppliedOp.seq ++ state.commits.flatMap CommitCall.numbers

structure Exclusive (state : Intents) : Prop where
  locked : ∀ tx key, state.Engaged tx key → state.intentLocks key = some tx
  waiting : ∀ tx key, state.Waiting tx key → Gone state.applied tx key state.nextSeqNo
  prepared : ∀ tx key seq, state.Prepared tx key seq → Gone state.applied tx key seq
  settled : state.Settled
  distinct : state.numbers.Nodup
  bounded : ∀ number ∈ state.numbers, number < state.nextSeqNo

theorem initial_exclusive : initial.Exclusive where
  locked := by rintro tx key ((⟨_, inBuffer, -⟩ | ⟨_, inCalls, -⟩) | ⟨_, inCalls, -⟩ |
      ⟨_, _, inCommits, -⟩)
    <;> simp [initial] at *
  waiting := by rintro tx key (⟨_, inBuffer, -⟩ | ⟨_, inCalls, -⟩) <;> simp [initial] at *
  prepared := by rintro tx key seq ⟨_, inCommits, -⟩; simp [initial] at inCommits
  settled := by intro first inApplied; simp [initial] at inApplied
  distinct := by simp [numbers, initial]
  bounded := by simp [numbers, initial]

variable {key : Bytes}

theorem DeletedBetween.mono {applied larger : List AppliedOp} {low high higher : Nat}
    (deleted : DeletedBetween applied key low high) (subset : applied ⊆ larger)
    (le : high ≤ higher) : DeletedBetween larger key low higher := by
  obtain ⟨entry, inApplied, isDelete, above, below⟩ := deleted
  exact ⟨entry, subset inApplied, isDelete, above, below.trans_le le⟩

theorem Exclusive.unique {state : Intents} (exclusive : state.Exclusive) {tx other : TxId}
    (engaged : state.Engaged tx key) (rival : state.Engaged other key) : tx = other :=
  some.inj ((exclusive.locked tx key engaged).symm.trans (exclusive.locked other key rival))

/-- A step that leaves the committed operations and the commits alone keeps the
invariant when the engaged still have their locks and nobody new waits. -/
theorem Exclusive.frame {state next : Intents} (exclusive : state.Exclusive)
    (applied : next.applied = state.applied) (commits : next.commits = state.commits)
    (nextSeqNo : next.nextSeqNo = state.nextSeqNo)
    (locked : ∀ tx key, next.Engaged tx key → next.intentLocks key = some tx)
    (waiting : ∀ tx key, next.Waiting tx key → Gone state.applied tx key state.nextSeqNo) :
    next.Exclusive where
  locked := locked
  waiting := fun tx key waits => by
    rw [applied, nextSeqNo]
    exact waiting tx key waits
  prepared := fun tx key seq prepared => by
    rw [Prepared, commits] at prepared
    rw [applied]
    exact exclusive.prepared tx key seq prepared
  settled := by
    rw [Settled, applied]
    exact exclusive.settled
  distinct := by
    rw [numbers, applied, commits]
    exact exclusive.distinct
  bounded := by
    rw [numbers, applied, commits, nextSeqNo]
    exact exclusive.bounded

theorem Exclusive.frame_locks {state next : Intents} (exclusive : state.Exclusive)
    (applied : next.applied = state.applied) (commits : next.commits = state.commits)
    (nextSeqNo : next.nextSeqNo = state.nextSeqNo) (locks : next.intentLocks = state.intentLocks)
    (waiting : ∀ tx key, next.Waiting tx key → state.Waiting tx key)
    (reading : ∀ tx key, next.Reading tx key → state.Reading tx key) : next.Exclusive := by
  refine exclusive.frame applied commits nextSeqNo (fun tx key engaged => ?_)
    fun tx key waits => exclusive.waiting tx key (waiting tx key waits)
  rw [locks]
  apply exclusive.locked
  rcases engaged with waits | reads | ⟨seq, isPrepared⟩
  · exact .inl (waiting tx key waits)
  · exact .inr (.inl (reading tx key reads))
  · rw [Prepared, commits] at isPrepared
    exact .inr (.inr ⟨seq, isPrepared⟩)

theorem Exclusive.withdraw {state next : Intents} (exclusive : state.Exclusive)
    (applied : next.applied = state.applied) (commits : next.commits = state.commits)
    (nextSeqNo : next.nextSeqNo = state.nextSeqNo) (locks : next.intentLocks = state.intentLocks)
    (buffer : ∀ entry ∈ next.buffer, entry.2.wonKey ≠ none → entry ∈ state.buffer)
    (calls : ∀ call ∈ next.calls, call ∈ state.calls ∨
      (call.phase ≠ .absent ∧ call.phase ≠ .locked)) : next.Exclusive := by
  refine exclusive.frame_locks applied commits nextSeqNo locks ?_ ?_
  · rintro tx key (⟨entry, inBuffer, own, won⟩ | ⟨call, inCalls, own, same, phase⟩)
    · exact .inl ⟨entry, buffer entry inBuffer (by simp [won]), own, won⟩
    · rcases calls call inCalls with old | withdrawn
      · exact .inr ⟨call, old, own, same, phase⟩
      · exact absurd phase withdrawn.1
  · rintro tx key ⟨call, inCalls, own, same, phase⟩
    rcases calls call inCalls with old | withdrawn
    · exact ⟨call, old, own, same, phase⟩
    · exact absurd phase withdrawn.2

variable {index : Nat}

theorem mem_moveCall {state : Intents} {call moved : AbsentCall} {phase : CallPhase}
    (mem : moved ∈ (state.moveCall index call phase).calls) :
    moved ∈ state.calls ∨ moved = { call with phase } :=
  (mem_or_eq_of_mem_set mem)

theorem moveCall_exclusive {state : Intents} (exclusive : state.Exclusive) (index : Nat)
    (call : AbsentCall) {phase : CallPhase} (idle : phase ≠ .absent ∧ phase ≠ .locked) :
    (state.moveCall index call phase).Exclusive := by
  refine exclusive.withdraw rfl rfl rfl rfl (fun _ inBuffer _ => inBuffer) fun moved inCalls => ?_
  rcases mem_moveCall inCalls with old | rfl
  · exact .inl old
  · exact .inr idle

theorem endCall_exclusive {state : Intents} (exclusive : state.Exclusive) (index : Nat) :
    (state.endCall index).Exclusive :=
  exclusive.withdraw rfl rfl rfl rfl (fun _ inBuffer _ => inBuffer)
    fun _ inCalls => .inl (mem_of_mem_eraseIdx inCalls)

theorem checkLock_exclusive {state : Intents} (exclusive : state.Exclusive) (index : Nat)
    (call : AbsentCall) {locks : Bytes → Option TxId} (taken : locks call.key = some call.tx)
    (kept : ∀ key tx, state.intentLocks key = some tx → locks key = some tx) :
    Exclusive { state.moveCall index call .locked with intentLocks := locks } := by
  refine exclusive.frame rfl rfl rfl ?_ ?_
  · rintro tx key ((waits | ⟨moved, inCalls, rfl, rfl, phase⟩) |
      ⟨moved, inCalls, rfl, rfl, phase⟩ | isPrepared)
    · exact kept key tx (exclusive.locked tx key (.inl (.inl waits)))
    · rcases mem_moveCall inCalls with old | rfl
      · exact kept _ _ (exclusive.locked _ _ (.inl (.inr ⟨moved, old, rfl, rfl, phase⟩)))
      · cases phase
    · rcases mem_moveCall inCalls with old | rfl
      · exact kept _ _ (exclusive.locked _ _ (.inr (.inl ⟨moved, old, rfl, rfl, phase⟩)))
      · exact taken
    · exact kept key tx (exclusive.locked tx key (.inr (.inr isPrepared)))
  · rintro tx key (waits | ⟨moved, inCalls, rfl, rfl, phase⟩)
    · exact exclusive.waiting tx key (.inl waits)
    · rcases mem_moveCall inCalls with old | rfl
      · exact exclusive.waiting _ _ (.inr ⟨moved, old, rfl, rfl, phase⟩)
      · cases phase

theorem gone_of_absent {state : Intents} (exclusive : state.Exclusive)
    (absent : isPresent state.applied key = false) (tx : TxId) :
    Gone state.applied tx key state.nextSeqNo := by
  intro entry inApplied won _
  have inserted := StagedOp.target_of_wonKey won
  have seqs : (state.applied.map AppliedOp.seq).Nodup := (nodup_append.mp exclusive.distinct).1
  cases found : committedWrite state.applied key with
  | none =>
    have nothing := filter_eq_nil_iff.mp (argmax_eq_none.mp found) entry inApplied
    simp [inserted] at nothing
  | some newest =>
    obtain ⟨mem, largest, -⟩ := argmax_eq_some_iff.mp found
    simp only [mem_filter, decide_eq_true_eq] at mem largest
    have atLeast : entry.seq ≤ newest.seq := largest entry ⟨inApplied, by simp [inserted]⟩
    have isDelete : newest.staged.op.target = some (key, false) := by
      cases target : newest.staged.op.target with
      | none => simp [target] at mem
      | some pair =>
        obtain ⟨other, isInsert⟩ := pair
        have same : other = key := by simpa [target] using mem.2
        subst same
        cases isInsert with
        | true => simp [isPresent, found, target] at absent
        | false => rfl
    refine ⟨newest, mem.1, isDelete, lt_of_le_of_ne atLeast fun same => ?_, ?_⟩
    · have one := inj_on_of_nodup_map seqs inApplied mem.1 same
      rw [one, isDelete] at inserted
      cases inserted
    · exact exclusive.bounded _ (mem_append_left _ (List.mem_map_of_mem mem.1))

theorem readAbsent_exclusive {state : Intents} (exclusive : state.Exclusive)
    {call : AbsentCall} (running : state.calls[index]? = some call) (phase : call.phase = .locked)
    (absent : isPresent state.applied call.key = false) :
    (state.moveCall index call .absent).Exclusive := by
  have reading : state.Reading call.tx call.key :=
    ⟨call, mem_of_getElem? running, rfl, rfl, phase⟩
  refine exclusive.frame rfl rfl rfl ?_ ?_
  · rintro tx key ((waits | ⟨moved, inCalls, rfl, rfl, phase⟩) |
      ⟨moved, inCalls, rfl, rfl, phase⟩ | isPrepared)
    · exact exclusive.locked tx key (.inl (.inl waits))
    · rcases mem_moveCall inCalls with old | rfl
      · exact exclusive.locked _ _ (.inl (.inr ⟨moved, old, rfl, rfl, phase⟩))
      · exact exclusive.locked _ _ (.inr (.inl reading))
    · rcases mem_moveCall inCalls with old | rfl
      · exact exclusive.locked _ _ (.inr (.inl ⟨moved, old, rfl, rfl, phase⟩))
      · cases phase
    · exact exclusive.locked tx key (.inr (.inr isPrepared))
  · rintro tx key (waits | ⟨moved, inCalls, rfl, rfl, phase⟩)
    · exact exclusive.waiting tx key (.inl waits)
    · rcases mem_moveCall inCalls with old | rfl
      · exact exclusive.waiting _ _ (.inr ⟨moved, old, rfl, rfl, phase⟩)
      · exact gone_of_absent exclusive absent call.tx

theorem mem_stageKv_buffer {state : Intents} {tx : TxId} {entry : StagedOp} {fails : Bool}
    {staged : TxId × StagedOp} (mem : staged ∈ (state.stageKv tx entry fails).buffer) :
    staged ∈ state.buffer ∨ (fails = false ∧ staged = (tx, entry)) := by
  unfold stageKv at mem
  split at mem <;> split at mem
  · exact .inl mem
  · rename_i succeeds
    exact (mem_append.mp mem).imp_right fun new =>
      ⟨by simpa using succeeds, mem_singleton.mp new⟩
  · exact .inl mem
  · rename_i succeeds
    exact (mem_append.mp mem).imp_right fun new =>
      ⟨by simpa using succeeds, mem_singleton.mp new⟩

section Frames

variable (state : Intents) (tx : TxId) (entry : StagedOp) (fails : Bool)

@[simp] theorem stageKv_applied : (state.stageKv tx entry fails).applied = state.applied := by
  unfold stageKv
  split <;> split <;> rfl

@[simp] theorem stageKv_commits : (state.stageKv tx entry fails).commits = state.commits := by
  unfold stageKv
  split <;> split <;> rfl

@[simp] theorem stageKv_nextSeqNo : (state.stageKv tx entry fails).nextSeqNo = state.nextSeqNo := by
  unfold stageKv
  split <;> split <;> rfl

@[simp] theorem stageKv_intentLocks :
    (state.stageKv tx entry fails).intentLocks = state.intentLocks := by
  unfold stageKv
  split <;> split <;> rfl

@[simp] theorem stageKv_calls : (state.stageKv tx entry fails).calls = state.calls := by
  unfold stageKv
  split <;> split <;> rfl

end Frames

theorem stageKv_exclusive {state : Intents} (exclusive : state.Exclusive) (tx : TxId)
    {entry : StagedOp} {fails : Bool} (plain : fails = true ∨ entry.wonKey = none) :
    (state.stageKv tx entry fails).Exclusive := by
  refine exclusive.withdraw (by simp) (by simp) (by simp) (by simp) (fun staged inBuffer won => ?_)
    fun call inCalls => .inl (by simpa using inCalls)
  rcases mem_stageKv_buffer inBuffer with old | ⟨succeeds, rfl⟩
  · exact old
  · rcases plain with failed | unmarked
    · rw [succeeds] at failed
      cases failed
    · exact absurd unmarked won

theorem stageWon_exclusive {state : Intents} (exclusive : state.Exclusive)
    {call : AbsentCall} (running : state.calls[index]? = some call) (phase : call.phase = .absent) :
    ((state.stageKv call.tx ⟨.insert call.key call.value, true⟩ false).endCall index).Exclusive := by
  have waits : state.Waiting call.tx call.key :=
    .inr ⟨call, mem_of_getElem? running, rfl, rfl, phase⟩
  refine exclusive.frame_locks (by simp [endCall]) (by simp [endCall]) (by simp [endCall])
    (by simp [endCall]) ?_ ?_
  · rintro tx key (⟨staged, inBuffer, rfl, won⟩ | ⟨other, inCalls, rfl, rfl, otherPhase⟩)
    · rcases mem_stageKv_buffer inBuffer with old | ⟨-, rfl⟩
      · exact .inl ⟨staged, old, rfl, won⟩
      · obtain rfl : call.key = key := some.inj won
        exact waits
    · have old := mem_of_mem_eraseIdx inCalls
      rw [stageKv_calls] at old
      exact .inr ⟨other, old, rfl, rfl, otherPhase⟩
  · rintro tx key ⟨other, inCalls, rfl, rfl, otherPhase⟩
    have old := mem_of_mem_eraseIdx inCalls
    rw [stageKv_calls] at old
    exact ⟨other, old, rfl, rfl, otherPhase⟩

theorem cleanup_exclusive {state : Intents} (exclusive : state.Exclusive) {tx : TxId}
    (unengaged : state.Unengaged tx) : (state.cleanupIntentLocksForTx tx).Exclusive := by
  refine exclusive.frame rfl rfl rfl (fun other key engaged => ?_) exclusive.waiting
  have holder := exclusive.locked other key engaged
  have different : other ≠ tx := by
    rintro rfl
    exact unengaged.not_engaged key engaged
  simp [cleanupIntentLocksForTx, holder, different]

theorem releaseIntentLock_exclusive {state : Intents} (exclusive : state.Exclusive) {tx : TxId}
    (spare : state.intentLocks key = some tx → ¬ state.Engaged tx key) :
    (state.releaseIntentLock tx key).Exclusive := by
  unfold releaseIntentLock
  split
  · rename_i own
    refine exclusive.frame rfl rfl rfl (fun other target engaged => ?_) exclusive.waiting
    have holder := exclusive.locked other target engaged
    have different : target ≠ key := by
      rintro rfl
      obtain rfl : tx = other := some.inj (own.symm.trans holder)
      exact spare own engaged
    simpa [different] using holder
  · exact exclusive

theorem drainKv_exclusive {state : Intents} (exclusive : state.Exclusive) (tx : TxId) :
    (state.drainKv tx).Exclusive :=
  exclusive.withdraw rfl rfl rfl rfl (fun _ inBuffer _ => (mem_filter.mp inBuffer).1)
    fun _ inCalls => .inl inCalls

theorem numbered_fst (first : Nat) (ops : List StagedOp) :
    (numbered first ops).map Prod.fst = List.range' first ops.length := by
  simp [numbered, List.map_map, Function.comp_def, zipIdx_map_snd]

theorem mem_numbered {first : Nat} {ops : List StagedOp} {op : Nat × StagedOp}
    (mem : op ∈ numbered first ops) : first ≤ op.1 ∧ op.2 ∈ ops := by
  obtain ⟨⟨entry, seq⟩, inZip, rfl⟩ := List.mem_map.mp mem
  obtain ⟨atLeast, -, isEntry⟩ := mem_zipIdx inZip
  exact ⟨atLeast, isEntry ▸ getElem_mem _⟩

theorem drain_exclusive {state : Intents} (exclusive : state.Exclusive) (tx : TxId) :
    Exclusive { state.drainKv tx with
      commits := state.commits ++ [⟨tx, numbered state.nextSeqNo (state.opsOf tx), .prepared⟩]
      nextSeqNo := state.nextSeqNo + (state.opsOf tx).length + 1 } := by
  have grows : state.nextSeqNo ≤ state.nextSeqNo + (state.opsOf tx).length + 1 := by omega
  have stillWaiting {other : TxId} {key : Bytes} (waits : Waiting { state.drainKv tx with
      commits := state.commits ++ [⟨tx, numbered state.nextSeqNo (state.opsOf tx), .prepared⟩]
      nextSeqNo := state.nextSeqNo + (state.opsOf tx).length + 1 } other key) :
      state.Waiting other key := by
    rcases waits with ⟨entry, inBuffer, own, won⟩ | call
    · exact .inl ⟨entry, (mem_filter.mp inBuffer).1, own, won⟩
    · exact .inr call
  have wasWaiting {op : Nat × StagedOp} {key : Bytes}
      (inOps : op ∈ numbered state.nextSeqNo (state.opsOf tx)) (won : op.2.wonKey = some key) :
      state.Waiting tx key := by
    obtain ⟨entry, inBuffer, same⟩ := List.mem_map.mp (mem_numbered inOps).2
    obtain ⟨mem, own⟩ := mem_filter.mp inBuffer
    exact .inl ⟨entry, mem, by simpa using own, same ▸ won⟩
  have wasEngaged {other : TxId} {key : Bytes} {seq : Nat} (isPrepared : Prepared
      { state.drainKv tx with
        commits := state.commits ++ [⟨tx, numbered state.nextSeqNo (state.opsOf tx), .prepared⟩]
        nextSeqNo := state.nextSeqNo + (state.opsOf tx).length + 1 } other key seq) :
      state.Prepared other key seq ∨ (state.Waiting other key ∧ state.nextSeqNo ≤ seq) := by
    obtain ⟨commit, inCommits, phase, own, op, inOps, isSeq, won⟩ := isPrepared
    rcases mem_append.mp inCommits with old | new
    · exact .inl ⟨commit, old, phase, own, op, inOps, isSeq, won⟩
    · obtain rfl := mem_singleton.mp new
      subst own isSeq
      exact .inr ⟨wasWaiting inOps won, (mem_numbered inOps).1⟩
  refine ⟨?_, ?_, ?_, exclusive.settled, ?_, ?_⟩
  · rintro other key (waits | reads | ⟨seq, isPrepared⟩)
    · exact exclusive.locked other key (.inl (stillWaiting waits))
    · exact exclusive.locked other key (.inr (.inl reads))
    · rcases wasEngaged isPrepared with old | ⟨waits, -⟩
      · exact exclusive.locked other key (.inr (.inr ⟨seq, old⟩))
      · exact exclusive.locked other key (.inl waits)
  · intro other key waits entry inApplied won foreign
    have deleted := exclusive.waiting other key (stillWaiting waits) entry inApplied won foreign
    exact deleted.mono (List.Subset.refl _) grows
  · intro other key seq isPrepared entry inApplied won foreign
    rcases wasEngaged isPrepared with old | ⟨waits, above⟩
    · exact exclusive.prepared other key seq old entry inApplied won foreign
    · have deleted := exclusive.waiting other key waits entry inApplied won foreign
      exact deleted.mono (List.Subset.refl _) above
  · have fresh : (numbered state.nextSeqNo (state.opsOf tx)).map Prod.fst |>.Nodup := by
      rw [numbered_fst]
      exact nodup_range'
    simp only [numbers, flatMap_append, flatMap_cons, flatMap_nil, append_nil,
      ← append_assoc]
    refine nodup_append.mpr ⟨exclusive.distinct, by simpa [CommitCall.numbers] using fresh, ?_⟩
    intro old inOld new inNew
    have below := exclusive.bounded old inOld
    simp only [CommitCall.numbers, if_true, numbered_fst, mem_range'_1] at inNew
    omega
  · intro number mem
    simp only [numbers, flatMap_append, flatMap_cons, flatMap_nil, append_nil,
      ← append_assoc] at mem
    change number < state.nextSeqNo + (state.opsOf tx).length + 1
    rcases mem_append.mp mem with old | new
    · have := exclusive.bounded number old
      omega
    · simp only [CommitCall.numbers, if_true, numbered_fst, mem_range'_1] at new
      omega

variable {commit : CommitCall}

theorem numbers_perm {state : Intents} (running : state.commits[index]? = some commit) :
    List.Perm state.numbers (state.applied.map AppliedOp.seq ++
      (commit.numbers ++ (state.commits.eraseIdx index).flatMap CommitCall.numbers)) := by
  obtain ⟨inside, isCommit⟩ := List.getElem?_eq_some_iff.mp running
  have taken : List.Perm (commit :: state.commits.eraseIdx index) state.commits :=
    isCommit ▸ getElem_cons_eraseIdx_perm inside
  exact (List.Perm.flatMap_right _ taken.symm).append_left _

theorem finishing_perm {commits : List CommitCall} (running : commits[index]? = some commit) :
    List.Perm ((commits.set index { commit with phase := .finishing }).flatMap CommitCall.numbers)
      ((commits.eraseIdx index).flatMap CommitCall.numbers) := by
  obtain ⟨inside, -⟩ := List.getElem?_eq_some_iff.mp running
  have placed := set_perm_cons_eraseIdx inside { commit with phase := .finishing }
  have silent : CommitCall.numbers { commit with phase := .finishing } = [] := by
    simp [CommitCall.numbers]
  have same := List.Perm.flatMap_right CommitCall.numbers placed
  rwa [flatMap_cons, silent, nil_append] at same

theorem prepared_of_finishing {commits : List CommitCall} {commit other : CommitCall}
    (mem : other ∈ commits.set index { commit with phase := .finishing })
    (phase : other.phase = .prepared) : other ∈ commits := by
  rcases mem_or_eq_of_mem_set mem with old | rfl
  · exact old
  · cases phase

theorem abort_exclusive {state : Intents} (exclusive : state.Exclusive)
    (running : state.commits[index]? = some commit) :
    Exclusive { state with
      commits := state.commits.set index { commit with phase := .finishing } } := by
  have wasPrepared {tx : TxId} {key : Bytes} {seq : Nat} (isPrepared : Prepared { state with
      commits := state.commits.set index { commit with phase := .finishing } } tx key seq) :
      state.Prepared tx key seq := by
    obtain ⟨other, inCommits, phase, rest⟩ := isPrepared
    exact ⟨other, prepared_of_finishing inCommits phase, phase, rest⟩
  have whole := numbers_perm running
  have left := (finishing_perm running).append_left (state.applied.map AppliedOp.seq)
  have fewer := (sublist_append_right commit.numbers
    ((state.commits.eraseIdx index).flatMap CommitCall.numbers)).append_left
      (state.applied.map AppliedOp.seq)
  refine ⟨?_, exclusive.waiting, fun tx key seq isPrepared =>
    exclusive.prepared tx key seq (wasPrepared isPrepared), exclusive.settled,
    left.nodup_iff.mpr (fewer.nodup (whole.nodup_iff.mp exclusive.distinct)),
    fun number mem => exclusive.bounded number
      (whole.mem_iff.mpr (fewer.subset (left.mem_iff.mp mem)))⟩
  rintro tx key (waits | reads | ⟨seq, isPrepared⟩)
  · exact exclusive.locked tx key (.inl waits)
  · exact exclusive.locked tx key (.inr (.inl reads))
  · exact exclusive.locked tx key (.inr (.inr ⟨seq, wasPrepared isPrepared⟩))

/-- A commit that succeeded: its winners join the committed ones, and by the locks no
other transaction is engaged in their keys. -/
theorem apply_exclusive {state : Intents} (exclusive : state.Exclusive)
    (running : state.commits[index]? = some commit)
    (phase : commit.phase = .prepared) :
    Exclusive { state with
      commits := state.commits.set index { commit with phase := .finishing }
      applied := state.applied ++ commit.ops.map fun op => ⟨commit.tx, op.1, op.2⟩ } := by
  have inCommits : commit ∈ state.commits := mem_of_getElem? running
  have ownPrepared {entry : AppliedOp} {key : Bytes}
      (new : entry ∈ commit.ops.map fun op => (⟨commit.tx, op.1, op.2⟩ : AppliedOp))
      (won : entry.staged.wonKey = some key) : state.Prepared entry.tx key entry.seq := by
    obtain ⟨op, inOps, rfl⟩ := List.mem_map.mp new
    exact ⟨commit, inCommits, phase, rfl, op, inOps, rfl, won⟩
  have gone {tx : TxId} {key : Bytes} {bound : Nat} (engaged : state.Engaged tx key)
      (before : Gone state.applied tx key bound) :
      Gone (state.applied ++ commit.ops.map fun op => ⟨commit.tx, op.1, op.2⟩) tx key bound := by
    intro entry inApplied won foreign
    rcases mem_append.mp inApplied with old | new
    · exact (before entry old won foreign).mono (subset_append_left _ _) le_rfl
    · exact absurd (exclusive.unique (.inr (.inr ⟨_, ownPrepared new won⟩)) engaged) foreign
  have wasPrepared {tx : TxId} {key : Bytes} {seq : Nat} (isPrepared : Prepared { state with
      commits := state.commits.set index { commit with phase := .finishing }
      applied := state.applied ++ commit.ops.map fun op => ⟨commit.tx, op.1, op.2⟩ } tx key seq) :
      state.Prepared tx key seq := by
    obtain ⟨other, inSet, otherPhase, rest⟩ := isPrepared
    exact ⟨other, prepared_of_finishing inSet otherPhase, otherPhase, rest⟩
  have sameNumbers : List.Perm (numbers { state with
      commits := state.commits.set index { commit with phase := .finishing }
      applied := state.applied ++ commit.ops.map fun op => ⟨commit.tx, op.1, op.2⟩ })
      state.numbers := by
    refine List.Perm.trans ?_ (numbers_perm running).symm
    have own : commit.numbers = commit.ops.map Prod.fst := by simp [CommitCall.numbers, phase]
    have written : (state.applied ++ commit.ops.map fun op =>
        (⟨commit.tx, op.1, op.2⟩ : AppliedOp)).map AppliedOp.seq =
        state.applied.map AppliedOp.seq ++ commit.numbers := by
      simp [own, Function.comp_def]
    simp only [numbers, written, append_assoc]
    exact ((finishing_perm running).append_left _).append_left _
  refine ⟨?_, ?_, ?_, ?_, sameNumbers.nodup_iff.mpr exclusive.distinct, fun number mem =>
    exclusive.bounded number (sameNumbers.subset mem)⟩
  · rintro tx key (waits | reads | ⟨seq, isPrepared⟩)
    · exact exclusive.locked tx key (.inl waits)
    · exact exclusive.locked tx key (.inr (.inl reads))
    · exact exclusive.locked tx key (.inr (.inr ⟨seq, wasPrepared isPrepared⟩))
  · intro tx key waits
    exact gone (.inl waits) (exclusive.waiting tx key waits)
  · intro tx key seq isPrepared
    have before := wasPrepared isPrepared
    exact gone (.inr (.inr ⟨seq, before⟩)) (exclusive.prepared tx key seq before)
  · intro first inFirst second inSecond key wonFirst wonSecond different older
    have grows := subset_append_left state.applied
      (commit.ops.map fun op => ⟨commit.tx, op.1, op.2⟩)
    rcases mem_append.mp inFirst with oldFirst | newFirst
    · rcases mem_append.mp inSecond with oldSecond | newSecond
      · exact (exclusive.settled first oldFirst second oldSecond key wonFirst wonSecond different
          older).mono grows le_rfl
      · exact (exclusive.prepared _ key _ (ownPrepared newSecond wonSecond) first oldFirst wonFirst
          different).mono grows le_rfl
    · rcases mem_append.mp inSecond with oldSecond | newSecond
      · -- the new winner saw the old one deleted below its own number
        obtain ⟨_, -, -, above, below⟩ := exclusive.prepared _ key _
          (ownPrepared newFirst wonFirst) second oldSecond wonSecond different.symm
        omega
      · obtain ⟨_, -, rfl⟩ := List.mem_map.mp newFirst
        obtain ⟨_, -, rfl⟩ := List.mem_map.mp newSecond
        exact absurd rfl different

theorem leave_exclusive {state : Intents} (exclusive : state.Exclusive) (index : Nat) :
    Exclusive { state with commits := state.commits.eraseIdx index } := by
  have wasPrepared {tx : TxId} {key : Bytes} {seq : Nat} (isPrepared : Prepared { state with
      commits := state.commits.eraseIdx index } tx key seq) : state.Prepared tx key seq := by
    obtain ⟨other, inCommits, rest⟩ := isPrepared
    exact ⟨other, mem_of_mem_eraseIdx inCommits, rest⟩
  have fewer : List.Sublist (numbers { state with commits := state.commits.eraseIdx index })
      state.numbers :=
    ((eraseIdx_sublist _ _).flatMap _).append_left _
  refine ⟨?_, exclusive.waiting, fun tx key seq isPrepared =>
    exclusive.prepared tx key seq (wasPrepared isPrepared), exclusive.settled,
    fewer.nodup exclusive.distinct, fun number mem =>
    exclusive.bounded number (fewer.subset mem)⟩
  rintro tx key (waits | reads | ⟨seq, isPrepared⟩)
  · exact exclusive.locked tx key (.inl waits)
  · exact exclusive.locked tx key (.inr (.inl reads))
  · exact exclusive.locked tx key (.inr (.inr ⟨seq, wasPrepared isPrepared⟩))

theorem step_exclusive {state next : Intents} {event : Event} (exclusive : state.Exclusive)
    (spares : state.Spares event) (taken : state.step event = some next) : next.Exclusive := by
  cases event with
  | enter tx key value =>
    obtain rfl := some.inj taken
    refine exclusive.withdraw rfl rfl rfl rfl (fun _ inBuffer _ => inBuffer) fun call inCalls => ?_
    rcases mem_append.mp inCalls with old | new
    · exact .inl old
    · obtain rfl := mem_singleton.mp new
      exact .inr ⟨by simp, by simp⟩
  | checkStaged index =>
    simp only [step] at taken
    split at taken
    · split at taken
      · split at taken
        · obtain rfl := some.inj taken
          exact endCall_exclusive exclusive index
        · obtain rfl := some.inj taken
          exact moveCall_exclusive exclusive index _ ⟨by simp, by simp⟩
      · cases taken
    · cases taken
  | checkLock index =>
    simp only [step] at taken
    split at taken
    · rename_i call _
      split at taken
      · split at taken
        · rename_i holder held
          split at taken
          · obtain rfl := some.inj taken
            exact endCall_exclusive exclusive index
          · rename_i own
            obtain rfl := some.inj taken
            obtain rfl : holder = call.tx := not_not.mp own
            exact checkLock_exclusive exclusive index call held fun _ _ kept => kept
        · rename_i free
          obtain rfl := some.inj taken
          refine checkLock_exclusive exclusive index call (by simp) fun key tx kept => ?_
          have different : key ≠ call.key := by
            rintro rfl
            rw [free] at kept
            cases kept
          simpa [different] using kept
      · cases taken
    · cases taken
  | readCommitted index fails =>
    simp only [step] at taken
    split at taken
    · rename_i call running
      split at taken
      · rename_i phase
        split at taken
        · obtain rfl := some.inj taken
          exact moveCall_exclusive exclusive index _ ⟨by simp, by simp⟩
        · rename_i absent
          obtain rfl := some.inj taken
          refine readAbsent_exclusive exclusive running phase ?_
          simpa using (Bool.or_eq_false_iff.mp (Bool.eq_false_iff.mpr absent)).2
      · cases taken
    · cases taken
  | stage index fails =>
    simp only [step] at taken
    split at taken
    · rename_i call running
      split at taken
      · rename_i phase
        split at taken
        · obtain rfl := some.inj taken
          exact moveCall_exclusive (stageKv_exclusive exclusive call.tx (.inl rfl)) index _
            ⟨by simp, by simp⟩
        · obtain rfl := some.inj taken
          exact stageWon_exclusive exclusive running phase
      · cases taken
    · cases taken
  | cleanup index =>
    simp only [step] at taken
    split at taken
    · rename_i call running
      split at taken
      · obtain rfl := some.inj taken
        exact endCall_exclusive (releaseIntentLock_exclusive exclusive (spares call running)) index
      · cases taken
    · cases taken
  | stageOther tx op fails =>
    obtain rfl := some.inj taken
    exact stageKv_exclusive exclusive tx (.inr rfl)
  | stageMany tx ops =>
    obtain rfl := some.inj taken
    refine exclusive.withdraw rfl rfl rfl rfl (fun staged inBuffer won => ?_)
      fun _ inCalls => .inl inCalls
    rcases mem_append.mp inBuffer with old | new
    · exact old
    · obtain ⟨op, -, rfl⟩ := List.mem_map.mp new
      exact absurd rfl won
  | drain tx =>
    simp only [step] at taken
    split at taken
    · obtain rfl := some.inj taken
      have drained := drainKv_exclusive exclusive tx
      have wasPrepared {other : TxId} {key : Bytes} {seq : Nat} (isPrepared : Prepared
          { state.drainKv tx with commits := state.commits ++ [⟨tx, [], .finishing⟩] }
          other key seq) : (state.drainKv tx).Prepared other key seq := by
        obtain ⟨commit, inCommits, phase, rest⟩ := isPrepared
        rcases mem_append.mp inCommits with old | new
        · exact ⟨commit, old, phase, rest⟩
        · rw [mem_singleton.mp new] at phase
          cases phase
      have same : numbers { state.drainKv tx with
          commits := state.commits ++ [⟨tx, [], .finishing⟩] } = (state.drainKv tx).numbers := by
        simp [numbers, CommitCall.numbers, drainKv]
      refine ⟨?_, drained.waiting, fun other key seq isPrepared =>
        drained.prepared other key seq (wasPrepared isPrepared), drained.settled,
        same ▸ drained.distinct, same ▸ drained.bounded⟩
      rintro other key (waits | reads | ⟨seq, isPrepared⟩)
      · exact drained.locked other key (.inl waits)
      · exact drained.locked other key (.inr (.inl reads))
      · exact drained.locked other key (.inr (.inr ⟨seq, wasPrepared isPrepared⟩))
    · obtain rfl := some.inj taken
      exact drain_exclusive exclusive tx
  | append index succeeds =>
    simp only [step] at taken
    split at taken
    · rename_i commit running
      split at taken
      · rename_i phase
        split at taken
        · obtain rfl := some.inj taken
          exact apply_exclusive exclusive running phase
        · obtain rfl := some.inj taken
          exact abort_exclusive exclusive running
      · cases taken
    · cases taken
  | releaseLocks index =>
    simp only [step] at taken
    split at taken
    · rename_i commit running
      split at taken
      · obtain rfl := some.inj taken
        exact cleanup_exclusive exclusive (spares commit running)
      · cases taken
    · cases taken
  | leave index =>
    simp only [step] at taken
    split at taken
    · split at taken
      · obtain rfl := some.inj taken
        exact leave_exclusive exclusive index
      · cases taken
    · cases taken
  | discard tx =>
    obtain rfl := some.inj taken
    exact (drainKv_exclusive exclusive tx).frame rfl rfl rfl
      (drainKv_exclusive exclusive tx).locked (drainKv_exclusive exclusive tx).waiting
  | releaseRolledBack index =>
    simp only [step] at taken
    split at taken
    · rename_i tx running
      obtain rfl := some.inj taken
      have released := cleanup_exclusive exclusive (spares tx running)
      exact released.frame rfl rfl rfl released.locked released.waiting
    · cases taken

/-- In a run in which no lock is released that its transaction still needs, two
transactions whose `put_if_absent` of one key succeeded and whose insertions are
committed have a committed delete of the key between them. -/
theorem settled_of_sparing {events : List Event} {final : Intents}
    (finished : run step initial events = some final)
    (sparing : Along step Spares initial events) : final.Settled :=
  (run_invariant (fun _ _ _ => step_exclusive) initial_exclusive sparing finished).settled

/-- Transaction 1 wins a key, 2 deletes it again, and 3 wins it. -/
theorem deletedBetween_settled :
    let events : List Event := [.enter 1 [7] [1], .checkStaged 0, .checkLock 0,
      .readCommitted 0 false, .stage 0 false, .drain 1, .append 0 true, .releaseLocks 0, .leave 0,
      .stageOther 2 (.delete (some [7])) false, .drain 2, .append 0 true, .releaseLocks 0,
      .leave 0, .enter 3 [7] [3], .checkStaged 0, .checkLock 0, .readCommitted 0 false,
      .stage 0 false, .drain 3, .append 0 true]
    ∃ final, run step initial events = some final ∧
      final.applied.map AppliedOp.seq = [1, 3, 5] ∧ final.Settled := by
  intro events
  obtain ⟨final, finished⟩ :=
    isSome_iff_exists.mp (show (run step initial events).isSome by decide)
  have seqs : (run step initial events).map (·.applied.map AppliedOp.seq) = some [1, 3, 5] := by
    decide
  rw [finished] at seqs
  exact ⟨final, finished, some.inj seqs, settled_of_sparing finished (by decide)⟩

/-- Two calls of transaction 1 race for one key.  The second fails to stage and its cleanup removes
the lock and the marker that the first still needs: transaction 2 wins the key too, and both commit.
-/
theorem failedStaging_breaks_exclusion :
    ¬ ∀ events final, run step initial events = some final → final.Settled := by
  intro claim
  obtain ⟨final, finished, applied⟩ : ∃ final, run step initial
      [.enter 1 [7] [1], .enter 1 [7] [2], .checkStaged 0, .checkStaged 1, .checkLock 0,
        .checkLock 1, .readCommitted 0 false, .readCommitted 1 false, .stage 0 false, .stage 0 true,
        .cleanup 0, .enter 2 [7] [3], .checkStaged 0, .checkLock 0, .readCommitted 0 false,
        .stage 0 false, .drain 1, .append 0 true, .releaseLocks 0, .leave 0, .drain 2,
        .append 0 true] = some final ∧
      final.applied = [⟨1, 1, ⟨.insert [7] [1], true⟩⟩, ⟨2, 3, ⟨.insert [7] [3], true⟩⟩] :=
    ⟨_, rfl, by decide⟩
  have settled := claim _ final finished
  rw [Settled, applied] at settled
  obtain ⟨entry, inApplied, isDelete, -⟩ :=
    settled _ mem_cons_self _ (mem_cons_of_mem _ mem_cons_self) [7] rfl rfl
      (by decide) (by decide)
  simp only [mem_cons, not_mem_nil, or_false] at inApplied
  rcases inApplied with rfl | rfl
  · cases isDelete
  · cases isDelete

end Intents

end Contextra.Store
