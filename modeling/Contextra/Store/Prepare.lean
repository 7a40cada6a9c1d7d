import Contextra.Types

/-!
# Preparing a commit

`prepare_commit_ops` turns the staged operations of a transaction into WAL
operations and memtable updates and hands out their sequence numbers.  The
counter is passed in and returned; recording the written keys in the validator
is the caller's next step.
-/

namespace Contextra.Store

/-- A staged operation; `other` stands for every variant the commit rejects. -/
inductive IndexOp where
  | insert (key value : Bytes)
  | delete (key : Option Bytes)
  | other
  deriving DecidableEq, Repr

inductive WalOp where
  | put (tx : TxId) (key value : Bytes)
  | delete (tx : TxId) (key : Bytes)
  | txEnd (tx : TxId) (committed : Bool)
  deriving DecidableEq, Repr

structure MemUpdate where
  key : Bytes
  value : Bytes
  seq : SeqNo
  deriving DecidableEq, Repr

structure PreparedCommit where
  walOps : List (WalOp × Nat)
  memUpdates : List MemUpdate
  firstSeq : Nat
  deriving DecidableEq, Repr

/-- What one staged operation contributes at its sequence number.  A delete
without a key uses up its number only. -/
def stageOp (tx : TxId) (seq : Nat) : IndexOp → Option (List (WalOp × Nat) × List MemUpdate)
  | .insert key value => some ([(.put tx key value, seq)], [⟨key, value, ⟨seq, false⟩⟩])
  | .delete (some key) => some ([(.delete tx key, seq)], [⟨key, [], ⟨seq, true⟩⟩])
  | .delete none => some ([], [])
  | .other => none

/-- The loop over the staged operations; every one takes the next number first. -/
def stageOps (tx : TxId) : List IndexOp → Nat →
    Option (List (WalOp × Nat) × List MemUpdate) × Nat
  | [], next => (some ([], []), next)
  | op :: ops, next =>
    match stageOp tx next op with
    | none => (none, next + 1)
    | some (walOps, updates) =>
      match stageOps tx ops (next + 1) with
      | (some (laterOps, laterUpdates), last) =>
        (some (walOps ++ laterOps, updates ++ laterUpdates), last)
      | (none, last) => (none, last)

/-- `mem_updates.first()` without its tombstone bit, 0 when there is no update. -/
def firstSeqOf : List MemUpdate → Nat
  | [] => 0
  | update :: _ => update.seq.raw

/-- `prepare_commit_ops`, with the value of `next_seq_no` before and after. -/
def prepareCommitOps (tx : TxId) (ops : List IndexOp) (next : Nat) :
    Except ContextraError PreparedCommit × Nat :=
  match stageOps tx ops next with
  | (none, last) =>
    (.error (.invalidInput "Unsupported operation type staged in LSM commit"), last)
  | (some (walOps, memUpdates), last) =>
    (.ok ⟨walOps ++ [(.txEnd tx true, last)], memUpdates, firstSeqOf memUpdates⟩, last + 1)

theorem stageOps_le (tx : TxId) (ops : List IndexOp) (next : Nat) :
    next ≤ (stageOps tx ops next).2 := by
  induction ops generalizing next with
  | nil => exact le_rfl
  | cons op ops ih =>
    have later := ih (next + 1)
    simp only [stageOps]
    split
    · simp
    · split <;> simp_all <;> omega

theorem stageOps_updates {tx : TxId} {ops : List IndexOp} {next last : Nat}
    {walOps : List (WalOp × Nat)} {updates : List MemUpdate}
    (staged : stageOps tx ops next = (some (walOps, updates), last)) :
    updates.Pairwise (fun left right => left.seq.raw < right.seq.raw) ∧
      ∀ update ∈ updates, next ≤ update.seq.raw ∧ update.seq.raw < last := by
  induction ops generalizing next walOps updates with
  | nil =>
    simp only [stageOps, Prod.mk.injEq, Option.some.injEq] at staged
    obtain ⟨⟨-, rfl⟩, -⟩ := staged
    simp
  | cons op ops ih =>
    simp only [stageOps] at staged
    split at staged
    · simp at staged
    · rename_i ownOps ownUpdates own
      split at staged
      · rename_i laterOps laterUpdates _ later
        simp only [Prod.mk.injEq, Option.some.injEq] at staged
        obtain ⟨⟨-, rfl⟩, rfl⟩ := staged
        obtain ⟨ordered, bounded⟩ := ih later
        have grows := stageOps_le tx ops (next + 1)
        rw [later] at grows
        -- the operation's own update, if any, has exactly the number `next`
        have ownNumber : ownUpdates.length ≤ 1 ∧
            ∀ update ∈ ownUpdates, update.seq.raw = next := by
          unfold stageOp at own
          split at own <;> simp at own <;> obtain ⟨-, rfl⟩ := own <;> simp
        refine ⟨List.pairwise_append.mpr ⟨?_, ordered, ?_⟩, ?_⟩
        · match ownUpdates, ownNumber.1 with
          | [], _ => exact List.Pairwise.nil
          | [_], _ => exact List.pairwise_singleton _ _
        · intro update inOwn later' inLater
          have := ownNumber.2 update inOwn
          have := (bounded later' inLater).1
          omega
        · intro update mem
          rcases List.mem_append.mp mem with inOwn | inLater
          · have := ownNumber.2 update inOwn
            simp only at grows
            omega
          · have := bounded update inLater
            omega
      · simp at staged

theorem prepareCommitOps_le (tx : TxId) (ops : List IndexOp) (next : Nat) :
    next ≤ (prepareCommitOps tx ops next).2 := by
  have grows := stageOps_le tx ops next
  unfold prepareCommitOps
  split
  · simp_all
  · simp_all
    omega

theorem prepareCommitOps_updates {tx : TxId} {ops : List IndexOp} {next last : Nat}
    {commit : PreparedCommit} (prepared : prepareCommitOps tx ops next = (.ok commit, last)) :
    commit.memUpdates.Pairwise (fun left right => left.seq.raw < right.seq.raw) ∧
      ∀ update ∈ commit.memUpdates, next ≤ update.seq.raw ∧ update.seq.raw < last := by
  unfold prepareCommitOps at prepared
  split at prepared
  · simp at prepared
  · rename_i walOps memUpdates final staged
    simp only [Prod.mk.injEq, Except.ok.injEq] at prepared
    obtain ⟨rfl, rfl⟩ := prepared
    obtain ⟨ordered, bounded⟩ := stageOps_updates staged
    refine ⟨ordered, fun update mem => ?_⟩
    have := bounded update mem
    omega

end Contextra.Store
