import Contextra.Library.Run
import Contextra.Store.Prepare

/-!
# put_if_absent, step by step

The structures `put_if_absent` relies on: key staging map and operation buffer of the transaction
buffer, intent locks, and the committed operations.  Steps of calls, commits and rollbacks
interleave freely, also those of one transaction.  What a successful `put_if_absent` staged carries
a mark, which the code does not see.
-/

namespace Contextra.Store

open Contextra.Library

structure StagedOp where
  op : IndexOp
  /-- Staged by a `put_if_absent` call that returned true. -/
  won : Bool
  deriving DecidableEq, Repr

/-- The key an operation is about, and whether it inserts. -/
def IndexOp.target : IndexOp → Option (Bytes × Bool)
  | .insert key _ => some (key, true)
  | .delete (some key) => some (key, false)
  | .delete none => none
  | .other => none

def StagedOp.wonKey (staged : StagedOp) : Option Bytes :=
  match staged.won, staged.op with
  | true, .insert key _ => some key
  | _, _ => none

/-- An operation whose commit succeeded, with its sequence number. -/
structure AppliedOp where
  tx : TxId
  seq : Nat
  staged : StagedOp
  deriving DecidableEq, Repr

inductive CallPhase where
  | entered
  | unstaged
  | locked
  | absent
  | cleanup
  deriving DecidableEq, Repr

/-- A running `put_if_absent`. -/
structure AbsentCall where
  tx : TxId
  key : Bytes
  value : Bytes
  phase : CallPhase
  deriving DecidableEq, Repr

inductive CommitPhase where
  | prepared
  | finishing
  deriving DecidableEq, Repr

/-- A running `commit`, with the operations it drained and their sequence numbers. -/
structure CommitCall where
  tx : TxId
  ops : List (Nat × StagedOp)
  phase : CommitPhase
  deriving DecidableEq, Repr

structure Intents where
  /-- `key_shards`: per key the transactions that staged it, and whether they insert. -/
  staged : Bytes → List (TxId × Bool)
  buffer : List (TxId × StagedOp)
  intentLocks : Bytes → Option TxId
  nextSeqNo : Nat
  applied : List AppliedOp
  calls : List AbsentCall
  commits : List CommitCall
  /-- Rollbacks that have discarded and not yet released their locks. -/
  rollbacks : List TxId

namespace Intents

def initial : Intents where
  staged := fun _ => []
  buffer := []
  intentLocks := fun _ => none
  nextSeqNo := 1
  applied := []
  calls := []
  commits := []
  rollbacks := []

def trackKeyStage (staged : Bytes → List (TxId × Bool)) (tx : TxId) (key : Bytes)
    (isInsert : Bool) : Bytes → List (TxId × Bool) :=
  Function.update staged key ((tx, isInsert) :: (staged key).filter (·.1 ≠ tx))

def untrackKey (staged : Bytes → List (TxId × Bool)) (tx : TxId) (key : Bytes) :
    Bytes → List (TxId × Bool) :=
  Function.update staged key ((staged key).filter (·.1 ≠ tx))

def untrackKeyOps (staged : Bytes → List (TxId × Bool)) (tx : TxId) (ops : List StagedOp) :
    Bytes → List (TxId × Bool) :=
  ops.foldl (fun staged entry =>
    match entry.op.target with
    | some (key, _) => untrackKey staged tx key
    | none => staged) staged

/-- `staged_status`: the entry of the largest transaction id counts. -/
def stagedStatus (staged : Bytes → List (TxId × Bool)) (key : Bytes) : Option Bool :=
  ((staged key).argmax Prod.fst).map Prod.snd

/-- The staging steps of `stage_kv`: a failure also removes an older marker. -/
def stageKv (state : Intents) (tx : TxId) (entry : StagedOp) (fails : Bool) : Intents :=
  match entry.op.target with
  | none => if fails then state else { state with buffer := state.buffer ++ [(tx, entry)] }
  | some (key, isInsert) =>
    if fails then { state with staged := untrackKey state.staged tx key }
    else
      { state with
        staged := trackKeyStage state.staged tx key isInsert
        buffer := state.buffer ++ [(tx, entry)] }

def opsOf (state : Intents) (tx : TxId) : List StagedOp :=
  (state.buffer.filter (·.1 = tx)).map Prod.snd

/-- `drain_kv`, also the effect of `discard_kv`. -/
def drainKv (state : Intents) (tx : TxId) : Intents :=
  { state with
    staged := untrackKeyOps state.staged tx (state.opsOf tx)
    buffer := state.buffer.filter (·.1 ≠ tx) }

def cleanupIntentLocksForTx (state : Intents) (tx : TxId) : Intents :=
  { state with intentLocks := fun key => (state.intentLocks key).filter (· ≠ tx) }

/-- The error cleanup of `put_if_absent`: the own lock of the key goes. -/
def releaseIntentLock (state : Intents) (tx : TxId) (key : Bytes) : Intents :=
  if state.intentLocks key = some tx then
    { state with intentLocks := Function.update state.intentLocks key none }
  else state

/-- The committed read: the operation on the key with the largest sequence number. -/
def committedWrite (applied : List AppliedOp) (key : Bytes) : Option AppliedOp :=
  (applied.filter fun entry => entry.staged.op.target.map Prod.fst = some key).argmax AppliedOp.seq

def isPresent (applied : List AppliedOp) (key : Bytes) : Bool :=
  match committedWrite applied key with
  | some entry => entry.staged.op.target = some (key, true)
  | none => false

inductive Event where
  | enter (tx : TxId) (key value : Bytes)
  | checkStaged (call : Nat)
  | checkLock (call : Nat)
  | readCommitted (call : Nat) (fails : Bool)
  | stage (call : Nat) (fails : Bool)
  | cleanup (call : Nat)
  | stageOther (tx : TxId) (op : IndexOp) (fails : Bool)
  | stageMany (tx : TxId) (ops : List IndexOp)
  | drain (tx : TxId)
  | append (commit : Nat) (succeeds : Bool)
  | releaseLocks (commit : Nat)
  | leave (commit : Nat)
  | discard (tx : TxId)
  | releaseRolledBack (rollback : Nat)
  deriving DecidableEq, Repr

def moveCall (state : Intents) (index : Nat) (call : AbsentCall) (phase : CallPhase) : Intents :=
  { state with calls := state.calls.set index { call with phase } }

def endCall (state : Intents) (index : Nat) : Intents :=
  { state with calls := state.calls.eraseIdx index }

def numbered (first : Nat) (ops : List StagedOp) : List (Nat × StagedOp) :=
  ops.zipIdx first |>.map fun (entry, seq) => (seq, entry)

def step (state : Intents) : Event → Option Intents
  | .enter tx key value => some { state with calls := state.calls ++ [⟨tx, key, value, .entered⟩] }
  | .checkStaged index =>
    match state.calls[index]? with
    | some call =>
      if call.phase = .entered then
        if stagedStatus state.staged call.key = some true then some (state.endCall index)
        else some (state.moveCall index call .unstaged)
      else none
    | none => none
  | .checkLock index =>
    match state.calls[index]? with
    | some call =>
      if call.phase = .unstaged then
        match state.intentLocks call.key with
        | some holder =>
          if holder ≠ call.tx then some (state.endCall index)
          else some (state.moveCall index call .locked)
        | none =>
          some { state.moveCall index call .locked with
            intentLocks := Function.update state.intentLocks call.key (some call.tx) }
      else none
    | none => none
  | .readCommitted index fails =>
    match state.calls[index]? with
    | some call =>
      if call.phase = .locked then
        if fails || isPresent state.applied call.key then
          some (state.moveCall index call .cleanup)
        else some (state.moveCall index call .absent)
      else none
    | none => none
  | .stage index fails =>
    match state.calls[index]? with
    | some call =>
      if call.phase = .absent then
        if fails then
          some ((state.stageKv call.tx ⟨.insert call.key call.value, true⟩ true).moveCall
            index call .cleanup)
        else
          some ((state.stageKv call.tx ⟨.insert call.key call.value, true⟩ false).endCall index)
      else none
    | none => none
  | .cleanup index =>
    match state.calls[index]? with
    | some call =>
      if call.phase = .cleanup then
        some ((state.releaseIntentLock call.tx call.key).endCall index)
      else none
    | none => none
  | .stageOther tx op fails => some (state.stageKv tx ⟨op, false⟩ fails)
  | .stageMany tx ops =>
    some { state with buffer := state.buffer ++ ops.map fun op => (tx, ⟨op, false⟩) }
  | .drain tx =>
    let ops := state.opsOf tx
    let drained := state.drainKv tx
    if ops = [] then some { drained with commits := state.commits ++ [⟨tx, [], .finishing⟩] }
    else
      some { drained with
        commits := state.commits ++ [⟨tx, numbered state.nextSeqNo ops, .prepared⟩]
        nextSeqNo := state.nextSeqNo + ops.length + 1 }
  | .append index succeeds =>
    match state.commits[index]? with
    | some commit =>
      if commit.phase = .prepared then
        let finished := { state with
          commits := state.commits.set index { commit with phase := .finishing } }
        if succeeds then
          some { finished with
            applied := state.applied ++ commit.ops.map fun op => ⟨commit.tx, op.1, op.2⟩ }
        else some finished
      else none
    | none => none
  | .releaseLocks index =>
    match state.commits[index]? with
    | some commit =>
      if commit.phase = .finishing then some (state.cleanupIntentLocksForTx commit.tx) else none
    | none => none
  | .leave index =>
    match state.commits[index]? with
    | some commit =>
      if commit.phase = .finishing then
        some { state with commits := state.commits.eraseIdx index }
      else none
    | none => none
  | .discard tx => some { state.drainKv tx with rollbacks := state.rollbacks ++ [tx] }
  | .releaseRolledBack index =>
    match state.rollbacks[index]? with
    | some tx =>
      some { state.cleanupIntentLocksForTx tx with rollbacks := state.rollbacks.eraseIdx index }
    | none => none

end Intents

end Contextra.Store
