import Contextra.Erasure.Saga
import Contextra.Library.Protocols

/-!
# The table of open keys

The calls of one core, under many erasure ids.  A call of `erase` first looks for an open
saga under the key of its target and mode; its own saga enters the key only once the key of
the target is destroyed.
-/

namespace Contextra.Erasure

open Contextra.Library

structure IdentifiedRequest extends EraseExecutionRequest where
  erasureId : ErasureId

inductive CoreOp where
  | getOpenKey (key : Bytes)
  | getActive (id : ErasureId)
  | own (id : ErasureId) (op : SagaOp)

abbrev CoreOp.Answer : CoreOp → Type
  | getOpenKey _ => Option ErasureId
  | getActive _ => Option ActiveEntry
  | own _ op => op.Answer

abbrev CoreProgram (α : Type) := Program CoreOp CoreOp.Answer α

def SagaM.ofId {α : Type} (id : ErasureId) : SagaProgram α → CoreProgram α
  | .done result => .done result
  | .call op next => .call (.own id op) fun answer => ofId id (next answer)

/-- What a call of `erase` answers: a receipt and the id of the erasure that it is for. -/
abbrev EraseAnswer := Except ErasureError (ErasureId × EraseReceipt)

namespace ErasureCore

variable (core : ErasureCore)

def withErasureId (id : ErasureId) : ErasureCore := { core with erasureId := id }

def openKey (req : IdentifiedRequest) : Bytes :=
  core.deriveOpenKey (canonicalTargetBytes req.target) (modeByte req.mode)

/-- The task that is spawned when no open saga was found. -/
def spawnedFlow (req : IdentifiedRequest) : CoreProgram EraseAnswer :=
  (SagaM.ofId req.erasureId ((core.withErasureId req.erasureId).executeEraseFlow
    req.toEraseExecutionRequest (core.openKey req)).run).bind fun answer =>
      .done (answer.map fun receipt => (req.erasureId, receipt))

/-- `erase`, once the table has named an id. -/
def answerFrom (req : IdentifiedRequest) (existingId : ErasureId) : CoreProgram EraseAnswer :=
  .call (.getActive existingId) fun active =>
    match active with
    | none => core.spawnedFlow req
    | some entry =>
      .call (.own existingId .nowMillis) fun now =>
        .done (now.map fun gatedAt => (existingId, ⟨statusOf entry.saga, gatedAt⟩))

def eraseIdentified (req : IdentifiedRequest) : CoreProgram EraseAnswer :=
  .call (.getOpenKey (core.openKey req)) fun found =>
    match found with
    | none => core.spawnedFlow req
    | some existingId => core.answerFrom req existingId

end ErasureCore

/-- The calls on the core; the purge window and the recovery, for each id they come to. -/
inductive CoreTask where
  | erase (req : IdentifiedRequest)
  | runPurgeWindow (id : ErasureId)
  | recoverAndResume (id : ErasureId)

/-- What a call answers; `none` where it answers nothing about an erasure. -/
abbrev CallAnswer := Option EraseAnswer

def ErasureCore.program (core : ErasureCore) : CoreTask → CoreProgram CallAnswer
  | .erase req => (core.eraseIdentified req).bind fun answer => .done (some answer)
  | .runPurgeWindow id =>
    (SagaM.ofId id (core.withErasureId id).runPurgeWindow.run).bind fun _ => .done none
  | .recoverAndResume id =>
    (SagaM.ofId id (core.withErasureId id).recoverAndResume.run).bind fun _ => .done none

/-- How far a call of `erase` is: it looks for an open saga, asks for the one it has found,
is on the way to enter its key, or is past that. -/
inductive RequestPhase where
  | checking
  | found (id : ErasureId)
  | underway
  | settled
  deriving DecidableEq

namespace RequestPhase

def first : CoreTask → RequestPhase
  | .erase _ => checking
  | _ => settled

def advance : RequestPhase → (op : CoreOp) → op.Answer → RequestPhase
  | checking, .getOpenKey _, none => underway
  | checking, .getOpenKey _, some id => found id
  | found _, .getActive _, none => underway
  | underway, .own _ (.insertOpenKey _), _ => settled
  | phase, _, _ => phase

end RequestPhase

structure Call where
  task : CoreTask
  phase : RequestPhase
  program : CoreProgram CallAnswer

/-- The open keys, what is kept of each erasure, and the calls. -/
structure CoreState where
  openKeys : Bytes → Option ErasureId
  sagas : ErasureId → SagaStore
  calls : List Call

namespace CoreState

def initial : CoreState := ⟨fun _ => none, fun _ => .new, []⟩

def tasks (state : CoreState) : List CoreTask := state.calls.map Call.task

def perform (state : CoreState) : (op : CoreOp) → SagaChoice → Option (op.Answer × CoreState)
  | .getOpenKey key, _ => some (state.openKeys key, state)
  | .getActive id, _ => some ((state.sagas id).active, state)
  | .own id (.insertOpenKey key), _ =>
    some (.ok (), { state with openKeys := Function.update state.openKeys key (some id) })
  | .own _ (.removeOpenKey key), _ =>
    some (.ok (), { state with openKeys := Function.update state.openKeys key none })
  | .own id op, choice =>
    ((state.sagas id).perform op choice).map fun performed =>
      (performed.1, { state with sagas := Function.update state.sagas id performed.2 })

end CoreState

inductive CoreEvent where
  | start (task : CoreTask)
  | step (index : Nat) (choice : SagaChoice)
  | crash

/-- A call is made, a call performs its next operation, or a crash ends all calls and clears
what is in memory only. -/
def ErasureCore.stepCalls (core : ErasureCore) (state : CoreState) : CoreEvent → Option CoreState
  | .start task =>
    some { state with calls := state.calls ++ [⟨task, .first task, core.program task⟩] }
  | .step index choice =>
    match state.calls[index]? with
    | some ⟨task, phase, .call op next⟩ =>
      (state.perform op choice).map fun performed =>
        { performed.2 with
          calls := state.calls.set index
            ⟨task, phase.advance op performed.1, next performed.1⟩ }
    | _ => none
  | .crash => some ⟨fun _ => none, fun id => (state.sagas id).crash, []⟩

namespace Call

/-- The next operation destroys the key, or verifies that it is destroyed. -/
def Destroying (call : Call) : Prop :=
  match call.program with
  | .call (.own _ (.destroyHighestKey _)) _ => True
  | .call (.own _ (.verifyKeyAbsent _)) _ => True
  | _ => False

/-- The call found no open saga, and has neither entered its key nor ended. -/
def Underway (call : Call) : Prop :=
  call.phase = .underway ∧
    match call.program with
    | .done _ => False
    | .call _ _ => True

instance : DecidablePred Call.Destroying := fun call => by
  unfold Destroying
  split <;> infer_instance

instance : DecidablePred Call.Underway := fun call => by
  unfold Underway
  cases call.program <;> infer_instance

end Call

def SameErasure (left right : IdentifiedRequest) : Prop :=
  left.target = right.target ∧ left.mode = right.mode

instance (left right : IdentifiedRequest) : Decidable (SameErasure left right) :=
  inferInstanceAs (Decidable (_ ∧ _))

/-- Every request is answered about an erasure of its own target and mode, and the key of a
target is destroyed by one call at a time. -/
structure CoreState.OneSagaPerTarget (state : CoreState) : Prop where
  answered : ∀ call ∈ state.calls, ∀ req id receipt, call.task = .erase req →
    call.program = .done (some (.ok (id, receipt))) →
      (∃ other, .erase other ∈ state.tasks ∧ other.erasureId = id) ∧
      ∀ other, .erase other ∈ state.tasks → other.erasureId = id → SameErasure other req
  exclusive : ∀ (index index' : Nat) (call call' : Call) (req req' : IdentifiedRequest),
    index ≠ index' → state.calls[index]? = some call → state.calls[index']? = some call' →
    call.task = .erase req → call'.task = .erase req' → SameErasure req req' →
    call.Destroying → ¬ call'.Destroying

/-- The erasure id tells the requests apart, and so do the bytes of the target; their hashes
do not collide. -/
structure TellsApart (core : ErasureCore) (left right : IdentifiedRequest) : Prop where
  ids : left.erasureId = right.erasureId → SameErasure left right
  bytes : canonicalTargetBytes left.target = canonicalTargetBytes right.target →
    left.mode = right.mode → left.target = right.target
  hash : core.openKey left = core.openKey right →
    canonicalTargetBytes left.target = canonicalTargetBytes right.target ∧ left.mode = right.mode

instance (core : ErasureCore) (left right : IdentifiedRequest) :
    Decidable (TellsApart core left right) :=
  decidable_of_iff
    ((left.erasureId = right.erasureId → SameErasure left right) ∧
      (canonicalTargetBytes left.target = canonicalTargetBytes right.target →
        left.mode = right.mode → left.target = right.target) ∧
      (core.openKey left = core.openKey right →
        canonicalTargetBytes left.target = canonicalTargetBytes right.target ∧
          left.mode = right.mode))
    ⟨fun holds => ⟨holds.1, holds.2.1, holds.2.2⟩,
      fun apart => ⟨apart.ids, apart.bytes, apart.hash⟩⟩

def IdentifiedRequest.erases (req : IdentifiedRequest) : Bool :=
  decide (evaluateRetention req.mode req.attestation = .proceedErase)

/-- The next operation of the call will find no open saga. -/
def CoreState.Misses (state : CoreState) (call : Call) : Prop :=
  match call.program with
  | .call (.getOpenKey key) _ => state.openKeys key = none
  | .call (.getActive id) _ => (state.sagas id).active.isNone = true
  | _ => False

instance (state : CoreState) (call : Call) : Decidable (state.Misses call) := by
  unfold CoreState.Misses
  split <;> infer_instance

/-- Both requests destroy the key of the same target. -/
def Call.Contends (call other : Call) : Bool :=
  match call.task, other.task with
  | .erase req, .erase req' => decide (SameErasure req req') && req.erases && req'.erases
  | _, _ => false

/-- Requests are told apart, and none that destroys a key goes on without an open saga while another
for the same target is about to enter its key. -/
def ErasureCore.admissibleCall (core : ErasureCore) (state : CoreState) : CoreEvent → Prop
  | .start (.erase req) =>
    ∀ task ∈ state.tasks, match task with
      | .erase other => TellsApart core other req
      | _ => True
  | .step index _ =>
    ∀ call ∈ state.calls[index]?, state.Misses call →
      ∀ index' < state.calls.length, index' ≠ index →
        ∀ other ∈ state.calls[index']?, call.Contends other = true → ¬ other.Underway
  | _ => True

end Contextra.Erasure
