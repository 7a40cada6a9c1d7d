import Contextra.Erasure.Types

/-!
# The states of an erasure

The state machine of `machine.rs`.
-/

namespace Contextra.Erasure

inductive SagaState where
  | requested
  | gated
  | keyDestroyed
  | purging
  | verifying
  | completed
  | restricted
  | lifted
  | pending
  | refused
  deriving DecidableEq, Repr

namespace SagaState

def text : SagaState → String
  | requested => "Requested"
  | gated => "Gated"
  | keyDestroyed => "KeyDestroyed"
  | purging => "Purging"
  | verifying => "Verifying"
  | completed => "Completed"
  | restricted => "Restricted"
  | lifted => "Lifted"
  | pending => "Pending"
  | refused => "Refused"

def isTerminal : SagaState → Bool
  | completed => true
  | refused => true
  | lifted => true
  | _ => false

def canTransitionTo : SagaState → SagaState → Bool
  | requested, gated => true
  | requested, restricted => true
  | requested, refused => true
  | requested, pending => true
  | gated, keyDestroyed => true
  | gated, purging => true
  | gated, pending => true
  | keyDestroyed, purging => true
  | keyDestroyed, pending => true
  | purging, verifying => true
  | purging, pending => true
  | verifying, completed => true
  | verifying, pending => true
  | restricted, lifted => true
  | restricted, gated => true
  | restricted, pending => true
  | pending, gated => true
  | pending, keyDestroyed => true
  | pending, purging => true
  | pending, verifying => true
  | before, after => decide (before = after)

end SagaState

/-- The saga of one erasure; its identity is the system's. -/
structure EraseSaga where
  state : SagaState
  pendingReason : Option PendingReason
  deriving DecidableEq

namespace EraseSaga

def withId : EraseSaga := ⟨.requested, none⟩

def withState (state : SagaState) : EraseSaga := ⟨state, none⟩

def transitionWithReason (saga : EraseSaga) (next : SagaState) (reason : Option PendingReason) :
    Except ErasureError EraseSaga :=
  if saga.state.canTransitionTo next then .ok ⟨next, reason⟩
  else .error (.invalidTransition saga.state.text next.text)

def transitionTo (saga : EraseSaga) (next : SagaState) : Except ErasureError EraseSaga :=
  saga.transitionWithReason next none

theorem transitionWithReason_eq_ok {saga after : EraseSaga} {next : SagaState}
    {reason : Option PendingReason} (moved : saga.transitionWithReason next reason = .ok after) :
    after = ⟨next, reason⟩ := by
  unfold transitionWithReason at moved
  split at moved
  · exact (Except.ok.inj moved).symm
  · cases moved

end EraseSaga

end Contextra.Erasure
