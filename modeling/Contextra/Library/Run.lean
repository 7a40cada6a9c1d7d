import Mathlib

/-!
# Runs of a deterministic event system

A system is a partial step function: `step state event` is `none` when the event is not enabled.
Nondeterminism, and every interleaving of tasks, is the choice of the event list.  An admissibility
predicate restricts the runs a theorem speaks about.
-/

namespace Contextra.Library

universe u v

variable {State : Type u} {Event : Type v}

/-- Execute the events in order; a disabled event ends the run with `none`. -/
def run (step : State → Event → Option State) : State → List Event → Option State
  | state, [] => some state
  | state, event :: events =>
    match step state event with
    | some next => run step next events
    | none => none

def Along (step : State → Event → Option State) (admissible : State → Event → Prop) :
    State → List Event → Prop
  | _, [] => True
  | state, event :: events =>
    admissible state event ∧
      ∀ next, step state event = some next → Along step admissible next events

instance decidableAlong {step : State → Event → Option State}
    {admissible : State → Event → Prop} [∀ state event, Decidable (admissible state event)] :
    ∀ state events, Decidable (Along step admissible state events)
  | _, [] => .isTrue trivial
  | state, event :: events =>
    have : Decidable (∀ next, step state event = some next → Along step admissible next events) :=
      match step state event with
      | none => .isTrue fun _ impossible => nomatch impossible
      | some next =>
        match decidableAlong next events with
        | .isTrue holds => .isTrue fun _ same => Option.some.inj same ▸ holds
        | .isFalse fails => .isFalse fun all => fails (all next rfl)
    inferInstanceAs (Decidable (admissible state event ∧
      ∀ next, step state event = some next → Along step admissible next events))

section Runs

variable {step : State → Event → Option State}

variable {events : List Event}

@[simp] theorem run_nil (state : State) : run step state [] = some state := rfl

theorem run_cons_eq_some {state final : State} {event : Event} :
    run step state (event :: events) = some final ↔
      ∃ next, step state event = some next ∧ run step next events = some final := by
  simp only [run]
  cases step state event <;> simp

theorem run_append {state final : State} {first second : List Event} :
    run step state (first ++ second) = some final ↔
      ∃ middle, run step state first = some middle ∧ run step middle second = some final := by
  induction first generalizing state with
  | nil => simp
  | cons event events ih =>
    simp only [List.cons_append, run_cons_eq_some, ih]
    constructor
    · rintro ⟨next, taken, middle, reached, finished⟩
      exact ⟨middle, ⟨next, taken, reached⟩, finished⟩
    · rintro ⟨middle, ⟨next, taken, reached⟩, finished⟩
      exact ⟨next, taken, middle, reached, finished⟩

theorem along_trivial (state : State) (events : List Event) :
    Along step (fun _ _ => True) state events := by
  induction events generalizing state with
  | nil => trivial
  | cons event events ih => exact ⟨trivial, fun next _ => ih next⟩

theorem run_invariant {admissible : State → Event → Prop} {invariant : State → Prop}
    (preserved : ∀ state event next, invariant state → admissible state event →
      step state event = some next → invariant next)
    {state final : State} (start : invariant state) (guarded : Along step admissible state events)
    (finished : run step state events = some final) : invariant final := by
  induction events generalizing state with
  | nil =>
    simp only [run_nil, Option.some.injEq] at finished
    exact finished ▸ start
  | cons event events ih =>
    obtain ⟨next, taken, rest⟩ := run_cons_eq_some.mp finished
    exact ih (preserved state event next start guarded.1 taken)
      (guarded.2 next taken) rest

theorem run_preserves (invariant : State → Prop)
    (preserved : ∀ state event next, invariant state → step state event = some next →
      invariant next)
    {state final : State} (start : invariant state)
    (finished : run step state events = some final) : invariant final :=
  run_invariant (fun state event next holds _ => preserved state event next holds) start
    (along_trivial state events) finished

end Runs

end Contextra.Library
