import Mathlib

/-!
# Steps with a guarded accumulator

A step that may refuse its result when it is too large, and the same step without the guard.  Where
the accumulator never shrinks the guarded steps together refuse what is too large at the end, and
otherwise do what the steps without the guard do.
-/

namespace Contextra.Library

variable {Acc ε Item : Type} (size : Acc → Nat) (limit : Nat) (refusal : ε)

def bounded (acc : Acc) : Except ε Acc := if limit < size acc then .error refusal else .ok acc

/-- The guarded step does what the other does, up to the guard on the result. -/
structure Guards (free guarded : Acc → Except ε Acc) : Prop where
  grows : ∀ before after, free before = .ok after → size before ≤ size after
  bounds : ∀ before after, free before = .ok after → size before ≤ limit →
    guarded before = bounded size limit refusal after

variable {size limit refusal}

theorem bounded_of_le {acc : Acc} (fits : size acc ≤ limit) : bounded size limit refusal acc = .ok acc :=
  if_neg (not_lt.mpr fits)

theorem bounded_of_lt {acc : Acc} (large : limit < size acc) :
    bounded size limit refusal acc = .error refusal :=
  if_pos large

namespace Guards

variable {free guarded nextFree nextGuarded : Acc → Except ε Acc}

theorem skip : Guards size limit refusal (fun acc => .ok acc) (fun acc => .ok acc) where
  grows before after same := by
    cases same
    exact le_rfl
  bounds before after same fits := by
    cases same
    exact (bounded_of_le fits).symm

theorem check {step : Acc → Acc} (grows : ∀ acc, size acc ≤ size (step acc)) :
    Guards size limit refusal (fun acc => .ok (step acc))
      fun acc => bounded size limit refusal (step acc) where
  grows before after same := by
    cases same
    exact grows before
  bounds before after same _ := by
    cases same
    rfl

theorem bind (first : Guards size limit refusal free guarded)
    (second : Guards size limit refusal nextFree nextGuarded) :
    Guards size limit refusal (fun acc => free acc >>= nextFree)
      fun acc => guarded acc >>= nextGuarded where
  grows before after both := by
    cases half : free before with
    | error error =>
      rw [half] at both
      cases both
    | ok between =>
      rw [half] at both
      exact (first.grows before between half).trans (second.grows between after both)
  bounds before after both fits := by
    cases half : free before with
    | error error =>
      rw [half] at both
      cases both
    | ok between =>
      rw [half] at both
      have rest : nextFree between = .ok after := both
      rw [first.bounds before between half fits]
      rcases Nat.lt_or_ge limit (size between) with large | small
      · rw [bounded_of_lt large, bounded_of_lt (large.trans_le (second.grows between after rest))]
        rfl
      · rw [bounded_of_le small]
        exact second.bounds between after rest small

theorem foldlM {free guarded : Acc → Item → Except ε Acc} {items : List Item}
    (steps : ∀ item ∈ items, Guards size limit refusal (free · item) (guarded · item)) :
    Guards size limit refusal (fun acc => items.foldlM free acc)
      fun acc => items.foldlM guarded acc := by
  induction items with
  | nil => exact skip
  | cons item items ih =>
    have others := ih fun other isOther =>
      steps other (List.mem_cons_of_mem item isOther)
    exact (steps item List.mem_cons_self).bind others

end Guards

end Contextra.Library
