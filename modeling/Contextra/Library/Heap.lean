import Mathlib

/-!
# Priority queues

A heap is the list of its elements in the order in which it keeps them.  It hands out a greatest
element; which one of several, and the order of the others, is its own affair.
-/

namespace Contextra.Library

open List

structure Heap (α : Type) (le : α → α → Bool) where
  push : α → List α → List α
  pop : List α → Option (α × List α)
  push_perm : ∀ a heap, (push a heap).Perm (a :: heap)
  pop_perm : ∀ heap greatest rest, pop heap = some (greatest, rest) →
    (greatest :: rest).Perm heap
  pop_greatest : ∀ heap greatest rest, pop heap = some (greatest, rest) →
    ∀ a ∈ rest, le a greatest = true
  pop_eq_none : ∀ heap, pop heap = none → heap = []

namespace Heap

variable {α : Type} {le : α → α → Bool} (queue : Heap α le)

def peek (heap : List α) : Option α := (queue.pop heap).map Prod.fst

variable {queue} {heap rest : List α} {a greatest : α}

theorem mem_push {b : α} : b ∈ queue.push a heap ↔ b = a ∨ b ∈ heap :=
  (queue.push_perm a heap).mem_iff.trans mem_cons

theorem length_push : (queue.push a heap).length = heap.length + 1 :=
  (queue.push_perm a heap).length_eq

theorem mem_of_pop (popped : queue.pop heap = some (greatest, rest)) : greatest ∈ heap :=
  (queue.pop_perm heap greatest rest popped).mem_iff.mp mem_cons_self

theorem subset_of_pop (popped : queue.pop heap = some (greatest, rest)) : rest ⊆ heap :=
  fun _ isRest => (queue.pop_perm heap greatest rest popped).mem_iff.mp
    (mem_cons_of_mem _ isRest)

theorem length_of_pop (popped : queue.pop heap = some (greatest, rest)) :
    rest.length + 1 = heap.length := (queue.pop_perm heap greatest rest popped).length_eq

def popGreatest (le : α → α → Bool) : List α → Option (α × List α)
  | [] => none
  | a :: heap =>
    match popGreatest le heap with
    | none => some (a, [])
    | some (greatest, rest) =>
      if le greatest a then some (a, greatest :: rest) else some (greatest, a :: rest)

theorem popGreatest_eq_none (none : popGreatest le heap = none) : heap = [] := by
  cases heap with
  | nil => rfl
  | cons a heap =>
    rw [popGreatest] at none
    split at none
    · cases none
    · split at none <;> cases none

theorem popGreatest_perm (popped : popGreatest le heap = some (greatest, rest)) :
    (greatest :: rest).Perm heap := by
  induction heap generalizing greatest rest with
  | nil => cases popped
  | cons a heap ih =>
    rw [popGreatest] at popped
    split at popped
    · rename_i noneLeft
      cases popped
      rw [popGreatest_eq_none noneLeft]
    · rename_i other others isOther
      have perm := ih isOther
      split at popped
      · cases popped
        exact perm.cons a
      · cases popped
        exact (List.Perm.swap a greatest others).trans (perm.cons a)

theorem popGreatest_greatest (total : ∀ a b, le a b = true ∨ le b a = true)
    (trans : ∀ a b c, le a b = true → le b c = true → le a c = true)
    (popped : popGreatest le heap = some (greatest, rest)) : ∀ a ∈ rest, le a greatest = true := by
  induction heap generalizing greatest rest with
  | nil => cases popped
  | cons a heap ih =>
    rw [popGreatest] at popped
    split at popped
    · cases popped
      exact fun _ isRest => absurd isRest not_mem_nil
    · rename_i other others isOther
      have others := ih isOther
      split at popped
      · rename_i above
        cases popped
        intro b isRest
        rcases mem_cons.mp isRest with rfl | isOther
        · exact above
        · exact trans _ _ _ (others b isOther) above
      · rename_i below
        cases popped
        intro b isRest
        rcases mem_cons.mp isRest with rfl | isOther
        · exact (total b greatest).resolve_right below
        · exact others b isOther

def searched (le : α → α → Bool) (total : ∀ a b, le a b = true ∨ le b a = true)
    (trans : ∀ a b c, le a b = true → le b c = true → le a c = true) : Heap α le where
  push := List.cons
  pop := popGreatest le
  push_perm _ _ := List.Perm.refl _
  pop_perm _ _ _ := popGreatest_perm
  pop_greatest _ _ _ := popGreatest_greatest total trans
  pop_eq_none _ := popGreatest_eq_none

end Heap

end Contextra.Library
