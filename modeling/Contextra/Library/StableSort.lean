import Mathlib

/-!
# Stable sorting

A sort by key that keeps elements of one key in their order.  The result is the one sorted list
with the same elements of each key, so sorting again after an insertion or a removal gives the
same list as sorting once at the end.
-/

namespace Contextra.Library

open List

variable {α κ : Type} [LinearOrder κ] (key : α → κ)

def sortByKey (list : List α) : List α := list.insertionSort fun a b => key a ≤ key b

abbrev SortedByKey (list : List α) : Prop := list.Pairwise fun a b => key a ≤ key b

theorem sortByKey_sorted (list : List α) : SortedByKey key (sortByKey key list) := by
  have total : Std.Total fun a b : α => key a ≤ key b := ⟨fun a b => le_total (key a) (key b)⟩
  have trans : IsTrans α fun a b => key a ≤ key b := ⟨fun _ _ _ => le_trans⟩
  exact pairwise_insertionSort _ _

theorem filter_orderedInsert (k : κ) (a : α) (list : List α) :
    (list.orderedInsert (fun a b => key a ≤ key b) a).filter (key · = k) =
      (a :: list).filter (key · = k) := by
  induction list with
  | nil => rfl
  | cons head tail ih =>
    rw [orderedInsert_cons]
    split
    · rfl
    · rename_i above
      have different : key a ≠ key head := fun same => above same.le
      rw [filter_cons, ih]
      by_cases sameHead : key head = k
      · have notA : key a ≠ k := fun same => different (same.trans sameHead.symm)
        simp [sameHead, notA]
      · simp [filter_cons, sameHead]

@[simp] theorem filter_sortByKey (k : κ) (list : List α) :
    (sortByKey key list).filter (key · = k) = list.filter (key · = k) := by
  induction list with
  | nil => rfl
  | cons head tail ih =>
    have step : sortByKey key (head :: tail) =
        (sortByKey key tail).orderedInsert (fun a b => key a ≤ key b) head := rfl
    rw [step, filter_orderedInsert, filter_cons, ih, filter_cons]

variable {key}

theorem eq_of_sortedByKey {left right : List α} (sortedLeft : SortedByKey key left)
    (sortedRight : SortedByKey key right)
    (same : ∀ k, left.filter (key · = k) = right.filter (key · = k)) : left = right := by
  induction left generalizing right with
  | nil =>
    cases right with
    | nil => rfl
    | cons head tail => simpa using same (key head)
  | cons a left ih =>
    cases right with
    | nil => simpa using same (key a)
    | cons b right =>
      obtain ⟨leastLeft, restLeft⟩ := pairwise_cons.mp sortedLeft
      obtain ⟨leastRight, restRight⟩ := pairwise_cons.mp sortedRight
      have bBelow : key b ≤ key a := by
        have inRight : a ∈ (b :: right).filter (key · = key a) := by
          rw [← same]
          simp
        rcases mem_cons.mp (mem_filter.mp inRight).1 with rfl | later
        · exact le_rfl
        · exact leastRight a later
      have aBelow : key a ≤ key b := by
        have inLeft : b ∈ (a :: left).filter (key · = key b) := by
          rw [same]
          simp
        rcases mem_cons.mp (mem_filter.mp inLeft).1 with rfl | later
        · exact le_rfl
        · exact leastLeft b later
      have sameKey : key a = key b := le_antisymm aBelow bBelow
      have heads := same (key a)
      simp only [filter_cons, sameKey, decide_true, if_true, List.cons.injEq] at heads
      obtain ⟨rfl, -⟩ := heads
      congr 1
      apply ih restLeft restRight
      intro k
      have rest := same k
      rw [filter_cons, filter_cons] at rest
      split at rest
      · exact (List.cons.inj rest).2
      · exact rest

theorem eq_sortByKey {sorted list : List α} (isSorted : SortedByKey key sorted)
    (same : ∀ k, sorted.filter (key · = k) = list.filter (key · = k)) :
    sorted = sortByKey key list :=
  eq_of_sortedByKey isSorted (sortByKey_sorted key list) fun k => by rw [filter_sortByKey, same]

theorem sortByKey_append (list : List α) (a : α) :
    sortByKey key (sortByKey key list ++ [a]) = sortByKey key (list ++ [a]) := by
  apply eq_sortByKey (sortByKey_sorted key _)
  intro k
  simp [filter_append]

theorem filter_sortByKey_comm (keep : α → Bool) (list : List α) :
    (sortByKey key list).filter keep = sortByKey key (list.filter keep) := by
  apply eq_sortByKey ((sortByKey_sorted key list).sublist filter_sublist)
  intro k
  rw [filter_comm, filter_sortByKey, filter_comm]

theorem mem_sortByKey {list : List α} {a : α} : a ∈ sortByKey key list ↔ a ∈ list :=
  mem_insertionSort _

end Contextra.Library
