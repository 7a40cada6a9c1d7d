import Mathlib

/-!
# Binary search

The search over the positions of a window where a probe may fail, and the walk back from a
match to the first one.  On a sorted list both end at `lowerBound`, the number of elements
below the key.
-/

namespace Contextra.Library

open List Option

/-- The position of a match, or the position where one would be inserted. -/
inductive SearchResult where
  | found (position : Nat)
  | missing (position : Nat)
  deriving DecidableEq, Repr

def SearchResult.position : SearchResult → Nat
  | .found position => position
  | .missing position => position

section Search

variable {ε : Type*}

/-- The middle of a window, computed without overflow. -/
def midpoint (low high : Nat) : Nat := low + (high - low) / 2

theorem midpoint_mem {low high : Nat} (nonempty : low < high) :
    low ≤ midpoint low high ∧ midpoint low high < high := by
  unfold midpoint
  omega

/-- The search between `low` and `high`; the probe compares the element at a position with
the key. -/
def binarySearch (probe : Nat → Except ε Ordering) (low high : Nat) : Except ε SearchResult :=
  if nonempty : low < high then
    have := midpoint_mem nonempty
    match probe (midpoint low high) with
    | .error error => .error error
    | .ok .lt => binarySearch probe (midpoint low high + 1) high
    | .ok .gt => binarySearch probe low (midpoint low high)
    | .ok .eq => .ok (.found (midpoint low high))
  else .ok (.missing low)
termination_by high - low

/-- While the element before the position passes the test, the position moves back. -/
def rewind (again : Nat → Except ε Bool) : Nat → Except ε Nat
  | 0 => .ok 0
  | position + 1 =>
    match again position with
    | .error error => .error error
    | .ok true => rewind again position
    | .ok false => .ok (position + 1)

/-- What a search may return when the elements below the key come first and those above it
come last. -/
inductive Locates (order : Nat → Ordering) (size : Nat) : SearchResult → Prop where
  | found {position : Nat} (inside : position < size) (hit : order position = .eq) :
      Locates order size (.found position)
  | missing {position : Nat} (inside : position ≤ size)
      (below : ∀ earlier < position, order earlier = .lt)
      (above : ∀ later, position ≤ later → later < size → order later = .gt) :
      Locates order size (.missing position)

theorem binarySearch_locates {probe : Nat → Except ε Ordering} {order : Nat → Ordering} {size : Nat}
    (reads : ∀ position < size, probe position = .ok (order position))
    (risesBelow : ∀ left right, left ≤ right → right < size → order right = .lt → order left = .lt)
    (risesAbove : ∀ left right, left ≤ right → right < size → order left = .gt →
      order right = .gt)
    {low high : Nat} (ordered : low ≤ high) (inside : high ≤ size)
    (below : ∀ earlier < low, order earlier = .lt)
    (above : ∀ later, high ≤ later → later < size → order later = .gt) :
    ∃ result, binarySearch probe low high = .ok result ∧ Locates order size result := by
  fun_induction binarySearch probe low high with
  | case1 low high nonempty within error failed =>
    rw [reads _ (by omega)] at failed
    cases failed
  | case2 low high nonempty within isLess ih =>
    rw [reads _ (by omega)] at isLess
    apply ih (by omega) inside _ above
    intro earlier before
    exact risesBelow earlier _ (by omega) (by omega) (Except.ok.inj isLess)
  | case3 low high nonempty within isGreater ih =>
    rw [reads _ (by omega)] at isGreater
    apply ih (by omega) (by omega) below
    intro later behind inList
    exact risesAbove _ later behind inList (Except.ok.inj isGreater)
  | case4 low high nonempty within isEqual =>
    rw [reads _ (by omega)] at isEqual
    exact ⟨_, rfl, .found (by omega) (Except.ok.inj isEqual)⟩
  | case5 low high empty =>
    obtain rfl : low = high := by omega
    exact ⟨_, rfl, .missing inside below above⟩

theorem rewind_eq {again : Nat → Except ε Bool} {first position : Nat} (behind : first ≤ position)
    (passes : ∀ earlier, first ≤ earlier → earlier < position → again earlier = .ok true)
    (stops : ∀ earlier, earlier + 1 = first → again earlier = .ok false) :
    rewind again position = .ok first := by
  induction position with
  | zero =>
    obtain rfl : first = 0 := by omega
    rfl
  | succ position ih =>
    rcases Nat.lt_or_eq_of_le behind with inside | rfl
    · rw [rewind, passes position (by omega) (by omega)]
      exact ih (by omega) fun earlier from' before =>
        passes earlier from' (by omega)
    · rw [rewind, stops position rfl]

end Search

section Sorted

variable {α ε : Type*} [LinearOrder α]

/-- The number of elements below the key, when they come first. -/
def lowerBound (keys : List α) (key : α) : Nat := (keys.takeWhile (· < key)).length

theorem lowerBound_le (keys : List α) (key : α) : lowerBound keys key ≤ keys.length :=
  (List.takeWhile_prefix _).length_le

variable {position : Nat}

theorem lt_lowerBound_iff {keys : List α} (sorted : keys.Pairwise (· ≤ ·)) {key : α}
    (inside : position < keys.length) :
    position < lowerBound keys key ↔ keys[position] < key := by
  induction keys generalizing position with
  | nil => cases inside
  | cons first keys ih =>
    rw [pairwise_cons] at sorted
    by_cases less : first < key
    · rw [lowerBound, takeWhile_cons_of_pos (by simpa using less), length_cons]
      cases position with
      | zero => simpa using less
      | succ position =>
        rw [Nat.add_lt_add_iff_right]
        exact ih sorted.2 (by simpa using inside)
    · rw [lowerBound, takeWhile_cons_of_neg (by simpa using less)]
      have notLess : ¬ (first :: keys)[position] < key := by
        cases position with
        | zero => exact less
        | succ position =>
          intro behind
          exact less ((sorted.1 _ (getElem_mem _)).trans_lt behind)
      simpa using not_lt.mp notLess

variable {keys : List α} (sorted : keys.Pairwise (· ≤ ·)) {key : α}
include sorted

theorem sorted_getElem_le {left right : Nat} (ordered : left ≤ right) (inside : right < keys.length) :
    keys[left] ≤ keys[right] := by
  rcases Nat.lt_or_eq_of_le ordered with before | rfl
  · exact pairwise_iff_getElem.mp sorted _ _ _ inside before
  · exact le_refl _

variable {probe : Nat → Except ε Ordering} {orders : α → Ordering}

theorem binarySearch_sorted (reads : ∀ position (inside : position < keys.length),
      probe position = .ok (orders keys[position]))
    (risesBelow : ∀ left right, left ≤ right → orders right = .lt → orders left = .lt)
    (risesAbove : ∀ left right, left ≤ right → orders left = .gt → orders right = .gt) :
    ∃ result, binarySearch probe 0 keys.length = .ok result ∧
      Locates (fun position => (keys[position]?.map orders).getD .gt) keys.length result := by
  apply binarySearch_locates _ _ _ (Nat.zero_le _) le_rfl (by simp) (by omega)
  · intro position inside
    rw [reads position inside, getElem?_eq_getElem inside]
    rfl
  · intro left right ordered inside isLess
    have inLeft : left < keys.length := by omega
    simp only [getElem?_eq_getElem inside, getElem?_eq_getElem inLeft, map_some,
      getD_some] at isLess ⊢
    exact risesBelow _ _ (sorted_getElem_le sorted ordered inside) isLess
  · intro left right ordered inside isGreater
    have inLeft : left < keys.length := by omega
    simp only [getElem?_eq_getElem inside, getElem?_eq_getElem inLeft, map_some,
      getD_some] at isGreater ⊢
    exact risesAbove _ _ (sorted_getElem_le sorted ordered inside) isGreater

theorem missing_eq_lowerBound (less : ∀ element, orders element = .lt ↔ element < key)
    (located : Locates (fun position => (keys[position]?.map orders).getD .gt) keys.length
      (.missing position)) : position = lowerBound keys key := by
  obtain ⟨inside, below, above⟩ : position ≤ keys.length ∧ _ ∧ _ := by
    cases located with
    | missing inside below above => exact ⟨inside, below, above⟩
  apply le_antisymm
  · by_contra behind
    have inList : lowerBound keys key < keys.length := by omega
    have isLess := below (lowerBound keys key) (by omega)
    simp only [getElem?_eq_getElem inList, map_some, getD_some, less] at isLess
    exact lt_irrefl _ ((lt_lowerBound_iff sorted inList).mpr isLess)
  · by_contra behind
    have atMost := lowerBound_le keys key
    have inList : position < keys.length := by omega
    have isGreater := above position le_rfl inList
    have isLess : keys[position] < key := (lt_lowerBound_iff sorted inList).mp (by omega)
    simp only [getElem?_eq_getElem inList, map_some, getD_some] at isGreater
    rw [(less _).mpr isLess] at isGreater
    cases isGreater

theorem binarySearch_threeWay (reads : ∀ position (inside : position < keys.length),
      probe position = .ok (orders keys[position]))
    (less : ∀ element, orders element = .lt ↔ element < key)
    (greater : ∀ element, orders element = .gt ↔ key < element) :
    ∃ result, binarySearch probe 0 keys.length = .ok result ∧
      (∀ position, result = .found position → keys[position]? = some key) ∧
      (∀ position, result = .missing position → position = lowerBound keys key) := by
  obtain ⟨result, searched, located⟩ := binarySearch_sorted sorted reads
    (fun left right ordered isLess => (less left).mpr (ordered.trans_lt ((less right).mp isLess)))
    (fun left right ordered isGreater =>
      (greater right).mpr (((greater left).mp isGreater).trans_le ordered))
  refine ⟨result, searched, ?_, ?_⟩
  · rintro position rfl
    cases located with
    | found inside hit =>
      rw [getElem?_eq_getElem inside] at hit ⊢
      simp only [map_some, getD_some] at hit
      congr 1
      apply le_antisymm
      · exact not_lt.mp fun isGreater => by simp [(greater _).mpr isGreater] at hit
      · exact not_lt.mp fun isLess => by simp [(less _).mpr isLess] at hit
  · rintro position rfl
    exact missing_eq_lowerBound sorted less located

theorem binarySearch_leftmost (reads : ∀ position (inside : position < keys.length),
      probe position = .ok (orders keys[position]))
    (less : ∀ element, orders element = .lt ↔ element < key)
    (greater : ∀ element, orders element = .gt ↔ key ≤ element) :
    binarySearch probe 0 keys.length = .ok (.missing (lowerBound keys key)) := by
  obtain ⟨result, searched, located⟩ := binarySearch_sorted sorted reads
    (fun left right ordered isLess => (less left).mpr (ordered.trans_lt ((less right).mp isLess)))
    (fun left right ordered isGreater =>
      (greater right).mpr (((greater left).mp isGreater).trans ordered))
  cases result with
  | missing position => rw [searched, missing_eq_lowerBound sorted less located]
  | found position =>
    cases located with
    | found inside hit =>
      rw [getElem?_eq_getElem inside] at hit
      simp only [map_some, getD_some] at hit
      rcases lt_or_ge keys[position] key with isLess | isGreater
      · simp [(less _).mpr isLess] at hit
      · simp [(greater _).mpr isGreater] at hit

/-- From a match, or the insertion position, the walk back over elements that are not below
the key ends at the lower bound. -/
theorem rewind_lowerBound {again : Nat → Except ε Bool} (passes : α → Bool)
    (reads : ∀ earlier (inside : earlier < keys.length), earlier < position →
      again earlier = .ok (passes keys[earlier]))
    (inside : position ≤ keys.length) (behind : lowerBound keys key ≤ position)
    (keeps : ∀ earlier (inside : earlier < keys.length), earlier < position →
      key ≤ keys[earlier] → passes keys[earlier] = true)
    (stops : ∀ element, element < key → passes element = false) :
    rewind again position = .ok (lowerBound keys key) := by
  apply rewind_eq behind
  · intro earlier from' before
    have inList : earlier < keys.length := by omega
    rw [reads earlier inList before, keeps earlier inList before]
    apply not_lt.mp
    intro less
    have := (lt_lowerBound_iff sorted inList).mpr less
    omega
  · intro earlier last
    have inList : earlier < keys.length := by omega
    rw [reads earlier inList (by omega), stops]
    exact (lt_lowerBound_iff sorted inList).mp (by omega)

end Sorted

end Contextra.Library
