import Mathlib

/-!
# Open addressing

A hash table whose cells are empty, deleted or occupied.  Every key has a path of cells that a
search follows until it finds the key or an empty cell; an insertion takes the first cell of the
path that is not occupied.  `Reachable` is the invariant, and a key that stands in one cell only is
found there.
-/

namespace Contextra.Library

open List Function

inductive Cell (κ ν : Type*) where
  | empty
  | deleted
  | occupied (key : κ) (value : ν)
  deriving DecidableEq, Repr

/-- The cells from `start` on, around the end of the table. -/
def probePath (start capacity : Nat) : List Nat :=
  (List.range capacity).map fun i => (start + i) % capacity

theorem mem_probePath {start capacity position : Nat} (inside : position < capacity) :
    position ∈ probePath start capacity := by
  have positive : 0 < capacity := Nat.zero_lt_of_lt inside
  have below : start % capacity < capacity := Nat.mod_lt _ positive
  have sum : start % capacity + (position + capacity - start % capacity) = position + capacity := by
    omega
  refine mem_map.mpr ⟨(position + capacity - start % capacity) % capacity, ?_, ?_⟩
  · exact mem_range.mpr (Nat.mod_lt _ positive)
  · rw [Nat.add_mod_mod, ← Nat.mod_add_mod, sum, Nat.add_mod_right, Nat.mod_eq_of_lt inside]

theorem lt_of_mem_probePath {start capacity position : Nat}
    (mem : position ∈ probePath start capacity) : position < capacity := by
  obtain ⟨i, inside, rfl⟩ := mem_map.mp mem
  exact Nat.mod_lt _ (Nat.zero_lt_of_lt (mem_range.mp inside))

section Probing

variable {κ ν : Type*}

def Cell.isOccupied : Cell κ ν → Bool
  | .occupied _ _ => true
  | _ => false

def Cell.isDeleted : Cell κ ν → Bool
  | .deleted => true
  | _ => false

theorem countP_range_update {α : Type*} (test : α → Bool) (values : Nat → α)
    {capacity position : Nat} (inside : position < capacity) (value : α) :
    (List.range capacity).countP (fun place => test (Function.update values position value place)) +
        (if test (values position) then 1 else 0) =
      (List.range capacity).countP (fun place => test (values place)) +
        if test value then 1 else 0 := by
  have below : ∀ bound ≤ position,
      (List.range bound).countP (fun place => test (Function.update values position value place)) =
        (List.range bound).countP fun place => test (values place) := by
    intro bound outside
    refine countP_congr fun other mem => ?_
    have different : other ≠ position := by
      have := mem_range.mp mem
      omega
    simp [update_of_ne different]
  induction capacity with
  | zero => cases inside
  | succ capacity ih =>
    simp only [range_succ, countP_append, countP_singleton]
    rcases Nat.lt_succ_iff_lt_or_eq.mp inside with earlier | rfl
    · have later : capacity ≠ position := by omega
      rw [update_of_ne later]
      have := ih earlier
      omega
    · rw [below position le_rfl, update_self]
      omega

/-- How many of the first `capacity` cells are occupied. -/
def occupancy (cells : Nat → Cell κ ν) (capacity : Nat) : Nat :=
  (List.range capacity).countP fun position => (cells position).isOccupied

theorem occupancy_update (cells : Nat → Cell κ ν) {capacity position : Nat}
    (inside : position < capacity) (cell : Cell κ ν) :
    occupancy (Function.update cells position cell) capacity +
        (if (cells position).isOccupied then 1 else 0) =
      occupancy cells capacity + if cell.isOccupied then 1 else 0 :=
  countP_range_update Cell.isOccupied cells inside cell

theorem exists_free_of_occupancy_lt {cells : Nat → Cell κ ν} {capacity : Nat}
    (notFull : occupancy cells capacity < capacity) :
    ∃ position < capacity, (cells position).isOccupied = false := by
  by_contra none
  push Not at none
  have full : occupancy cells capacity = (List.range capacity).length := by
    apply countP_eq_length.mpr
    intro position mem
    simpa using none position (mem_range.mp mem)
  rw [length_range] at full
  omega

def freeFrom (cells : Nat → Cell κ ν) : List Nat → Option Nat
  | [] => none
  | position :: path =>
    match cells position with
    | .occupied _ _ => freeFrom cells path
    | _ => some position

variable {cells : Nat → Cell κ ν} {key : κ} {value : ν} {path : List Nat} {position : Nat}

theorem freeFrom_eq_some (found : freeFrom cells path = some position) :
    ∃ before after, path = before ++ position :: after ∧
      (∀ earlier ∈ before, cells earlier ≠ .empty) ∧
      ∀ key value, cells position ≠ .occupied key value := by
  induction path with
  | nil => cases found
  | cons first path ih =>
    rw [freeFrom] at found
    split at found
    · rename_i other value isOther
      obtain ⟨before, after, split, reached, free⟩ := ih found
      refine ⟨first :: before, after, by rw [split, cons_append], ?_, free⟩
      intro earlier mem
      rcases mem_cons.mp mem with rfl | later
      · simp [isOther]
      · exact reached earlier later
    · rename_i free
      cases found
      exact ⟨[], path, rfl, by simp, fun key value isOccupied => free key value isOccupied⟩

theorem freeFrom_isSome (mem : position ∈ path)
    (free : ∀ key value, cells position ≠ .occupied key value) :
    ∃ found, freeFrom cells path = some found := by
  induction path with
  | nil => cases mem
  | cons first path ih =>
    rw [freeFrom]
    split
    · rename_i other value isOther
      rcases mem_cons.mp mem with rfl | later
      · exact absurd isOther (free other value)
      · exact ih later
    · exact ⟨first, rfl⟩

/-- Every occupied cell is on the path of its key, behind cells that are not empty. -/
def Reachable (home : κ → List Nat) (cells : Nat → Cell κ ν) : Prop :=
  ∀ position key value, cells position = .occupied key value →
    ∃ before after, home key = before ++ position :: after ∧
      ∀ earlier ∈ before, cells earlier ≠ .empty

/-- No key stands in two cells. -/
def Single (cells : Nat → Cell κ ν) : Prop :=
  ∀ left right key first second, cells left = .occupied key first →
    cells right = .occupied key second → left = right

def Present (cells : Nat → Cell κ ν) (key : κ) : Prop :=
  ∃ position value, cells position = .occupied key value

variable {home : κ → List Nat}

theorem Reachable.insert (reachable : Reachable home cells)
    (found : freeFrom cells (home key) = some position) (value : ν) :
    Reachable home (Function.update cells position (.occupied key value)) := by
  obtain ⟨before, after, split, reached, -⟩ := freeFrom_eq_some found
  have stays : ∀ earlier, cells earlier ≠ .empty →
      Function.update cells position (.occupied key value) earlier ≠ .empty := by
    intro earlier notEmpty
    by_cases same : earlier = position
    · simp [same]
    · rwa [update_of_ne same]
  intro other otherKey otherValue occupied
  by_cases same : other = position
  · subst same
    rw [update_self] at occupied
    cases occupied
    exact ⟨before, after, split, fun earlier mem => stays earlier (reached earlier mem)⟩
  · rw [update_of_ne same] at occupied
    obtain ⟨before', after', split', reached'⟩ := reachable other otherKey otherValue occupied
    exact ⟨before', after', split', fun earlier mem =>
      stays earlier (reached' earlier mem)⟩

theorem Reachable.delete (reachable : Reachable home cells) (position : Nat) :
    Reachable home (Function.update cells position .deleted) := by
  intro other otherKey otherValue occupied
  have different : other ≠ position := by
    rintro rfl
    simp at occupied
  rw [update_of_ne different] at occupied
  obtain ⟨before, after, split, reached⟩ := reachable other otherKey otherValue occupied
  refine ⟨before, after, split, fun earlier mem => ?_⟩
  by_cases same : earlier = position
  · simp [same]
  · rw [update_of_ne same]
    exact reached earlier mem

theorem Single.insert (single : Single cells) (absent : ¬ Present cells key) (position : Nat)
    (value : ν) : Single (Function.update cells position (.occupied key value)) := by
  intro left right other first second isLeft isRight
  by_cases atLeft : left = position
  · by_cases atRight : right = position
    · rw [atLeft, atRight]
    · subst atLeft
      rw [update_self] at isLeft
      cases isLeft
      rw [update_of_ne atRight] at isRight
      exact absurd ⟨right, second, isRight⟩ absent
  · rw [update_of_ne atLeft] at isLeft
    by_cases atRight : right = position
    · subst atRight
      rw [update_self] at isRight
      cases isRight
      exact absurd ⟨left, first, isLeft⟩ absent
    · rw [update_of_ne atRight] at isRight
      exact single left right other first second isLeft isRight

theorem Single.delete (single : Single cells) (position : Nat) :
    Single (Function.update cells position .deleted) := by
  have old : ∀ other key value,
      Function.update cells position .deleted other = .occupied key value →
        cells other = .occupied key value := by
    intro other key value occupied
    by_cases same : other = position
    · simp [same] at occupied
    · rwa [update_of_ne same] at occupied
  intro left right key first second isLeft isRight
  exact single left right key first second (old left key first isLeft) (old right key second isRight)

section Search

variable [DecidableEq κ]

/-- The search for a key along a path. -/
def findFrom (cells : Nat → Cell κ ν) (key : κ) : List Nat → Option Nat
  | [] => none
  | position :: path =>
    match cells position with
    | .empty => none
    | .deleted => findFrom cells key path
    | .occupied other _ => if other = key then some position else findFrom cells key path

theorem findFrom_eq_some (found : findFrom cells key path = some position) :
    position ∈ path ∧ ∃ value, cells position = .occupied key value := by
  induction path with
  | nil => cases found
  | cons first path ih =>
    rw [findFrom] at found
    split at found
    · cases found
    · obtain ⟨later, isThere⟩ := ih found
      exact ⟨mem_cons_of_mem _ later, isThere⟩
    · rename_i other value isOther
      split at found
      · rename_i same
        cases found
        exact ⟨mem_cons_self, value, same ▸ isOther⟩
      · obtain ⟨later, isThere⟩ := ih found
        exact ⟨mem_cons_of_mem _ later, isThere⟩

theorem findFrom_isSome {before after : List Nat} (occupied : cells position = .occupied key value)
    (reached : ∀ earlier ∈ before, cells earlier ≠ .empty) :
    ∃ found, findFrom cells key (before ++ position :: after) = some found := by
  induction before with
  | nil => exact ⟨position, by simp [findFrom, occupied]⟩
  | cons first before ih =>
    have later := ih fun earlier mem =>
      reached earlier (mem_cons_of_mem _ mem)
    rw [cons_append, findFrom]
    split
    · rename_i isEmpty
      exact absurd isEmpty (reached first mem_cons_self)
    · exact later
    · split
      · exact ⟨first, rfl⟩
      · exact later

theorem Reachable.find_isSome_iff (reachable : Reachable home cells) :
    (∃ found, findFrom cells key (home key) = some found) ↔ Present cells key := by
  constructor
  · rintro ⟨found, isFound⟩
    obtain ⟨-, value, occupied⟩ := findFrom_eq_some isFound
    exact ⟨found, value, occupied⟩
  · rintro ⟨position, value, occupied⟩
    obtain ⟨before, after, split, reached⟩ := reachable position key value occupied
    rw [split]
    exact findFrom_isSome occupied reached

theorem findFrom_update_of_some {cell : Cell κ ν} {empty : Nat} (isEmpty : cells empty = .empty)
    (found : findFrom cells key path = some position) :
    findFrom (Function.update cells empty cell) key path = some position := by
  induction path with
  | nil => cases found
  | cons first path ih =>
    have different : first ≠ empty := by
      rintro rfl
      simp [findFrom, isEmpty] at found
    rw [findFrom, update_of_ne different]
    rw [findFrom] at found
    split at found
    · cases found
    · exact ih found
    · rename_i other value isOther
      split at found
      · rename_i same
        exact (if_pos same).trans found
      · rename_i differs
        exact (if_neg differs).trans (ih found)

theorem Reachable.find_insert_of_none (reachable : Reachable home cells)
    (free : freeFrom cells (home key) = some position) (value : ν) {other : κ}
    (missing : findFrom cells other (home other) = none) :
    findFrom (Function.update cells position (.occupied key value)) other (home other) =
      if key = other then some position else none := by
  have absent : ¬ Present cells other := by
    rw [← reachable.find_isSome_iff, missing]
    simp
  have stands : ∀ place found,
      Function.update cells position (.occupied key value) place = .occupied other found →
        place = position ∧ key = other := by
    intro place found occupied
    by_cases same : place = position
    · subst same
      rw [update_self] at occupied
      cases occupied
      exact ⟨rfl, rfl⟩
    · rw [update_of_ne same] at occupied
      exact absurd ⟨place, found, occupied⟩ absent
  have after : (∃ found, findFrom (Function.update cells position (.occupied key value)) other
      (home other) = some found) ↔
        Present (Function.update cells position (.occupied key value)) other :=
    (reachable.insert free value).find_isSome_iff
  by_cases same : key = other
  · subst same
    obtain ⟨place, isFound⟩ := after.mpr ⟨position, value, update_self ..⟩
    obtain ⟨-, found, occupied⟩ := findFrom_eq_some isFound
    rw [if_pos rfl, isFound, (stands place found occupied).1]
  · rw [if_neg same]
    by_contra isSome
    obtain ⟨place, isFound⟩ := Option.ne_none_iff_exists'.mp isSome
    obtain ⟨-, found, occupied⟩ := findFrom_eq_some isFound
    exact same (stands place found occupied).2

end Search

end Probing

end Contextra.Library
