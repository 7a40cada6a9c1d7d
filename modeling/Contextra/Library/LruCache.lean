import Mathlib

/-!
# A cache that drops what was not used for longest

The entries stand in the order of their last use, the newest first.
-/

namespace Contextra.Library

open List

structure LruCache (κ ν : Type*) [DecidableEq κ] where
  entries : AList fun _ : κ => ν
  cap : Nat

namespace LruCache

variable {κ ν : Type*} [DecidableEq κ] (cache : LruCache κ ν)

def new (cap : Nat) : LruCache κ ν := ⟨∅, cap⟩

def len : Nat := cache.entries.entries.length

/-- The entries from the one that was not used for longest to the last used one. -/
def oldestFirst : List (Sigma fun _ : κ => ν) := cache.entries.entries.reverse

/-- Reading an entry is a use of it. -/
def get (key : κ) : Option ν × LruCache κ ν :=
  match cache.entries.lookup key with
  | some value => (some value, { cache with entries := cache.entries.insert key value })
  | none => (none, cache)

def pop (key : κ) : Option ν × LruCache κ ν :=
  (cache.entries.lookup key, { cache with entries := cache.entries.erase key })

/-- The entry that a new one takes the place of: the old entry of the key, or the oldest one
of a full cache. -/
def push (key : κ) (value : ν) : Option (κ × ν) × LruCache κ ν :=
  match cache.entries.lookup key with
  | some old => (some (key, old), { cache with entries := cache.entries.insert key value })
  | none =>
    if cache.cap ≤ cache.len then
      match cache.oldestFirst with
      | oldest :: _ =>
        (some (oldest.1, oldest.2),
          { cache with entries := (cache.entries.erase oldest.1).insert key value })
      | [] => (some (key, value), cache)
    else (none, { cache with entries := cache.entries.insert key value })

/-- A larger or smaller capacity; the oldest entries beyond it are dropped. -/
def resize (cap : Nat) : LruCache κ ν :=
  { entries := (cache.oldestFirst.take (cache.len - cap)).foldl
      (fun entries oldest => entries.erase oldest.1) cache.entries
    cap }

variable {cache} {key : κ} {value : ν}

theorem resize_of_le {cap : Nat} (room : cache.len ≤ cap) :
    cache.resize cap = { cache with cap } := by
  unfold resize
  rw [Nat.sub_eq_zero_of_le room]
  rfl

theorem insert_erase (entries : AList fun _ : κ => ν) (key : κ) (value : ν) :
    (entries.erase key).insert key value = entries.insert key value := by
  apply AList.ext
  rw [AList.entries_insert, AList.entries_insert]
  apply congrArg
  apply kerase_of_notMem_keys
  exact notMem_keys_kerase key entries.nodupKeys

theorem push_eq (room : cache.len < cache.cap ∨ (cache.entries.lookup key).isSome) :
    cache.push key value = ((cache.entries.lookup key).map fun old => (key, old),
      { cache with entries := cache.entries.insert key value }) := by
  unfold push
  cases found : cache.entries.lookup key with
  | some old => rfl
  | none =>
    rw [found] at room
    have below : cache.len < cache.cap := room.resolve_right (by simp)
    exact if_neg (Nat.not_le_of_lt below)

theorem len_pos (cache : LruCache κ ν) (present : cache.entries.lookup key = some value) :
    0 < cache.len := by
  apply length_pos_of_ne_nil
  intro empty
  have absent : cache.entries = ∅ := AList.ext empty
  rw [absent] at present
  cases present

theorem length_erase (cache : LruCache κ ν) (key : κ) :
    (cache.entries.erase key).entries.length =
      cache.len - if (cache.entries.lookup key).isSome then 1 else 0 := by
  cases found : cache.entries.lookup key with
  | none =>
    have absent : key ∉ cache.entries.entries.keys := AList.lookup_eq_none.mp found
    exact congrArg List.length (kerase_of_notMem_keys absent)
  | some value =>
    have present : key ∈ cache.entries.entries.keys := AList.lookup_isSome.mp (found ▸ rfl)
    obtain ⟨stored, front, back, -, split, erased⟩ := exists_of_kerase present
    have erasedEntries : (cache.entries.erase key).entries = front ++ back := erased
    simp [len, erasedEntries, split]

theorem length_insert (cache : LruCache κ ν) (key : κ) (value : ν) :
    (cache.entries.insert key value).entries.length =
      cache.len + if (cache.entries.lookup key).isSome then 0 else 1 := by
  have erased := length_erase cache key
  rw [AList.entries_insert, length_cons]
  change (cache.entries.erase key).entries.length + 1 = _
  rw [erased]
  cases found : cache.entries.lookup key with
  | none => rfl
  | some old =>
    have present := cache.len_pos found
    simp only [Option.isSome_some, if_true]
    omega

end LruCache

end Contextra.Library

/-!
## Sums over the entries of a map

The weight of an entry may depend on its key and its value.  A change at one key changes the sum by
the weights of that key only.
-/

namespace Contextra.Library

open List

section EntrySums

variable {κ ν : Type*} [DecidableEq κ] {weight other : κ → ν → Nat} {map : AList fun _ : κ => ν}
  {key : κ} {value : ν}

def sumOf (weight : κ → ν → Nat) (map : AList fun _ : κ => ν) : Nat :=
  (map.entries.map fun entry => weight entry.1 entry.2).sum

def weightAt (weight : κ → ν → Nat) (map : AList fun _ : κ => ν) (key : κ) : Nat :=
  match map.lookup key with
  | some value => weight key value
  | none => 0

omit [DecidableEq κ] in
@[simp] theorem sumOf_empty : sumOf weight (∅ : AList fun _ : κ => ν) = 0 := rfl

theorem sumOf_erase (map : AList fun _ : κ => ν) (key : κ) :
    sumOf weight map = sumOf weight (map.erase key) + weightAt weight map key := by
  unfold weightAt
  cases found : map.lookup key with
  | none =>
    have absent : key ∉ map.entries.keys := AList.lookup_eq_none.mp found
    have unchanged : (map.erase key).entries = map.entries := kerase_of_notMem_keys absent
    rw [sumOf, sumOf, unchanged, Nat.add_zero]
  | some value =>
    have present : key ∈ map.entries.keys := AList.lookup_isSome.mp (found ▸ rfl)
    obtain ⟨stored, front, back, -, split, erased⟩ := exists_of_kerase present
    have same : stored = value := by
      have mem : (⟨key, stored⟩ : Sigma fun _ : κ => ν) ∈ map.entries := by
        rw [split]
        simp
      rw [← AList.mem_lookup_iff, Option.mem_def, found] at mem
      exact (Option.some.inj mem).symm
    subst same
    have erasedEntries : (map.erase key).entries = front ++ back := erased
    simp only [sumOf, erasedEntries, split, map_append, map_cons, sum_append,
      sum_cons]
    omega

theorem sumOf_insert :
    sumOf weight (map.insert key value) = sumOf weight (map.erase key) + weight key value := by
  rw [sumOf, AList.entries_insert, map_cons, sum_cons, Nat.add_comm]
  rfl

theorem sumOf_congr
    (same : ∀ key value, map.lookup key = some value → weight key value = other key value) :
    sumOf weight map = sumOf other map := by
  unfold sumOf
  apply congrArg
  apply map_congr_left
  intro entry mem
  exact same entry.1 entry.2 (AList.mem_lookup_iff.mpr mem)

theorem sumOf_erase_congr
    (same : ∀ found value, found ≠ key → weight found value = other found value) :
    sumOf weight (map.erase key) = sumOf other (map.erase key) := by
  apply sumOf_congr
  intro found value isEntry
  apply same
  rintro rfl
  rw [AList.lookup_erase] at isEntry
  cases isEntry

end EntrySums

end Contextra.Library
