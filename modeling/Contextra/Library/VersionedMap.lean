import Mathlib

/-!
# Ordered versioned maps

A map with ordered keys, as the list of its versions from the oldest to the newest.  The
value of a key is that of its newest version, and the entries are the keys with a value, in
ascending order.  Restricting the versions to the keys in the range of an order embedding
restricts the entries.
-/

namespace Contextra.Library

open List Option

universe u v w

/-- A write of a transaction; without a value the key is deleted. -/
structure Version (Key : Type u) (Value : Type v) where
  tx : Nat
  key : Key
  value : Option Value
  deriving DecidableEq, Repr

namespace VersionedMap

variable {Key : Type u} {Value : Type v} [LinearOrder Key]

def lookup (versions : List (Version Key Value)) (key : Key) : Option Value :=
  (versions.filter fun version => version.key = key).getLast?.bind Version.value

def entries (versions : List (Version Key Value)) : List (Key × Value) :=
  ((versions.map Version.key).toFinset.sort (· ≤ ·)).filterMap fun key =>
    (lookup versions key).map fun value => (key, value)

theorem mem_entries {versions : List (Version Key Value)} {key : Key} {value : Value} :
    (key, value) ∈ entries versions ↔ lookup versions key = some value := by
  constructor
  · intro mem
    obtain ⟨found, _, same⟩ := mem_filterMap.mp mem
    obtain ⟨value', looked, pair⟩ := map_eq_some_iff.mp same
    obtain ⟨rfl, rfl⟩ := Prod.mk.inj pair
    exact looked
  · intro looked
    refine mem_filterMap.mpr ⟨key, ?_, by rw [looked]; rfl⟩
    obtain ⟨version, last, _⟩ := bind_eq_some_iff.mp looked
    have mem := mem_of_getLast? last
    rw [mem_filter, decide_eq_true_eq] at mem
    rw [Finset.mem_sort, List.mem_toFinset]
    exact List.mem_map.mpr ⟨version, mem⟩

/-- Left of a pair of entries stands the smaller key. -/
def KeyBefore (left right : Key × Value) : Prop := left.1 < right.1

instance : Std.Irrefl (@KeyBefore Key Value _) where
  irrefl entry := lt_irrefl entry.1

instance : Std.Antisymm (@KeyBefore Key Value _) where
  antisymm _ _ less more := absurd (lt_trans less more) (lt_irrefl _)

theorem entries_sorted (versions : List (Version Key Value)) :
    (entries versions).Pairwise KeyBefore := by
  rw [entries, pairwise_filterMap]
  refine (Finset.sortedLT_sort _).pairwise.imp ?_
  intro left right less entry found entry' found'
  obtain ⟨value, _, rfl⟩ := map_eq_some_iff.mp found
  obtain ⟨value', _, rfl⟩ := map_eq_some_iff.mp found'
  exact less

section Restriction

variable {Sub : Type w} [LinearOrder Sub]

def restrict (strip : Key → Option Sub) (version : Version Key Value) :
    Option (Version Sub Value) :=
  (strip version.key).map fun key => ⟨version.tx, key, version.value⟩

variable {strip : Key → Option Sub} {embed : Sub → Key}

theorem filter_restrict (lawful : ∀ key sub, strip key = some sub ↔ embed sub = key)
    (versions : List (Version Key Value)) (sub : Sub) :
    ((versions.filterMap (restrict strip)).filter fun version => version.key = sub) =
      (versions.filter fun version => version.key = embed sub).map
        fun version => ⟨version.tx, sub, version.value⟩ := by
  induction versions with
  | nil => rfl
  | cons version versions ih =>
    cases stripped : strip version.key with
    | none =>
      have other : version.key ≠ embed sub := by
        intro same
        rw [(lawful _ sub).mpr same.symm] at stripped
        contradiction
      rw [filterMap_cons_none (by rw [restrict, stripped]; rfl), ih,
        filter_cons_of_neg (by simpa using other)]
    | some key =>
      rw [filterMap_cons_some (by rw [restrict, stripped]; rfl)]
      by_cases same : key = sub
      · subst same
        have own : version.key = embed key := ((lawful _ key).mp stripped).symm
        rw [filter_cons_of_pos (by simp), filter_cons_of_pos (by simpa using own),
          ih]
        rfl
      · have other : version.key ≠ embed sub := by
          intro again
          rw [(lawful _ sub).mpr again.symm] at stripped
          exact same (some.inj stripped).symm
        rw [filter_cons_of_neg (by simpa using same),
          filter_cons_of_neg (by simpa using other), ih]

omit [LinearOrder Key] [LinearOrder Sub] in
theorem filter_tx_restrict (strip : Key → Option Sub) (keeps : Nat → Bool)
    (versions : List (Version Key Value)) :
    (versions.filter fun version => keeps version.tx).filterMap (restrict strip) =
      (versions.filterMap (restrict strip)).filter fun version => keeps version.tx := by
  rw [filter_filterMap, filterMap_filter]
  congr 1
  funext version
  cases stripped : strip version.key with
  | none => simp [restrict, stripped]
  | some sub =>
    by_cases kept : keeps version.tx = true
    · simp [restrict, stripped, kept, Option.filter]
    · simp [restrict, stripped, kept, Option.filter]

theorem lookup_restrict (lawful : ∀ key sub, strip key = some sub ↔ embed sub = key)
    (versions : List (Version Key Value)) (sub : Sub) :
    lookup (versions.filterMap (restrict strip)) sub = lookup versions (embed sub) := by
  rw [lookup, filter_restrict lawful, getLast?_map, lookup, bind_map]
  rfl

theorem entries_restrict (lawful : ∀ key sub, strip key = some sub ↔ embed sub = key)
    (ascending : StrictMono embed) (versions : List (Version Key Value)) :
    ((entries versions).filter fun entry => (strip entry.1).isSome) =
      (entries (versions.filterMap (restrict strip))).map
        fun entry => (embed entry.1, entry.2) := by
  apply List.Pairwise.eq_of_mem_iff (r := KeyBefore)
  · exact (entries_sorted versions).filter _
  · rw [pairwise_map]
    exact (entries_sorted _).imp fun less => ascending less
  · rintro ⟨key, value⟩
    rw [mem_filter, mem_entries, List.mem_map]
    constructor
    · rintro ⟨looked, inside⟩
      obtain ⟨sub, stripped⟩ := isSome_iff_exists.mp inside
      have place : embed sub = key := (lawful key sub).mp stripped
      refine ⟨(sub, value), ?_, by rw [place]⟩
      rw [mem_entries, lookup_restrict lawful, place, looked]
    · rintro ⟨⟨sub, value'⟩, mem, same⟩
      obtain ⟨rfl, rfl⟩ := Prod.mk.inj same
      rw [mem_entries, lookup_restrict lawful] at mem
      have stripped : strip (embed sub) = some sub := (lawful _ sub).mpr rfl
      exact ⟨mem, by simp [stripped]⟩

end Restriction

end VersionedMap

end Contextra.Library
