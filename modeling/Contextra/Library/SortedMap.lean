import Mathlib

/-!
# Sorted maps

A finite map as a list of entries whose keys ascend.  Two of them with the same lookups are the
same map.
-/

namespace Contextra.Library

open List Option

structure SortedMap (Key Value : Type) [LinearOrder Key] where
  entries : List (Key × Value)
  sorted : entries.Pairwise fun left right => left.1 < right.1

namespace SortedMap

variable {Key Value Other : Type} [LinearOrder Key]

def empty : SortedMap Key Value := ⟨[], .nil⟩

variable (map : SortedMap Key Value)

def lookup (key : Key) : Option Value := (map.entries.find? fun entry => entry.1 = key).map Prod.snd

theorem lookup_empty (key : Key) : (empty : SortedMap Key Value).lookup key = none := rfl

variable {key : Key}

theorem value_unique {map : SortedMap Key Value} {first second : Value}
    (isFirst : (key, first) ∈ map.entries) (isSecond : (key, second) ∈ map.entries) :
    first = second := by
  by_contra different
  have apart : (key, first) ≠ (key, second) := fun same => different (Prod.ext_iff.mp same).2
  have distinct : map.entries.Pairwise fun left right => left.1 ≠ right.1 :=
    map.sorted.imp fun less => less.ne
  have symmetric : Std.Symm fun left right : Key × Value => left.1 ≠ right.1 :=
    ⟨fun _ _ different => different.symm⟩
  exact distinct.forall isFirst isSecond apart rfl

variable {value : Value}

theorem lookup_eq_some {map : SortedMap Key Value} :
    map.lookup key = some value ↔ (key, value) ∈ map.entries := by
  rw [lookup, map_eq_some_iff]
  constructor
  · rintro ⟨entry, found, rfl⟩
    have isKey := find?_some found
    rw [decide_eq_true_eq] at isKey
    rw [← isKey]
    exact mem_of_find?_eq_some found
  · intro isEntry
    cases found : map.entries.find? fun entry => entry.1 = key with
    | none =>
      have missing := find?_eq_none.mp found (key, value) isEntry
      exact absurd (decide_eq_true rfl) missing
    | some entry =>
      have isKey := find?_some found
      rw [decide_eq_true_eq] at isKey
      have isFound := mem_of_find?_eq_some found
      have isSame : (key, entry.2) ∈ map.entries := by
        rw [← isKey]
        exact isFound
      exact ⟨entry, rfl, map.value_unique isSame isEntry⟩

theorem lookup_eq_none {map : SortedMap Key Value} :
    map.lookup key = none ↔ ∀ value, (key, value) ∉ map.entries := by
  rw [eq_none_iff_forall_ne_some]
  exact forall_congr' fun value => not_congr lookup_eq_some

theorem nodup : map.entries.Nodup :=
  map.sorted.imp fun less same => less.ne (congrArg Prod.fst same)

theorem ext_lookup {first second : SortedMap Key Value}
    (same : ∀ key, first.lookup key = second.lookup key) : first = second := by
  have sameEntries : first.entries = second.entries := by
    have perm : first.entries.Perm second.entries := by
      apply (perm_ext_iff_of_nodup first.nodup second.nodup).mpr
      rintro ⟨key, value⟩
      rw [← lookup_eq_some, ← lookup_eq_some, same]
    have asymm (left right : Key × Value) (_ : left ∈ first.entries) (_ : right ∈ second.entries)
        (less : left.1 < right.1) (greater : right.1 < left.1) : left = right :=
      absurd less greater.asymm
    exact perm.eq_of_pairwise asymm first.sorted second.sorted
  cases first
  cases second
  cases sameEntries
  rfl

theorem length_le_of_lookup {keys : List Key} (distinct : keys.Nodup)
    (isKey : ∀ key ∈ keys, map.lookup key ≠ none) : keys.length ≤ map.entries.length := by
  have inside : keys ⊆ map.entries.map Prod.fst := by
    intro key isListed
    obtain ⟨value, found⟩ := ne_none_iff_exists'.mp (isKey key isListed)
    exact List.mem_map.mpr ⟨_, lookup_eq_some.mp found, rfl⟩
  have short := (distinct.subperm inside).length_le
  rwa [length_map] at short

theorem nodup_keys : (map.entries.map Prod.fst).Nodup :=
  pairwise_map.mpr (map.sorted.imp fun less => less.ne)

theorem length_le_of_kept {first second : SortedMap Key Value}
    (kept : ∀ key, first.lookup key ≠ none → second.lookup key ≠ none) :
    first.entries.length ≤ second.entries.length := by
  have long : (first.entries.map Prod.fst).length = first.entries.length := length_map _
  rw [← long]
  apply second.length_le_of_lookup first.nodup_keys
  intro key isListed
  obtain ⟨entry, isEntry, rfl⟩ := List.mem_map.mp isListed
  apply kept
  rw [lookup_eq_some.mpr isEntry]
  exact some_ne_none _

def insert (key : Key) (value : Value) : SortedMap Key Value where
  entries := (map.entries.filter fun entry => entry.1 < key) ++
    (key, value) :: map.entries.filter fun entry => key < entry.1
  sorted := by
    apply pairwise_append.mpr
    refine ⟨map.sorted.filter _, pairwise_cons.mpr ⟨?_, map.sorted.filter _⟩, ?_⟩
    · intro later isLater
      exact of_decide_eq_true (mem_filter.mp isLater).2
    · intro earlier isEarlier later isLater
      have below := of_decide_eq_true (mem_filter.mp isEarlier).2
      rcases mem_cons.mp isLater with rfl | above
      · exact below
      · exact below.trans (of_decide_eq_true (mem_filter.mp above).2)

variable {map}

theorem mem_insert {entry : Key × Value} :
    entry ∈ (map.insert key value).entries ↔
      entry = (key, value) ∨ entry ∈ map.entries ∧ entry.1 ≠ key := by
  have split : entry ∈ (map.insert key value).entries ↔
      (entry ∈ map.entries ∧ entry.1 < key) ∨ entry = (key, value) ∨
        (entry ∈ map.entries ∧ key < entry.1) := by
    simp only [insert, mem_append, mem_cons, mem_filter, decide_eq_true_eq]
  rw [split]
  constructor
  · rintro (⟨isEntry, below⟩ | same | ⟨isEntry, above⟩)
    · exact Or.inr ⟨isEntry, below.ne⟩
    · exact Or.inl same
    · exact Or.inr ⟨isEntry, above.ne'⟩
  · rintro (same | ⟨isEntry, different⟩)
    · exact Or.inr (Or.inl same)
    · rcases different.lt_or_gt with below | above
      · exact Or.inl ⟨isEntry, below⟩
      · exact Or.inr (Or.inr ⟨isEntry, above⟩)

theorem lookup_insert_self (key : Key) (value : Value) :
    (map.insert key value).lookup key = some value :=
  lookup_eq_some.mpr (mem_insert.mpr (Or.inl rfl))

theorem lookup_insert_ne {key other : Key} (different : other ≠ key) (value : Value) :
    (map.insert key value).lookup other = map.lookup other := by
  apply Option.ext
  intro found
  rw [lookup_eq_some, lookup_eq_some, mem_insert]
  constructor
  · rintro (isNew | ⟨isEntry, _⟩)
    · exact absurd (congrArg Prod.fst isNew) different
    · exact isEntry
  · exact fun isEntry => Or.inr ⟨isEntry, different⟩

def others (map : SortedMap Key Value) (key : Key) : List (Key × Value) :=
  map.entries.filter fun entry => entry.1 ≠ key

theorem mem_others {entry : Key × Value} :
    entry ∈ map.others key ↔ entry ∈ map.entries ∧ entry.1 ≠ key := by
  rw [others, mem_filter, decide_eq_true_eq]

theorem others_of_absent (absent : map.lookup key = none) : map.others key = map.entries := by
  apply filter_eq_self.mpr
  intro entry isEntry
  apply decide_eq_true
  rintro rfl
  exact lookup_eq_none.mp absent entry.2 isEntry

theorem nodup_cons_others (key : Key) (value : Value) :
    ((key, value) :: map.others key).Nodup := by
  apply nodup_cons.mpr
  exact ⟨fun isOther => (mem_others.mp isOther).2 rfl, map.nodup.filter _⟩

theorem perm_of_lookup (found : map.lookup key = some value) :
    map.entries.Perm ((key, value) :: map.others key) := by
  have isEntry := lookup_eq_some.mp found
  apply (perm_ext_iff_of_nodup map.nodup (nodup_cons_others key value)).mpr
  rintro ⟨other, isValue⟩
  rw [mem_cons, mem_others]
  constructor
  · intro isOther
    by_cases same : other = key
    · rw [same] at isOther
      exact Or.inl (by rw [same, value_unique isOther isEntry])
    · exact Or.inr ⟨isOther, same⟩
  · rintro (same | ⟨isOther, _⟩)
    · rw [same]
      exact isEntry
    · exact isOther

theorem insert_perm (map : SortedMap Key Value) (key : Key) (value : Value) :
    (map.insert key value).entries.Perm ((key, value) :: map.others key) := by
  apply (perm_ext_iff_of_nodup (map.insert key value).nodup
    (nodup_cons_others key value)).mpr
  intro entry
  rw [mem_insert, mem_cons, mem_others]

/-- Every value is replaced, and an entry without a new one is gone. -/
def retain (map : SortedMap Key Value) (keep : Key → Value → Option Other) :
    SortedMap Key Other where
  entries := map.entries.filterMap fun entry => (keep entry.1 entry.2).map (entry.1, ·)
  sorted := by
    apply map.sorted.filterMap
    intro left right less keptLeft isLeft keptRight isRight
    obtain ⟨_, _, rfl⟩ := map_eq_some_iff.mp isLeft
    obtain ⟨_, _, rfl⟩ := map_eq_some_iff.mp isRight
    exact less

theorem mem_retain {keep : Key → Value → Option Other} {value : Other} :
    (key, value) ∈ (map.retain keep).entries ↔
      ∃ before, (key, before) ∈ map.entries ∧ keep key before = some value := by
  rw [retain, mem_filterMap]
  constructor
  · rintro ⟨⟨found, before⟩, isEntry, kept⟩
    obtain ⟨value, isValue, same⟩ := map_eq_some_iff.mp kept
    cases same
    exact ⟨before, isEntry, isValue⟩
  · rintro ⟨before, isEntry, kept⟩
    exact ⟨(key, before), isEntry, by rw [kept]; rfl⟩

end SortedMap

end Contextra.Library
