import Mathlib

/-!
# Maps with staged writes

A transaction stages writes and deletions beside a map and applies them, in their order, when it
commits.  For each key the last of them decides.
-/

namespace Contextra.Library

open List

section StagedMap

variable {κ ν : Type*} [DecidableEq κ]

/-- A key with its new value, or `none` for a deletion. -/
abbrev Writes (κ ν : Type*) := List (κ × Option ν)

def applyWrites (map : κ → Option ν) (writes : Writes κ ν) : κ → Option ν :=
  writes.foldl (fun map write => Function.update map write.1 write.2) map

def lastWrite (writes : Writes κ ν) (key : κ) : Option (Option ν) :=
  (writes.reverse.find? fun write => write.1 = key).map Prod.snd

variable {map : κ → Option ν} {writes : Writes κ ν} {key : κ}

@[simp] theorem applyWrites_nil : applyWrites map [] = map := rfl

theorem applyWrites_append (first second : Writes κ ν) :
    applyWrites map (first ++ second) = applyWrites (applyWrites map first) second := by
  rw [applyWrites, foldl_append]
  rfl

theorem applyWrites_concat (write : κ × Option ν) :
    applyWrites map (writes ++ [write]) =
      Function.update (applyWrites map writes) write.1 write.2 := by
  rw [applyWrites_append]
  rfl

theorem applyWrites_eq (map : κ → Option ν) (writes : Writes κ ν) (key : κ) :
    applyWrites map writes key = (lastWrite writes key).getD (map key) := by
  induction writes using reverseRecOn with
  | nil => rfl
  | append_singleton writes write ih =>
    rw [applyWrites_concat, lastWrite, reverse_concat, find?_cons]
    by_cases same : write.1 = key
    · simp [same]
    · rw [Function.update_of_ne (Ne.symm same), ih]
      simp [same, lastWrite]

theorem applyWrites_of_untouched (untouched : ∀ write ∈ writes, write.1 ≠ key) :
    applyWrites map writes key = map key := by
  have missing : (writes.reverse.find? fun write => write.1 = key) = none := by
    apply find?_eq_none.mpr
    intro write mem
    simpa using untouched write (mem_reverse.mp mem)
  rw [applyWrites_eq, lastWrite, missing]
  rfl

end StagedMap

/-! ## The last entry of a key

A map that is given by a list of entries, the oldest first. -/

section LastEntry

variable {Key Value : Type} [DecidableEq Key]

def lastEntry (entries : List (Key × Value)) (key : Key) : Option Value :=
  entries.reverse.lookup key

theorem lastEntry_append (first second : List (Key × Value)) (key : Key) :
    lastEntry (first ++ second) key = (lastEntry second key).or (lastEntry first key) := by
  rw [lastEntry, reverse_append]
  exact lookup_append

theorem lastEntry_concat (entries : List (Key × Value)) (key other : Key) (value : Value) :
    lastEntry (entries ++ [(key, value)]) other =
      if other = key then some value else lastEntry entries other := by
  rw [lastEntry_append]
  have single : lastEntry [(key, value)] other = if other = key then some value else none := by
    simp only [lastEntry, reverse_singleton, lookup_cons, lookup_nil]
    by_cases same : other = key
    · rw [if_pos same, beq_iff_eq.mpr same]
    · rw [if_neg same, beq_eq_false_iff_ne.mpr same]
  rw [single]
  by_cases same : other = key
  · rw [if_pos same, if_pos same]
    rfl
  · rw [if_neg same, if_neg same]
    rfl

variable {entries : List (Key × Value)}

theorem lastEntry_isSome {key : Key} :
    (lastEntry entries key).isSome = true ↔ key ∈ entries.map Prod.fst := by
  rw [lastEntry, lookup_isSome_iff, mem_map]
  constructor
  · rintro ⟨entry, isEntry, same⟩
    exact ⟨entry, mem_reverse.mp isEntry, (beq_iff_eq.mp same).symm⟩
  · rintro ⟨entry, isEntry, same⟩
    exact ⟨entry, mem_reverse.mpr isEntry, beq_iff_eq.mpr same.symm⟩

theorem lastEntry_eq_none {key : Key} :
    lastEntry entries key = none ↔ key ∉ entries.map Prod.fst := by
  rw [← lastEntry_isSome, Option.not_isSome_iff_eq_none]

theorem mem_of_lastEntry {key : Key} {value : Value}
    (found : lastEntry entries key = some value) : (key, value) ∈ entries := by
  obtain ⟨before, after, split, _⟩ := lookup_eq_some_iff.mp found
  rw [← mem_reverse, split]
  exact mem_append_right _ mem_cons_self

theorem lastEntry_filter (keeps : Key → Bool) {key : Key} (kept : keeps key = true)
    (entries : List (Key × Value)) :
    lastEntry (entries.filter fun entry => keeps entry.1) key = lastEntry entries key := by
  induction entries with
  | nil => rfl
  | cons entry entries ih =>
    have split (rest : List (Key × Value)) : lastEntry (entry :: rest) key =
        (lastEntry rest key).or (lastEntry [entry] key) := lastEntry_append [entry] rest key
    rw [split, ← ih, filter_cons]
    by_cases isKept : keeps entry.1 = true
    · rw [if_pos isKept, split]
    · rw [if_neg isKept]
      have other : lastEntry [entry] key = none := by
        apply lastEntry_eq_none.mpr
        intro isKey
        cases mem_singleton.mp isKey
        exact isKept kept
      rw [other, Option.or_none]

theorem lastEntry_again (first second : List (Key × Value)) (key : Key) :
    lastEntry (first ++ second ++ second) key = lastEntry (first ++ second) key := by
  rw [lastEntry_append, lastEntry_append, ← Option.or_assoc, Option.or_self]

end LastEntry

end Contextra.Library
