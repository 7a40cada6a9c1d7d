import Mathlib

/-!
# Prefixes in the lexicographic order

Putting the same list in front keeps the order of lists, and what lies between two lists
with a common prefix has that prefix.  Bytes are ordered as unsigned numbers.
-/

namespace Contextra.Library

open List

section Prefixes

variable {α : Type*} [LinearOrder α]

theorem append_lt_append_iff (before : List α) {left right : List α} :
    before ++ left < before ++ right ↔ left < right := by
  induction before with
  | nil => rfl
  | cons first before ih => simp [ih]

theorem append_le_append_iff (before : List α) {left right : List α} :
    before ++ left ≤ before ++ right ↔ left ≤ right := by
  rw [← not_lt, ← not_lt, append_lt_append_iff]

theorem append_strictMono (before : List α) : StrictMono (before ++ ·) :=
  fun _ _ less => (append_lt_append_iff before).mpr less

theorem le_append (before after : List α) : before ≤ before ++ after := by
  have least : ([] : List α) ≤ after := not_lt.mp (not_lt_nil after)
  have atEnd := (append_le_append_iff before).mpr least
  rwa [append_nil] at atEnd

theorem le_of_isPrefix {before list : List α} (starts : before <+: list) : before ≤ list := by
  obtain ⟨after, rfl⟩ := starts
  exact le_append before after

theorem singleton_le_iff {first : α} {list : List α} :
    [first] ≤ list ↔ ∃ head tail, list = head :: tail ∧ first ≤ head := by
  cases list with
  | nil => simpa using nil_lt_cons first []
  | cons head tail =>
    rw [← not_lt, cons_lt_cons_iff]
    simp

theorem prefix_of_between {before lower upper list : List α} (above : before ++ lower ≤ list)
    (below : list ≤ before ++ upper) : before <+: list := by
  induction before generalizing list with
  | nil => exact nil_prefix
  | cons first before ih =>
    cases list with
    | nil => exact absurd above (not_le_of_gt (nil_lt_cons _ _))
    | cons head list =>
      rw [cons_append, ← not_lt, cons_lt_cons_iff, not_or, not_and] at above below
      rcases lt_trichotomy first head with less | rfl | more
      · exact absurd less below.1
      · have later := ih (not_lt.mp (above.2 rfl)) (not_lt.mp (below.2 rfl))
        exact (prefix_cons_inj first).mpr later
      · exact absurd more above.1

end Prefixes

namespace ByteOrder

scoped instance byteLinearOrder : LinearOrder UInt8 where
  le_refl := UInt8.le_refl
  le_trans _ _ _ := UInt8.le_trans
  le_antisymm _ _ := UInt8.le_antisymm
  le_total := UInt8.le_total
  lt_iff_le_not_ge left right := by
    rw [UInt8.not_le]
    exact ⟨fun less => ⟨UInt8.le_of_lt less, less⟩, fun both => both.2⟩
  toDecidableLE := inferInstance

end ByteOrder

end Contextra.Library
