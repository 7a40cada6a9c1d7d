import Contextra.Store.MemTable

/-!
# Routing of keys

A scan visits the shard of every key that it may return, and it calls `range` with bounds for which
that does not panic.
-/

namespace Contextra.Store

open Library List Option
open scoped Library.ByteOrder

theorem mem_allShards (index : Fin shardCount) : index ∈ allShards := mem_finRange index

theorem mem_shardsBetween {first last index : Fin shardCount} :
    index ∈ shardsBetween first last ↔ first ≤ index ∧ index ≤ last := by
  rw [shardsBetween, mem_filter, decide_eq_true_eq]
  exact and_iff_right (mem_finRange index)

variable {key : Bytes}

theorem shardFor_of_plain (plain : key.head? ≠ some underscore) :
    shardFor key = rangeShard key := by
  have unreserved : matchingReservedPrefix key = none := by
    apply if_neg
    rintro ⟨rest, rfl⟩
    exact plain rfl
  rw [shardFor, unreserved]

theorem cons_le_cons {first second : UInt8} {left right : Bytes}
    (ordered : first :: left ≤ second :: right) :
    first ≤ second ∧ (first = second → left ≤ right) := by
  rw [← not_lt, cons_lt_cons_iff, not_or, not_and, not_lt, not_lt] at ordered
  exact ⟨ordered.1, fun same => ordered.2 same.symm⟩

theorem head_le {left right : Bytes} (ordered : left ≤ right) :
    ((left[0]?).getD 0).toNat ≤ ((right[0]?).getD 0).toNat := by
  cases left with
  | nil => exact Nat.zero_le _
  | cons first left =>
    cases right with
    | nil => exact absurd ordered (not_le_of_gt (nil_lt_cons _ _))
    | cons second right => exact UInt8.le_iff_toNat_le.mp (cons_le_cons ordered).1

theorem leadingBytes_cons (first : UInt8) (tail : Bytes) :
    leadingBytes (first :: tail) = first.toNat * 256 + ((tail[0]?).getD 0).toNat := rfl

theorem leadingBytes_mono {left right : Bytes} (ordered : left ≤ right) :
    leadingBytes left ≤ leadingBytes right := by
  have byte (list : Bytes) : ((list[0]?).getD 0).toNat < 256 := ((list[0]?).getD 0).toNat_lt
  cases left with
  | nil => exact Nat.zero_le _
  | cons first left =>
    cases right with
    | nil => exact absurd ordered (not_le_of_gt (nil_lt_cons _ _))
    | cons second right =>
      obtain ⟨below, behind⟩ := cons_le_cons ordered
      rw [leadingBytes_cons, leadingBytes_cons]
      rcases below.lt_or_eq with less | same
      · have lessNat : first.toNat < second.toNat := UInt8.lt_iff_toNat_lt.mp less
        have bounded := byte left
        omega
      · have ordered := head_le (behind same)
        rw [same]
        omega

theorem rangeShard_mono {left right : Bytes} (ordered : left ≤ right) :
    rangeShard left ≤ rangeShard right := by
  apply Fin.mk_le_mk.mpr
  exact Nat.div_le_div_right (Nat.mul_le_mul_right shardCount (leadingBytes_mono ordered))

theorem shardFor_mem_prefix {keyPrefix key : Bytes} (starts : keyPrefix <+: key) :
    shardFor key ∈ shardRangeForPrefix keyPrefix := by
  obtain ⟨rest, rfl⟩ := starts
  unfold shardRangeForPrefix
  by_cases isSystem : keyPrefix.head? = some underscore
  · rw [if_pos isSystem]
    exact mem_allShards _
  · rw [if_neg isSystem]
    cases keyPrefix with
    | nil => exact mem_allShards _
    | cons first keyPrefix =>
      have plain (tail : Bytes) : (first :: tail).head? ≠ some underscore := isSystem
      cases keyPrefix with
      | nil =>
        have low : leadingBytes [first, 0x00] ≤ leadingBytes (first :: rest) := by
          rw [leadingBytes_cons, leadingBytes_cons]
          exact Nat.add_le_add_left (Nat.zero_le _) _
        have high : leadingBytes (first :: rest) ≤ leadingBytes [first, 0xFF] := by
          have bounded : ((rest[0]?).getD 0).toNat < 256 := ((rest[0]?).getD 0).toNat_lt
          rw [leadingBytes_cons, leadingBytes_cons]
          exact Nat.add_le_add_left (Nat.le_of_lt_succ bounded) _
        apply mem_shardsBetween.mpr
        rw [singleton_append, shardFor_of_plain (plain _), shardFor_of_plain (plain _),
          shardFor_of_plain (plain _)]
        constructor
        · apply Fin.mk_le_mk.mpr
          exact Nat.div_le_div_right (Nat.mul_le_mul_right shardCount low)
        · apply Fin.mk_le_mk.mpr
          exact Nat.div_le_div_right (Nat.mul_le_mul_right shardCount high)
      | cons second more =>
        apply mem_singleton.mpr
        rw [shardFor_of_plain (plain _), cons_append, shardFor_of_plain (plain _)]
        rfl

theorem reserved_between {low key high : Bytes} (plainLow : low.head? ≠ some underscore)
    (plainHigh : high.head? ≠ some underscore) (isSystem : key.head? = some underscore)
    (above : low ≤ key) (below : key ≤ high) :
    low ≤ [underscore, underscore] ∧ [underscore, underscore] ≤ high := by
  obtain ⟨tail, rfl⟩ : ∃ tail, key = underscore :: tail := by
    cases key with
    | nil => cases isSystem
    | cons first tail => exact ⟨tail, by rw [some.inj isSystem]⟩
  constructor
  · cases low with
    | nil => exact not_lt.mp (not_lt_nil _)
    | cons first low =>
      have less : first < underscore :=
        lt_of_le_of_ne (cons_le_cons above).1 fun same => plainLow (by rw [same]; rfl)
      exact (cons_lt_cons_iff.mpr (Or.inl less)).le
  · cases high with
    | nil => exact absurd below (not_le_of_gt (nil_lt_cons _ _))
    | cons first high =>
      have more : underscore < first :=
        lt_of_le_of_ne (cons_le_cons below).1 fun same => plainHigh (by rw [same]; rfl)
      exact (cons_lt_cons_iff.mpr (Or.inl more)).le

theorem Bound.le_of_aboveStart {start : Bound} {low key : Bytes} (isKey : start.key? = some low)
    (above : start.AboveStart key) : low ≤ key := by
  cases start with
  | included first =>
    cases isKey
    exact above
  | excluded first =>
    cases isKey
    exact le_of_lt above
  | unbounded => cases isKey

theorem Bound.le_of_belowEnd {stop : Bound} {high key : Bytes} (isKey : stop.key? = some high)
    (below : stop.BelowEnd key) : key ≤ high := by
  cases stop with
  | included last =>
    cases isKey
    exact below
  | excluded last =>
    cases isKey
    exact le_of_lt below
  | unbounded => cases isKey

theorem Bound.plain_of_startsSystem {bound : Bound} (isKey : bound.key? = some key)
    (plain : bound.startsSystem = false) : key.head? ≠ some underscore := by
  rw [startsSystem, isKey] at plain
  exact of_decide_eq_false plain

theorem shardFor_mem_bounds {start stop : Bound} (above : start.AboveStart key)
    (below : stop.BelowEnd key) : shardFor key ∈ shardRangeForBounds start stop := by
  unfold shardRangeForBounds
  cases isLow : start.key? with
  | none =>
    rw [Bool.or_true, if_pos rfl]
    exact mem_allShards _
  | some low =>
    cases isHigh : stop.key? with
    | none =>
      rw [Bool.or_true, if_pos rfl]
      exact mem_allShards _
    | some high =>
      dsimp only
      split
      · exact mem_allShards _
      · rename_i isPlain
        rw [Bool.not_eq_true, Bool.or_eq_false_iff, Bool.or_eq_false_iff] at isPlain
        obtain ⟨⟨plainStart, plainStop⟩, apart⟩ := isPlain
        have plainLow := Bound.plain_of_startsSystem isLow plainStart
        have plainHigh := Bound.plain_of_startsSystem isHigh plainStop
        have lower := Bound.le_of_aboveStart isLow above
        have upper := Bound.le_of_belowEnd isHigh below
        have plainKey : key.head? ≠ some underscore := fun isSystem =>
          of_decide_eq_false apart (reserved_between plainLow plainHigh isSystem lower upper)
        apply mem_shardsBetween.mpr
        rw [map_some, map_some, getD_some, getD_some,
          shardFor_of_plain plainKey, shardFor_of_plain plainLow, shardFor_of_plain plainHigh]
        exact ⟨rangeShard_mono lower, rangeShard_mono upper⟩

theorem rangePanics_of_valid {start stop : Bound} (valid : isValidRangeBounds start stop = true) :
    rangePanics start stop = false := by
  cases start with
  | unbounded => rfl
  | included first =>
    cases stop with
    | unbounded => rfl
    | included last => exact decide_eq_false (not_lt.mpr (of_decide_eq_true valid))
    | excluded last => exact decide_eq_false (of_decide_eq_true valid).asymm
  | excluded first =>
    cases stop with
    | unbounded => rfl
    | included last => exact decide_eq_false (of_decide_eq_true valid).asymm
    | excluded last => exact decide_eq_false (not_le.mpr (of_decide_eq_true valid))

theorem valid_of_between {start stop : Bound} (above : start.AboveStart key)
    (below : stop.BelowEnd key) : isValidRangeBounds start stop = true := by
  cases start with
  | unbounded => rfl
  | included first =>
    have lower : first ≤ key := above
    cases stop with
    | unbounded => rfl
    | included last => exact decide_eq_true (lower.trans below)
    | excluded last => exact decide_eq_true (lower.trans_lt below)
  | excluded first =>
    have lower : first < key := above
    cases stop with
    | unbounded => rfl
    | included last => exact decide_eq_true (lower.trans_le below)
    | excluded last => exact decide_eq_true (lower.trans below)

end Contextra.Store
