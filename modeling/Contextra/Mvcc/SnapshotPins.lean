import Contextra.Mvcc.SeqLog

/-!
# Reaping the expired pins

Expiry is found per pin and a sequence number gives up the pin that was taken last on it.  So a
reaping is exact where the other pins of every sequence number are not expired.
-/

namespace Contextra.Mvcc

open List

namespace SequenceLog

variable {log : SequenceLog} {now : UInt64} {seqNo : Nat}

/-- The times of the pins on a sequence number, the last one taken at the end. -/
def pinsOf (log : SequenceLog) (seqNo : Nat) : List UInt64 :=
  (log.pinnedSnapshots.lookup seqNo).getD []

/-- A pin whose age does not exceed the maximum. -/
def IsCurrent (log : SequenceLog) (now timestamp : UInt64) : Prop :=
  now.toNat - timestamp.toNat ≤ log.maxPinDuration

instance (timestamp : UInt64) : Decidable (log.IsCurrent now timestamp) :=
  inferInstanceAs (Decidable (_ ≤ _))

theorem isExpired_iff {timestamp : UInt64} :
    log.isExpired now timestamp = true ↔ ¬ log.IsCurrent now timestamp := by
  have small : now.toNat - timestamp.toNat ≤ 2 ^ 64 - 1 :=
    (Nat.sub_le _ _).trans (Nat.le_sub_one_of_lt now.toNat_lt)
  rw [isExpired, decide_eq_true_eq, maxNanos, IsCurrent, Nat.not_le, min_lt_iff]
  apply or_iff_left
  exact Nat.not_lt_of_le small

theorem unpin_pinsOf (seq : Nat) : (log.unpin seq).pinsOf seqNo =
    if seqNo = seq then (log.pinsOf seq).dropLast else log.pinsOf seqNo := by
  unfold unpin
  cases pinned : log.pinnedSnapshots.lookup seq with
  | none =>
    dsimp only
    split
    · rename_i same
      rw [same, pinsOf, pinned]
      rfl
    · rfl
  | some timestamps =>
    have pins : log.pinsOf seq = timestamps := by rw [pinsOf, pinned, Option.getD_some]
    rw [pins]
    dsimp only
    by_cases same : seqNo = seq
    · subst same
      rw [if_pos rfl]
      split
      · rename_i single
        rw [pinsOf, AList.lookup_erase, single]
        rfl
      · rw [pinsOf, AList.lookup_insert]
        rfl
    · rw [if_neg same]
      split
      · exact congrArg (Option.getD · []) (AList.lookup_erase_ne same)
      · exact congrArg (Option.getD · []) (AList.lookup_insert_ne same)

@[simp] theorem unpin_maxPinDuration (seq : Nat) :
    (log.unpin seq).maxPinDuration = log.maxPinDuration := by
  unfold unpin
  split
  · split <;> rfl
  · rfl

theorem foldl_unpin_pinsOf {released : List Nat} (once : released.Nodup) :
    (released.foldl unpin log).pinsOf seqNo =
      if seqNo ∈ released then (log.pinsOf seqNo).dropLast else log.pinsOf seqNo := by
  induction released generalizing log with
  | nil => rfl
  | cons seq released ih =>
    obtain ⟨notLater, rest⟩ := nodup_cons.mp once
    rw [foldl_cons, ih rest, unpin_pinsOf]
    by_cases same : seqNo = seq
    · rw [same, if_neg notLater, if_pos rfl, if_pos mem_cons_self]
    · rw [if_neg same]
      apply if_congr _ rfl rfl
      rw [mem_cons, or_iff_right same]

theorem foldl_unpin_maxPinDuration (released : List Nat) :
    (released.foldl unpin log).maxPinDuration = log.maxPinDuration := by
  induction released generalizing log with
  | nil => rfl
  | cons seq released ih =>
    rw [foldl_cons, ih, unpin_maxPinDuration]

theorem expiredPinsAt_nodup : (log.expiredPinsAt now).Nodup := by
  unfold expiredPinsAt
  apply (perm_insertionSort _ _).nodup_iff.mpr
  exact List.Nodup.sublist (filter_sublist.map _) log.pinnedSnapshots.nodupKeys

theorem mem_expiredPinsAt : seqNo ∈ log.expiredPinsAt now ↔
    ∃ timestamp ∈ log.pinsOf seqNo, ¬ log.IsCurrent now timestamp := by
  have found : seqNo ∈ log.expiredPinsAt now ↔
      ∃ timestamps, log.pinnedSnapshots.lookup seqNo = some timestamps ∧
        timestamps.any (log.isExpired now) = true := by
    simp only [expiredPinsAt, mem_insertionSort, mem_map, mem_filter]
    constructor
    · rintro ⟨⟨seq, timestamps⟩, ⟨isEntry, expired⟩, rfl⟩
      exact ⟨timestamps, AList.mem_lookup_iff.mpr isEntry, expired⟩
    · rintro ⟨timestamps, pinned, expired⟩
      exact ⟨⟨seqNo, timestamps⟩, ⟨AList.mem_lookup_iff.mp pinned, expired⟩, rfl⟩
  rw [found, pinsOf]
  cases log.pinnedSnapshots.lookup seqNo with
  | none => simp
  | some timestamps => simp [isExpired_iff]

theorem reapExpiredPinsAt_pinsOf : (log.reapExpiredPinsAt now).2.pinsOf seqNo =
    if ∀ timestamp ∈ log.pinsOf seqNo, log.IsCurrent now timestamp then log.pinsOf seqNo
    else (log.pinsOf seqNo).dropLast := by
  have reaped : (log.reapExpiredPinsAt now).2.pinsOf seqNo =
      if seqNo ∈ log.expiredPinsAt now then (log.pinsOf seqNo).dropLast else log.pinsOf seqNo :=
    foldl_unpin_pinsOf expiredPinsAt_nodup
  rw [reaped, ← ite_not]
  apply if_congr _ rfl rfl
  simp only [mem_expiredPinsAt, not_exists, not_and, not_not]

theorem reapExpiredPinsAt_isCurrent {timestamp : UInt64} :
    (log.reapExpiredPinsAt now).2.IsCurrent now timestamp ↔ log.IsCurrent now timestamp := by
  unfold IsCurrent
  rw [show (log.reapExpiredPinsAt now).2.maxPinDuration = log.maxPinDuration from
    foldl_unpin_maxPinDuration _]

def reaped (log : SequenceLog) (now : UInt64) (times : Nat) : SequenceLog :=
  (fun log => (log.reapExpiredPinsAt now).2)^[times] log

/-- What a reaping is for: the current pins are left, and they hold their sequence numbers for as
long as the reaping is repeated. -/
structure ReapsExactly (log : SequenceLog) (now : UInt64) : Prop where
  left : ∀ seqNo, ((log.reapExpiredPinsAt now).2.pinsOf seqNo : Multiset UInt64) =
    (log.pinsOf seqNo : Multiset UInt64).filter (log.IsCurrent now)
  pinned : ∀ seqNo, (∃ timestamp ∈ log.pinsOf seqNo, log.IsCurrent now timestamp) →
    ∀ times, (log.reaped now times).pinsOf seqNo ≠ []

theorem reaped_pinsOf (times : Nat)
    (current : ∀ timestamp ∈ log.pinsOf seqNo, log.IsCurrent now timestamp) :
    (log.reaped now times).pinsOf seqNo = log.pinsOf seqNo := by
  induction times generalizing log with
  | zero => rfl
  | succ times ih =>
    have same : (log.reapExpiredPinsAt now).2.pinsOf seqNo = log.pinsOf seqNo := by
      rw [reapExpiredPinsAt_pinsOf, if_pos current]
    refine Eq.trans (ih ?_) same
    intro timestamp isPin
    rw [same] at isPin
    exact reapExpiredPinsAt_isCurrent.mpr (current timestamp isPin)

theorem reapExpiredPinsAt_pinsOf_of_current
    (current : ∀ timestamp ∈ (log.pinsOf seqNo).dropLast, log.IsCurrent now timestamp) :
    (log.reapExpiredPinsAt now).2.pinsOf seqNo =
      (log.pinsOf seqNo).filter (log.IsCurrent now) := by
  rw [reapExpiredPinsAt_pinsOf]
  split
  · rename_i all
    symm
    apply filter_eq_self.mpr
    intro timestamp isPin
    exact decide_eq_true (all timestamp isPin)
  · rename_i notAll
    rcases eq_nil_or_concat' (log.pinsOf seqNo) with none | ⟨earlier, last, pins⟩
    · rw [none]
      rfl
    · rw [pins, dropLast_concat] at current
      have isExpired : ¬ log.IsCurrent now last := by
        intro isCurrent
        apply notAll
        intro timestamp isPin
        rw [pins, mem_append, mem_singleton] at isPin
        rcases isPin with isEarlier | rfl
        · exact current timestamp isEarlier
        · exact isCurrent
      have kept : earlier.filter (log.IsCurrent now) = earlier := by
        apply filter_eq_self.mpr
        intro timestamp isPin
        exact decide_eq_true (current timestamp isPin)
      rw [pins, dropLast_concat, filter_append, filter_singleton,
        decide_eq_false isExpired, cond_false, append_nil, kept]

/-- A reaping is exact where of the pins on one sequence number only the last one may be too old. -/
theorem reapExpiredPinsAt_exact_iff (log : SequenceLog) (now : UInt64) :
    log.ReapsExactly now ↔
      ∀ seqNo, ∀ timestamp ∈ (log.pinsOf seqNo).dropLast, log.IsCurrent now timestamp := by
  constructor
  · intro exact seqNo timestamp isPin
    by_contra isExpired
    have notAll : ¬ ∀ timestamp ∈ log.pinsOf seqNo, log.IsCurrent now timestamp := fun all =>
      isExpired (all timestamp (dropLast_subset _ isPin))
    have left := exact.left seqNo
    rw [reapExpiredPinsAt_pinsOf, if_neg notAll] at left
    have isLeft : timestamp ∈ ((log.pinsOf seqNo).dropLast : Multiset UInt64) := isPin
    rw [left] at isLeft
    exact isExpired (Multiset.mem_filter.mp isLeft).2
  · intro current
    constructor
    · intro seqNo
      rw [reapExpiredPinsAt_pinsOf_of_current (current seqNo), Multiset.filter_coe]
    · rintro seqNo ⟨timestamp, isPin, isCurrent⟩ times
      cases times with
      | zero => exact ne_nil_of_mem isPin
      | succ times =>
        have left := reapExpiredPinsAt_pinsOf_of_current (current seqNo)
        have isLeft : timestamp ∈ (log.reapExpiredPinsAt now).2.pinsOf seqNo := by
          rw [left]
          exact mem_filter.mpr ⟨isPin, decide_eq_true isCurrent⟩
        have allCurrent : ∀ other ∈ (log.reapExpiredPinsAt now).2.pinsOf seqNo,
            (log.reapExpiredPinsAt now).2.IsCurrent now other := by
          intro other isOther
          rw [left] at isOther
          exact reapExpiredPinsAt_isCurrent.mpr (of_decide_eq_true (mem_filter.mp isOther).2)
        have same : (log.reaped now (times + 1)).pinsOf seqNo =
            (log.reapExpiredPinsAt now).2.pinsOf seqNo := reaped_pinsOf times allCurrent
        rw [same]
        exact ne_nil_of_mem isLeft

/-- Of an old and a recent pin on one sequence number the recent one is released, and the next
reaping releases the old one too. -/
theorem reapExpiredPinsAt_lastTaken :
    let log := (new.pinSnapshotAt 7 0).pinSnapshotAt 7 100000000000
    ¬ log.ReapsExactly 350000000000 ∧
      (log.reaped 350000000000 1).pinsOf 7 = [0] ∧ (log.reaped 350000000000 2).pinsOf 7 = [] := by
  intro log
  refine ⟨?_, by decide +kernel, by decide +kernel⟩
  intro exact
  apply exact.pinned 7 _ 2
  · decide +kernel
  · exact ⟨100000000000, by decide +kernel, by decide +kernel⟩

end SequenceLog

end Contextra.Mvcc
