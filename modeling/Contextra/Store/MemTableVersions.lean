import Contextra.Store.MemTable

/-!
# The versions of a key

The list of a key ascends in the raw sequence numbers.  The read by binary search and the loop of
the scans both find the newest of the versions that match.
-/

namespace Contextra.Store

open Library List
open scoped Library.ByteOrder

variable {versions : List MemTableEntry} {target : Nat}

def Ascending (versions : List MemTableEntry) : Prop :=
  versions.Pairwise fun left right => left.raw < right.raw

structure CutAt (versions : List MemTableEntry) (below : MemTableEntry → Prop) (position : Nat) :
    Prop where
  before : ∀ version ∈ versions.take position, below version
  behind : ∀ version ∈ versions.drop position, ¬ below version

theorem rawOrder_of_lt {position : Nat} (inside : position < versions.length) :
    rawOrder versions target position = compare versions[position].raw target := by
  rw [rawOrder, getElem?_eq_getElem inside]
  rfl

theorem Ascending.raw_le (ascending : Ascending versions) {left right : Nat}
    (behind : left ≤ right) (inside : right < versions.length) :
    versions[left].raw ≤ versions[right].raw := by
  rcases behind.lt_or_eq with less | rfl
  · exact (pairwise_iff_getElem.mp ascending left right _ inside less).le
  · exact le_rfl

theorem searchRaw_locates (ascending : Ascending versions) (target : Nat) :
    Locates (rawOrder versions target) versions.length (searchRaw versions target) := by
  have located : ∃ result,
      binarySearch (fun position => (.ok (rawOrder versions target position) : Except Empty Ordering))
        0 versions.length = .ok result ∧
      Locates (rawOrder versions target) versions.length result := by
    apply binarySearch_locates
    · exact fun _ _ => rfl
    · intro left right behind inside isLess
      rw [rawOrder_of_lt inside] at isLess
      rw [rawOrder_of_lt (behind.trans_lt inside)]
      have ordered := ascending.raw_le behind inside
      exact Nat.compare_eq_lt.mpr (ordered.trans_lt (Nat.compare_eq_lt.mp isLess))
    · intro left right behind inside isGreater
      rw [rawOrder_of_lt (behind.trans_lt inside)] at isGreater
      rw [rawOrder_of_lt inside]
      have ordered := ascending.raw_le behind inside
      exact Nat.compare_eq_gt.mpr ((Nat.compare_eq_gt.mp isGreater).trans_le ordered)
    · exact Nat.zero_le _
    · exact le_rfl
    · exact fun _ impossible => absurd impossible (Nat.not_lt_zero _)
    · exact fun _ behind inside => absurd inside (not_lt.mpr behind)
  obtain ⟨result, searched, locates⟩ := located
  rw [searchRaw, searched]
  exact locates

theorem searchRaw_spec (ascending : Ascending versions) (target : Nat) :
    match searchRaw versions target with
    | .found position => ∃ version, versions[position]? = some version ∧ version.raw = target
    | .missing position => CutAt versions (fun version => version.raw < target) position ∧
        ∀ version ∈ versions, version.raw ≠ target := by
  have locates := searchRaw_locates ascending target
  cases searched : searchRaw versions target with
  | found position =>
    rw [searched] at locates
    cases locates with
    | found inside hit =>
      rw [rawOrder_of_lt inside] at hit
      exact ⟨versions[position], getElem?_eq_getElem inside, Nat.compare_eq_eq.mp hit⟩
  | missing position =>
    rw [searched] at locates
    cases locates with
    | missing inside below above =>
      have isBelow : ∀ version ∈ versions.take position, version.raw < target := by
        intro version isEarlier
        obtain ⟨index, inTake, rfl⟩ := mem_iff_getElem.mp isEarlier
        have before : index < position :=
          (length_take ▸ inTake).trans_le (min_le_left _ _)
        have isLess := below index before
        rw [rawOrder_of_lt (before.trans_le inside)] at isLess
        rw [getElem_take]
        exact Nat.compare_eq_lt.mp isLess
      have isAbove : ∀ version ∈ versions.drop position, target < version.raw := by
        intro version isLater
        obtain ⟨index, inDrop, rfl⟩ := mem_iff_getElem.mp isLater
        have inList : position + index < versions.length := by
          rw [length_drop] at inDrop
          omega
        have isGreater := above (position + index) (Nat.le_add_right _ _) inList
        rw [rawOrder_of_lt inList] at isGreater
        rw [getElem_drop]
        exact Nat.compare_eq_gt.mp isGreater
      refine ⟨⟨isBelow, fun version isLater => (isAbove version isLater).asymm⟩, ?_⟩
      intro version isVersion
      rw [← take_append_drop position versions] at isVersion
      rcases mem_append.mp isVersion with isEarlier | isLater
      · exact (isBelow version isEarlier).ne
      · exact (isAbove version isLater).ne'

theorem insertVersion_spec (ascending : Ascending versions) {version : MemTableEntry}
    (isNew : ∀ other ∈ versions, other.raw ≠ version.raw) :
    Ascending (insertVersion versions version) ∧
      (insertVersion versions version).Perm (version :: versions) := by
  unfold insertVersion
  split
  · rename_i isLast
    refine ⟨pairwise_append.mpr ⟨ascending, pairwise_singleton _ _, ?_⟩,
      perm_append_singleton _ _⟩
    intro other isOther new isVersion
    cases mem_singleton.mp isVersion
    apply lt_of_le_of_ne _ (isNew other isOther)
    cases found : versions.getLast? with
    | none =>
      rw [getLast?_eq_none_iff.mp found] at isOther
      exact absurd isOther not_mem_nil
    | some last =>
      rw [found] at isLast
      have lastAbove : last.raw ≤ version.raw := of_decide_eq_true isLast
      obtain ⟨earlier, rfl⟩ := getLast?_eq_some_iff.mp found
      rcases mem_append.mp isOther with before | same
      · have ordered := (pairwise_append.mp ascending).2.2 other before last
          (mem_singleton_self last)
        exact ordered.le.trans lastAbove
      · cases mem_singleton.mp same
        exact lastAbove
  · have located := searchRaw_spec ascending version.raw
    unfold insertPosition
    cases searched : searchRaw versions version.raw with
    | found position =>
      rw [searched] at located
      obtain ⟨other, isOther, same⟩ := located
      exact absurd same (isNew other (mem_of_getElem? isOther))
    | missing position =>
      rw [searched] at located
      obtain ⟨⟨before, behind⟩, _⟩ := located
      dsimp only
      have parts := take_append_drop position versions
      constructor
      · rw [← parts] at ascending
        obtain ⟨first, second, across⟩ := pairwise_append.mp ascending
        refine pairwise_append.mpr ⟨first, pairwise_cons.mpr ⟨?_, second⟩, ?_⟩
        · intro later isLater
          have different := isNew later (mem_of_mem_drop isLater)
          exact lt_of_le_of_ne (not_lt.mp (behind later isLater)) different.symm
        · intro earlier isEarlier later isLater
          rcases mem_cons.mp isLater with rfl | isRest
          · exact before earlier isEarlier
          · exact across earlier isEarlier later isRest
      · have middle : (versions.take position ++ version :: versions.drop position).Perm
            (version :: (versions.take position ++ versions.drop position)) := perm_middle
        rwa [parts] at middle

def IsBest (matching : MemTableEntry → Bool) (versions : List MemTableEntry) :
    Option MemTableEntry → Prop
  | none => ∀ version ∈ versions, matching version = false
  | some best => best ∈ versions ∧ matching best = true ∧
      ∀ version ∈ versions, matching version = true → version.raw ≤ best.raw

theorem bestVersion_isBest (matching : MemTableEntry → Bool) (versions : List MemTableEntry) :
    IsBest matching versions (bestVersion versions matching) := by
  rw [bestVersion]
  induction versions using reverseRecOn with
  | nil => exact fun _ impossible => absurd impossible not_mem_nil
  | append_singleton versions version ih =>
    rw [foldl_append, foldl_cons, foldl_nil]
    generalize versions.foldl _ none = best at ih
    have isLast : version ∈ versions ++ [version] :=
      mem_append_right _ (mem_singleton_self version)
    by_cases matches' : matching version = true
    · rw [if_pos matches']
      cases best with
      | none =>
        refine ⟨isLast, matches', fun other isOther otherMatches => ?_⟩
        rcases mem_append.mp isOther with before | same
        · rw [ih other before] at otherMatches
          cases otherMatches
        · cases mem_singleton.mp same
          exact le_rfl
      | some found =>
        obtain ⟨isFound, foundMatches, newest⟩ := ih
        dsimp only
        by_cases newer : found.raw < version.raw
        · rw [if_pos newer]
          refine ⟨isLast, matches', fun other isOther otherMatches => ?_⟩
          rcases mem_append.mp isOther with before | same
          · exact (newest other before otherMatches).trans newer.le
          · cases mem_singleton.mp same
            exact le_rfl
        · rw [if_neg newer]
          refine ⟨mem_append_left _ isFound, foundMatches, fun other isOther otherMatches => ?_⟩
          rcases mem_append.mp isOther with before | same
          · exact newest other before otherMatches
          · cases mem_singleton.mp same
            exact not_lt.mp newer
    · rw [if_neg matches']
      cases best with
      | none =>
        intro other isOther
        rcases mem_append.mp isOther with before | same
        · exact ih other before
        · cases mem_singleton.mp same
          exact Bool.eq_false_of_not_eq_true matches'
      | some found =>
        obtain ⟨isFound, foundMatches, newest⟩ := ih
        refine ⟨mem_append_left _ isFound, foundMatches, fun other isOther otherMatches => ?_⟩
        rcases mem_append.mp isOther with before | same
        · exact newest other before otherMatches
        · cases mem_singleton.mp same
          exact absurd otherMatches matches'

theorem upperPosition_cutAt (ascending : Ascending versions) (bound : Nat) :
    CutAt versions (fun version => version.raw ≤ bound) (upperPosition versions bound) := by
  have located := searchRaw_spec ascending bound
  unfold upperPosition
  cases searched : searchRaw versions bound with
  | missing position =>
    rw [searched] at located
    obtain ⟨⟨before, behind⟩, different⟩ := located
    dsimp only
    refine ⟨fun version isEarlier => (before version isEarlier).le, ?_⟩
    intro version isLater within
    exact behind version isLater
      (lt_of_le_of_ne within (different version (mem_of_mem_drop isLater)))
  | found position =>
    rw [searched] at located
    obtain ⟨found, isFound, same⟩ := located
    obtain ⟨inside, rfl⟩ := List.getElem?_eq_some_iff.mp isFound
    have split := drop_eq_getElem_cons inside
    have parts := take_append_drop position versions
    rw [split] at parts
    have ordered := ascending
    rw [← parts] at ordered
    obtain ⟨_, behind, across⟩ := pairwise_append.mp ordered
    have later := (pairwise_cons.mp behind).1
    -- the numbers behind the match are above it, so the walk stops at once
    have walk : passEqual versions bound position = position + 1 := by
      have stops : (versions.drop (position + 1)).takeWhile
          (fun version => decide (version.raw = bound)) = [] := by
        cases rest : versions.drop (position + 1) with
        | nil => rfl
        | cons next more =>
          apply takeWhile_cons_of_neg
          intro isEqual
          have above := later next (rest ▸ mem_cons_self)
          rw [same, of_decide_eq_true isEqual] at above
          exact absurd above (lt_irrefl _)
      have first : (versions[position] :: versions.drop (position + 1)).takeWhile
          (fun version => decide (version.raw = bound)) =
          versions[position] :: (versions.drop (position + 1)).takeWhile
            (fun version => decide (version.raw = bound)) :=
        takeWhile_cons_of_pos (decide_eq_true same)
      rw [passEqual, split, first, stops]
      rfl
    dsimp only
    rw [walk]
    constructor
    · intro version isEarlier
      rw [take_succ_eq_append_getElem inside] at isEarlier
      rcases mem_append.mp isEarlier with before | isMatch
      · have less := across version before versions[position] mem_cons_self
        exact (less.trans_eq same).le
      · cases mem_singleton.mp isMatch
        exact same.le
    · intro version isLater
      have above := later version isLater
      rw [same] at above
      exact not_le.mpr above

theorem findVisible_isBest (ascending : Ascending versions) (bound : Nat) (maxTx : UInt64) :
    IsBest (fun version => decide (version.raw ≤ bound) && version.seenBy maxTx) versions
      (findVisible versions bound maxTx) := by
  have cut := upperPosition_cutAt ascending bound
  have parts := take_append_drop (upperPosition versions bound) versions
  unfold findVisible
  generalize upperPosition versions bound = position at cut parts
  have within {version : MemTableEntry} (isVersion : version ∈ versions)
      (isBelow : version.raw ≤ bound) : version ∈ versions.take position := by
    rw [← parts] at isVersion
    rcases mem_append.mp isVersion with isEarlier | isLater
    · exact isEarlier
    · exact absurd isBelow (cut.behind version isLater)
  cases found : (versions.take position).reverse.find? (MemTableEntry.seenBy maxTx) with
  | none =>
    intro version isVersion
    by_contra isMatch
    rw [Bool.not_eq_false, Bool.and_eq_true, decide_eq_true_eq] at isMatch
    have isEarlier := within isVersion isMatch.1
    exact find?_eq_none.mp found version (mem_reverse.mpr isEarlier) isMatch.2
  | some best =>
    obtain ⟨isSeen, newer, older, split, unseen⟩ := find?_eq_some_iff_append.mp found
    have isBest : best ∈ versions.take position := by
      apply mem_reverse.mp
      rw [split]
      exact mem_append_right _ mem_cons_self
    refine ⟨mem_of_mem_take isBest, ?_, ?_⟩
    · rw [Bool.and_eq_true]
      exact ⟨decide_eq_true (cut.before best isBest), isSeen⟩
    · intro version isVersion isMatch
      rw [Bool.and_eq_true, decide_eq_true_eq] at isMatch
      have isEarlier := mem_reverse.mpr (within isVersion isMatch.1)
      rw [split] at isEarlier
      rcases mem_append.mp isEarlier with isNewer | isRest
      · have notSeen := unseen version isNewer
        rw [isMatch.2] at notSeen
        cases notSeen
      · rcases mem_cons.mp isRest with rfl | isOlder
        · exact le_rfl
        · have descending : (versions.take position).reverse.Pairwise
              fun left right => right.raw < left.raw :=
            pairwise_reverse.mpr (List.Pairwise.sublist (take_sublist _ _) ascending)
          rw [split] at descending
          have ordered := (pairwise_append.mp descending).2.1
          exact ((pairwise_cons.mp ordered).1 version isOlder).le

end Contextra.Store
