import Contextra.Text.Wand

/-!
# The heap of the best documents

What the heap of a search knows of the documents it has been offered, in ascending order of
their ids: those with a score above zero are in it, or come after everything in a full heap.
-/

namespace Contextra.Text

open Library List

variable {K : Type} [LinearOrder K] [Zero K]

namespace BoundedTopK

omit [Zero K] in
theorem isBetter_iff {candidate worst : DocIdRaw × K} :
    isBetter candidate worst = true ↔ ¬ ScoredBefore worst candidate := by
  simp only [isBetter, ScoredBefore, Bool.or_eq_true, Bool.and_eq_true, decide_eq_true_eq, not_or,
    not_and, not_le, not_lt]
  constructor
  · rintro (higher | ⟨same, below⟩)
    · exact ⟨higher.le, fun same => absurd same higher.ne⟩
    · exact ⟨same.symm.le, fun _ => below⟩
  · rintro ⟨atLeast, below⟩
    rcases atLeast.lt_or_eq with higher | same
    · exact Or.inl higher
    · exact Or.inr ⟨same.symm, below same⟩

structure Holds (score : DocIdRaw → K) (isCandidate : DocIdRaw → Prop) (frontier : Nat)
    (topK : BoundedTopK K) : Prop where
  positive : 0 < topK.capacity
  bounded : topK.heap.length ≤ topK.capacity
  sorted : topK.heap.Pairwise ScoredBefore
  distinct : (topK.heap.map Prod.fst).Nodup
  scored : ∀ entry ∈ topK.heap,
    entry.2 = score entry.1 ∧ isCandidate entry.1 ∧ entry.1.val < frontier
  complete : ∀ docId : DocIdRaw, docId.val < frontier → 0 < score docId →
    (docId, score docId) ∈ topK.heap ∨
      topK.heap.length = topK.capacity ∧
        ∀ entry ∈ topK.heap, ScoredBefore entry (docId, score docId)

variable {score : DocIdRaw → K} {isCandidate : DocIdRaw → Prop} {frontier : Nat}
  {topK : BoundedTopK K}

theorem holds_new {capacity : Nat} (positive : 0 < capacity) :
    Holds score isCandidate 0 (.new capacity) where
  positive := lt_min positive (by decide)
  bounded := Nat.zero_le _
  sorted := .nil
  distinct := .nil
  scored := fun _ impossible => absurd impossible not_mem_nil
  complete := fun _ impossible => absurd impossible (Nat.not_lt_zero _)

omit [LinearOrder K] in
theorem minThreshold_full (full : topK.capacity ≤ topK.heap.length) (positive : 0 < topK.capacity) :
    ∃ better worst, topK.heap = better ++ [worst] ∧ topK.minThreshold = worst.2 := by
  rcases eq_nil_or_concat' topK.heap with empty | ⟨better, worst, split⟩
  · rw [empty] at full
    exact absurd positive (Nat.not_lt.mpr full)
  · refine ⟨better, worst, split, ?_⟩
    rw [minThreshold, if_neg full.not_gt, split, getLast?_concat]
    rfl

namespace Holds

theorem minThreshold_nonneg (nonneg : ∀ docId, 0 ≤ score docId)
    (holds : Holds score isCandidate frontier topK) : 0 ≤ topK.minThreshold := by
  rcases Nat.lt_or_ge topK.heap.length topK.capacity with room | full
  · rw [minThreshold, if_pos room]
  · obtain ⟨better, worst, split, isThreshold⟩ := minThreshold_full full holds.positive
    rw [isThreshold, (holds.scored worst (by simp [split])).1]
    exact nonneg _

theorem skip (holds : Holds score isCandidate frontier topK) {next : Nat} (further : frontier ≤ next)
    (low : ∀ docId : DocIdRaw, frontier ≤ docId.val → docId.val < next →
      score docId ≤ topK.minThreshold) : Holds score isCandidate next topK where
  positive := holds.positive
  bounded := holds.bounded
  sorted := holds.sorted
  distinct := holds.distinct
  scored := fun entry isEntry =>
    have ⟨isScore, isCandidate, below⟩ := holds.scored entry isEntry
    ⟨isScore, isCandidate, below.trans_le further⟩
  complete := by
    intro docId below positive
    rcases Nat.lt_or_ge docId.val frontier with old | new
    · exact holds.complete docId old positive
    · have exceeds := positive.trans_le (low docId new below)
      have full : topK.capacity ≤ topK.heap.length := by
        by_contra room
        rw [minThreshold, if_pos (Nat.lt_of_not_le room)] at exceeds
        exact lt_irrefl _ exceeds
      obtain ⟨better, worst, split, isThreshold⟩ := minThreshold_full full holds.positive
      refine Or.inr ⟨le_antisymm holds.bounded full, fun entry isEntry => ?_⟩
      have atLeast : worst.2 ≤ entry.2 := by
        have sorted := holds.sorted
        rw [split] at isEntry sorted
        rcases mem_append.mp isEntry with isBetter | isWorst
        · rcases (pairwise_append.mp sorted).2.2 entry isBetter worst mem_cons_self with
            higher | ⟨same, -⟩
          · exact higher.le
          · exact same.symm.le
        · rw [mem_singleton.mp isWorst]
      have lowScore := low docId new below
      rw [isThreshold] at lowScore
      have isOlder : entry.1 ≤ docId :=
        Fin.le_def.mpr ((holds.scored entry isEntry).2.2.le.trans new)
      rcases (lowScore.trans atLeast).lt_or_eq with higher | same
      · exact Or.inl higher
      · exact Or.inr ⟨same.symm, isOlder⟩

theorem insert {docId : DocIdRaw} (isCandidate' : isCandidate docId)
    {kept : List (DocIdRaw × K)} (holds : Holds score isCandidate docId.val topK)
    (sublist : kept.Sublist topK.heap) (room : kept.length < topK.capacity)
    (complete : ∀ other : DocIdRaw, other.val < docId.val → 0 < score other →
      (other, score other) ∈ kept ∨ kept.length + 1 = topK.capacity ∧
        (∀ entry ∈ kept, ScoredBefore entry (other, score other)) ∧
        ScoredBefore (docId, score docId) (other, score other)) :
    Holds score isCandidate (docId.val + 1)
      { topK with heap := kept.orderedInsert ScoredBefore (docId, score docId) } where
  positive := holds.positive
  bounded := by
    rw [orderedInsert_length]
    exact room
  sorted := (holds.sorted.sublist sublist).orderedInsert _ _
  distinct := by
    have perm := (perm_orderedInsert ScoredBefore (docId, score docId) kept).map Prod.fst
    rw [perm.nodup_iff, map_cons, nodup_cons]
    refine ⟨fun isKept => ?_, holds.distinct.sublist (sublist.map _)⟩
    obtain ⟨entry, isEntry, same⟩ := mem_map.mp isKept
    have below := (holds.scored entry (sublist.subset isEntry)).2.2
    rw [same] at below
    exact lt_irrefl _ below
  scored := by
    intro entry isEntry
    rcases (mem_orderedInsert _).mp isEntry with rfl | isKept
    · exact ⟨rfl, isCandidate', Nat.lt_succ_self _⟩
    · obtain ⟨isScore, isCandidate, below⟩ := holds.scored entry (sublist.subset isKept)
      exact ⟨isScore, isCandidate, below.trans (Nat.lt_succ_self _)⟩
  complete := by
    intro other below positive
    simp only [mem_orderedInsert, orderedInsert_length]
    rcases Nat.lt_or_eq_of_le (Nat.le_of_lt_succ below) with old | same
    · rcases complete other old positive with isKept | ⟨full, before, beforeNew⟩
      · exact Or.inl (Or.inr isKept)
      · refine Or.inr ⟨full, ?_⟩
        rintro entry (rfl | isKept)
        · exact beforeNew
        · exact before entry isKept
    · obtain rfl : other = docId := Fin.ext same
      exact Or.inl (Or.inl rfl)

theorem push {docId : DocIdRaw} (isCandidate' : isCandidate docId)
    (holds : Holds score isCandidate docId.val topK) :
    Holds score isCandidate (docId.val + 1) (topK.push docId (score docId)) := by
  rw [BoundedTopK.push, if_neg holds.positive.ne']
  rcases Nat.lt_or_ge topK.heap.length topK.capacity with room | full
  · rw [if_pos room]
    apply holds.insert isCandidate' (List.Sublist.refl _) room
    intro other below positive
    exact (holds.complete other below positive).imp_right fun full => absurd full.1 room.ne
  · have isFull := le_antisymm holds.bounded full
    rw [if_neg full.not_gt]
    obtain ⟨better, worst, split, -⟩ := minThreshold_full full holds.positive
    have last : topK.heap.getLast? = some worst := by rw [split, getLast?_concat]
    have isWorst : worst ∈ topK.heap := by simp [split]
    have sorted := holds.sorted
    rw [split] at sorted
    have beforeWorst := (pairwise_append.mp sorted).2.2
    simp only [last]
    by_cases improves : isBetter (docId, score docId) worst = true
    · have kept : topK.heap.dropLast = better := by rw [split, dropLast_concat]
      have length : better.length + 1 = topK.capacity := by
        rw [← isFull, split, length_append, length_singleton]
      rw [if_pos improves, kept]
      have newBefore : ScoredBefore (docId, score docId) worst :=
        (Std.Total.total _ _).resolve_right (isBetter_iff.mp improves)
      apply holds.insert isCandidate' (by rw [split]; exact sublist_append_left _ _) (by omega)
      intro other below positive
      rcases holds.complete other below positive with isHeld | ⟨-, before⟩
      · rw [split] at isHeld
        rcases mem_append.mp isHeld with isKept | isLast
        · exact Or.inl isKept
        · obtain rfl := mem_singleton.mp isLast
          exact Or.inr ⟨length, fun entry isKept => beforeWorst entry isKept _ mem_cons_self,
            newBefore⟩
      · refine Or.inr ⟨length, fun entry isKept => before entry (by simp [split, isKept]), ?_⟩
        exact IsTrans.trans _ _ _ newBefore (before worst isWorst)
    · rw [if_neg improves]
      have worstBefore : ScoredBefore worst (docId, score docId) := by
        by_contra notBefore
        exact improves (isBetter_iff.mpr notBefore)
      refine { holds with
        scored := fun entry isEntry => ?_
        complete := fun other below positive => ?_ }
      · obtain ⟨isScore, isCandidate, older⟩ := holds.scored entry isEntry
        exact ⟨isScore, isCandidate, older.trans (Nat.lt_succ_self _)⟩
      · rcases Nat.lt_or_eq_of_le (Nat.le_of_lt_succ below) with old | same
        · exact holds.complete other old positive
        · obtain rfl : other = docId := Fin.ext same
          refine Or.inr ⟨isFull, fun entry isEntry => ?_⟩
          rw [split] at isEntry
          rcases mem_append.mp isEntry with isKept | isLast
          · exact IsTrans.trans _ _ _ (beforeWorst entry isKept worst mem_cons_self)
              worstBefore
          · rw [mem_singleton.mp isLast]
            exact worstBefore

theorem filter_pos (holds : Holds score isCandidate (2 ^ 64) topK) {matching : List DocIdRaw}
    (candidates : ∀ docId, isCandidate docId → docId ∈ matching) :
    topK.heap.filter (0 < ·.2) =
      (((ranking score matching).take topK.capacity).map fun docId => (docId, score docId)).filter
        (0 < ·.2) := by
  let best := topK.heap.map Prod.fst
  let isPositive (docId : DocIdRaw) : Bool := 0 < score docId
  have pairs : topK.heap = best.map fun docId => (docId, score docId) := by
    rw [map_map]
    conv_lhs => rw [← map_id topK.heap]
    apply map_congr_left
    intro entry isEntry
    exact Prod.ext rfl (holds.scored entry isEntry).1
  have filterPairs (docIds : List DocIdRaw) :
      (docIds.map fun docId => (docId, score docId)).filter (0 < ·.2) =
        (docIds.filter isPositive).map fun docId => (docId, score docId) := by
    rw [filter_map]
    rfl
  have ordered : best.Pairwise (RanksBefore score) := by
    have sorted := holds.sorted
    rw [pairs, pairwise_map] at sorted
    exact sorted
  have inMatching : best ⊆ matching := by
    intro docId isBest
    obtain ⟨entry, isEntry, rfl⟩ := mem_map.mp isBest
    exact candidates _ (holds.scored entry isEntry).2.1
  have length : best.length ≤ topK.capacity := by
    rw [length_map]
    exact holds.bounded
  -- a positive document that is not in the heap comes after everything in it, and the heap is full
  have outside (docId : DocIdRaw) (positive : 0 < score docId) (absent : docId ∉ best) :
      best.length = topK.capacity ∧ ∀ other ∈ best, RanksBefore score other docId := by
    rcases holds.complete docId docId.isLt positive with isHeld | ⟨full, before⟩
    · exact absurd (mem_map.mpr ⟨_, isHeld, rfl⟩) absent
    · refine ⟨by rw [length_map, full], fun other isBest => ?_⟩
      obtain ⟨entry, isEntry, rfl⟩ := mem_map.mp isBest
      have isBefore := before entry isEntry
      rw [RanksBefore, ← (holds.scored entry isEntry).1]
      exact isBefore
  have falls : (ranking score matching).Pairwise fun first second =>
      isPositive second = true → isPositive first = true := by
    apply ranking_pairwise.imp
    intro first second before positive
    have positive' : 0 < score second := of_decide_eq_true positive
    apply decide_eq_true
    rcases before with higher | ⟨same, -⟩
    · exact positive'.trans higher
    · exact positive'.trans_eq same.symm
  have front : best.filter isPositive =
      (ranking score (matching.filter isPositive)).take (best.filter isPositive).length := by
    symm
    apply take_ranking (holds.distinct.filter _) _ (ordered.filter _)
    · intro docId isBest docId' isMatching absent
      obtain ⟨inBest, -⟩ := mem_filter.mp isBest
      obtain ⟨-, positive⟩ := mem_filter.mp isMatching
      apply (outside docId' (of_decide_eq_true positive) _).2 docId inBest
      exact fun inBest' => absent (mem_filter.mpr ⟨inBest', positive⟩)
    · intro docId isBest
      obtain ⟨inBest, positive⟩ := mem_filter.mp isBest
      exact mem_filter.mpr ⟨inMatching inBest, positive⟩
  have whole : best.filter isPositive =
      (ranking score (matching.filter isPositive)).take topK.capacity := by
    by_cases contained : ∀ docId, 0 < score docId → docId ∈ best
    · have sameLength : (ranking score (matching.filter isPositive)).length ≤
          (best.filter isPositive).length := by
        apply (ranking_nodup.subperm _).length_le
        intro docId isRanked
        obtain ⟨-, positive⟩ := mem_filter.mp (mem_ranking.mp isRanked)
        exact mem_filter.mpr ⟨contained docId (of_decide_eq_true positive), positive⟩
      have short : (best.filter isPositive).length ≤ topK.capacity :=
        (length_filter_le _ _).trans length
      rw [take_of_length_le sameLength] at front
      rw [take_of_length_le (sameLength.trans short)]
      exact front
    · push Not at contained
      obtain ⟨docId, positive, absent⟩ := contained
      obtain ⟨full, before⟩ := outside docId positive absent
      have allPositive : best.filter isPositive = best := by
        apply filter_eq_self.mpr
        intro other isBest
        apply decide_eq_true
        rcases before other isBest with higher | ⟨same, -⟩
        · exact positive.trans higher
        · exact positive.trans_eq same.symm
      rw [allPositive, full] at front
      rw [allPositive]
      exact front
  rw [filterPairs, filter_take falls, filter_ranking, ← whole, ← filterPairs, ← pairs]

end Holds

end BoundedTopK

end Contextra.Text
