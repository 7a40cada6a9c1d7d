import Contextra.Library.BinarySearch
import Contextra.Library.IsotonicFit
import Contextra.Library.StableSort

/-!
# Isotonic calibration

The calibrator that pools adjacent violators among its observations, and the lookup of a score in
the model it builds.  Scores and probabilities are exact, from any ordered field; a score that is
not finite is `none`.
-/

namespace Contextra.Rank

open Library List

variable {K : Type} [Field K] [LinearOrder K]

/-- A block as it is built: its largest score, its positive outcomes and its observations. -/
structure Block (K : Type) where
  threshold : K
  labelSum : K
  count : Nat
  deriving DecidableEq, Repr

def Block.average (block : Block K) : K := block.labelSum / block.count

structure IsotonicCalibrator (K : Type) where
  observations : List (K × Bool)
  warmupRequired : Nat
  maxObservations : Nat
  -- the largest score and the probability of every block
  cachedModel : Option (List (K × K))
  modelDirty : Bool
  observationsSinceRebuild : Nat

def rebuildThresholdNewObs : Nat := 10

def labelled (observations : List (K × Bool)) : List (K × K) :=
  observations.map fun seen => (seen.1, if seen.2 then 1 else 0)

/-- Blocks lie with the latest first while they are built. -/
def aggregateStep (aggregated : List (Block K)) (seen : K × K) : List (Block K) :=
  match aggregated with
  | last :: earlier =>
    if last.threshold = seen.1 then
      { last with labelSum := last.labelSum + seen.2, count := last.count + 1 } :: earlier
    else ⟨seen.1, seen.2, 1⟩ :: last :: earlier
  | [] => [⟨seen.1, seen.2, 1⟩]

/-- The inner loop: the last block merges into the one before it as long as its average is not
higher. -/
def mergeBack (last : Block K) : List (Block K) → List (Block K)
  | [] => [last]
  | prev :: earlier =>
    if 0 < last.count ∧ 0 < prev.count ∧ last.average ≤ prev.average then
      mergeBack ⟨last.threshold, prev.labelSum + last.labelSum, prev.count + last.count⟩ earlier
    else last :: prev :: earlier

def aggregatedBlocks (observations : List (K × Bool)) : List (Block K) :=
  ((sortByKey Prod.fst (labelled observations)).foldl aggregateStep []).reverse

def mergedBlocks (observations : List (K × Bool)) : List (Block K) :=
  ((aggregatedBlocks observations).foldl (fun blocks block => mergeBack block blocks) []).reverse

namespace IsotonicCalibrator

def new (warmupRequired maxObservations : Nat) : IsotonicCalibrator K :=
  ⟨[], warmupRequired, maxObservations, none, true, 0⟩

def recordOutcome (calibrator : IsotonicCalibrator K) (rawScore : Option K) (outcome : Bool) :
    IsotonicCalibrator K :=
  match rawScore with
  | none => calibrator
  | some score =>
    let kept :=
      if calibrator.maxObservations ≤ calibrator.observations.length then
        calibrator.observations.tail
      else calibrator.observations
    { calibrator with
      observations := kept ++ [(score, outcome)]
      modelDirty := true
      observationsSinceRebuild := calibrator.observationsSinceRebuild + 1 }

def isCalibrated (calibrator : IsotonicCalibrator K) : Bool :=
  decide (calibrator.warmupRequired ≤ min calibrator.observations.length (2 ^ 32 - 1))

def rebuildModel (calibrator : IsotonicCalibrator K) : IsotonicCalibrator K :=
  { calibrator with
    cachedModel := some ((mergedBlocks calibrator.observations).map fun block =>
      (block.threshold, if 0 < block.count then block.average else 0))
    modelDirty := false
    observationsSinceRebuild := 0 }

def lookupIsotonic (calibrator : IsotonicCalibrator K) (rawScore : K) : Option K :=
  match calibrator.cachedModel with
  | none => none
  | some model =>
    if model.isEmpty then none
    else if model.length = 1 then model.head?.map Prod.snd
    else
      let probe : Nat → Except Empty Ordering := fun idx =>
        .ok ((model[idx]?.map fun step => compare step.1 rawScore).getD .gt)
      match binarySearch probe 0 model.length with
      | .ok (.found idx) => model[idx]?.map Prod.snd
      | .ok (.missing idx) =>
        if model.length ≤ idx then model.getLast?.map Prod.snd
        else model[idx]?.map Prod.snd

def forceRebuild (calibrator : IsotonicCalibrator K) : IsotonicCalibrator K :=
  if calibrator.modelDirty then calibrator.rebuildModel else calibrator

def calibratedProbability (calibrator : IsotonicCalibrator K) (rawScore : K) :
    Option K × IsotonicCalibrator K :=
  if calibrator.isCalibrated then
    let current :=
      if calibrator.modelDirty ∧ (calibrator.cachedModel.isNone ∨
          rebuildThresholdNewObs ≤ calibrator.observationsSinceRebuild) then
        calibrator.rebuildModel
      else calibrator
    (current.lookupIsotonic rawScore, current)
  else (none, calibrator)

end IsotonicCalibrator

section Lookups

omit [Field K] in
theorem find?_eq_lowerBound (model : List (K × K)) (score : K) :
    model.find? (fun step => decide (score ≤ step.1)) =
      model[lowerBound (model.map Prod.fst) score]? := by
  induction model with
  | nil => rfl
  | cons step model ih =>
    by_cases below : step.1 < score
    · simpa [lowerBound, below, not_le.mpr below] using ih
    · simp [lowerBound, below, not_lt.mp below]

omit [Field K] in
theorem lookupIsotonic_eq {calibrator : IsotonicCalibrator K} {model : List (K × K)}
    (cached : calibrator.cachedModel = some model) (nonempty : model ≠ [])
    (rises : (model.map Prod.fst).Pairwise (· < ·)) (score : K) :
    calibrator.lookupIsotonic score = stepAt model score := by
  have notEmpty : ¬model.isEmpty := by simpa using nonempty
  simp only [IsotonicCalibrator.lookupIsotonic, cached, if_neg notEmpty]
  by_cases single : model.length = 1
  · obtain ⟨step, rfl⟩ := length_eq_one_iff.mp single
    simp
  · rw [if_neg single]
    have ordered : (model.map Prod.fst).Pairwise (· ≤ ·) := rises.imp le_of_lt
    obtain ⟨result, searched, isFound, isMissing⟩ := @binarySearch_threeWay K Empty _ _
      ordered score (fun idx => .ok ((model[idx]?.map fun step => compare step.1 score).getD .gt))
      (fun threshold => compare threshold score)
      (by
        intro position inside
        have inModel : position < model.length := by simpa using inside
        simp [getElem?_eq_getElem inModel])
      (fun _ => compare_lt_iff_lt) (fun _ => compare_gt_iff_gt)
    rw [length_map] at searched
    have atFound : ∀ position, result = .found position →
        position = lowerBound (model.map Prod.fst) score := by
      intro position isResult
      obtain ⟨inside, same⟩ := List.getElem?_eq_some_iff.mp (isFound position isResult)
      refine le_antisymm ?_ ?_
      · by_contra behind
        have inList : lowerBound (model.map Prod.fst) score < (model.map Prod.fst).length := by
          omega
        have before := pairwise_iff_getElem.mp rises _ _ inList inside (by omega)
        rw [same, ← lt_lowerBound_iff ordered inList] at before
        exact lt_irrefl _ before
      · by_contra behind
        have below : position < lowerBound (model.map Prod.fst) score := by omega
        rw [lt_lowerBound_iff ordered inside, same] at below
        exact lt_irrefl _ below
    have atBound : model[lowerBound (model.map Prod.fst) score]? =
        model.find? fun step => decide (score ≤ step.1) := (find?_eq_lowerBound model score).symm
    cases result with
    | found position =>
      have isBound := atFound position rfl
      have isSome := isFound position rfl
      rw [isBound, getElem?_map] at isSome
      obtain ⟨step, isStep, -⟩ := Option.map_eq_some_iff.mp isSome
      rw [searched]
      simp only [isBound, stepAt, ← atBound, isStep, Option.some_or]
    | missing position =>
      have isBound := isMissing position rfl
      rw [searched]
      simp only [isBound, stepAt, ← atBound]
      by_cases beyond : model.length ≤ lowerBound (model.map Prod.fst) score
      · simp [beyond]
      · simp [beyond, getElem?_eq_getElem (not_le.mp beyond)]

end Lookups

section Blocks

structure Gathers (block : Block K) (segment : List (K × K)) : Prop where
  count : block.count = segment.length
  labelSum : block.labelSum = (segment.map Prod.snd).sum
  nonempty : segment ≠ []
  same : ∀ seen ∈ segment, seen.1 = block.threshold

structure Pools (block : Block K) (segment : List (K × K)) : Prop where
  count : block.count = segment.length
  labelSum : block.labelSum = (segment.map Prod.snd).sum
  pool : Pool block.average block.threshold segment

omit [LinearOrder K] in
theorem deviation_const (value : K) (segment : List (K × K)) :
    deviation value (fun _ => 1) segment =
      (segment.map Prod.snd).sum - value * segment.length := by
  induction segment with
  | nil => simp [deviation]
  | cons seen segment ih =>
    simp only [deviation, map_cons, sum_cons, length_cons] at ih ⊢
    rw [ih]
    push_cast
    ring

variable [IsStrictOrderedRing K] {block : Block K} {segment : List (K × K)}

theorem balanced_average (count : block.count = segment.length)
    (labelSum : block.labelSum = (segment.map Prod.snd).sum) (nonempty : segment ≠ []) :
    deviation block.average (fun _ => 1) segment = 0 := by
  have positive : (segment.length : K) ≠ 0 :=
    Nat.cast_ne_zero.mpr (length_pos_iff.mpr nonempty).ne'
  rw [deviation_const, Block.average, count, labelSum, div_mul_cancel₀ _ positive, sub_self]

theorem Gathers.pools (gathers : Gathers block segment) : Pools block segment where
  count := gathers.count
  labelSum := gathers.labelSum
  pool := Pool.of_same gathers.nonempty gathers.same
    (balanced_average gathers.count gathers.labelSum gathers.nonempty)

omit [IsStrictOrderedRing K] in
theorem Pools.count_pos (pools : Pools block segment) : 0 < block.count := by
  rw [pools.count]
  exact Pool.length_pos pools.pool.last_mem

theorem Pools.merge {prev : Block K} {before : List (K × K)} (poolsPrev : Pools prev before)
    (pools : Pools block segment)
    (apart : ∀ earlier ∈ before, ∀ later ∈ segment, earlier.1 < later.1)
    (falls : block.average ≤ prev.average) :
    Pools ⟨block.threshold, prev.labelSum + block.labelSum, prev.count + block.count⟩
      (before ++ segment) := by
  have count : prev.count + block.count = (before ++ segment).length := by
    rw [length_append, poolsPrev.count, pools.count]
  have labelSum : prev.labelSum + block.labelSum = ((before ++ segment).map Prod.snd).sum := by
    rw [map_append, sum_append, poolsPrev.labelSum, pools.labelSum]
  have nonempty : before ++ segment ≠ [] :=
    append_ne_nil_of_right_ne_nil _
      (length_pos_iff.mp (Pool.length_pos pools.pool.last_mem))
  exact ⟨count, labelSum, poolsPrev.pool.append pools.pool apart falls
    (@balanced_average K _ _ _ ⟨_, _, _⟩ _ count labelSum nonempty)⟩

variable {observations : List (K × K)}

theorem mergeBack_stacked {blocks : List (Block K)}
    (pools : Pools block segment) (stacked : Stacked Pools blocks observations)
    (apart : ∀ earlier ∈ observations, ∀ later ∈ segment, earlier.1 < later.1) :
    Stacked Pools (mergeBack block blocks) (observations ++ segment) := by
  induction stacked generalizing block segment with
  | nil => exact .cons pools .nil apart
  | @cons prev blocks before earlier poolsPrev stacked apartPrev ih =>
    rw [mergeBack]
    split
    · rename_i violates
      rw [append_assoc]
      refine ih (poolsPrev.merge pools (fun seen isIn =>
        apart seen (mem_append_right _ isIn)) violates.2.2) ?_
      intro seen isEarlier later isIn
      rcases mem_append.mp isIn with isBefore | isLater
      · exact apartPrev seen isEarlier later isBefore
      · exact apart seen (mem_append_left _ isEarlier) later isLater
    · exact .cons pools (.cons poolsPrev stacked apartPrev) apart

theorem mergeBack_rises {blocks : List (Block K)}
    (pools : Pools block segment) (stacked : Stacked Pools blocks observations)
    (apart : ∀ earlier ∈ observations, ∀ later ∈ segment, earlier.1 < later.1)
    (rises : blocks.Pairwise fun later earlier => earlier.average < later.average) :
    (mergeBack block blocks).Pairwise fun later earlier => earlier.average < later.average := by
  induction stacked generalizing block segment with
  | nil => exact pairwise_singleton _ _
  | @cons prev blocks before earlier poolsPrev stacked apartPrev ih =>
    obtain ⟨abovePrev, risesRest⟩ := pairwise_cons.mp rises
    rw [mergeBack]
    split
    · rename_i violates
      refine ih (poolsPrev.merge pools (fun seen isIn =>
        apart seen (mem_append_right _ isIn)) violates.2.2) ?_ risesRest
      intro seen isEarlier later isIn
      rcases mem_append.mp isIn with isBefore | isLater
      · exact apartPrev seen isEarlier later isBefore
      · exact apart seen (mem_append_left _ isEarlier) later isLater
    · rename_i keeps
      have above : prev.average < block.average :=
        not_le.mp fun falls => keeps ⟨pools.count_pos, poolsPrev.count_pos, falls⟩
      refine .cons (fun other isBelow => ?_) rises
      rcases mem_cons.mp isBelow with rfl | isEarlier
      · exact above
      · exact (abovePrev other isEarlier).trans above

omit [IsStrictOrderedRing K] in
theorem aggregateStep_stacked {aggregated : List (Block K)}
    {seen : K × K} (stacked : Stacked Gathers aggregated observations)
    (latest : ∀ earlier ∈ observations, earlier.1 ≤ seen.1) :
    Stacked Gathers (aggregateStep aggregated seen) (observations ++ [seen]) := by
  have alone : Gathers ⟨seen.1, seen.2, 1⟩ [seen] := ⟨rfl, by simp, by simp, by simp⟩
  cases stacked with
  | nil => exact .cons alone .nil (by simp)
  | @cons last stack segment earlier gathers stacked apart =>
    rw [aggregateStep]
    split
    · rename_i same
      rw [append_assoc]
      refine .cons ⟨?_, ?_, by simp, ?_⟩ stacked ?_
      · simp [gathers.count]
      · simp [gathers.labelSum]
      · intro other isIn
        rcases mem_append.mp isIn with isOld | isNew
        · exact gathers.same other isOld
        · rw [mem_singleton.mp isNew]
          exact same.symm
      · intro before isBefore later isIn
        rcases mem_append.mp isIn with isOld | isNew
        · exact apart before isBefore later isOld
        · obtain ⟨other, isOther⟩ := exists_mem_of_ne_nil segment gathers.nonempty
          have less := apart before isBefore other isOther
          rw [mem_singleton.mp isNew, ← same, ← gathers.same other isOther]
          exact less
    · rename_i different
      refine .cons alone (.cons gathers stacked apart) ?_
      intro before isBefore later isNew
      rw [mem_singleton.mp isNew]
      obtain ⟨other, isOther⟩ := exists_mem_of_ne_nil segment gathers.nonempty
      have thresholdBelow : last.threshold < seen.1 := by
        refine lt_of_le_of_ne ?_ different
        rw [← gathers.same other isOther]
        exact latest other (mem_append_right _ isOther)
      rcases mem_append.mp isBefore with isEarlier | isOld
      · have less := apart before isEarlier other isOther
        rw [gathers.same other isOther] at less
        exact less.trans thresholdBelow
      · rw [gathers.same before isOld]
        exact thresholdBelow

omit [IsStrictOrderedRing K] in
theorem aggregated_stacked {sorted : List (K × K)}
    (inOrder : sorted.Pairwise fun a b => a.1 ≤ b.1) :
    Stacked Gathers (sorted.foldl aggregateStep []) sorted := by
  induction sorted using reverseRecOn with
  | nil => exact .nil
  | append_singleton sorted seen ih =>
    obtain ⟨earlier, -, latest⟩ := pairwise_append.mp inOrder
    rw [foldl_concat]
    exact aggregateStep_stacked (ih earlier) fun before isBefore =>
      latest before isBefore seen mem_cons_self

theorem mergedBlocks_stacked (observations : List (K × Bool)) :
    Stacked Pools (mergedBlocks observations).reverse
        (sortByKey Prod.fst (labelled observations)) ∧
      (mergedBlocks observations).reverse.Pairwise
        fun later earlier => earlier.average < later.average := by
  have merged : ∀ {aggregated : List (Block K)} {sorted : List (K × K)},
      Stacked Gathers aggregated sorted →
        Stacked Pools (aggregated.foldr mergeBack []) sorted ∧
          (aggregated.foldr mergeBack []).Pairwise
            fun later earlier => earlier.average < later.average := by
    intro aggregated sorted stacked
    induction stacked with
    | nil => exact ⟨.nil, .nil⟩
    | cons gathers _ apart ih =>
      exact ⟨mergeBack_stacked gathers.pools ih.1 apart,
        mergeBack_rises gathers.pools ih.1 apart ih.2⟩
  rw [mergedBlocks, aggregatedBlocks, foldl_reverse, reverse_reverse]
  exact merged (aggregated_stacked (sortByKey_sorted Prod.fst _))

end Blocks

section Model

variable [IsStrictOrderedRing K]

theorem label_mem (observations : List (K × Bool)) :
    ∀ seen ∈ labelled observations, 0 ≤ seen.2 ∧ seen.2 ≤ 1 := by
  intro seen isIn
  obtain ⟨⟨score, outcome⟩, -, rfl⟩ := mem_map.mp isIn
  cases outcome <;> simp

theorem Pools.average_mem {block : Block K} {segment : List (K × K)} (pools : Pools block segment)
    (labels : ∀ seen ∈ segment, 0 ≤ seen.2 ∧ seen.2 ≤ 1) :
    0 ≤ block.average ∧ block.average ≤ 1 := by
  have positive : (0 : K) < block.count := Nat.cast_pos.mpr pools.count_pos
  have nonneg : 0 ≤ (segment.map Prod.snd).sum :=
    sum_nonneg (forall_mem_map.mpr fun seen isIn => (labels seen isIn).1)
  have atMost := sum_le_card_nsmul (segment.map Prod.snd) 1
    (forall_mem_map.mpr fun seen isIn => (labels seen isIn).2)
  rw [length_map, nsmul_one, ← pools.count, ← pools.labelSum] at atMost
  rw [← pools.labelSum] at nonneg
  exact ⟨div_nonneg nonneg positive.le, (div_le_one positive).mpr atMost⟩

def outcomeError (observations : List (K × Bool)) (f : K → K) : K :=
  squaredError (labelled observations) f

def Block.step (block : Block K) : K × K := (block.threshold, block.average)

theorem rebuiltModel_eq (calibrator : IsotonicCalibrator K) :
    calibrator.rebuildModel.cachedModel =
      some ((mergedBlocks calibrator.observations).map Block.step) := by
  obtain ⟨stacked, -⟩ := mergedBlocks_stacked calibrator.observations
  refine congrArg some (map_congr_left fun block isBlock => ?_)
  obtain ⟨segment, -, pools⟩ := stacked.exists_segment block (mem_reverse.mpr isBlock)
  rw [if_pos pools.count_pos, Block.step]

theorem mergedBlocks_fitted (observations : List (K × Bool)) :
    Stacked.Fitted ((mergedBlocks observations).map Block.step).reverse
      (sortByKey Prod.fst (labelled observations)) := by
  rw [← map_reverse]
  exact (mergedBlocks_stacked observations).1.imp fun _ _ pools => pools.pool

omit [LinearOrder K] [IsStrictOrderedRing K] in
theorem squaredError_perm {first second : List (K × K)} (isPerm : first.Perm second) (f : K → K) :
    squaredError first f = squaredError second f :=
  (isPerm.map _).sum_eq

/-- `rebuildModel` builds the least-squares fit: rising blocks of rising probabilities, whose
lookups are the one non-decreasing function with the least squared error. -/
theorem rebuildModel_leastSquares (calibrator : IsotonicCalibrator K)
    (observed : calibrator.observations ≠ []) :
    ∃ model fit, calibrator.rebuildModel.cachedModel = some model ∧
      (model.map Prod.fst).Pairwise (· < ·) ∧ (model.map Prod.snd).Pairwise (· < ·) ∧
      (∀ step ∈ model, 0 ≤ step.2 ∧ step.2 ≤ 1) ∧
      (∀ score, calibrator.rebuildModel.lookupIsotonic score = some (fit score)) ∧
      Monotone fit ∧
      ∀ other, MonotoneOn other (scores (labelled calibrator.observations)) →
        outcomeError calibrator.observations fit ≤ outcomeError calibrator.observations other ∧
          (outcomeError calibrator.observations other =
              outcomeError calibrator.observations fit →
            ∀ seen ∈ calibrator.observations, other seen.1 = fit seen.1) := by
  obtain ⟨stacked, averagesRise⟩ := mergedBlocks_stacked calibrator.observations
  have fitted := mergedBlocks_fitted calibrator.observations
  have cached := rebuiltModel_eq calibrator
  obtain ⟨model, isModel⟩ : ∃ model, model = (mergedBlocks calibrator.observations).map Block.step :=
    ⟨_, rfl⟩
  rw [← isModel] at fitted cached
  have isPerm : (sortByKey Prod.fst (labelled calibrator.observations)).Perm
      (labelled calibrator.observations) := perm_insertionSort _ _
  have thresholdsRise : (model.map Prod.fst).Pairwise (· < ·) := by
    rw [pairwise_map]
    exact pairwise_reverse.mp fitted.lasts_rise
  have valuesRise : (model.map Prod.snd).Pairwise (· < ·) := by
    rw [isModel, map_map, pairwise_map]
    exact pairwise_reverse.mp averagesRise
  have nonempty : model ≠ [] := by
    obtain ⟨⟨score, outcome⟩, isSeen⟩ := exists_mem_of_ne_nil _ observed
    have isLabelled : (score, if outcome then 1 else 0) ∈ labelled calibrator.observations :=
      mem_map_of_mem isSeen
    obtain ⟨step, isStep, -⟩ := fitted.exists_le _ (isPerm.mem_iff.mpr isLabelled)
    exact ne_nil_of_mem (mem_reverse.mp isStep)
  obtain ⟨fit, looksUp⟩ := Classical.skolem.mp (exists_stepAt nonempty)
  refine ⟨model, fit, cached, thresholdsRise, valuesRise, ?_, ?_, ?_, ?_⟩
  · intro step isStep
    rw [isModel] at isStep
    obtain ⟨block, isBlock, rfl⟩ := mem_map.mp isStep
    obtain ⟨segment, within, pools⟩ := stacked.exists_segment block (mem_reverse.mpr isBlock)
    exact pools.average_mem fun seen isIn => label_mem _ seen (isPerm.mem_iff.mp (within isIn))
  · intro score
    rw [lookupIsotonic_eq cached nonempty thresholdsRise score]
    exact looksUp score
  · intro score higher isHigher
    exact stepAt_mono valuesRise isHigher (looksUp score) (looksUp higher)
  · intro other monotone
    have sameScores : scores (sortByKey Prod.fst (labelled calibrator.observations)) =
        scores (labelled calibrator.observations) := by
      ext score
      exact exists_congr fun seen => and_congr_left fun _ => isPerm.mem_iff
    rw [← sameScores] at monotone
    have isFit : ∀ seen ∈ sortByKey Prod.fst (labelled calibrator.observations),
        stepAt model.reverse.reverse seen.1 = some (fit seen.1) := by
      intro seen _
      rw [reverse_reverse]
      exact looksUp seen.1
    obtain ⟨least, unique⟩ := fitted.leastSquares isFit monotone
    rw [squaredError_perm isPerm, squaredError_perm isPerm] at least unique
    refine ⟨least, fun same seen isSeen => ?_⟩
    have isLabelled : (seen.1, if seen.2 then 1 else 0) ∈ labelled calibrator.observations :=
      mem_map_of_mem isSeen
    exact unique same _ (isPerm.mem_iff.mpr isLabelled)

theorem rebuildModel_leastSquares_falling :
    let calibrator : IsotonicCalibrator ℚ := ⟨[(0, true), (1, false)], 0, 2, none, true, 2⟩
    calibrator.observations ≠ [] ∧ ∃ model fit,
      calibrator.rebuildModel.cachedModel = some model ∧
      (model.map Prod.fst).Pairwise (· < ·) ∧ (model.map Prod.snd).Pairwise (· < ·) ∧
      (∀ step ∈ model, 0 ≤ step.2 ∧ step.2 ≤ 1) ∧
      (∀ score, calibrator.rebuildModel.lookupIsotonic score = some (fit score)) ∧
      Monotone fit ∧
      ∀ other, MonotoneOn other (scores (labelled calibrator.observations)) →
        outcomeError calibrator.observations fit ≤ outcomeError calibrator.observations other ∧
          (outcomeError calibrator.observations other =
              outcomeError calibrator.observations fit →
            ∀ seen ∈ calibrator.observations, other seen.1 = fit seen.1) := by
  intro calibrator
  have observed : calibrator.observations ≠ [] := cons_ne_nil _ _
  exact ⟨observed, rebuildModel_leastSquares calibrator observed⟩

end Model

namespace IsotonicCalibrator

/-- The last one is `invalidate_on_config_change` with another fingerprint. -/
inductive Call (K : Type) where
  | recordOutcome (rawScore : Option K) (outcome : Bool)
  | calibratedProbability (rawScore : K)
  | expectedCalibrationError
  | forceRebuild
  | invalidate

def perform (calibrator : IsotonicCalibrator K) : Call K → IsotonicCalibrator K
  | .recordOutcome rawScore outcome => calibrator.recordOutcome rawScore outcome
  | .calibratedProbability rawScore => (calibrator.calibratedProbability rawScore).2
  | .expectedCalibrationError =>
    if calibrator.isCalibrated then calibrator.forceRebuild else calibrator
  | .forceRebuild => calibrator.forceRebuild
  | .invalidate => { calibrator with
      observations := [], cachedModel := none, modelDirty := true, observationsSinceRebuild := 0 }

def record (recorded : List (K × Bool)) : Call K → List (K × Bool)
  | .recordOutcome (some score) outcome => recorded ++ [(score, outcome)]
  | .invalidate => []
  | _ => recorded

/-- The latest outcomes, as many as are kept. -/
def window (limit : Nat) (recorded : List (K × Bool)) : List (K × Bool) :=
  recorded.drop (recorded.length - max 1 limit)

def fresh (observations : List (K × Bool)) (rawScore : K) : Option K :=
  (rebuildModel ⟨observations, 0, 0, none, true, 0⟩).lookupIsotonic rawScore

variable {warmup limit : Nat} {recorded : List (K × Bool)} {calibrator : IsotonicCalibrator K}

/-- The cached model is that of the outcomes before those that were recorded since. -/
structure Lags (warmup limit : Nat) (recorded : List (K × Bool))
    (calibrator : IsotonicCalibrator K) : Prop where
  required : calibrator.warmupRequired = warmup
  limited : calibrator.maxObservations = limit
  observations : calibrator.observations = window limit recorded
  model : calibrator.cachedModel = none ∧ calibrator.modelDirty = true ∨
    (calibrator.modelDirty = false → calibrator.observationsSinceRebuild = 0) ∧
      ∃ earlier, earlier + calibrator.observationsSinceRebuild = recorded.length ∧
        calibrator.lookupIsotonic = fresh (window limit (recorded.take earlier))

theorem Lags.rebuild (lags : Lags warmup limit recorded calibrator) :
    Lags warmup limit recorded calibrator.rebuildModel := by
  refine ⟨lags.required, lags.limited, lags.observations,
    .inr ⟨fun _ => rfl, recorded.length, rfl, ?_⟩⟩
  rw [take_length, ← lags.observations]
  rfl

theorem Lags.record (lags : Lags warmup limit recorded calibrator) (score : K) (outcome : Bool) :
    Lags warmup limit (recorded ++ [(score, outcome)])
      (calibrator.recordOutcome (some score) outcome) := by
  refine ⟨lags.required, lags.limited, ?_, ?_⟩
  · have kept : recorded.length + 1 - max 1 limit ≤ recorded.length := by omega
    simp only [recordOutcome, lags.limited, lags.observations, window, length_drop, length_append,
      length_singleton, tail_drop, drop_append_of_le_length kept]
    rcases recorded with _ | ⟨first, recorded⟩
    · simp
    · rw [length_cons]
      split_ifs <;> congr 2 <;> omega
  · refine lags.model.imp (fun unbuilt => ⟨unbuilt.1, rfl⟩) fun ⟨_, earlier, since, same⟩ =>
      ⟨fun clean => Bool.noConfusion clean, earlier, ?_, ?_⟩
    · rw [length_append, ← since]
      rfl
    · rw [take_append_of_le_length (by omega)]
      exact same

theorem Lags.force (lags : Lags warmup limit recorded calibrator) :
    Lags warmup limit recorded calibrator.forceRebuild := by
  unfold forceRebuild
  split_ifs
  exacts [lags.rebuild, lags]

theorem Lags.answer (lags : Lags warmup limit recorded calibrator) (score : K) :
    Lags warmup limit recorded (calibrator.calibratedProbability score).2 := by
  unfold calibratedProbability
  split_ifs
  exacts [lags.rebuild, lags, lags]

theorem lags_run (warmup limit : Nat) (calls : List (Call K)) :
    Lags warmup limit (calls.foldl record []) (calls.foldl perform (new warmup limit)) := by
  induction calls using reverseRecOn with
  | nil => exact ⟨rfl, rfl, drop_nil.symm, .inl ⟨rfl, rfl⟩⟩
  | append_singleton calls call ih =>
    rw [foldl_concat, foldl_concat]
    rcases call with ⟨_ | score, outcome⟩ | score | _ | _ | _
    · exact ih
    · exact ih.record score outcome
    · exact ih.answer score
    · simp only [perform]
      split_ifs
      exacts [ih.force, ih]
    · exact ih.force
    · exact ⟨ih.required, ih.limited, drop_nil.symm, .inl ⟨rfl, rfl⟩⟩

/-- After any calls: with enough outcomes since the last invalidation, an answer leaves out less
than ten of the last ones. -/
theorem calibratedProbability_lags (warmup limit : Nat) (calls : List (Call K)) (rawScore : K) :
    let recorded := calls.foldl record []
    let (answer, _) := (calls.foldl perform (new warmup limit)).calibratedProbability rawScore
    if warmup ≤ min (min recorded.length (max 1 limit)) (2 ^ 32 - 1) then
      ∃ earlier ≤ recorded.length, recorded.length < earlier + rebuildThresholdNewObs ∧
        answer = fresh (window limit (recorded.take earlier)) rawScore
    else answer = none := by
  have lags := lags_run warmup limit calls
  generalize calls.foldl perform (new warmup limit) = calibrator,
    calls.foldl record [] = recorded at lags ⊢
  have enough : calibrator.isCalibrated =
      decide (warmup ≤ min (min recorded.length (max 1 limit)) (2 ^ 32 - 1)) := by
    rw [isCalibrated, lags.required, lags.observations, window, length_drop]
    exact decide_eq_decide.mpr (by omega)
  simp only [calibratedProbability, enough, decide_eq_true_eq]
  split_ifs with calibrated stale
  · refine ⟨recorded.length, le_rfl, Nat.lt_add_of_pos_right (by decide), ?_⟩
    rw [take_length, ← lags.observations]
    rfl
  · rcases lags.model with ⟨unbuilt, dirty⟩ | ⟨clean, earlier, since, same⟩
    · exact absurd ⟨dirty, .inl (by rw [unbuilt]; rfl)⟩ stale
    · refine ⟨earlier, since ▸ Nat.le_add_right _ _, ?_, congrFun same rawScore⟩
      refine since ▸ Nat.add_lt_add_left (not_le.mp fun many => ?_) earlier
      cases isDirty : calibrator.modelDirty with
      | true => exact stale ⟨isDirty, .inr many⟩
      | false => exact absurd many (by rw [clean isDirty]; decide)
  · rfl

end IsotonicCalibrator

end Contextra.Rank
