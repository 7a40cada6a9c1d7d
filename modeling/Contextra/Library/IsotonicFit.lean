import Mathlib

/-!
# Least squares under monotonicity

Observations are pairs of a score and an outcome.  A pool is a segment of them whose mean no
non-decreasing function can improve on; two neighbours whose means fall make one pool.  A stack of
pools with rising means is the unique least-squares fit among the non-decreasing functions.
-/

namespace Contextra.Library

open List Option

variable {K : Type}

section Pools

variable [Field K] [LinearOrder K]

/-- How the deviations from a value go with a function of the score. -/
def deviation (value : K) (f : K → K) (segment : List (K × K)) : K :=
  (segment.map fun seen => (seen.2 - value) * f seen.1).sum

def squaredError (observations : List (K × K)) (f : K → K) : K :=
  (observations.map fun seen => (seen.2 - f seen.1) ^ 2).sum

def scores (observations : List (K × K)) : Set K := {score | ∃ seen ∈ observations, seen.1 = score}

/-- `value` is the mean of the segment, and `last` its largest score. -/
structure Pool (value last : K) (segment : List (K × K)) : Prop where
  balanced : deviation value (fun _ => 1) segment = 0
  last_mem : last ∈ scores segment
  le_last : ∀ seen ∈ segment, seen.1 ≤ last
  leans : ∀ f, MonotoneOn f (scores segment) → deviation value f segment ≤ 0

section Sums

variable {value : K} {f : K → K} {first second : List (K × K)}

omit [LinearOrder K] in
@[simp] theorem deviation_append :
    deviation value f (first ++ second) = deviation value f first + deviation value f second := by
  simp [deviation]

omit [LinearOrder K] in
omit [LinearOrder K] in
theorem deviation_change (value other : K) (f : K → K) (segment : List (K × K)) :
    deviation other f segment =
      deviation value f segment + (value - other) * (segment.map fun seen => f seen.1).sum := by
  induction segment with
  | nil => simp [deviation]
  | cons seen segment ih =>
    simp only [deviation, map_cons, sum_cons] at ih ⊢
    rw [ih]
    ring

omit [Field K] [LinearOrder K] in
theorem scores_append_left : scores first ⊆ scores (first ++ second) :=
  fun _ ⟨seen, isIn, same⟩ => ⟨seen, mem_append_left _ isIn, same⟩

omit [Field K] [LinearOrder K] in
theorem scores_append_right : scores second ⊆ scores (first ++ second) :=
  fun _ ⟨seen, isIn, same⟩ => ⟨seen, mem_append_right _ isIn, same⟩

variable [IsStrictOrderedRing K]

theorem sum_le_length_mul {bound : K} (segment : List (K × K))
    (below : ∀ seen ∈ segment, f seen.1 ≤ bound) :
    (segment.map fun seen => f seen.1).sum ≤ segment.length * bound := by
  have atMost := sum_le_card_nsmul (segment.map fun seen => f seen.1) bound
    (List.forall_mem_map.mpr below)
  simpa using atMost

theorem length_mul_le_sum {bound : K} (segment : List (K × K))
    (above : ∀ seen ∈ segment, bound ≤ f seen.1) :
    segment.length * bound ≤ (segment.map fun seen => f seen.1).sum := by
  have atLeast := card_nsmul_le_sum (segment.map fun seen => f seen.1) bound
    (List.forall_mem_map.mpr above)
  simpa using atLeast

end Sums

namespace Pool

variable {value last : K} {segment : List (K × K)}

omit [Field K] [LinearOrder K] in
theorem length_pos (inside : last ∈ scores segment) : 0 < segment.length := by
  obtain ⟨seen, isIn, -⟩ := inside
  exact length_pos_of_mem isIn

theorem of_same (nonempty : segment ≠ []) (same : ∀ seen ∈ segment, seen.1 = last)
    (balanced : deviation value (fun _ => 1) segment = 0) : Pool value last segment where
  balanced := balanced
  last_mem := by
    obtain ⟨seen, isIn⟩ := exists_mem_of_ne_nil segment nonempty
    exact ⟨seen, isIn, same seen isIn⟩
  le_last := fun seen isIn => (same seen isIn).le
  leans := by
    intro f _
    have constant : deviation value f segment = deviation value (fun _ => 1) segment * f last := by
      rw [deviation, deviation, ← sum_map_mul_right]
      refine congrArg List.sum (map_congr_left fun seen isIn => ?_)
      rw [same seen isIn, mul_one]
    rw [constant, balanced, zero_mul]

variable [IsStrictOrderedRing K]

theorem append {valueBefore lastBefore : K} {before : List (K × K)} {mean : K}
    (poolBefore : Pool valueBefore lastBefore before) (pool : Pool value last segment)
    (apart : ∀ earlier ∈ before, ∀ later ∈ segment, earlier.1 < later.1)
    (falls : value ≤ valueBefore) (balanced : deviation mean (fun _ => 1) (before ++ segment) = 0) :
    Pool mean last (before ++ segment) where
  balanced := balanced
  last_mem := scores_append_right pool.last_mem
  le_last := by
    intro seen isIn
    rcases mem_append.mp isIn with isBefore | isLater
    · obtain ⟨latest, isLatest, rfl⟩ := pool.last_mem
      exact (apart seen isBefore latest isLatest).le
    · exact pool.le_last seen isLater
  leans := by
    intro f monotone
    have leansBefore := poolBefore.leans f (monotone.mono scores_append_left)
    have leansLater := pool.leans f (monotone.mono scores_append_right)
    -- the mean lies between the two values, and outweighs the pools against each other
    have weighed : (valueBefore - mean) * before.length = (mean - value) * segment.length := by
      rw [deviation_append, deviation_change valueBefore mean, deviation_change value mean,
        poolBefore.balanced, pool.balanced] at balanced
      simp only [map_const', sum_replicate, nsmul_eq_mul, mul_one, zero_add] at balanced
      linear_combination balanced
    have lengthBefore : (0 : K) < before.length :=
      Nat.cast_pos.mpr (length_pos poolBefore.last_mem)
    have length : (0 : K) < segment.length := Nat.cast_pos.mpr (length_pos pool.last_mem)
    have meanBelow : 0 ≤ valueBefore - mean := by
      by_contra above
      have negative := mul_neg_of_neg_of_pos (not_le.mp above) lengthBefore
      have positive : 0 < (mean - value) * segment.length := mul_pos (by linarith) length
      linarith
    have meanAbove : 0 ≤ mean - value := by
      by_contra below
      have negative := mul_neg_of_neg_of_pos (not_le.mp below) length
      have positive := mul_nonneg meanBelow lengthBefore.le
      linarith
    -- the last score before the border separates the values of `f`
    have sumBefore : (before.map fun seen => f seen.1).sum ≤ before.length * f lastBefore :=
      sum_le_length_mul before fun seen isIn =>
        monotone (scores_append_left ⟨seen, isIn, rfl⟩) (scores_append_left poolBefore.last_mem)
          (poolBefore.le_last seen isIn)
    have sumLater : segment.length * f lastBefore ≤ (segment.map fun seen => f seen.1).sum := by
      refine length_mul_le_sum segment fun seen isIn => ?_
      obtain ⟨border, isBorder, isLast⟩ := poolBefore.last_mem
      refine monotone (scores_append_left poolBefore.last_mem)
        (scores_append_right ⟨seen, isIn, rfl⟩) ?_
      rw [← isLast]
      exact (apart border isBorder seen isIn).le
    have gainBefore := mul_le_mul_of_nonneg_left sumBefore meanBelow
    have gainLater := mul_le_mul_of_nonneg_left sumLater meanAbove
    have border : (valueBefore - mean) * (before.length * f lastBefore) =
        (mean - value) * (segment.length * f lastBefore) := by
      linear_combination f lastBefore * weighed
    rw [deviation_append, deviation_change valueBefore mean, deviation_change value mean]
    linarith

end Pool

end Pools

section Stacks

variable [LinearOrder K]

/-- A stack, the latest pool first, over the observations in the order of their scores. -/
inductive Stacked {β : Type} (pools : β → List (K × K) → Prop) : List β → List (K × K) → Prop where
  | nil : Stacked pools [] []
  | cons {pool : β} {stack : List β} {segment earlier : List (K × K)} :
      pools pool segment → Stacked pools stack earlier →
      (∀ before ∈ earlier, ∀ later ∈ segment, before.1 < later.1) →
      Stacked pools (pool :: stack) (earlier ++ segment)

theorem Stacked.imp {β γ : Type} {pools : β → List (K × K) → Prop}
    {others : γ → List (K × K) → Prop} {f : β → γ} {stack : List β} {observations : List (K × K)}
    (stacked : Stacked pools stack observations)
    (implies : ∀ pool segment, pools pool segment → others (f pool) segment) :
    Stacked others (stack.map f) observations := by
  induction stacked with
  | nil => exact .nil
  | cons isPool _ apart ih =>
    exact .cons (implies _ _ isPool) ih apart

theorem Stacked.exists_segment {β : Type} {pools : β → List (K × K) → Prop} {stack : List β}
    {observations : List (K × K)} (stacked : Stacked pools stack observations) :
    ∀ pool ∈ stack, ∃ segment ⊆ observations, pools pool segment := by
  induction stacked with
  | nil => exact fun _ impossible => absurd impossible not_mem_nil
  | cons isPool _ _ ih =>
    rintro pool (_ | ⟨_, isBelow⟩)
    · exact ⟨_, subset_append_right _ _, isPool⟩
    · obtain ⟨segment, within, isPool⟩ := ih pool isBelow
      exact ⟨segment, fun _ isIn => mem_append_left _ (within isIn), isPool⟩

/-- The value of the first step that reaches the score, or of the last step. -/
def stepAt (steps : List (K × K)) (score : K) : Option K :=
  ((steps.find? fun step => decide (score ≤ step.1)).or steps.getLast?).map Prod.snd

section Steps

variable {steps : List (K × K)} {step next : K × K} {score : K}

@[simp] theorem stepAt_singleton : stepAt [step] score = some step.2 := by
  by_cases reached : score ≤ step.1 <;> simp [stepAt, reached]

theorem stepAt_cons_cons : stepAt (step :: next :: steps) score =
    if score ≤ step.1 then some step.2 else stepAt (next :: steps) score := by
  by_cases reached : score ≤ step.1 <;>
    simp [stepAt, reached, find?_cons, getLast?_cons_cons]

theorem stepAt_concat_of_le (reached : ∃ step ∈ steps, score ≤ step.1) :
    stepAt (steps ++ [next]) score = stepAt steps score := by
  obtain ⟨found, isFound⟩ : ∃ found,
      steps.find? (fun step => decide (score ≤ step.1)) = some found := by
    rw [← isSome_iff_exists, find?_isSome]
    simpa using reached
  simp [stepAt, find?_append, isFound]

theorem stepAt_concat_of_lt (beyond : ∀ step ∈ steps, step.1 < score) :
    stepAt (steps ++ [next]) score = some next.2 := by
  have notFound : steps.find? (fun step => decide (score ≤ step.1)) = none := by
    rw [find?_eq_none]
    simpa using beyond
  by_cases reached : score ≤ next.1 <;> simp [stepAt, find?_append, notFound, reached]

theorem stepAt_mem {value : K} (isValue : stepAt steps score = some value) :
    value ∈ steps.map Prod.snd := by
  rw [stepAt, map_eq_some_iff] at isValue
  obtain ⟨found, isFound, rfl⟩ := isValue
  rcases or_eq_some_iff.mp isFound with first | ⟨-, isLast⟩
  · exact List.mem_map_of_mem (mem_of_find?_eq_some first)
  · exact List.mem_map_of_mem (mem_of_getLast? isLast)

theorem exists_stepAt (nonempty : steps ≠ []) (score : K) : ∃ value, stepAt steps score = some value := by
  rw [stepAt, getLast?_eq_some_getLast nonempty]
  cases steps.find? fun step => decide (score ≤ step.1) with
  | none => exact ⟨_, rfl⟩
  | some found => exact ⟨_, rfl⟩

theorem stepAt_mono (rises : (steps.map Prod.snd).Pairwise (· < ·)) {higher value valueHigher : K}
    (isHigher : score ≤ higher) (isValue : stepAt steps score = some value)
    (isValueHigher : stepAt steps higher = some valueHigher) : value ≤ valueHigher := by
  induction steps with
  | nil => cases isValue
  | cons step steps ih =>
    cases steps with
    | nil =>
      rw [stepAt_singleton] at isValue isValueHigher
      cases isValue
      cases isValueHigher
      exact le_rfl
    | cons next steps =>
      rw [map_cons, pairwise_cons] at rises
      rw [stepAt_cons_cons] at isValue isValueHigher
      by_cases reached : score ≤ step.1
      · rw [if_pos reached] at isValue
        cases isValue
        by_cases reachedHigher : higher ≤ step.1
        · rw [if_pos reachedHigher] at isValueHigher
          cases isValueHigher
          exact le_rfl
        · rw [if_neg reachedHigher] at isValueHigher
          exact (rises.1 _ (stepAt_mem isValueHigher)).le
      · have beyond : ¬higher ≤ step.1 := fun reachedHigher =>
          reached (isHigher.trans reachedHigher)
        rw [if_neg reached] at isValue
        rw [if_neg beyond] at isValueHigher
        exact ih rises.2 isValue isValueHigher

end Steps

end Stacks

namespace Stacked

variable [Field K] [LinearOrder K] {stack : List (K × K)} {observations : List (K × K)} {fit f : K → K}

/-- A step is a largest score with the value of its pool. -/
abbrev Fitted (stack : List (K × K)) (observations : List (K × K)) : Prop :=
  Stacked (fun step segment => Pool step.2 step.1 segment) stack observations

theorem last_mem (fitted : Fitted stack observations) :
    ∀ step ∈ stack, step.1 ∈ scores observations := by
  induction fitted with
  | nil => exact fun _ impossible => absurd impossible not_mem_nil
  | cons isPool _ _ ih =>
    rintro step (_ | ⟨_, isBelow⟩)
    · exact scores_append_right isPool.last_mem
    · exact scores_append_left (ih step isBelow)

theorem lasts_rise (fitted : Fitted stack observations) :
    stack.Pairwise fun later earlier => earlier.1 < later.1 := by
  induction fitted with
  | nil => exact .nil
  | cons isPool stacked apart ih =>
    refine .cons (fun step isBelow => ?_) ih
    obtain ⟨before, isBefore, same⟩ := last_mem stacked step isBelow
    obtain ⟨latest, isLatest, sameLatest⟩ := isPool.last_mem
    rw [← same, ← sameLatest]
    exact apart before isBefore latest isLatest

theorem exists_le (fitted : Fitted stack observations) :
    ∀ seen ∈ observations, ∃ step ∈ stack, seen.1 ≤ step.1 := by
  induction fitted with
  | nil => exact fun _ impossible => absurd impossible not_mem_nil
  | @cons pool stack segment earlier isPool _ _ ih =>
    intro seen isIn
    rcases mem_append.mp isIn with isEarlier | isLater
    · obtain ⟨step, isStep, isBelow⟩ := ih seen isEarlier
      exact ⟨step, mem_cons_of_mem _ isStep, isBelow⟩
    · exact ⟨pool, mem_cons_self, isPool.le_last seen isLater⟩

variable [IsStrictOrderedRing K]

theorem unexplained_nonneg (fitted : Fitted stack observations)
    (isFit : ∀ seen ∈ observations, stepAt stack.reverse seen.1 = some (fit seen.1))
    (monotone : MonotoneOn f (scores observations)) :
    0 ≤ (observations.map fun seen =>
      (seen.2 - fit seen.1) * (fit seen.1 - f seen.1)).sum := by
  induction fitted with
  | nil => simp
  | @cons pool stack segment earlier isPool stacked apart ih =>
    have earlierFit : ∀ seen ∈ earlier, stepAt stack.reverse seen.1 = some (fit seen.1) := by
      intro seen isEarlier
      have whole := isFit seen (mem_append_left _ isEarlier)
      rwa [reverse_cons, stepAt_concat_of_le] at whole
      simpa using exists_le stacked seen isEarlier
    have poolFit : ∀ seen ∈ segment, fit seen.1 = pool.2 := by
      intro seen isLater
      have whole := isFit seen (mem_append_right _ isLater)
      rw [reverse_cons, stepAt_concat_of_lt] at whole
      · exact (some.inj whole).symm
      · intro step isStep
        obtain ⟨before, isBefore, same⟩ := last_mem stacked step (mem_reverse.mp isStep)
        rw [← same]
        exact apart before isBefore seen isLater
    have ofPool : (segment.map fun seen =>
        (seen.2 - fit seen.1) * (fit seen.1 - f seen.1)).sum = -deviation pool.2 f segment := by
      have split : (segment.map fun seen =>
          (seen.2 - fit seen.1) * (fit seen.1 - f seen.1)).sum + deviation pool.2 f segment =
          deviation pool.2 (fun _ => 1) segment * pool.2 := by
        rw [deviation, deviation, ← sum_map_mul_right, ← sum_map_add]
        refine congrArg List.sum (map_congr_left fun seen isIn => ?_)
        rw [poolFit seen isIn]
        ring
      rw [isPool.balanced, zero_mul] at split
      exact eq_neg_of_add_eq_zero_left split
    have ofEarlier := ih earlierFit (monotone.mono scores_append_left)
    have leans := isPool.leans f (monotone.mono scores_append_right)
    rw [map_append, sum_append, ofPool]
    linarith

omit [LinearOrder K] [IsStrictOrderedRing K] in
theorem squaredError_eq (fit f : K → K) (observations : List (K × K)) :
    squaredError observations f = squaredError observations fit +
      2 * (observations.map fun seen => (seen.2 - fit seen.1) * (fit seen.1 - f seen.1)).sum +
      (observations.map fun seen => (fit seen.1 - f seen.1) ^ 2).sum := by
  induction observations with
  | nil => simp [squaredError]
  | cons seen observations ih =>
    simp only [squaredError, map_cons, sum_cons] at ih ⊢
    rw [ih]
    ring

theorem leastSquares (fitted : Fitted stack observations)
    (isFit : ∀ seen ∈ observations, stepAt stack.reverse seen.1 = some (fit seen.1))
    (monotone : MonotoneOn f (scores observations)) :
    squaredError observations fit ≤ squaredError observations f ∧
      (squaredError observations f = squaredError observations fit →
        ∀ seen ∈ observations, f seen.1 = fit seen.1) := by
  have unexplained := unexplained_nonneg fitted isFit monotone
  have change := squaredError_eq fit f observations
  have squares : ∀ x ∈ observations.map fun seen => (fit seen.1 - f seen.1) ^ 2, 0 ≤ x :=
    List.forall_mem_map.mpr fun seen _ => sq_nonneg _
  have total := sum_nonneg squares
  refine ⟨by linarith, fun same seen isIn => ?_⟩
  have none : (observations.map fun seen => (fit seen.1 - f seen.1) ^ 2).sum = 0 := by linarith
  have zero := all_zero_of_le_zero_le_of_sum_eq_zero squares none
    (List.mem_map_of_mem (f := fun seen => (fit seen.1 - f seen.1) ^ 2) isIn)
  exact (sub_eq_zero.mp (pow_eq_zero_iff two_ne_zero |>.mp zero)).symm

end Stacked

end Contextra.Library
