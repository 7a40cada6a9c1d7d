import Mathlib

/-!
# Adaptive conformal thresholds

The online threshold that rises when a score exceeds it and falls otherwise, cut to its bounds
after every step, and how often the scores of a run exceed it.  Numbers are exact, from any ordered
field; an argument that is not a finite number is `none`.
-/

namespace Contextra.Rank

open List

/-- What is refused; each case carries the refused argument. -/
inductive ConformalError (K : Type*) where
  | alpha (value : Option K)
  | propensityWeight (value : Option K)
  | nonConformityScore (value : Option K)
  | threshold (value : Option K)
  | learningRate (value : Option K)
  deriving DecidableEq, Repr

structure AdaptiveConformalCalibrator (K : Type*) where
  alpha : K
  threshold : K
  learningRate : K
  minThreshold : K
  maxThreshold : K
  observationCount : Nat
  deriving DecidableEq, Repr

namespace AdaptiveConformalCalibrator

variable {K : Type*} [Field K] [LinearOrder K]

def defaultMinThreshold : K := 0

def defaultMaxThreshold : K := 1

def withParams (alpha initialThreshold learningRate : Option K) :
    Except (ConformalError K) (AdaptiveConformalCalibrator K) :=
  match alpha with
  | none => .error (.alpha none)
  | some level =>
    if level ≤ 0 ∨ 1 ≤ level then .error (.alpha (some level))
    else
      match initialThreshold with
      | none => .error (.threshold none)
      | some start =>
        match learningRate with
        | none => .error (.learningRate none)
        | some rate =>
          if rate ≤ 0 then .error (.learningRate (some rate))
          else
            .ok {
              alpha := level
              threshold := start
              learningRate := rate
              minThreshold := defaultMinThreshold
              maxThreshold := defaultMaxThreshold
              observationCount := 0 }

def withBounds (calibrator : AdaptiveConformalCalibrator K) (minThreshold maxThreshold : Option K) :
    Except (ConformalError K) (AdaptiveConformalCalibrator K) :=
  match minThreshold with
  | none => .error (.threshold none)
  | some low =>
    match maxThreshold with
    | none => .error (.threshold none)
    | some high =>
      if high < low then .error (.threshold (some low))
      else
        .ok { calibrator with
          minThreshold := low
          maxThreshold := high
          threshold := max low (min calibrator.threshold high) }

/-- The step towards a score: up when the score exceeds the threshold, down when it does not. -/
def step (calibrator : AdaptiveConformalCalibrator K) (score weight : K) : K :=
  if calibrator.threshold < score then calibrator.learningRate * weight * (1 - calibrator.alpha)
  else -calibrator.learningRate * weight * calibrator.alpha

/-- The calibrator after a step; its counter is 64 bits wide. -/
def moved (calibrator : AdaptiveConformalCalibrator K) (score weight : K) :
    AdaptiveConformalCalibrator K :=
  { calibrator with
    threshold := max calibrator.minThreshold
      (min (calibrator.threshold + calibrator.step score weight) calibrator.maxThreshold)
    observationCount := (calibrator.observationCount + 1) % 2 ^ 64 }

/-- Whether the update changed the threshold, and the calibrator after it.  A step is always finite
here. -/
def update (calibrator : AdaptiveConformalCalibrator K)
    (nonConformityScore propensityWeight : Option K) :
    Except (ConformalError K) (Bool × AdaptiveConformalCalibrator K) :=
  match propensityWeight with
  | none => .error (.propensityWeight none)
  | some weight =>
    if weight ≤ 0 then .error (.propensityWeight (some weight))
    else
      match nonConformityScore with
      | none => .error (.nonConformityScore none)
      | some score =>
        .ok (decide ((calibrator.moved score weight).threshold ≠ calibrator.threshold),
          calibrator.moved score weight)

/-- A run of updates with weight one: how many of its scores exceeded the threshold they met, and
the calibrator after it. -/
def updates (calibrator : AdaptiveConformalCalibrator K) :
    List K → Except (ConformalError K) (Nat × AdaptiveConformalCalibrator K)
  | [] => .ok (0, calibrator)
  | score :: rest => do
      let (_, next) ← calibrator.update (some score) (some 1)
      let (exceeded, final) ← next.updates rest
      return (exceeded + if calibrator.threshold < score then 1 else 0, final)

/-- Every raise of the run fits below the upper bound, which then cuts nothing off. -/
def RaisesFit (calibrator : AdaptiveConformalCalibrator K) : List K → Prop
  | [] => True
  | score :: rest =>
    (calibrator.threshold < score →
      calibrator.threshold + calibrator.learningRate * (1 - calibrator.alpha) ≤
        calibrator.maxThreshold) ∧
      RaisesFit (calibrator.moved score 1) rest

/-- What the constructors promise of a calibrator, and every update keeps. -/
structure Bounded (calibrator : AdaptiveConformalCalibrator K) : Prop where
  alpha_pos : 0 < calibrator.alpha
  alpha_lt : calibrator.alpha < 1
  rate_pos : 0 < calibrator.learningRate
  min_le : calibrator.minThreshold ≤ calibrator.threshold
  le_max : calibrator.threshold ≤ calibrator.maxThreshold

/-- How many scores of a run exceed the threshold they meet. -/
def exceedances (calibrator : AdaptiveConformalCalibrator K) : List K → Nat
  | [] => 0
  | score :: rest =>
    (calibrator.moved score 1).exceedances rest + if calibrator.threshold < score then 1 else 0

section Steps

variable {calibrator : AdaptiveConformalCalibrator K} {score weight : K}

@[simp] theorem moved_alpha : (calibrator.moved score weight).alpha = calibrator.alpha := rfl

@[simp] theorem moved_learningRate :
    (calibrator.moved score weight).learningRate = calibrator.learningRate := rfl

@[simp] theorem moved_minThreshold :
    (calibrator.moved score weight).minThreshold = calibrator.minThreshold := rfl

@[simp] theorem moved_maxThreshold :
    (calibrator.moved score weight).maxThreshold = calibrator.maxThreshold := rfl

theorem Bounded.moved (bounded : calibrator.Bounded) : (calibrator.moved score weight).Bounded where
  alpha_pos := bounded.alpha_pos
  alpha_lt := bounded.alpha_lt
  rate_pos := bounded.rate_pos
  min_le := le_max_left _ _
  le_max := max_le (bounded.min_le.trans bounded.le_max) (min_le_right _ _)

variable [IsStrictOrderedRing K]

theorem Bounded.moved_threshold_of_exceeds (bounded : calibrator.Bounded)
    (exceeds : calibrator.threshold < score) :
    (calibrator.moved score 1).threshold =
      min (calibrator.threshold + calibrator.learningRate * (1 - calibrator.alpha))
        calibrator.maxThreshold := by
  have raised : 0 < calibrator.learningRate * (1 - calibrator.alpha) :=
    mul_pos bounded.rate_pos (sub_pos.mpr bounded.alpha_lt)
  simp only [AdaptiveConformalCalibrator.moved, step, if_pos exceeds, mul_one]
  refine max_eq_right (le_min ?_ (bounded.min_le.trans bounded.le_max))
  linarith [bounded.min_le]

theorem Bounded.moved_threshold_of_not_exceeds (bounded : calibrator.Bounded)
    (covered : ¬calibrator.threshold < score) :
    (calibrator.moved score 1).threshold =
      max calibrator.minThreshold
        (calibrator.threshold - calibrator.learningRate * calibrator.alpha) := by
  have lowered : 0 < calibrator.learningRate * calibrator.alpha :=
    mul_pos bounded.rate_pos bounded.alpha_pos
  simp only [AdaptiveConformalCalibrator.moved, step, if_neg covered, mul_one, neg_mul,
    ← sub_eq_add_neg]
  rw [min_eq_left]
  linarith [bounded.le_max]

theorem updates_eq (calibrator : AdaptiveConformalCalibrator K) (scores : List K) :
    ∃ final, calibrator.updates scores = .ok (calibrator.exceedances scores, final) := by
  induction scores generalizing calibrator with
  | nil => exact ⟨calibrator, rfl⟩
  | cons score rest ih =>
    obtain ⟨final, ran⟩ := ih (calibrator.moved score 1)
    refine ⟨final, ?_⟩
    have accepted : ¬(1 : K) ≤ 0 := not_le.mpr one_pos
    have updated : calibrator.update (some score) (some 1) =
        .ok (decide ((calibrator.moved score 1).threshold ≠ calibrator.threshold),
          calibrator.moved score 1) := if_neg accepted
    simp only [updates, updated, bind, Except.bind, ran, pure, Except.pure, exceedances]

/-- With no raise cut, the raises and falls telescope; a fall that the lower bound cuts only helps. -/
theorem Bounded.exceedances_le_of_raisesFit (bounded : calibrator.Bounded) {scores : List K}
    (fit : calibrator.RaisesFit scores) :
    calibrator.learningRate * (calibrator.exceedances scores : K) ≤
      calibrator.learningRate * calibrator.alpha * (scores.length : K) +
        (calibrator.maxThreshold - calibrator.threshold) := by
  induction scores generalizing calibrator with
  | nil => simpa [exceedances] using bounded.le_max
  | cons score rest ih =>
    have remaining := ih (bounded.moved) fit.2
    simp only [moved_learningRate, moved_alpha, moved_maxThreshold] at remaining
    simp only [exceedances, length_cons, Nat.cast_add, Nat.cast_one]
    by_cases exceeds : calibrator.threshold < score
    · have raised := bounded.moved_threshold_of_exceeds exceeds
      rw [min_eq_left (fit.1 exceeds)] at raised
      rw [raised] at remaining
      simp only [if_pos exceeds, Nat.cast_one]
      linarith
    · have lowered := bounded.moved_threshold_of_not_exceeds exceeds
      have fallen : calibrator.threshold - calibrator.learningRate * calibrator.alpha ≤
          (calibrator.moved score 1).threshold := by
        rw [lowered]
        exact le_max_right _ _
      simp only [if_neg exceeds, Nat.cast_zero]
      linarith

/-- In units of a raise, an exceedance takes one unit of the gap below the upper bound, however
much of the raise is cut; a fall adds at most `falls` units. -/
theorem Bounded.exceedances_le_of_gap (bounded : calibrator.Bounded) {scores : List K}
    (within : ∀ score ∈ scores, score ≤ calibrator.maxThreshold) {falls gap : Nat}
    (fall : calibrator.alpha ≤ falls * (1 - calibrator.alpha))
    (apart : calibrator.maxThreshold ≤
      calibrator.threshold + gap * (calibrator.learningRate * (1 - calibrator.alpha))) :
    (falls + 1) * calibrator.exceedances scores ≤ falls * scores.length + gap := by
  induction scores generalizing calibrator gap with
  | nil => simp [exceedances]
  | cons score rest ih =>
    have later : ∀ score' ∈ rest, score' ≤ (calibrator.moved score 1).maxThreshold :=
      fun score' isLater => within score' (mem_cons_of_mem _ isLater)
    have raise : 0 < calibrator.learningRate * (1 - calibrator.alpha) :=
      mul_pos bounded.rate_pos (sub_pos.mpr bounded.alpha_lt)
    simp only [exceedances, length_cons]
    by_cases exceeds : calibrator.threshold < score
    · have raised := bounded.moved_threshold_of_exceeds exceeds
      have below : calibrator.threshold < calibrator.maxThreshold :=
        exceeds.trans_le (within score mem_cons_self)
      obtain ⟨left, rfl⟩ : ∃ left, gap = left + 1 := by
        refine Nat.exists_eq_succ_of_ne_zero ?_
        rintro rfl
        simp only [Nat.cast_zero, zero_mul, add_zero] at apart
        exact absurd apart (not_le.mpr below)
      have closer : calibrator.maxThreshold ≤ (calibrator.moved score 1).threshold +
          left * (calibrator.learningRate * (1 - calibrator.alpha)) := by
        have nonneg := mul_nonneg (Nat.cast_nonneg (α := K) left) raise.le
        push_cast at apart
        rw [raised]
        rcases min_choice (calibrator.threshold +
          calibrator.learningRate * (1 - calibrator.alpha)) calibrator.maxThreshold with
          chosen | chosen <;> rw [chosen] <;> linarith
      have counted := ih bounded.moved later fall closer
      simp only [if_pos exceeds]
      ring_nf at counted ⊢
      omega
    · have lowered := bounded.moved_threshold_of_not_exceeds exceeds
      have farther : calibrator.maxThreshold ≤ (calibrator.moved score 1).threshold +
          ((gap + falls : Nat) : K) * (calibrator.learningRate * (1 - calibrator.alpha)) := by
        have fallen := mul_le_mul_of_nonneg_left fall bounded.rate_pos.le
        have kept := le_max_right calibrator.minThreshold
          (calibrator.threshold - calibrator.learningRate * calibrator.alpha)
        rw [lowered]
        push_cast
        linarith
      have counted := ih bounded.moved later fall farther
      simp only [if_neg exceeds]
      ring_nf at counted ⊢
      omega

end Steps

section Pumping

variable [IsStrictOrderedRing K] {calibrator : AdaptiveConformalCalibrator K} {raises : Nat}

def atMax (calibrator : AdaptiveConformalCalibrator K) (count : Nat) :
    AdaptiveConformalCalibrator K :=
  { calibrator with threshold := calibrator.maxThreshold, observationCount := count }

/-- Scores at the upper bound lift a threshold to it, and each of them exceeds the threshold as long
as the raises before it fall short. -/
theorem Bounded.exceedances_replicate (bounded : calibrator.Bounded) (later : List K)
    (short : ∀ earlier < raises,
      calibrator.threshold + earlier * (calibrator.learningRate * (1 - calibrator.alpha)) <
        calibrator.maxThreshold)
    (enough : calibrator.maxThreshold ≤
      calibrator.threshold + raises * (calibrator.learningRate * (1 - calibrator.alpha))) :
    ∃ count, calibrator.exceedances (replicate raises calibrator.maxThreshold ++ later) =
      (calibrator.atMax count).exceedances later + raises := by
  induction raises generalizing calibrator with
  | zero =>
    refine ⟨calibrator.observationCount, ?_⟩
    have reached : calibrator.maxThreshold = calibrator.threshold :=
      bounded.le_max.antisymm' (by simpa using enough)
    have same : calibrator.atMax calibrator.observationCount = calibrator := by
      cases calibrator
      simpa [atMax] using reached
    simp [same]
  | succ raises ih =>
    have exceeds : calibrator.threshold < calibrator.maxThreshold := by
      simpa using short 0 raises.succ_pos
    have raise : 0 < calibrator.learningRate * (1 - calibrator.alpha) :=
      mul_pos bounded.rate_pos (sub_pos.mpr bounded.alpha_lt)
    have raised := bounded.moved_threshold_of_exceeds exceeds
    have stillShort : ∀ earlier < raises,
        (calibrator.moved calibrator.maxThreshold 1).threshold +
          earlier * (calibrator.learningRate * (1 - calibrator.alpha)) <
            calibrator.maxThreshold := by
      intro earlier isEarlier
      have next := short (earlier + 1) (Nat.succ_lt_succ isEarlier)
      have chosen := min_le_left (calibrator.threshold +
        calibrator.learningRate * (1 - calibrator.alpha)) calibrator.maxThreshold
      push_cast at next
      rw [raised]
      linarith
    have stillEnough : calibrator.maxThreshold ≤
        (calibrator.moved calibrator.maxThreshold 1).threshold +
          raises * (calibrator.learningRate * (1 - calibrator.alpha)) := by
      have nonneg := mul_nonneg (Nat.cast_nonneg (α := K) raises) raise.le
      push_cast at enough
      rw [raised]
      rcases min_choice (calibrator.threshold +
        calibrator.learningRate * (1 - calibrator.alpha)) calibrator.maxThreshold with
        chosen | chosen <;> rw [chosen] <;> linarith
    obtain ⟨count, counted⟩ := ih bounded.moved stillShort stillEnough
    refine ⟨count, ?_⟩
    simp only [moved_maxThreshold] at counted
    simp only [replicate_succ, cons_append, exceedances, counted, if_pos exceeds]
    exact Nat.add_assoc _ _ _

/-- Just below the upper bound a fall costs less than the raises that undo it: after a covered
score, each of `raises` scores at the bound exceeds the threshold. -/
theorem Bounded.exceedances_cycle (bounded : calibrator.Bounded) (later : List K) {score : K}
    (atTop : calibrator.threshold = calibrator.maxThreshold)
    (covered : score ≤ calibrator.maxThreshold)
    (uncut : calibrator.minThreshold ≤
      calibrator.maxThreshold - calibrator.learningRate * calibrator.alpha)
    (short : ∀ earlier < raises, earlier * (1 - calibrator.alpha) < calibrator.alpha)
    (enough : calibrator.alpha ≤ raises * (1 - calibrator.alpha)) :
    ∃ count, calibrator.exceedances
        (score :: replicate raises calibrator.maxThreshold ++ later) =
      (calibrator.atMax count).exceedances later + raises := by
  have notExceeds : ¬calibrator.threshold < score := by
    rw [atTop]
    exact not_lt.mpr covered
  have lowered : (calibrator.moved score 1).threshold =
      calibrator.maxThreshold - calibrator.learningRate * calibrator.alpha := by
    rw [bounded.moved_threshold_of_not_exceeds notExceeds, atTop, max_eq_right uncut]
  have stillShort : ∀ earlier < raises, (calibrator.moved score 1).threshold +
      earlier * (calibrator.learningRate * (1 - calibrator.alpha)) < calibrator.maxThreshold := by
    intro earlier isEarlier
    have scaled := mul_lt_mul_of_pos_left (short earlier isEarlier) bounded.rate_pos
    rw [lowered]
    linarith
  have stillEnough : calibrator.maxThreshold ≤ (calibrator.moved score 1).threshold +
      raises * (calibrator.learningRate * (1 - calibrator.alpha)) := by
    have scaled := mul_le_mul_of_nonneg_left enough bounded.rate_pos.le
    rw [lowered]
    linarith
  have fallen : (calibrator.moved score 1).Bounded := bounded.moved
  obtain ⟨count, counted⟩ := fallen.exceedances_replicate later stillShort stillEnough
  refine ⟨count, ?_⟩
  simp only [moved_maxThreshold] at counted
  simp only [cons_append, exceedances, counted, if_neg notExceeds, Nat.add_zero]
  rfl

theorem Bounded.exceedances_cycles (bounded : calibrator.Bounded) {score : K}
    (atTop : calibrator.threshold = calibrator.maxThreshold)
    (covered : score ≤ calibrator.maxThreshold)
    (uncut : calibrator.minThreshold ≤
      calibrator.maxThreshold - calibrator.learningRate * calibrator.alpha)
    (short : ∀ earlier < raises, earlier * (1 - calibrator.alpha) < calibrator.alpha)
    (enough : calibrator.alpha ≤ raises * (1 - calibrator.alpha)) (cycles : Nat) :
    calibrator.exceedances
        (replicate cycles (score :: replicate raises calibrator.maxThreshold)).flatten =
      cycles * raises := by
  induction cycles generalizing calibrator with
  | zero => simp [exceedances]
  | succ cycles ih =>
    rw [replicate_succ, flatten_cons]
    obtain ⟨count, counted⟩ := bounded.exceedances_cycle
      (replicate cycles (score :: replicate raises calibrator.maxThreshold)).flatten
      atTop covered uncut short enough
    have lifted : (calibrator.atMax count).Bounded :=
      ⟨bounded.alpha_pos, bounded.alpha_lt, bounded.rate_pos,
        bounded.min_le.trans bounded.le_max, le_rfl⟩
    rw [counted, Nat.succ_mul]
    exact congrArg (· + raises) (ih lifted rfl covered uncut short enough)

end Pumping

end AdaptiveConformalCalibrator

open AdaptiveConformalCalibrator

variable (K : Type*) [Field K] [LinearOrder K]

/-- The parameters and the scores of a run within its bounds. -/
structure CoverageRun where
  initialThreshold : K
  learningRate : K
  minThreshold : K
  maxThreshold : K
  scores : List K
  rate_pos : 0 < learningRate
  min_lt_max : minThreshold < maxThreshold
  start_mem : initialThreshold ∈ Set.Icc minThreshold maxThreshold
  score_mem : ∀ score ∈ scores, score ∈ Set.Icc minThreshold maxThreshold

variable {K} {alpha : K} {run : CoverageRun K}

namespace CoverageRun

def calibrator (run : CoverageRun K) (alpha : K) :
    Except (ConformalError K) (AdaptiveConformalCalibrator K) := do
  let unbounded ← withParams (some alpha) (some run.initialThreshold) (some run.learningRate)
  unbounded.withBounds (some run.minThreshold) (some run.maxThreshold)

/-- The run is carried out, and the error rate exceeds `alpha` by no more than the start explains. -/
def Covered (run : CoverageRun K) (alpha : K) : Prop :=
  ∃ calibrator exceeded final, run.calibrator alpha = .ok calibrator ∧
    calibrator.updates run.scores = .ok (exceeded, final) ∧
    (exceeded : K) ≤ alpha * run.scores.length +
      (run.maxThreshold - run.minThreshold) / run.learningRate + 1

/-- No raise of the run is cut at the upper bound. -/
def Uncut (run : CoverageRun K) (alpha : K) : Prop :=
  ∀ calibrator, run.calibrator alpha = .ok calibrator → calibrator.RaisesFit run.scores

def started (run : CoverageRun K) (alpha : K) : AdaptiveConformalCalibrator K :=
  ⟨alpha, run.initialThreshold, run.learningRate, run.minThreshold, run.maxThreshold, 0⟩

theorem calibrator_eq (positive : 0 < alpha) (below : alpha < 1) :
    run.calibrator alpha = .ok (run.started alpha) := by
  have level : ¬(alpha ≤ 0 ∨ 1 ≤ alpha) := by
    rintro (low | high)
    · exact low.not_gt positive
    · exact high.not_gt below
  have built : withParams (some alpha) (some run.initialThreshold) (some run.learningRate) =
      .ok { run.started alpha with
        minThreshold := defaultMinThreshold, maxThreshold := defaultMaxThreshold } := by
    simp only [withParams, if_neg level, if_neg (not_le.mpr run.rate_pos)]
    rfl
  have clamped : max run.minThreshold (min run.initialThreshold run.maxThreshold) =
      run.initialThreshold := by
    rw [min_eq_left run.start_mem.2, max_eq_right run.start_mem.1]
  simp only [calibrator, built, bind, Except.bind, withBounds,
    if_neg (not_lt.mpr run.min_lt_max.le), started, clamped]

theorem bounded (positive : 0 < alpha) (below : alpha < 1) : (run.started alpha).Bounded :=
  ⟨positive, below, run.rate_pos, run.start_mem.1, run.start_mem.2⟩

variable [IsStrictOrderedRing K]

theorem covered_iff (positive : 0 < alpha) (below : alpha < 1) :
    run.Covered alpha ↔
      ((run.started alpha).exceedances run.scores : K) ≤ alpha * run.scores.length +
        (run.maxThreshold - run.minThreshold) / run.learningRate + 1 := by
  obtain ⟨final, ran⟩ := (run.started alpha).updates_eq run.scores
  constructor
  · rintro ⟨calibrator, exceeded, last, built, updated, within⟩
    rw [calibrator_eq positive below] at built
    cases built
    rw [ran] at updated
    cases updated
    exact within
  · exact fun within => ⟨_, _, final, calibrator_eq positive below, ran, within⟩

theorem covered_of_uncut (positive : 0 < alpha) (below : alpha < 1) (uncut : run.Uncut alpha) :
    run.Covered alpha := by
  have counted := (bounded positive below).exceedances_le_of_raisesFit
    (uncut _ (calibrator_eq positive below))
  have start := run.start_mem.1
  simp only [started] at counted
  rw [covered_iff positive below]
  have scaled : run.learningRate * ((run.started alpha).exceedances run.scores : K) ≤
      run.learningRate * (alpha * run.scores.length +
        (run.maxThreshold - run.minThreshold) / run.learningRate) := by
    rw [mul_add, mul_div_cancel₀ _ run.rate_pos.ne', ← mul_assoc]
    exact counted.trans (by linarith)
  linarith [le_of_mul_le_mul_left scaled run.rate_pos]

/-- What every run keeps, cut or not: the error rate of the next larger level `falls / (falls + 1)`. -/
theorem exceedances_le [FloorSemiring K] (positive : 0 < alpha) (below : alpha < 1) {falls : Nat}
    (fall : alpha ≤ falls * (1 - alpha)) :
    ((falls + 1 : Nat) : K) * ((run.started alpha).exceedances run.scores : K) ≤
      falls * run.scores.length +
        ((run.maxThreshold - run.minThreshold) / (run.learningRate * (1 - alpha)) + 1) := by
  have raise : 0 < run.learningRate * (1 - alpha) := mul_pos run.rate_pos (sub_pos.mpr below)
  have gapNonneg : 0 ≤ (run.maxThreshold - run.initialThreshold) /
      (run.learningRate * (1 - alpha)) :=
    div_nonneg (sub_nonneg.mpr run.start_mem.2) raise.le
  obtain ⟨gap, isGap⟩ : ∃ gap, gap = ⌈(run.maxThreshold - run.initialThreshold) /
      (run.learningRate * (1 - alpha))⌉₊ := ⟨_, rfl⟩
  have apart : run.maxThreshold ≤
      run.initialThreshold + gap * (run.learningRate * (1 - alpha)) := by
    have covers := Nat.le_ceil ((run.maxThreshold - run.initialThreshold) /
      (run.learningRate * (1 - alpha)))
    rw [← isGap, div_le_iff₀ raise] at covers
    linarith
  have isBounded : (run.started alpha).Bounded := bounded positive below
  have counted := isBounded.exceedances_le_of_gap
    (fun score isScore => (run.score_mem score isScore).2) fall apart
  have gapLt : (gap : K) < (run.maxThreshold - run.initialThreshold) /
      (run.learningRate * (1 - alpha)) + 1 := by
    rw [isGap]
    exact Nat.ceil_lt_add_one gapNonneg
  have widened : (run.maxThreshold - run.initialThreshold) / (run.learningRate * (1 - alpha)) ≤
      (run.maxThreshold - run.minThreshold) / (run.learningRate * (1 - alpha)) :=
    div_le_div_of_nonneg_right (sub_le_sub_left run.start_mem.1 _) raise.le
  have asNumbers : ((falls + 1 : Nat) : K) * ((run.started alpha).exceedances run.scores : K) ≤
      falls * run.scores.length + gap := by
    exact_mod_cast counted
  linarith

theorem covered_of_level [FloorSemiring K] (positive : 0 < alpha) (below : alpha < 1) {falls : Nat}
    (level : alpha * (falls + 1) = falls) : run.Covered alpha := by
  have step : (1 - alpha) * (falls + 1) = 1 := by linear_combination -level
  have fall : alpha ≤ falls * (1 - alpha) := by linarith
  have counted := @exceedances_le K _ _ alpha run _ _ positive below falls fall
  have span : (run.maxThreshold - run.minThreshold) / (run.learningRate * (1 - alpha)) =
      (run.maxThreshold - run.minThreshold) / run.learningRate * (falls + 1) := by
    have nonzero : 1 - alpha ≠ 0 := (sub_pos.mpr below).ne'
    have rate := run.rate_pos.ne'
    field_simp
    linear_combination (run.maxThreshold - run.minThreshold) * -step
  rw [span] at counted
  push_cast at counted
  rw [covered_iff positive below]
  have larger : (0 : K) < falls + 1 := by positivity
  refine le_of_mul_le_mul_left (counted.trans ?_) larger
  have lengths : (falls : K) * run.scores.length = (falls + 1) * (alpha * run.scores.length) := by
    linear_combination -(run.scores.length : K) * level
  have atLeast : (1 : K) ≤ falls + 1 := by linarith [Nat.cast_nonneg (α := K) falls]
  linarith

/-- The run of `cycles` cycles just below the upper bound of the unit interval, at learning rate
one: a score of zero, then `raises` scores of one. -/
def pumped (raises cycles : Nat) : CoverageRun K where
  initialThreshold := 1
  learningRate := 1
  minThreshold := 0
  maxThreshold := 1
  scores := (replicate cycles (0 :: replicate raises 1)).flatten
  rate_pos := one_pos
  min_lt_max := one_pos
  start_mem := ⟨zero_le_one, le_rfl⟩
  score_mem := by
    intro score isScore
    simp only [mem_flatten, mem_replicate] at isScore
    obtain ⟨cycle, ⟨-, rfl⟩, isScore⟩ := isScore
    rcases mem_cons.mp isScore with rfl | isOne
    · exact ⟨le_rfl, zero_le_one⟩
    · rw [(mem_replicate.mp isOne).2]
      exact ⟨zero_le_one, le_rfl⟩

theorem exists_not_covered [FloorSemiring K] (positive : 0 < alpha) (below : alpha < 1)
    (noLevel : ∀ falls : Nat, alpha * (falls + 1) ≠ falls) :
    ∃ run : CoverageRun K, ¬run.Covered alpha := by
  have room : 0 < 1 - alpha := sub_pos.mpr below
  obtain ⟨raises, isRaises⟩ : ∃ raises, raises = ⌈alpha / (1 - alpha)⌉₊ := ⟨_, rfl⟩
  have enough : alpha ≤ raises * (1 - alpha) := by
    rw [← div_le_iff₀ room, isRaises]
    exact Nat.le_ceil _
  have short : ∀ earlier < raises, earlier * (1 - alpha) < alpha := by
    intro earlier isEarlier
    rw [← lt_div_iff₀ room]
    rw [isRaises] at isEarlier
    exact Nat.lt_ceil.mp isEarlier
  have above : 0 < raises * (1 - alpha) - alpha := by
    refine sub_pos.mpr (lt_of_le_of_ne enough fun equal => noLevel raises ?_)
    linear_combination equal
  obtain ⟨cycles, isCycles⟩ : ∃ cycles : Nat, 2 / (raises * (1 - alpha) - alpha) < cycles :=
    ⟨_, by exact_mod_cast Nat.lt_floor_add_one (2 / (raises * (1 - alpha) - alpha))⟩
  refine ⟨pumped raises cycles, fun covered => ?_⟩
  have isBounded : ((pumped raises cycles : CoverageRun K).started alpha).Bounded :=
    bounded positive below
  have counted : ((pumped raises cycles : CoverageRun K).started alpha).exceedances
      (pumped raises cycles : CoverageRun K).scores = cycles * raises :=
    isBounded.exceedances_cycles rfl zero_le_one (by simpa [started, pumped] using below.le) short
      enough cycles
  have length : (pumped raises cycles : CoverageRun K).scores.length = cycles * (raises + 1) := by
    simp [pumped]
  rw [covered_iff positive below, counted, length] at covered
  simp only [pumped, sub_zero, div_one] at covered
  rw [div_lt_iff₀ above] at isCycles
  push_cast at covered
  linarith

end CoverageRun

open CoverageRun in
/-- The threshold keeps its coverage in every run whose raises the upper bound does not cut; and in
every run at all exactly at the levels `falls / (falls + 1)`. -/
theorem coverage_exact {K : Type*} [Field K] [LinearOrder K] [IsStrictOrderedRing K]
    [FloorSemiring K] {alpha : K} (positive : 0 < alpha) (below : alpha < 1) :
    (∀ run : CoverageRun K, run.Uncut alpha → run.Covered alpha) ∧
      ((∀ run : CoverageRun K, run.Covered alpha) ↔ ∃ falls : Nat, alpha * (falls + 1) = falls) := by
  refine ⟨fun run => covered_of_uncut positive below, ?_, ?_⟩
  · intro covered
    by_contra noLevel
    obtain ⟨run, notCovered⟩ :=
      exists_not_covered positive below fun falls level => noLevel ⟨falls, level⟩
    exact notCovered (covered run)
  · rintro ⟨falls, level⟩ run
    exact covered_of_level positive below level

theorem coverage_exact_half :
    (∀ run : CoverageRun ℚ, run.Uncut (1 / 2) → run.Covered (1 / 2)) ∧
      ((∀ run : CoverageRun ℚ, run.Covered (1 / 2)) ↔
        ∃ falls : Nat, (1 / 2 : ℚ) * (falls + 1) = falls) :=
  coverage_exact (by norm_num) (by norm_num)

/-- At the level of one tenth half of these scores exceed their threshold. -/
theorem cut_raises_lose_coverage : ¬(CoverageRun.pumped 1 3 : CoverageRun ℚ).Covered (1 / 10) := by
  have counted : ((CoverageRun.pumped 1 3 : CoverageRun ℚ).started (1 / 10)).exceedances
      (CoverageRun.pumped 1 3 : CoverageRun ℚ).scores = 3 := by decide +kernel
  rw [CoverageRun.covered_iff (by norm_num) (by norm_num), counted]
  norm_num [CoverageRun.pumped]

end Contextra.Rank
