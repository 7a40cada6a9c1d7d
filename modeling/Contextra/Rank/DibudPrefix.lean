import Contextra.Rank.DibudBounds

/-!
# The certified prefix is final

What the machine certifies stands where the ranking of the completely read channels has it, as long
as every first rank that can be reached fits into 32 bits.  From rank `2 ^ 32` on the cast of a
depth to `u32` turns a late document into an early one.
-/

namespace Contextra.Rank

open Std (TreeMap)
open Library List Option

namespace DiBudFusionState

variable {state : DiBudFusionState} {budget : FusionBudget} {er : DocId → ℚ}
  {channels read rest : BudgetedChannel → List DocId} {docId : DocId} {fPlusUnseen : ℚ}

section Ranked

theorem mem_scoredDocs {scored : DocId × ℚ} :
    scored ∈ state.scoredDocs budget ↔
      scored.1 ∈ state.observedDocs ∧ scored.2 = state.computeFMinus scored.1 budget := by
  rw [scoredDocs, mem_insertionSort, List.mem_map]
  constructor
  · rintro ⟨docId, inKeys, rfl⟩
    exact ⟨TreeMap.mem_keys.mp inKeys, rfl⟩
  · rintro ⟨inside, score⟩
    exact ⟨scored.1, TreeMap.mem_keys.mpr inside, by rw [← score]⟩

theorem scoredDocs_pairwise : (state.scoredDocs budget).Pairwise ScoredBefore :=
  pairwise_insertionSort ScoredBefore _

theorem scoredDocs_nodup : ((state.scoredDocs budget).map (·.1)).Nodup := by
  have keys : ((state.scoredDocs budget).map (·.1)).Perm state.observedDocs.keys := by
    refine ((perm_insertionSort _ _).map _).trans ?_
    simp [List.map_map, Function.comp_def]
  exact keys.nodup_iff.mpr (TreeMap.distinct_keys.imp fun different same => different (by simp [same]))

end Ranked

theorem ranked_pairwise :
    (state.certifyPrefix budget).1.Pairwise
      (RanksBefore fun docId => state.computeFMinus docId budget) := by
  refine pairwise_map.mpr ((List.Pairwise.and_mem.mp scoredDocs_pairwise).imp ?_)
  rintro first later ⟨inFirst, inLater, sorted⟩
  rw [RanksBefore, ← (mem_scoredDocs.mp inFirst).2, ← (mem_scoredDocs.mp inLater).2]
  exact sorted

section Certified

variable {scored : List (DocId × ℚ)}

theorem certifiedCount_le : state.certifiedCount budget fPlusUnseen scored ≤ scored.length := by
  induction scored with
  | nil => exact le_rfl
  | cons first scored ih =>
    simp only [certifiedCount]
    split
    · exact Nat.zero_le _
    · split
      · exact Nat.zero_le _
      · exact Nat.succ_le_succ ih

theorem certifiedCount_checked :
    ∀ position < state.certifiedCount budget fPlusUnseen scored,
      ∃ first ∈ scored[position]?, fPlusUnseen < first.2 ∧
        ∀ later ∈ scored.drop (position + 1),
          state.canOvertake first.1 first.2 later.1 budget = false := by
  induction scored with
  | nil => exact fun position impossible => absurd impossible (Nat.not_lt_zero _)
  | cons first scored ih =>
    intro position counted
    simp only [certifiedCount] at counted
    split at counted
    · exact absurd counted (Nat.not_lt_zero _)
    · rename_i above
      split at counted
      · exact absurd counted (Nat.not_lt_zero _)
      · rename_i safe
        cases position with
        | zero =>
          refine ⟨first, rfl, not_le.mp above, fun later inRest => ?_⟩
          simp only [List.any_eq_true, not_exists, not_and, Bool.not_eq_true] at safe
          exact safe later inRest
        | succ position => exact ih position (Nat.lt_of_succ_lt_succ counted)

end Certified

section Final

variable (describes : state.Describes er channels read rest) (fit : RanksFit channels)
  (accesses : state.accesses < 2 ^ 64) (weights : ∀ ch, 0 ≤ budget.channelWeights ch)
  (bonusWeight : 0 ≤ budget.edgeReinforcementWeight)
  (bonus : ∀ docId, er docId ≤ budget.edgeReinforcementUpperBound)

include describes fit accesses weights

theorem Describes.before_of_safe {first later : DocId × ℚ}
    (inFirst : first ∈ state.scoredDocs budget) (inLater : later ∈ state.scoredDocs budget)
    (sorted : ScoredBefore first later)
    (safe : state.canOvertake first.1 first.2 later.1 budget = false) :
    RanksBefore (fullScore budget er channels) first.1 later.1 := by
  obtain ⟨firstObserved, firstScore⟩ := mem_scoredDocs.mp inFirst
  obtain ⟨laterObserved, laterScore⟩ := mem_scoredDocs.mp inLater
  have lower := describes.computeFMinus_le fit accesses weights firstObserved
  have upper := describes.le_computeFPlus fit accesses weights laterObserved
  simp only [canOvertake] at safe
  split at safe
  · cases safe
  · rename_i notAbove
    split at safe
    · cases safe
    · rename_i noTie
      rw [not_lt, firstScore] at notAbove
      rcases (upper.trans (notAbove.trans lower)).lt_or_eq with less | same
      · exact .inl less
      · refine .inr ⟨same.symm, ?_⟩
        have tie : state.computeFPlus later.1 budget = first.2 :=
          firstScore ▸ le_antisymm notAbove (lower.trans (same ▸ upper))
        by_cases canGrow : state.hasUnobservedUnexhaustedChannels later.1
        · exact not_lt.mp fun smaller => noTie ⟨tie, canGrow, smaller⟩
        · -- nothing can be added to the later document, so the two tie already
          have settled : state.computeFPlus later.1 budget = later.2 := by
            rw [computeFPlus_eq laterObserved, laterScore, add_eq_left]
            apply sum_eq_zero
            intro term inTerms
            obtain ⟨ch, inAll, rfl⟩ := List.mem_map.mp inTerms
            obtain ⟨docState, found⟩ := isSome_iff_exists.mp
              (TreeMap.mem_iff_isSome_getElem?.mp laterObserved)
            simp only [hasUnobservedUnexhaustedChannels, found, List.any_eq_true, not_exists,
              not_and, Bool.not_eq_true] at canGrow
            simp [openTerm, DiBudFusionState.rank, found, canGrow ch inAll]
          rcases sorted with higher | ⟨-, below⟩
          · rw [← settled, tie] at higher
            exact absurd higher (lt_irrefl _)
          · exact below

include bonusWeight bonus

theorem Describes.take_certified :
    (state.certifyPrefix budget).2 ≤ (state.certifyPrefix budget).1.length ∧
      (state.certifyPrefix budget).1.take (state.certifyPrefix budget).2 =
        (fullRanking budget er channels).take (state.certifyPrefix budget).2 := by
  have count : (state.certifyPrefix budget).2 ≤ (state.certifyPrefix budget).1.length := by
    simpa only [certifyPrefix, length_map] using certifiedCount_le
  refine ⟨count, ?_⟩
  set certified := (state.certifyPrefix budget).2 with isCount
  set ranked := (state.certifyPrefix budget).1 with isRanked
  have checked : ∀ position (inside : position < ranked.length), position < certified →
      ∀ docId, (docId ∈ ranked.drop (position + 1) ∨
        (docId ∈ BudgetedChannel.all.flatMap channels ∧ docId ∉ ranked)) →
      RanksBefore (fullScore budget er channels) ranked[position] docId := by
    intro position inside counted docId place
    obtain ⟨first, found, above, safe⟩ := certifiedCount_checked position counted
    have isFirst : ranked[position] = first.1 := by
      simp only [isRanked, certifyPrefix, getElem_map]
      congr 1
      exact some.inj ((getElem?_eq_getElem _).symm.trans found)
    have inFirst : first ∈ state.scoredDocs budget := mem_of_getElem? found
    rw [isFirst]
    rcases place with inRest | ⟨-, outside⟩
    · simp only [isRanked, certifyPrefix, ← map_drop] at inRest
      obtain ⟨later, isLater, rfl⟩ := List.mem_map.mp inRest
      have sorted : ScoredBefore first later := by
        obtain ⟨bound, rfl⟩ := List.getElem?_eq_some_iff.mp found
        have parts : (state.scoredDocs budget).Pairwise ScoredBefore := scoredDocs_pairwise
        rw [← take_append_drop position (state.scoredDocs budget),
          drop_eq_getElem_cons bound] at parts
        exact rel_of_pairwise_cons (pairwise_append.mp parts).2.1 isLater
      exact describes.before_of_safe fit accesses weights inFirst (mem_of_mem_drop isLater)
        sorted (safe later isLater)
    · left
      obtain ⟨firstObserved, firstScore⟩ := mem_scoredDocs.mp inFirst
      have unseen : docId ∉ state.observedDocs := by
        intro observed
        apply outside
        exact List.mem_map.mpr ⟨(docId, state.computeFMinus docId budget),
          mem_scoredDocs.mpr ⟨observed, rfl⟩, rfl⟩
      calc fullScore budget er channels docId
          ≤ state.computeFPlusUnseen budget :=
            describes.le_computeFPlusUnseen weights bonusWeight (bonus docId) unseen
        _ < first.2 := above
        _ ≤ fullScore budget er channels first.1 :=
            firstScore ▸ describes.computeFMinus_le fit accesses weights firstObserved
  have different : ranked.Nodup := scoredDocs_nodup
  have length : (ranked.take certified).length = certified := by
    rw [length_take, Nat.min_eq_left count]
  have ordered : (ranked.take certified).Pairwise
      (RanksBefore (fullScore budget er channels)) := by
    refine pairwise_iff_getElem.mpr fun i j insideI insideJ before => ?_
    simp only [getElem_take]
    apply checked i _ (by omega)
    left
    exact mem_drop_iff_getElem.mpr ⟨j - (i + 1), by simp at insideJ; omega, by congr 1; omega⟩
  have contained : ranked.take certified ⊆ BudgetedChannel.all.flatMap channels := by
    intro docId inFront
    obtain ⟨scored, inScored, rfl⟩ := List.mem_map.mp (mem_of_mem_take inFront)
    obtain ⟨ch, inRead⟩ := (describes.observed _).mp (mem_scoredDocs.mp inScored).1
    refine mem_flatMap.mpr ⟨ch, by cases ch <;> decide, ?_⟩
    rw [describes.split]
    exact mem_append_left _ inRead
  have front := take_ranking (different.sublist (take_sublist _ _)) contained ordered ?_
  · rw [length] at front
    exact front.symm
  · intro first inFront docId inChannels outside
    obtain ⟨position, inside, rfl⟩ := mem_iff_getElem.mp inFront
    rw [getElem_take]
    apply checked position _ (by omega)
    by_cases inRanked : docId ∈ ranked
    · left
      have parts := take_append_drop certified ranked ▸ inRanked
      have later := (mem_append.mp parts).resolve_left outside
      exact (drop_subset_drop_left ranked (by omega)) later
    · exact .inr ⟨inChannels, inRanked⟩

end Final

section Complete

variable {scored : List (DocId × ℚ)}

theorem mem_take_certifiedCount
    (safe : scored.Pairwise fun a b => state.canOvertake a.1 a.2 b.1 budget = false)
    (sorted : scored.Pairwise ScoredBefore) {entry : DocId × ℚ} (inside : entry ∈ scored)
    (above : fPlusUnseen < entry.2) :
    entry ∈ scored.take (state.certifiedCount budget fPlusUnseen scored) := by
  induction scored with
  | nil => cases inside
  | cons first scored ih =>
    obtain ⟨safeFirst, safeRest⟩ := pairwise_cons.mp safe
    obtain ⟨sortedFirst, sortedRest⟩ := pairwise_cons.mp sorted
    have firstAbove : ¬ first.2 ≤ fPlusUnseen := by
      rw [not_le]
      rcases mem_cons.mp inside with rfl | inRest
      · exact above
      · rcases sortedFirst entry inRest with higher | ⟨same, -⟩
        · exact above.trans higher
        · exact same ▸ above
    have untouched : ¬ (scored.any fun y => state.canOvertake first.1 first.2 y.1 budget) := by
      simpa using safeFirst
    rw [certifiedCount, if_neg firstAbove, if_neg untouched, take_succ_cons]
    rcases mem_cons.mp inside with rfl | inRest
    · exact mem_cons_self
    · exact mem_cons_of_mem _ (ih safeRest sortedRest inRest)

end Complete

end DiBudFusionState

theorem FusionBudget.validate_ok {budget : FusionBudget} (valid : budget.validate = .ok ()) :
    (∀ ch, 0 ≤ budget.channelWeights ch) ∧ 0 ≤ budget.edgeReinforcementWeight := by
  simp only [validate] at valid
  split at valid
  · cases valid
  · split at valid
    · cases valid
    · split at valid
      · cases valid
      · rename_i noneNegative
        rw [find?_eq_none] at noneNegative
        split at valid
        · cases valid
        · rename_i bonusWeight
          refine ⟨fun ch => ?_, not_lt.mp bonusWeight⟩
          have notNegative := noneNegative ch (by cases ch <;> decide)
          simpa using notNegative

/-- Whatever the budget and bonuses, the certified front of the outcome is the front of the ranking
of the channels read to their ends. -/
def CertifiedPrefixFinal (channels : BudgetedChannel → List DocId) : Prop :=
  ∀ (budget : FusionBudget) (er : DocId → ℚ) (outcome : DiBudOutcome),
    budget.maxTotalAccesses < 2 ^ 64 →
    (∀ docId, 0 ≤ er docId ∧ er docId ≤ budget.edgeReinforcementUpperBound) →
    fuseExactPrefix .new channels er budget = .ok outcome →
      outcome.certifiedLen ≤ outcome.ranked.length ∧
        outcome.ranked.take outcome.certifiedLen =
          (fullRanking budget er channels).take outcome.certifiedLen

variable {channels : BudgetedChannel → List DocId}

theorem certifiedPrefixFinal_of_ranksFit (fit : RanksFit channels) :
    CertifiedPrefixFinal channels := by
  intro budget er outcome usize bonus fused
  simp only [fuseExactPrefix] at fused
  split at fused
  · rename_i valid
    obtain ⟨weights, bonusWeight⟩ := FusionBudget.validate_ok valid
    have ends : ∃ (final : DiBudFusionState) (rest : BudgetedChannel → List DocId),
        ((∃ read, final.Describes er channels read rest) ∧
          final.accesses ≤ budget.maxTotalAccesses) ∧
        final.nextRequest budget = .done outcome := by
      refine fuseLoop_ends ?_ ?_ fused
      · rintro state rest ch next ⟨⟨read, describes⟩, -⟩ asked fed
        refine ⟨describes.poll asked fed, ?_⟩
        rw [DiBudFusionState.feed_accesses fed]
        exact (DiBudFusionState.nextRequest_poll asked).2.1
      · exact ⟨⟨_, DiBudFusionState.describes_new⟩, Nat.zero_le _⟩
    obtain ⟨final, rest, ⟨⟨read, describes⟩, accesses⟩, finished⟩ := ends
    obtain ⟨rfl, -⟩ := DiBudFusionState.nextRequest_done finished
    exact describes.take_certified fit (by omega) weights bonusWeight
      fun docId => (bonus docId).2
  · cases fused

section LateRank

/-!
A document whose first rank is `2 ^ 32` or more: a budget that weighs only its channel, lets the
machine read just so far, and asks for more certified documents than there are.
-/

variable {ch : BudgetedChannel} {late first : DocId} {rank : Nat}

def lateBudget (ch : BudgetedChannel) (rank : Nat) : FusionBudget where
  maxTotalAccesses := rank
  minCertifiedResults := rank + 1
  edgeReinforcementWeight := 1
  channelWeights other := if other = ch then 1 else 0
  edgeReinforcementUpperBound := 1 / 61

/-- The middle between what the late document gets for its recorded and for its true rank. -/
def lateMargin (rank : Nat) : ℚ :=
  (1 / (rrfK + (rank % 2 ^ 32 : Nat)) + 1 / (rrfK + rank)) / 2

def lateBonus (late first : DocId) (rank : Nat) (docId : DocId) : ℚ :=
  if docId = late then 1 / 61 else if docId = first then lateMargin rank else 0

theorem lateMargin_between (isLate : 2 ^ 32 ≤ rank) :
    1 / (rrfK + rank) < lateMargin rank ∧
      lateMargin rank < 1 / (rrfK + (rank % 2 ^ 32 : Nat)) ∧ lateMargin rank ≤ 1 / 61 := by
  have smaller : rank % 2 ^ 32 < rank := (Nat.mod_lt _ (by norm_num)).trans_le isLate
  have recorded : (0 : ℚ) ≤ (rank % 2 ^ 32 : Nat) := Nat.cast_nonneg _
  have order : ((rank % 2 ^ 32 : Nat) : ℚ) < rank := by exact_mod_cast smaller
  have large : (2 : ℚ) ^ 32 ≤ rank := by exact_mod_cast isLate
  have apart : 1 / (rrfK + rank) < 1 / (rrfK + ((rank % 2 ^ 32 : Nat) : ℚ)) := by
    apply one_div_lt_one_div_of_lt
    · unfold rrfK
      linarith
    · linarith
  have recordedBound : 1 / (rrfK + ((rank % 2 ^ 32 : Nat) : ℚ)) ≤ 1 / 60 := by
    apply one_div_le_one_div_of_le (by norm_num)
    unfold rrfK
    linarith
  have trueBound : 1 / (rrfK + (rank : ℚ)) ≤ 1 / 2 ^ 32 := by
    apply one_div_le_one_div_of_le (by norm_num)
    unfold rrfK
    linarith
  unfold lateMargin
  refine ⟨by linarith, by linarith, ?_⟩
  have small : (1 : ℚ) / 60 + 1 / 2 ^ 32 ≤ 2 / 61 := by norm_num
  linarith

theorem lateBonus_bounds (isLate : 2 ^ 32 ≤ rank) (docId : DocId) :
    0 ≤ lateBonus late first rank docId ∧ lateBonus late first rank docId ≤ 1 / 61 := by
  obtain ⟨above, -, bound⟩ := lateMargin_between isLate
  have positive : (0 : ℚ) < 1 / (rrfK + rank) := by
    unfold rrfK
    positivity
  unfold lateBonus
  split
  · norm_num
  · split
    · exact ⟨(positive.trans above).le, bound⟩
    · norm_num

def OnlyRead (ch : BudgetedChannel) (rank : Nat) (er : DocId → ℚ)
    (channels : BudgetedChannel → List DocId) (state : DiBudFusionState)
    (rest : BudgetedChannel → List DocId) : Prop :=
  ∃ read, state.Describes er channels read rest ∧ (∀ other, state.exhausted other = false) ∧
    (∀ other, other ≠ ch → read other = []) ∧ state.accesses = (read ch).length ∧
    state.accesses ≤ rank

theorem bestChannel_late (state : DiBudFusionState)
    (isOpen : ∀ other, state.exhausted other = false) :
    state.bestChannel (lateBudget ch rank) = some ch := by
  have weighed : ∀ other, 0 < state.nextTerm (lateBudget ch rank) other ↔ other = ch := by
    intro other
    have positive : (0 : ℚ) < rrfK + state.channelDepths other + 1 := by
      unfold rrfK
      positivity
    by_cases same : other = ch
    · subst same
      simp [DiBudFusionState.nextTerm, lateBudget, positive]
    · simp [DiBudFusionState.nextTerm, lateBudget, same]
  have zero : ∀ other, other ≠ ch → state.nextTerm (lateBudget ch rank) other = 0 := by
    intro other different
    simp [DiBudFusionState.nextTerm, lateBudget, different]
  have positive := (weighed ch).mpr rfl
  cases ch with
  | vector =>
    simp [DiBudFusionState.bestChannel, isOpen, zero .graph, zero .text, positive]
  | text =>
    have notLess := positive.asymm
    simp [DiBudFusionState.bestChannel, isOpen, zero .graph, zero .vector, positive, notLess]
  | graph =>
    have notLess := positive.asymm
    have above : (-1 : ℚ) < state.nextTerm (lateBudget .graph rank) .graph :=
      lt_trans (by norm_num) positive
    simp [DiBudFusionState.bestChannel, isOpen, zero .text, zero .vector, above, notLess]

theorem sum_only (ch : BudgetedChannel) (term : BudgetedChannel → ℚ)
    (zero : ∀ other, other ≠ ch → term other = 0) :
    (BudgetedChannel.all.map term).sum = term ch := by
  cases ch with
  | vector => simp [BudgetedChannel.all, zero .text, zero .graph]
  | text => simp [BudgetedChannel.all, zero .vector, zero .graph]
  | graph => simp [BudgetedChannel.all, zero .vector, zero .text]

theorem rankTerm_late {other : BudgetedChannel} (different : other ≠ ch) (place : Option Nat) :
    rankTerm (lateBudget ch rank) other place = 0 := by
  cases place <;> simp [rankTerm, lateBudget, different]

theorem fullScore_late (er : DocId → ℚ) (docId : DocId) :
    fullScore (lateBudget ch rank) er channels docId =
      rankTerm (lateBudget ch rank) ch (firstRank (channels ch) docId) + er docId := by
  rw [fullScore, sum_only ch _ fun other different => rankTerm_late different _]
  simp [lateBudget]

variable {er : DocId → ℚ} {state : DiBudFusionState}
  {read rest : BudgetedChannel → List DocId} {docId : DocId}

theorem computeFMinus_late (describes : state.Describes er channels read rest)
    (inside : docId ∈ state.observedDocs) :
    state.computeFMinus docId (lateBudget ch rank) =
      rankTerm (lateBudget ch rank) ch (recordedRank (read ch) docId) + er docId := by
  rw [describes.computeFMinus_eq inside,
    sum_only ch _ fun other different => rankTerm_late different _, describes.ranks]
  simp [lateBudget]

theorem computeFPlus_late (describes : state.Describes er channels read rest)
    (others : ∀ other, other ≠ ch → read other = []) (inside : docId ∈ state.observedDocs) :
    state.computeFPlus docId (lateBudget ch rank) =
      state.computeFMinus docId (lateBudget ch rank) := by
  rw [DiBudFusionState.computeFPlus_eq inside, add_eq_left, sum_only ch]
  · obtain ⟨other, inRead⟩ := (describes.observed docId).mp inside
    have same : other = ch := by
      by_contra different
      rw [others other different] at inRead
      cases inRead
    subst same
    have shown := firstRank_isSome.mpr inRead
    have notNone : (state.rank docId other).isNone = false := by
      rw [describes.ranks, recordedRank, isNone_map]
      simpa using shown
    simp [DiBudFusionState.openTerm, notNone]
  · intro other different
    simp [DiBudFusionState.openTerm, DiBudFusionState.nextTerm, lateBudget, different]

theorem computeFPlusUnseen_late (isOpen : state.exhausted ch = false) :
    state.computeFPlusUnseen (lateBudget ch rank) =
      1 / (rrfK + state.channelDepths ch + 1) + 1 / 61 := by
  rw [DiBudFusionState.computeFPlusUnseen_eq, sum_only ch]
  · simp [isOpen, DiBudFusionState.nextTerm, lateBudget]
  · intro other different
    simp [DiBudFusionState.nextTerm, lateBudget, different]

theorem mem_certified_late (describes : state.Describes er channels read rest)
    (others : ∀ other, other ≠ ch → read other = []) (inside : docId ∈ state.observedDocs)
    (above : state.computeFPlusUnseen (lateBudget ch rank) <
      state.computeFMinus docId (lateBudget ch rank)) :
    docId ∈ (state.certifyPrefix (lateBudget ch rank)).1.take
      (state.certifyPrefix (lateBudget ch rank)).2 := by
  simp only [DiBudFusionState.certifyPrefix, ← map_take]
  refine List.mem_map.mpr ⟨(docId, state.computeFMinus docId (lateBudget ch rank)), ?_, rfl⟩
  apply DiBudFusionState.mem_take_certifiedCount ?_ DiBudFusionState.scoredDocs_pairwise
    (DiBudFusionState.mem_scoredDocs.mpr ⟨inside, rfl⟩) above
  refine (List.Pairwise.and_mem.mp DiBudFusionState.scoredDocs_pairwise).imp ?_
  rintro first later ⟨-, inLater, sorted⟩
  obtain ⟨laterObserved, laterScore⟩ := DiBudFusionState.mem_scoredDocs.mp inLater
  simp only [DiBudFusionState.canOvertake, computeFPlus_late describes others laterObserved,
    ← laterScore]
  rcases sorted with higher | ⟨same, below⟩
  · simp [higher.not_gt, higher.ne]
  · simp [same, not_lt.mpr below]

theorem firstRank_reached (describes : state.Describes er channels read rest) {place : Nat}
    (ranked : firstRank (channels ch) docId = some place) (reached : place ≤ (read ch).length) :
    firstRank (read ch) docId = some place := by
  rw [describes.split, firstRank_append] at ranked
  cases inRead : firstRank (read ch) docId with
  | some found => rwa [inRead, some_or] at ranked
  | none =>
    rw [inRead, none_or] at ranked
    obtain ⟨later, inRest, rfl⟩ := map_eq_some_iff.mp ranked
    have positive := (firstRank_bounds inRest).1
    omega

theorem firstRank_head (position : (channels ch).head? = some first) :
    firstRank (channels ch) first = some 1 := by
  obtain ⟨tail, isCons⟩ := head?_eq_some_iff.mp position
  rw [isCons]
  simp [firstRank, List.idxOf?, findIdx?_cons]

theorem fuse_late {outcome : DiBudOutcome} (long : rank ≤ (channels ch).length)
    (fused : fuseLoop .new channels er (lateBudget ch rank) = .ok outcome) :
    ∃ (final : DiBudFusionState) (read rest : BudgetedChannel → List DocId),
      final.Describes er channels read rest ∧ (∀ other, final.exhausted other = false) ∧
        (∀ other, other ≠ ch → read other = []) ∧ (read ch).length = rank ∧
        outcome = final.outcome (lateBudget ch rank) := by
  have ends : ∃ (final : DiBudFusionState) (rest : BudgetedChannel → List DocId),
      OnlyRead ch rank er channels final rest ∧
        final.nextRequest (lateBudget ch rank) = .done outcome := by
    refine fuseLoop_ends ?_ ?_ fused
    · rintro state rest other next ⟨read, describes, isOpen, others, counted, -⟩ asked fed
      obtain ⟨-, permitted, best⟩ := DiBudFusionState.nextRequest_poll asked
      rw [bestChannel_late state isOpen] at best
      cases best
      have spent : state.accesses < rank := permitted
      cases given : rest ch with
      | nil =>
        have whole := congrArg List.length (describes.split ch)
        rw [given, append_nil] at whole
        omega
      | cons docId tail =>
        rw [given] at fed
        obtain ⟨later, stillOpen⟩ := describes.feed_some (isOpen ch) given fed
        refine ⟨_, later, fun other => stillOpen ▸ isOpen other, ?_, ?_, ?_⟩
        · intro other different
          rw [Function.update_of_ne different, others other different]
        · rw [DiBudFusionState.feed_accesses fed, counted]
          simp
        · rw [DiBudFusionState.feed_accesses fed]
          exact spent
    · exact ⟨_, DiBudFusionState.describes_new, fun _ => rfl, fun _ _ => rfl, rfl, Nat.zero_le _⟩
  obtain ⟨final, rest, ⟨read, describes, isOpen, others, counted, bounded⟩, finished⟩ := ends
  obtain ⟨rfl, reason⟩ := DiBudFusionState.nextRequest_done finished
  refine ⟨final, read, rest, describes, isOpen, others, ?_, rfl⟩
  rw [← counted]
  apply le_antisymm bounded
  rcases reason with enough | spent | ended | none
  · have few : (final.certifyPrefix (lateBudget ch rank)).2 ≤ (read ch).length := by
      calc (final.certifyPrefix (lateBudget ch rank)).2
          ≤ ((final.scoredDocs (lateBudget ch rank)).map (·.1)).length := by
            rw [length_map]
            exact DiBudFusionState.certifiedCount_le
        _ ≤ (read ch).length := by
            refine (DiBudFusionState.scoredDocs_nodup.subperm fun docId inScored => ?_).length_le
            obtain ⟨scored, inside, rfl⟩ := List.mem_map.mp inScored
            obtain ⟨other, inRead⟩ :=
              (describes.observed _).mp (DiBudFusionState.mem_scoredDocs.mp inside).1
            by_cases same : other = ch
            · exact same ▸ inRead
            · rw [others other same] at inRead
              cases inRead
    have needed : rank + 1 ≤ (final.certifyPrefix (lateBudget ch rank)).2 := enough
    omega
  · exact spent
  · simp [BudgetedChannel.all, isOpen] at ended
  · rw [bestChannel_late final isOpen] at none
    cases none

theorem not_final_of_late (ranked : firstRank (channels ch) late = some rank)
    (isLate : 2 ^ 32 ≤ rank) (usize : rank < 2 ^ 64) : ¬ CertifiedPrefixFinal channels := by
  intro isFinal
  have long := (firstRank_bounds ranked).2
  obtain ⟨first, isHead⟩ : ∃ first, (channels ch).head? = some first := by
    cases given : channels ch with
    | nil =>
      rw [given] at long
      simp at long
      omega
    | cons first tail => exact ⟨first, rfl⟩
  have headRank := firstRank_head isHead
  have different : first ≠ late := by
    rintro rfl
    rw [ranked] at headRank
    cases headRank
    omega
  obtain ⟨aboveTrue, belowRecorded, -⟩ := lateMargin_between isLate
  have nonneg : ∀ docId, 0 ≤ lateBonus late first rank docId := fun docId =>
    (lateBonus_bounds isLate docId).1
  obtain ⟨outcome, fused⟩ := fuseLoop_total nonneg .new channels (lateBudget ch rank)
  have valid : (lateBudget ch rank).validate = .ok () := by
    have noneNegative : BudgetedChannel.all.find? (fun other =>
        decide ((lateBudget ch rank).channelWeights other < 0)) = none := by
      rw [find?_eq_none]
      intro other _
      simp only [lateBudget]
      split <;> norm_num
    have positive : rank ≠ 0 := by omega
    rw [FusionBudget.validate, noneNegative]
    norm_num [lateBudget, positive]
  have wholeRun : fuseExactPrefix .new channels (lateBonus late first rank) (lateBudget ch rank) =
      .ok outcome := by
    rw [fuseExactPrefix, valid]
    exact fused
  obtain ⟨-, same⟩ := isFinal _ _ outcome usize (lateBonus_bounds isLate) wholeRun
  obtain ⟨final, read, rest, describes, isOpen, others, length, rfl⟩ := fuse_late long fused
  have lateRead := firstRank_reached describes ranked length.ge
  have headRead := firstRank_reached describes headRank (by omega)
  have lateObserved : late ∈ final.observedDocs :=
    (describes.observed late).mpr ⟨ch, firstRank_isSome.mp (by simp [lateRead])⟩
  have headObserved : first ∈ final.observedDocs :=
    (describes.observed first).mpr ⟨ch, firstRank_isSome.mp (by simp [headRead])⟩
  have lateBound : final.computeFMinus late (lateBudget ch rank) =
      1 / (rrfK + (rank % 2 ^ 32 : Nat)) + 1 / 61 := by
    rw [computeFMinus_late describes lateObserved, recordedRank, lateRead]
    simp [rankTerm, lateBudget, lateBonus]
  have headBound : final.computeFMinus first (lateBudget ch rank) = 1 / 61 + lateMargin rank := by
    rw [computeFMinus_late describes headObserved, recordedRank, headRead]
    norm_num [rankTerm, lateBudget, lateBonus, different, rrfK]
  have lateScore : fullScore (lateBudget ch rank) (lateBonus late first rank) channels late =
      1 / (rrfK + rank) + 1 / 61 := by
    rw [fullScore_late, ranked]
    simp [rankTerm, lateBudget, lateBonus]
  have headScore : fullScore (lateBudget ch rank) (lateBonus late first rank) channels first =
      1 / 61 + lateMargin rank := by
    rw [fullScore_late, headRank]
    norm_num [rankTerm, lateBudget, lateBonus, different, rrfK]
  have unseen : final.computeFPlusUnseen (lateBudget ch rank) < 1 / (rrfK + rank) + 1 / 61 := by
    rw [computeFPlusUnseen_late (isOpen ch), describes.depth ch (isOpen ch), length]
    have positive : (0 : ℚ) < rrfK + rank := by
      unfold rrfK
      positivity
    have smaller : 1 / (rrfK + (rank : ℚ) + 1) < 1 / (rrfK + rank) :=
      one_div_lt_one_div_of_lt positive (lt_add_one _)
    linarith
  have lateCertified := mem_certified_late describes others lateObserved
    (by rw [lateBound]; linarith)
  have headCertified := mem_certified_late describes others headObserved
    (by rw [headBound]; linarith)
  -- the recorded ranks put the late document first, the true ones put it last
  have byRecorded : ((final.outcome (lateBudget ch rank)).ranked.take
      (final.outcome (lateBudget ch rank)).certifiedLen).Pairwise
        (RanksBefore fun docId => final.computeFMinus docId (lateBudget ch rank)) :=
    DiBudFusionState.ranked_pairwise.sublist (take_sublist _ _)
  have byFull : ((final.outcome (lateBudget ch rank)).ranked.take
      (final.outcome (lateBudget ch rank)).certifiedLen).Pairwise
        (RanksBefore (fullScore (lateBudget ch rank) (lateBonus late first rank) channels)) := by
    rw [same]
    exact ranking_pairwise.sublist (take_sublist _ _)
  have wrong : RanksBefore (fullScore (lateBudget ch rank) (lateBonus late first rank) channels)
      late first := by
    refine before_of_pairwise byRecorded byFull lateCertified headCertified different.symm ?_
    rintro (higher | ⟨tie, -⟩)
    · simp only [lateBound, headBound] at higher
      linarith
    · simp only [lateBound, headBound] at tie
      linarith
  rcases wrong with higher | ⟨tie, -⟩
  · simp only [lateScore, headScore] at higher
    linarith
  · simp only [lateScore, headScore] at tie
    linarith

end LateRank

/-- Exactly when no first rank lies between `2 ^ 32` and the largest access count is every
certified prefix final. -/
theorem certifiedPrefixFinal_iff : CertifiedPrefixFinal channels ↔ RanksFit channels := by
  constructor
  · intro isFinal ch docId rank ranked
    by_contra wrong
    rw [not_or, not_lt, not_le] at wrong
    exact not_final_of_late ranked wrong.1 wrong.2 isFinal
  · exact certifiedPrefixFinal_of_ranksFit

theorem firstRank_range {length : Nat} (positive : 0 < length) :
    firstRank (List.range length) (length - 1) = some length := by
  obtain ⟨last, rfl⟩ := Nat.exists_eq_succ_of_ne_zero positive.ne'
  have absent : firstRank (List.range last) last = none :=
    firstRank_eq_none.mpr not_mem_range_self
  simp [range_succ, firstRank_concat, absent]

/-- One channel with `2 ^ 32` documents: the last of them is recorded with rank 0. -/
theorem long_channel_not_final :
    ¬ CertifiedPrefixFinal fun ch => if ch = .vector then List.range (2 ^ 32) else [] := by
  have ranked : firstRank (if BudgetedChannel.vector = .vector then List.range (2 ^ 32) else [])
      (2 ^ 32 - 1) = some (2 ^ 32) := by
    rw [if_pos rfl]
    exact firstRank_range (by norm_num)
  exact not_final_of_late ranked le_rfl (by norm_num)

section Exhausted

variable {budget : FusionBudget} {er : DocId → ℚ} {channels : BudgetedChannel → List DocId}

inductive EndsIn (er : DocId → ℚ) (budget : FusionBudget) :
    DiBudFusionState → (BudgetedChannel → List DocId) → DiBudFusionState → Prop where
  | done {state : DiBudFusionState} {channels : BudgetedChannel → List DocId}
      {outcome : DiBudOutcome} (finished : state.nextRequest budget = .done outcome) :
      EndsIn er budget state channels state
  | poll {state next final : DiBudFusionState} {channels : BudgetedChannel → List DocId}
      (ch : BudgetedChannel) (asked : state.nextRequest budget = .poll ch)
      (fed : state.feed ch (channels ch).head? er = .ok next)
      (later : EndsIn er budget next (Function.update channels ch (channels ch).tail) final) :
      EndsIn er budget state channels final

theorem endsIn_iff {state : DiBudFusionState} {channels : BudgetedChannel → List DocId}
    {outcome : DiBudOutcome} : fuseLoop state channels er budget = .ok outcome ↔
      ∃ final, EndsIn er budget state channels final ∧ outcome = final.outcome budget := by
  constructor
  · intro fused
    fun_induction fuseLoop state channels er budget with
    | case1 state channels ch asked next fed ih =>
      obtain ⟨final, ends, isOutcome⟩ := ih fused
      exact ⟨final, .poll ch asked fed ends, isOutcome⟩
    | case2 => cases fused
    | case3 state channels result finished =>
      cases fused
      exact ⟨state, .done finished, (DiBudFusionState.nextRequest_done finished).1⟩
  · rintro ⟨final, ends, rfl⟩
    induction ends with
    | done finished =>
      rw [fuseLoop]
      split
      · rename_i asked
        rw [finished] at asked
        cases asked
      · rename_i isDone
        rw [(DiBudFusionState.nextRequest_done isDone).1]
    | poll _ asked fed later ih =>
      rw [fuseLoop]
      split
      · rename_i asked'
        rw [asked] at asked'
        cases asked'
        split
        · rename_i fed'
          rw [fed] at fed'
          cases fed'
          exact ih
        · rename_i refused
          rw [fed] at refused
          cases refused
      · rename_i finished
        rw [asked] at finished
        cases finished

/-- What the ranks that are recorded of the whole channels give a document. -/
def recordedScore (budget : FusionBudget) (er : DocId → ℚ)
    (channels : BudgetedChannel → List DocId) (docId : DocId) : ℚ :=
  (BudgetedChannel.all.map fun ch => rankTerm budget ch (recordedRank (channels ch) docId)).sum +
    budget.edgeReinforcementWeight * er docId

namespace DiBudFusionState

variable {state : DiBudFusionState} {read rest : BudgetedChannel → List DocId} {docId : DocId}
  {scored : List (DocId × ℚ)}

theorem certifiedCount_eq_length (fPlusUnseen : ℚ) (safe : scored.Pairwise fun first later =>
      state.canOvertake first.1 first.2 later.1 budget = false) :
    state.certifiedCount budget fPlusUnseen scored = scored.length ↔
      ∀ entry ∈ scored, fPlusUnseen < entry.2 := by
  induction scored with
  | nil => simp [certifiedCount]
  | cons first scored ih =>
    obtain ⟨noneLater, safe⟩ := pairwise_cons.mp safe
    rw [certifiedCount, forall_mem_cons]
    by_cases above : first.2 ≤ fPlusUnseen
    · rw [if_pos above]
      simp [not_lt.mpr above]
    · rw [if_neg above, if_neg]
      · rw [length_cons, Nat.add_right_cancel_iff, ih safe]
        exact (and_iff_right (not_le.mp above)).symm
      · rw [Bool.not_eq_true, List.any_eq_false]
        exact fun later isLater => by simp [noneLater later isLater]

variable (exhausted : ∀ ch, state.exhausted ch = true)

include exhausted

theorem computeFPlus_of_exhausted (inside : docId ∈ state.observedDocs) :
    state.computeFPlus docId budget = state.computeFMinus docId budget := by
  have closed : state.openTerm budget docId = fun _ => 0 := by
    funext ch
    simp [openTerm, exhausted]
  rw [computeFPlus_eq inside, closed]
  simp

theorem computeFPlusUnseen_of_exhausted : state.computeFPlusUnseen budget =
    budget.edgeReinforcementWeight * budget.edgeReinforcementUpperBound := by
  rw [computeFPlusUnseen_eq]
  simp [exhausted]

theorem canOvertake_of_exhausted {first later : DocId × ℚ} (before : ScoredBefore first later)
    (inLater : later ∈ state.scoredDocs budget) :
    state.canOvertake first.1 first.2 later.1 budget = false := by
  have notOpen : state.hasUnobservedUnexhaustedChannels later.1 = false := by
    rw [hasUnobservedUnexhaustedChannels]
    split <;> simp [exhausted]
  have bound : state.computeFPlus later.1 budget = state.computeFMinus later.1 budget :=
    computeFPlus_of_exhausted exhausted (mem_scoredDocs.mp inLater).1
  rw [← (mem_scoredDocs.mp inLater).2] at bound
  have le : later.2 ≤ first.2 := before.elim le_of_lt fun same => same.1.ge
  rw [canOvertake, bound, if_neg (not_lt.mpr le), if_neg]
  rintro ⟨-, isOpen, -⟩
  rw [notOpen] at isOpen
  cases isOpen

theorem Describes.computeFMinus_of_exhausted (describes : state.Describes er channels read rest)
    (inside : docId ∈ state.observedDocs) :
    state.computeFMinus docId budget = recordedScore budget er channels docId := by
  rw [describes.computeFMinus_eq inside, recordedScore]
  congr 3
  funext ch
  rw [describes.ranks, describes.split ch, describes.ended ch (exhausted ch), append_nil]

end DiBudFusionState

theorem EndsIn.describes {state final : DiBudFusionState}
    {rest : BudgetedChannel → List DocId} (ends : EndsIn er budget state rest final)
    (starts : ∃ read, state.Describes er channels read rest) :
    ∃ read rest, final.Describes er channels read rest := by
  induction ends with
  | done => exact ⟨_, _, starts.choose_spec⟩
  | poll _ asked fed _ ih =>
    obtain ⟨read, describes⟩ := starts
    exact ih (describes.poll asked fed)

/-- A fusion that ends with exhausted channels certifies everything if and only if every document
gets more than the bonus that no document can exceed. -/
theorem fuseExactPrefix_certifies_all_iff {final : DiBudFusionState}
    (valid : budget.validate = .ok ()) (ends : EndsIn er budget .new channels final)
    (exhausted : ∀ ch, final.exhausted ch = true) :
    ∃ outcome, fuseExactPrefix .new channels er budget = .ok outcome ∧
      (outcome.certifiedLen = outcome.ranked.length ↔ ∀ ch, ∀ docId ∈ channels ch,
        budget.edgeReinforcementWeight * budget.edgeReinforcementUpperBound <
          recordedScore budget er channels docId) := by
  refine ⟨final.outcome budget, ?_, ?_⟩
  · rw [fuseExactPrefix, valid]
    exact endsIn_iff.mpr ⟨final, ends, rfl⟩
  · obtain ⟨read, rest, describes⟩ := ends.describes ⟨_, DiBudFusionState.describes_new⟩
    have whole (ch : BudgetedChannel) : read ch = channels ch := by
      rw [describes.split ch, describes.ended ch (exhausted ch), append_nil]
    have safe : (final.scoredDocs budget).Pairwise fun first later =>
        final.canOvertake first.1 first.2 later.1 budget = false :=
      (List.Pairwise.and_mem.mp DiBudFusionState.scoredDocs_pairwise).imp
        fun ⟨_, inLater, before⟩ =>
          DiBudFusionState.canOvertake_of_exhausted exhausted before inLater
    have counted := DiBudFusionState.certifiedCount_eq_length
      (final.computeFPlusUnseen budget) safe
    rw [DiBudFusionState.computeFPlusUnseen_of_exhausted exhausted] at counted
    rw [DiBudFusionState.outcome, DiBudFusionState.certifyPrefix, length_map,
      DiBudFusionState.computeFPlusUnseen_of_exhausted exhausted, counted]
    constructor
    · intro above ch docId inChannel
      have inside : docId ∈ final.observedDocs :=
        (describes.observed docId).mpr ⟨ch, whole ch ▸ inChannel⟩
      rw [← describes.computeFMinus_of_exhausted exhausted inside]
      exact above (docId, _) (DiBudFusionState.mem_scoredDocs.mpr ⟨inside, rfl⟩)
    · intro above entry inScored
      obtain ⟨inside, isScore⟩ := DiBudFusionState.mem_scoredDocs.mp inScored
      obtain ⟨ch, inRead⟩ := (describes.observed _).mp inside
      rw [isScore, describes.computeFMinus_of_exhausted exhausted inside]
      exact above ch _ (whole ch ▸ inRead)

/-- A budget that gives the one document of a channel `1 / 61`. -/
def smallBudget (bound : ℚ) : FusionBudget where
  maxTotalAccesses := 10
  minCertifiedResults := 2
  edgeReinforcementWeight := 1
  channelWeights ch := if ch = .graph then 1 else 0
  edgeReinforcementUpperBound := bound

def oneDocument (ch : BudgetedChannel) : List DocId := if ch = .graph then [7] else []

theorem oneDocument_endsIn (bound : ℚ) (isBound : bound = 0 ∨ bound = 1) :
    ∃ final : DiBudFusionState, EndsIn (fun _ => 0) (smallBudget bound) .new oneDocument final ∧
      (∀ ch, final.exhausted ch = true) ∧ (final.outcome (smallBudget bound)).ranked = [7] ∧
      (final.outcome (smallBudget bound)).certifiedLen = if bound = 0 then 1 else 0 := by
  have ended {state : DiBudFusionState} (exhausted : ∀ ch, state.exhausted ch = true) :
      state.nextRequest (smallBudget bound) = .done (state.outcome (smallBudget bound)) := by
    rw [DiBudFusionState.nextRequest, if_pos]
    simp [exhausted]
  have exhausted : ∀ ch, (Function.update (Function.update (Function.update (fun _ => false)
      BudgetedChannel.graph true) .text true) .vector true) ch = true := by
    intro ch
    cases ch <;> rfl
  rcases isBound with rfl | rfl <;>
    exact ⟨_, .poll .graph (by decide +kernel) rfl
      (.poll .graph (by decide +kernel) rfl
        (.poll .text (by decide +kernel) rfl
          (.poll .vector (by decide +kernel) rfl (.done (ended exhausted))))),
      exhausted, by decide +kernel, by decide +kernel⟩

/-- With no bonus to be had, the document is certified. -/
theorem oneDocument_certified : ∃ outcome,
    fuseExactPrefix .new oneDocument (fun _ => 0) (smallBudget 0) = .ok outcome ∧
      outcome.certifiedLen = outcome.ranked.length := by
  obtain ⟨final, ends, exhausted, -⟩ := oneDocument_endsIn 0 (.inl rfl)
  obtain ⟨outcome, fused, certified⟩ := fuseExactPrefix_certifies_all_iff (by decide +kernel) ends exhausted
  refine ⟨outcome, fused, certified.mpr fun ch docId inChannel => ?_⟩
  cases ch with
  | graph =>
    cases mem_singleton.mp inChannel
    decide +kernel
  | text => cases inChannel
  | vector => cases inChannel

/-- With a bonus of 1 to be had, it is not, although nothing is left to be read. -/
theorem oneDocument_not_certified : ∃ final outcome,
    (smallBudget 1).validate = .ok () ∧
      EndsIn (fun _ => 0) (smallBudget 1) .new oneDocument final ∧
      (∀ ch, final.exhausted ch = true) ∧
      fuseExactPrefix .new oneDocument (fun _ => 0) (smallBudget 1) = .ok outcome ∧
      outcome.certifiedLen ≠ outcome.ranked.length := by
  have valid : (smallBudget 1).validate = .ok () := by decide +kernel
  obtain ⟨final, ends, exhausted, ranked, certified⟩ := oneDocument_endsIn 1 (.inr rfl)
  refine ⟨final, final.outcome (smallBudget 1), valid, ends, exhausted, ?_, ?_⟩
  · rw [fuseExactPrefix, valid]
    exact endsIn_iff.mpr ⟨final, ends, rfl⟩
  · rw [ranked, certified]
    decide

end Exhausted

end Contextra.Rank
