import Contextra.Rank.Dibud

/-!
# What the fusion state knows

The state describes the parts of the channels that have been read.  As long as the recorded
ranks are the true ones, its lower bound is below the full score of every observed document, its
upper bound above it, and the bound for unseen documents above every other score.
-/

namespace Contextra.Rank

open Std (TreeMap)
open Library List Option Function

def firstRank (list : List DocId) (docId : DocId) : Option Nat :=
  (list.idxOf? docId).map (· + 1)

def recordedRank (list : List DocId) (docId : DocId) : Option Nat :=
  (firstRank list docId).map (· % 2 ^ 32)

def rankTerm (budget : FusionBudget) (ch : BudgetedChannel) : Option Nat → ℚ
  | some rank => budget.channelWeights ch / (rrfK + rank)
  | none => 0

/-- The score of a document over channels that are read to the end. -/
def fullScore (budget : FusionBudget) (er : DocId → ℚ) (channels : BudgetedChannel → List DocId)
    (docId : DocId) : ℚ :=
  (BudgetedChannel.all.map fun ch => rankTerm budget ch (firstRank (channels ch) docId)).sum +
    budget.edgeReinforcementWeight * er docId

def fullRanking (budget : FusionBudget) (er : DocId → ℚ)
    (channels : BudgetedChannel → List DocId) : List DocId :=
  ranking (fullScore budget er channels) (BudgetedChannel.all.flatMap channels)

/-- The ranks that the budget lets the machine reach fit into 32 bits. -/
def RanksFit (channels : BudgetedChannel → List DocId) : Prop :=
  ∀ ch docId rank, firstRank (channels ch) docId = some rank → rank < 2 ^ 32 ∨ 2 ^ 64 ≤ rank

section Ranks

variable {read rest list : List DocId} {docId other : DocId} {rank : Nat}

theorem firstRank_append :
    firstRank (read ++ rest) docId =
      (firstRank read docId).or ((firstRank rest docId).map (· + read.length)) := by
  simp only [firstRank, List.idxOf?, findIdx?_append, map_or, Option.map_map]
  congr 2
  funext position
  simp only [comp_apply]
  omega

theorem firstRank_eq_none : firstRank list docId = none ↔ docId ∉ list := by
  simp [firstRank]

theorem firstRank_isSome : (firstRank list docId).isSome ↔ docId ∈ list := by
  rw [isSome_iff_ne_none, ne_eq, firstRank_eq_none, not_not]

theorem firstRank_bounds (ranked : firstRank list docId = some rank) :
    1 ≤ rank ∧ rank ≤ list.length := by
  obtain ⟨position, found, rfl⟩ := map_eq_some_iff.mp ranked
  obtain ⟨inside, -⟩ := findIdx?_eq_some_iff_getElem.mp found
  omega

theorem firstRank_concat :
    firstRank (read ++ [other]) docId =
      (firstRank read docId).or (if other = docId then some (read.length + 1) else none) := by
  rw [firstRank_append]
  congr 1
  by_cases same : other = docId
  · simp [firstRank, List.idxOf?, same, Nat.add_comm]
  · simp [firstRank, List.idxOf?, same]

end Ranks

namespace DiBudFusionState

def rank (state : DiBudFusionState) (docId : DocId) (ch : BudgetedChannel) : Option Nat :=
  state.observedDocs[docId]?.bind fun docState => docState.ranks ch

/-- The state has read `read` of the channels, and `rest` is still to come. -/
structure Describes (state : DiBudFusionState) (er : DocId → ℚ)
    (channels read rest : BudgetedChannel → List DocId) : Prop where
  split : ∀ ch, channels ch = read ch ++ rest ch
  depth : ∀ ch, state.exhausted ch = false → state.channelDepths ch = (read ch).length
  ended : ∀ ch, state.exhausted ch = true → rest ch = []
  counted : ∀ ch, (read ch).length ≤ state.accesses
  ranks : ∀ docId ch, state.rank docId ch = recordedRank (read ch) docId
  observed : ∀ docId, docId ∈ state.observedDocs ↔ ∃ ch, docId ∈ read ch
  cached : ∀ docId, docId ∈ state.observedDocs → state.erCache[docId]? = some (er docId)
  uncached : ∀ docId, docId ∉ state.observedDocs → docId ∉ state.erCache

variable {state next : DiBudFusionState} {budget : FusionBudget} {ch : BudgetedChannel}
  {er : DocId → ℚ} {channels read rest : BudgetedChannel → List DocId} {docId : DocId}

theorem describes_new : new.Describes er channels (fun _ => []) channels where
  split _ := rfl
  depth _ _ := rfl
  ended _ impossible := nomatch impossible
  counted _ := Nat.zero_le _
  ranks docId ch := rfl
  observed docId := by simp [new]
  cached docId inside := by simp [new] at inside
  uncached docId _ := by simp [new]

theorem observe_ranks {rank : Nat} {other : BudgetedChannel} :
    (state.observe ch rank docId).ranks other =
      (state.rank docId other).or (if other = ch then some rank else none) := by
  have current : (state.observedDocs[docId]?.getD ⟨fun _ => none⟩).ranks other =
      state.rank docId other := by
    simp only [DiBudFusionState.rank]
    cases state.observedDocs[docId]? <;> rfl
  simp only [observe]
  split
  · rename_i fresh
    by_cases same : other = ch
    · subst same
      rw [current] at fresh
      simp [isNone_iff_eq_none.mp fresh]
    · simp [same, current]
  · rename_i known
    rw [current]
    by_cases same : other = ch
    · subst same
      rw [current] at known
      cases found : state.rank docId other with
      | none => simp [found] at known
      | some rank => simp
    · simp [same]

theorem Describes.feed_some (describes : state.Describes er channels read rest)
    (isOpen : state.exhausted ch = false) {tail : List DocId} (given : rest ch = docId :: tail)
    (fed : state.feed ch (some docId) er = .ok next) :
    next.Describes er channels (Function.update read ch (read ch ++ [docId]))
      (Function.update rest ch tail) ∧ next.exhausted = state.exhausted := by
  have depth := describes.depth ch isOpen
  have effect : next.exhausted = state.exhausted ∧ next.accesses = state.accesses + 1 ∧
      next.channelDepths =
        Function.update state.channelDepths ch (state.channelDepths ch + 1) ∧
      next.observedDocs = state.observedDocs.insert docId
        (state.observe ch ((state.channelDepths ch + 1) % 2 ^ 32) docId) ∧
      next.erCache =
        if docId ∈ state.erCache then state.erCache else state.erCache.insert docId (er docId) := by
    simp only [feed, update_self] at fed
    split at fed
    · rename_i known
      cases fed
      exact ⟨rfl, rfl, rfl, rfl, (if_pos (TreeMap.contains_iff_mem.mp known)).symm⟩
    · rename_i unknown
      split at fed
      · cases fed
      · cases fed
        exact ⟨rfl, rfl, rfl, rfl,
          (if_neg fun known => unknown (TreeMap.contains_iff_mem.mpr known)).symm⟩
  obtain ⟨sameExhausted, accesses, depths, observedDocs, erCache⟩ := effect
  refine ⟨⟨?_, ?_, ?_, ?_, ?_, ?_, ?_, ?_⟩, sameExhausted⟩
  · intro other
    by_cases same : other = ch
    · subst same
      simp [describes.split other, given]
    · simp [same, describes.split other]
  · intro other stillOpen
    rw [sameExhausted] at stillOpen
    rw [depths]
    by_cases same : other = ch
    · subst same
      simp [depth]
    · simp [same, describes.depth other stillOpen]
  · intro other closed
    rw [sameExhausted] at closed
    have different : other ≠ ch := by
      rintro rfl
      rw [isOpen] at closed
      cases closed
    simp [different, describes.ended other closed]
  · intro other
    rw [accesses]
    have counted := describes.counted other
    by_cases same : other = ch
    · subst same
      simpa using counted
    · simp only [update_of_ne same]
      omega
  · intro other channel
    by_cases sameDoc : docId = other
    · subst sameDoc
      have ranks : next.rank docId channel =
          (state.observe ch ((state.channelDepths ch + 1) % 2 ^ 32) docId).ranks channel := by
        simp [DiBudFusionState.rank, observedDocs]
      rw [ranks, observe_ranks, describes.ranks]
      by_cases sameChannel : channel = ch
      · subst sameChannel
        simp only [recordedRank, update_self, firstRank_concat, if_true, depth]
        cases firstRank (read channel) docId <;> rfl
      · simp [sameChannel]
    · have ranks : next.rank other channel = state.rank other channel := by
        simp [DiBudFusionState.rank, observedDocs, TreeMap.getElem?_insert, sameDoc]
      rw [ranks, describes.ranks]
      by_cases sameChannel : channel = ch
      · subst sameChannel
        simp only [recordedRank, update_self, firstRank_concat, sameDoc, if_false]
        cases firstRank (read channel) other <;> rfl
      · simp [sameChannel]
  · intro other
    rw [observedDocs, TreeMap.mem_insert, describes.observed]
    simp only [compare_eq_iff_eq]
    constructor
    · rintro (rfl | ⟨channel, inside⟩)
      · exact ⟨ch, by simp⟩
      · refine ⟨channel, ?_⟩
        by_cases same : channel = ch
        · subst same
          simp [inside]
        · simpa [same] using inside
    · rintro ⟨channel, inside⟩
      by_cases same : channel = ch
      · subst same
        simp only [update_self, mem_append, mem_singleton] at inside
        exact inside.elim (fun old => .inr ⟨channel, old⟩) (fun new => .inl new.symm)
      · exact .inr ⟨channel, by simpa [same] using inside⟩
  · intro other inside
    rw [observedDocs, TreeMap.mem_insert, compare_eq_iff_eq] at inside
    rw [erCache]
    split
    · rename_i known
      rcases inside with rfl | old
      · by_contra wrong
        exact describes.uncached docId (fun seen => wrong (describes.cached docId seen)) known
      · exact describes.cached other old
    · by_cases same : docId = other
      · subst same
        exact TreeMap.getElem?_insert_self
      · rw [TreeMap.getElem?_insert, if_neg (by simpa using same)]
        exact describes.cached other (inside.resolve_left same)
  · intro other outside
    rw [observedDocs, TreeMap.mem_insert, compare_eq_iff_eq, not_or] at outside
    rw [erCache]
    split
    · exact describes.uncached other outside.2
    · rw [TreeMap.mem_insert, compare_eq_iff_eq, not_or]
      exact ⟨outside.1, describes.uncached other outside.2⟩

theorem Describes.feed_none (describes : state.Describes er channels read rest)
    (atEnd : rest ch = []) (fed : state.feed ch none er = .ok next) :
    next.Describes er channels read rest := by
  simp only [feed] at fed
  cases fed
  refine ⟨describes.split, ?_, ?_, ?_, describes.ranks, describes.observed, describes.cached,
    describes.uncached⟩
  · intro other stillOpen
    by_cases same : other = ch
    · simp [same] at stillOpen
    · simp only [update_of_ne same] at stillOpen ⊢
      exact describes.depth other stillOpen
  · intro other closed
    by_cases same : other = ch
    · exact same ▸ atEnd
    · simp only [update_of_ne same] at closed
      exact describes.ended other closed
  · exact fun other => (describes.counted other).trans (Nat.le_succ _)

theorem bestChannel_open (best : state.bestChannel budget = some ch) :
    state.exhausted ch = false := by
  have held : ∀ (list : List BudgetedChannel) (start : Option BudgetedChannel × ℚ),
      (∀ ch, start.1 = some ch → state.exhausted ch = false) →
      ∀ ch, (list.foldl (fun best ch =>
        if state.exhausted ch = false ∧ best.2 < state.nextTerm budget ch then
          (some ch, state.nextTerm budget ch)
        else best) start).1 = some ch → state.exhausted ch = false := by
    intro list
    induction list with
    | nil => exact fun start fine => fine
    | cons first list ih =>
      intro start fine
      apply ih
      intro ch chosen
      dsimp only at chosen
      split at chosen
      · rename_i better
        cases chosen
        exact better.1
      · exact fine ch chosen
  refine held _ _ (fun ch impossible => ?_) ch best
  cases impossible

theorem Describes.poll (describes : state.Describes er channels read rest)
    (asked : state.nextRequest budget = .poll ch)
    (fed : state.feed ch (rest ch).head? er = .ok next) :
    ∃ read', next.Describes er channels read' (Function.update rest ch (rest ch).tail) := by
  have isOpen := bestChannel_open (nextRequest_poll asked).2.2
  cases given : rest ch with
  | nil =>
    rw [given] at fed
    refine ⟨read, ?_⟩
    rw [tail_nil, ← given, update_eq_self]
    exact describes.feed_none given fed
  | cons docId tail =>
    rw [given] at fed
    exact ⟨_, (describes.feed_some isOpen given fed).1⟩

theorem foldl_terms (body : ℚ → BudgetedChannel → ℚ) (term : BudgetedChannel → ℚ)
    (adds : ∀ score ch, body score ch = score + term ch) (list : List BudgetedChannel)
    (start : ℚ) : list.foldl body start = start + (list.map term).sum := by
  induction list generalizing start with
  | nil => simp
  | cons first list ih =>
    rw [foldl_cons, ih, adds, map_cons, sum_cons, add_assoc]

/-- What the channels can still add to an observed document. -/
def openTerm (state : DiBudFusionState) (budget : FusionBudget) (docId : DocId)
    (ch : BudgetedChannel) : ℚ :=
  if (state.rank docId ch).isNone && !state.exhausted ch then state.nextTerm budget ch else 0

theorem computeFPlus_eq (inside : docId ∈ state.observedDocs) :
    state.computeFPlus docId budget =
      state.computeFMinus docId budget +
        (BudgetedChannel.all.map (state.openTerm budget docId)).sum := by
  obtain ⟨docState, found⟩ := isSome_iff_exists.mp
    (TreeMap.mem_iff_isSome_getElem?.mp inside)
  simp only [computeFPlus, found]
  apply foldl_terms
  intro score ch
  simp only [openTerm, DiBudFusionState.rank, found, bind_some]
  split <;> simp

theorem computeFPlusUnseen_eq :
    state.computeFPlusUnseen budget =
      (BudgetedChannel.all.map fun ch =>
        if state.exhausted ch then 0 else state.nextTerm budget ch).sum +
        budget.edgeReinforcementWeight * budget.edgeReinforcementUpperBound := by
  rw [computeFPlusUnseen, foldl_terms _
    (fun ch => if state.exhausted ch then 0 else state.nextTerm budget ch), zero_add]
  intro score ch
  cases state.exhausted ch <;> simp

section Bounds

variable (describes : state.Describes er channels read rest)

include describes

theorem Describes.firstRank_of_read {rank : Nat}
    (ranked : firstRank (read ch) docId = some rank) :
    firstRank (channels ch) docId = some rank := by
  rw [describes.split, firstRank_append, ranked, some_or]

theorem Describes.rank_eq (fit : RanksFit channels) (accesses : state.accesses < 2 ^ 64) :
    state.rank docId ch = firstRank (read ch) docId := by
  rw [describes.ranks, recordedRank]
  cases ranked : firstRank (read ch) docId with
  | none => rfl
  | some rank =>
    have reached := (firstRank_bounds ranked).2.trans (describes.counted ch)
    rcases fit ch docId rank (describes.firstRank_of_read ranked) with small | large
    · rw [map_some, Nat.mod_eq_of_lt small]
    · omega

theorem Describes.rankTerm_le (nonneg : 0 ≤ budget.channelWeights ch)
    (notRead : firstRank (read ch) docId = none) :
    rankTerm budget ch (firstRank (channels ch) docId) ≤
      if state.exhausted ch then 0 else state.nextTerm budget ch := by
  rw [describes.split, firstRank_append, notRead, none_or]
  split
  · rename_i closed
    rw [describes.ended ch closed]
    rfl
  · rename_i isOpen
    have depth := describes.depth ch (Bool.eq_false_iff.mpr isOpen)
    have denominator : (0 : ℚ) < rrfK + state.channelDepths ch + 1 := by
      have := Nat.cast_nonneg (α := ℚ) (state.channelDepths ch)
      unfold rrfK
      linarith
    cases ranked : firstRank (rest ch) docId with
    | none =>
      simp only [map_none, rankTerm, nextTerm]
      positivity
    | some rank =>
      have positive := (firstRank_bounds ranked).1
      have later : (state.channelDepths ch : ℚ) + 1 ≤ ((rank + (read ch).length : Nat) : ℚ) := by
        rw [depth]
        exact_mod_cast (by omega)
      simp only [map_some, rankTerm, nextTerm]
      apply div_le_div_of_nonneg_left nonneg denominator
      linarith

theorem Describes.computeFMinus_eq (inside : docId ∈ state.observedDocs) :
    state.computeFMinus docId budget =
      (BudgetedChannel.all.map fun ch => rankTerm budget ch (state.rank docId ch)).sum +
        budget.edgeReinforcementWeight * er docId := by
  obtain ⟨docState, found⟩ := isSome_iff_exists.mp
    (TreeMap.mem_iff_isSome_getElem?.mp inside)
  simp only [computeFMinus, describes.cached docId inside, DiBudFusionState.rank, found,
    bind_some]
  rw [foldl_terms _ (fun ch => rankTerm budget ch (docState.ranks ch)), zero_add]
  intro score ch
  cases docState.ranks ch <;> simp [rankTerm]

theorem Describes.computeFMinus_le (fit : RanksFit channels) (accesses : state.accesses < 2 ^ 64)
    (nonneg : ∀ ch, 0 ≤ budget.channelWeights ch) (inside : docId ∈ state.observedDocs) :
    state.computeFMinus docId budget ≤ fullScore budget er channels docId := by
  rw [describes.computeFMinus_eq inside, fullScore]
  gcongr ?_ + _
  apply sum_le_sum
  intro ch _
  rw [describes.rank_eq fit accesses]
  cases ranked : firstRank (read ch) docId with
  | some rank => rw [describes.firstRank_of_read ranked]
  | none =>
    cases firstRank (channels ch) docId with
    | none => exact le_rfl
    | some rank =>
      have weight := nonneg ch
      simp only [rankTerm, rrfK]
      positivity

theorem Describes.le_computeFPlus (fit : RanksFit channels) (accesses : state.accesses < 2 ^ 64)
    (nonneg : ∀ ch, 0 ≤ budget.channelWeights ch) (inside : docId ∈ state.observedDocs) :
    fullScore budget er channels docId ≤ state.computeFPlus docId budget := by
  rw [computeFPlus_eq inside, describes.computeFMinus_eq inside, fullScore, add_right_comm,
    ← sum_map_add]
  gcongr ?_ + _
  apply sum_le_sum
  intro ch _
  rw [openTerm, describes.rank_eq fit accesses]
  cases ranked : firstRank (read ch) docId with
  | some rank => simp [describes.firstRank_of_read ranked]
  | none =>
    have bound := describes.rankTerm_le (nonneg ch) ranked
    cases closed : state.exhausted ch <;> simpa [closed, rankTerm] using bound

theorem Describes.le_computeFPlusUnseen (nonneg : ∀ ch, 0 ≤ budget.channelWeights ch)
    (bonusWeight : 0 ≤ budget.edgeReinforcementWeight)
    (bonus : er docId ≤ budget.edgeReinforcementUpperBound)
    (outside : docId ∉ state.observedDocs) :
    fullScore budget er channels docId ≤ state.computeFPlusUnseen budget := by
  rw [computeFPlusUnseen_eq, fullScore]
  gcongr ?_ + budget.edgeReinforcementWeight * ?_
  apply sum_le_sum
  intro ch _
  apply describes.rankTerm_le (nonneg ch)
  rw [firstRank_eq_none]
  exact fun inside => outside ((describes.observed docId).mpr ⟨ch, inside⟩)

end Bounds

end DiBudFusionState

end Contextra.Rank
