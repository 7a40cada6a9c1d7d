import Contextra.Library.Ranking

/-!
# Budgeted rank fusion

The state machine that reads three ranked channels step by step, bounds what a document can
still reach, and certifies the front of its ranking; and the driver that runs it.  Scores are
exact rationals here.  Counters and ranks are the machine's: a rank is a depth cut to 32 bits.
-/

namespace Contextra.Rank

open Std (TreeMap)
open Contextra.Library (ScoredBefore)

abbrev DocId := Nat

inductive BudgetedChannel where
  | vector
  | text
  | graph
  deriving DecidableEq, Repr

def BudgetedChannel.all : List BudgetedChannel := [.vector, .text, .graph]

structure FusionBudget where
  maxTotalAccesses : Nat
  minCertifiedResults : Nat
  edgeReinforcementWeight : ℚ
  channelWeights : BudgetedChannel → ℚ
  edgeReinforcementUpperBound : ℚ

/-- What is refused; each case carries what its message prints. -/
inductive FusionError where
  | maxTotalAccesses
  | minCertifiedResults
  | channelWeight (channel : BudgetedChannel) (weight : ℚ)
  | edgeReinforcementWeight (weight : ℚ)
  | edgeReinforcementUpperBound (bound : ℚ)
  | edgeReinforcementScore (docId : DocId) (score : ℚ)
  deriving DecidableEq, Repr

def FusionBudget.validate (budget : FusionBudget) : Except FusionError Unit :=
  if budget.maxTotalAccesses = 0 then .error .maxTotalAccesses
  else if budget.minCertifiedResults = 0 then .error .minCertifiedResults
  else
    match BudgetedChannel.all.find? fun ch => decide (budget.channelWeights ch < 0) with
    | some ch => .error (.channelWeight ch (budget.channelWeights ch))
    | none =>
      if budget.edgeReinforcementWeight < 0 then
        .error (.edgeReinforcementWeight budget.edgeReinforcementWeight)
      else if budget.edgeReinforcementUpperBound < 0 then
        .error (.edgeReinforcementUpperBound budget.edgeReinforcementUpperBound)
      else .ok ()

structure DiBudOutcome where
  ranked : List DocId
  certifiedLen : Nat
  accesses : Nat
  budgetExhausted : Bool
  deriving DecidableEq, Repr

inductive DiBudStep where
  | poll (ch : BudgetedChannel)
  | done (outcome : DiBudOutcome)
  deriving DecidableEq, Repr

def rrfK : ℚ := 60

structure ObservedDocState where
  ranks : BudgetedChannel → Option Nat

structure DiBudFusionState where
  channelDepths : BudgetedChannel → Nat
  exhausted : BudgetedChannel → Bool
  accesses : Nat
  observedDocs : TreeMap DocId ObservedDocState
  erCache : TreeMap DocId ℚ

namespace DiBudFusionState

def new : DiBudFusionState := ⟨fun _ => 0, fun _ => false, 0, ∅, ∅⟩

def observe (state : DiBudFusionState) (ch : BudgetedChannel) (rank : Nat) (docId : DocId) :
    ObservedDocState :=
  let docState := state.observedDocs[docId]?.getD ⟨fun _ => none⟩
  if (docState.ranks ch).isNone then ⟨Function.update docState.ranks ch (some rank)⟩
  else docState

def feed (state : DiBudFusionState) (ch : BudgetedChannel) (item : Option DocId)
    (er : DocId → ℚ) : Except FusionError DiBudFusionState :=
  let accesses := state.accesses + 1
  let channelDepths := Function.update state.channelDepths ch (state.channelDepths ch + 1)
  -- the cast from `usize` to `u32`
  let rank := channelDepths ch % 2 ^ 32
  match item with
  | some docId =>
    let observedDocs := state.observedDocs.insert docId (state.observe ch rank docId)
    if state.erCache.contains docId then
      .ok { state with accesses, channelDepths, observedDocs }
    else if er docId < 0 then .error (.edgeReinforcementScore docId (er docId))
    else
      .ok { state with
        accesses, channelDepths, observedDocs, erCache := state.erCache.insert docId (er docId) }
  | none =>
    .ok { state with
      accesses, channelDepths, exhausted := Function.update state.exhausted ch true }

/-- What a channel can still add to a document that it has not shown yet. -/
def nextTerm (state : DiBudFusionState) (budget : FusionBudget) (ch : BudgetedChannel) : ℚ :=
  budget.channelWeights ch / (rrfK + state.channelDepths ch + 1)

def computeFMinus (state : DiBudFusionState) (docId : DocId) (budget : FusionBudget) : ℚ :=
  let fromChannels :=
    match state.observedDocs[docId]? with
    | some docState =>
      BudgetedChannel.all.foldl (fun score ch =>
        match docState.ranks ch with
        | some rank => score + budget.channelWeights ch / (rrfK + rank)
        | none => score) 0
    | none => 0
  match state.erCache[docId]? with
  | some er => fromChannels + budget.edgeReinforcementWeight * er
  | none => fromChannels

def computeFPlus (state : DiBudFusionState) (docId : DocId) (budget : FusionBudget) : ℚ :=
  let lower := state.computeFMinus docId budget
  match state.observedDocs[docId]? with
  | some docState =>
    BudgetedChannel.all.foldl (fun score ch =>
      if (docState.ranks ch).isNone && !state.exhausted ch then
        score + state.nextTerm budget ch
      else score) lower
  | none => lower

def computeFPlusUnseen (state : DiBudFusionState) (budget : FusionBudget) : ℚ :=
  BudgetedChannel.all.foldl (fun score ch =>
    if !state.exhausted ch then score + state.nextTerm budget ch else score) 0 +
    budget.edgeReinforcementWeight * budget.edgeReinforcementUpperBound

def hasUnobservedUnexhaustedChannels (state : DiBudFusionState) (docId : DocId) : Bool :=
  match state.observedDocs[docId]? with
  | some docState =>
    BudgetedChannel.all.any fun ch => (docState.ranks ch).isNone && !state.exhausted ch
  | none => false

def canOvertake (state : DiBudFusionState) (docIdP : DocId) (fMinusP : ℚ) (docIdY : DocId)
    (budget : FusionBudget) : Bool :=
  if fMinusP < state.computeFPlus docIdY budget then true
  else if state.computeFPlus docIdY budget = fMinusP ∧
      state.hasUnobservedUnexhaustedChannels docIdY ∧ docIdY < docIdP then true
  else false

/-- The loop that counts certified documents, down the ranking. -/
def certifiedCount (state : DiBudFusionState) (budget : FusionBudget) (fPlusUnseen : ℚ) :
    List (DocId × ℚ) → Nat
  | [] => 0
  | (docIdP, fMinusP) :: rest =>
    if fMinusP ≤ fPlusUnseen then 0
    else if rest.any fun y => state.canOvertake docIdP fMinusP y.1 budget then 0
    else certifiedCount state budget fPlusUnseen rest + 1

/-- The observed documents with their lower bounds, the highest first. -/
def scoredDocs (state : DiBudFusionState) (budget : FusionBudget) : List (DocId × ℚ) :=
  (state.observedDocs.keys.map fun docId => (docId, state.computeFMinus docId budget)).insertionSort
    ScoredBefore

def certifyPrefix (state : DiBudFusionState) (budget : FusionBudget) : List DocId × Nat :=
  ((state.scoredDocs budget).map (·.1),
    state.certifiedCount budget (state.computeFPlusUnseen budget) (state.scoredDocs budget))

def outcome (state : DiBudFusionState) (budget : FusionBudget) : DiBudOutcome where
  ranked := (state.certifyPrefix budget).1
  certifiedLen := (state.certifyPrefix budget).2
  accesses := state.accesses
  budgetExhausted := budget.maxTotalAccesses ≤ state.accesses

/-- The unexhausted channel with the largest next term; the graph is asked before the text, and
the text before the vectors. -/
def bestChannel (state : DiBudFusionState) (budget : FusionBudget) : Option BudgetedChannel :=
  ([.graph, .text, .vector].foldl (fun best ch =>
    if state.exhausted ch = false ∧ best.2 < state.nextTerm budget ch then
      (some ch, state.nextTerm budget ch)
    else best) ((none : Option BudgetedChannel), (-1 : ℚ))).1

def nextRequest (state : DiBudFusionState) (budget : FusionBudget) : DiBudStep :=
  if budget.minCertifiedResults ≤ (state.certifyPrefix budget).2 ∨
      budget.maxTotalAccesses ≤ state.accesses ∨
      BudgetedChannel.all.all state.exhausted then
    .done (state.outcome budget)
  else
    match state.bestChannel budget with
    | some ch => .poll ch
    | none => .done (state.outcome budget)

variable {state next : DiBudFusionState} {budget : FusionBudget} {ch : BudgetedChannel}
  {item : Option DocId} {er : DocId → ℚ} {result : DiBudOutcome}

theorem nextRequest_poll (asked : state.nextRequest budget = .poll ch) :
    (state.certifyPrefix budget).2 < budget.minCertifiedResults ∧
      state.accesses < budget.maxTotalAccesses ∧ state.bestChannel budget = some ch := by
  simp only [nextRequest] at asked
  split at asked
  · cases asked
  · rename_i unfinished
    simp only [not_or, not_le] at unfinished
    split at asked
    · rename_i best isBest
      cases asked
      exact ⟨unfinished.1, unfinished.2.1, isBest⟩
    · cases asked

theorem nextRequest_done (finished : state.nextRequest budget = .done result) :
    result = state.outcome budget ∧
      (budget.minCertifiedResults ≤ (state.certifyPrefix budget).2 ∨
        budget.maxTotalAccesses ≤ state.accesses ∨
        BudgetedChannel.all.all state.exhausted ∨ state.bestChannel budget = none) := by
  simp only [nextRequest] at finished
  split at finished
  · rename_i reasons
    cases finished
    refine ⟨rfl, ?_⟩
    rcases reasons with enough | spent | ended
    · exact .inl enough
    · exact .inr (.inl spent)
    · exact .inr (.inr (.inl ended))
  · split at finished
    · cases finished
    · rename_i noneLeft
      cases finished
      exact ⟨rfl, .inr (.inr (.inr noneLeft))⟩

theorem feed_accesses (fed : state.feed ch item er = .ok next) :
    next.accesses = state.accesses + 1 := by
  simp only [feed] at fed
  split at fed
  · split at fed
    · cases fed
      rfl
    · split at fed
      · cases fed
      · cases fed
        rfl
  · cases fed
    rfl

end DiBudFusionState

/-- The loop of the driver.  A channel is the list of what its iterator has still to give. -/
def fuseLoop (state : DiBudFusionState) (channels : BudgetedChannel → List DocId)
    (edgeReinforcement : DocId → ℚ) (budget : FusionBudget) : Except FusionError DiBudOutcome :=
  match _asked : state.nextRequest budget with
  | .poll ch =>
    match _fed : state.feed ch (channels ch).head? edgeReinforcement with
    | .ok next =>
      fuseLoop next (Function.update channels ch (channels ch).tail) edgeReinforcement budget
    | .error error => .error error
  | .done outcome => .ok outcome
termination_by budget.maxTotalAccesses - state.accesses
decreasing_by
  have permitted := (DiBudFusionState.nextRequest_poll _asked).2.1
  have counted := DiBudFusionState.feed_accesses _fed
  omega

def fuseExactPrefix (state : DiBudFusionState) (channels : BudgetedChannel → List DocId)
    (edgeReinforcement : DocId → ℚ) (budget : FusionBudget) : Except FusionError DiBudOutcome :=
  match budget.validate with
  | .ok () => fuseLoop state channels edgeReinforcement budget
  | .error error => .error error

/-- The rule for the driver: what every fed item keeps holds where the machine ends. -/
theorem fuseLoop_ends {state : DiBudFusionState} {channels : BudgetedChannel → List DocId}
    {er : DocId → ℚ} {budget : FusionBudget} {outcome : DiBudOutcome}
    {invariant : DiBudFusionState → (BudgetedChannel → List DocId) → Prop}
    (kept : ∀ state channels ch next, invariant state channels →
      state.nextRequest budget = .poll ch → state.feed ch (channels ch).head? er = .ok next →
      invariant next (Function.update channels ch (channels ch).tail))
    (start : invariant state channels) (fused : fuseLoop state channels er budget = .ok outcome) :
    ∃ final rest, invariant final rest ∧ final.nextRequest budget = .done outcome := by
  fun_induction fuseLoop state channels er budget with
  | case1 state channels ch asked next fed ih =>
    exact ih (kept state channels ch next start asked fed) fused
  | case2 => cases fused
  | case3 state channels result finished =>
    cases fused
    exact ⟨state, channels, start, finished⟩

theorem fuseLoop_total {er : DocId → ℚ} (nonneg : ∀ docId, 0 ≤ er docId)
    (state : DiBudFusionState) (channels : BudgetedChannel → List DocId) (budget : FusionBudget) :
    ∃ outcome, fuseLoop state channels er budget = .ok outcome := by
  fun_induction fuseLoop state channels er budget with
  | case1 state channels ch asked next fed ih => exact ih
  | case2 state channels ch asked error fed =>
    simp only [DiBudFusionState.feed] at fed
    split at fed
    · rename_i docId given
      simp only [not_lt.mpr (nonneg docId), if_false] at fed
      split at fed <;> cases fed
    · cases fed
  | case3 state channels result finished => exact ⟨result, rfl⟩

end Contextra.Rank
