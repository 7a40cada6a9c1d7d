import Contextra.Graph.Csr
import Contextra.Library.Masses

/-!
# Forward push

Personalized PageRank by local pushes.  A push takes the residual of a node, keeps a share of it
as rank and hands the rest to the neighbours, along the edges and the star expansion of the
hyperedges.
-/

namespace Contextra.Graph

open Contextra.Library (SortedMap)

def starWeight {K : Type} [Field K] (weight : K) (cardinality : Nat) : K :=
  if cardinality < 2 then weight else ((2 : Nat) * weight) / ((cardinality - 1 : Nat) : K)

section Program

variable {K : Type} [Field K] [LinearOrder K]

-- the number that a float stands for
variable (exact : F32 → K) (inner : GraphInner K)

abbrev DeletedView := Finset Nat

variable (deletedNodes : DeletedView)

def isLive (index : Nat) : Bool := index ∉ deletedNodes && (inner.entityAt index).isSome

def edgeNeighbors (edges : List (EdgePayload K)) : List (Nat × K) :=
  (edges.filter fun edge => isLive inner deletedNodes edge.target && 0 < edge.weight).map
    fun edge => (edge.target, edge.weight)

/-- The star expansion of a hyperedge around one of its participants. -/
def starNeighbors (source : EntityId) (hedge : HyperEdge) : List (Nat × K) :=
  if hedge.txValidTo.isNone ∧ 2 ≤ hedge.participants.length then
    let wStar := starWeight (exact hedge.weight) hedge.participants.length
    if 0 < wStar then
      hedge.participants.filterMap fun participant =>
        if participant.entity ≠ source then
          (inner.idMap[participant.entity]?.filter fun target =>
            target < inner.reverseMap.length && isLive inner deletedNodes target).map (·, wStar)
        else none
    else []
  else []

def hyperedgeNeighbors (source : EntityId) : List (Nat × K) :=
  ((inner.tables.hyperedgeIndex[source]?.map Std.TreeSet.toList).getD []).flatMap fun id =>
    match inner.tables.hyperedges[id]? with
    | some hedge => starNeighbors exact inner deletedNodes source hedge
    | none => []

/-- The targets of a node and their weights, in the order of the three loops over them. -/
def neighbors (node : Nat) : List (Nat × K) :=
  edgeNeighbors inner deletedNodes (inner.edgesOf node) ++
    match inner.reverseMap[node]? with
    | some source => hyperedgeNeighbors exact inner deletedNodes source
    | none => []

def computeNodeOutWeightSum (node : Nat) : K :=
  ((neighbors exact inner deletedNodes node).map Prod.snd).sum

/-- The slow path of `compute_out_weight_sums`. -/
def computeOutWeightSums : List K :=
  (List.range inner.reverseMap.length).map fun node =>
    if isLive inner deletedNodes node then computeNodeOutWeightSum exact inner deletedNodes node
    else 0

def collectValidSeeds (seedNodes : List EntityId) : List Nat :=
  (seedNodes.filterMap fun seed => inner.idMap[seed]?.filter fun index =>
    index < inner.reverseMap.length && isLive inner deletedNodes index).reverse.dedup.reverse

def pushMassToNeighbors (node : Nat) (pushMass nodeWeight : K) (residual : SortedMap Nat K) :
    SortedMap Nat K :=
  (neighbors exact inner deletedNodes node).foldl
    (fun residual neighbor => residual.add neighbor.1 (pushMass * (neighbor.2 / nodeWeight)))
    residual

structure Candidate (K : Type) where
  node : Nat
  residual : K
  weight : K
  ratio : K

def outWeight (outWeightSums : List K) (node : Nat) : K := outWeightSums[node]?.getD 0

def candidateOf (outWeightSums : List K) (entry : Nat × K) : Candidate K where
  node := entry.1
  residual := entry.2
  weight := outWeight outWeightSums entry.1
  ratio :=
    if 0 < outWeight outWeightSums entry.1 then entry.2 / outWeight outWeightSums entry.1
    else entry.2

/-- The body of the loop of `select_best_push_candidate`. -/
def considerCandidate (outWeightSums : List K) (epsilon : K) (best : Option (Candidate K))
    (entry : Nat × K) : Option (Candidate K) :=
  let candidate := candidateOf outWeightSums entry
  if entry.2 ≤ 0 then best
  else if epsilon < candidate.ratio then
    match best with
    | some before =>
      if before.ratio + 1 / 10000000 < candidate.ratio then some candidate else some before
    | none => some candidate
  else best

def selectBestPushCandidate (residual : SortedMap Nat K) (outWeightSums : List K) (epsilon : K) :
    Option (Candidate K) :=
  residual.entries.foldl (considerCandidate outWeightSums epsilon) none

structure PushArgs (K : Type) where
  alpha : K
  epsilon : K
  validSeeds : List Nat
  outWeightSums : List K

structure PushState (K : Type) where
  rank : SortedMap Nat K
  residual : SortedMap Nat K

variable (args : PushArgs K)

def shareAmongSeeds (share : K) (residual : SortedMap Nat K) : SortedMap Nat K :=
  args.validSeeds.foldl (fun residual seed => residual.add seed share) residual

def pushCandidate (state : PushState K) (candidate : Candidate K) : PushState K :=
  let residual := state.residual.erase candidate.node
  let rank := state.rank.add candidate.node (args.alpha * candidate.residual)
  let pushMass := (1 - args.alpha) * candidate.residual
  if pushMass ≤ 0 then { rank, residual }
  else if 0 < candidate.weight then
    { rank
      residual := pushMassToNeighbors exact inner deletedNodes candidate.node pushMass
        candidate.weight residual }
  else { rank, residual := shareAmongSeeds args (pushMass / args.validSeeds.length) residual }

/-- `run_forward_push_loop`, for as many steps as are left.  Whether they were all used is returned
with the state. -/
def runForwardPushLoop : Nat → PushState K → Bool × PushState K
  | 0, state => (true, state)
  | left + 1, state =>
    match selectBestPushCandidate state.residual args.outWeightSums args.epsilon with
    | some candidate =>
      runForwardPushLoop left (pushCandidate exact inner deletedNodes args state candidate)
    | none => (false, state)

def startState : PushState K where
  rank := .empty
  residual := args.validSeeds.foldl
    (fun residual seed => residual.insert seed (1 / args.validSeeds.length)) .empty

/-- `1 - damping_factor`, with a default where the factor makes no sense. -/
def restartProbability (dampingFactor : K) : K :=
  if dampingFactor ≤ 0 ∨ 1 ≤ dampingFactor then 15 / 100 else 1 - dampingFactor

def pushEpsilon (convergenceEpsilon : K) : K :=
  if convergenceEpsilon ≤ 0 then 1 / 1000000 else convergenceEpsilon

/-- Higher ranks first, and of one rank the smaller id. -/
def resultBefore (a b : EntityId × K) : Prop := b.2 < a.2 ∨ a.2 = b.2 ∧ a.1 ≤ b.1

instance : DecidableRel (resultBefore (K := K)) := fun a b =>
  inferInstanceAs (Decidable (b.2 < a.2 ∨ a.2 = b.2 ∧ a.1 ≤ b.1))

def resultOf (totalSum : K) (entry : Nat × K) : Option (EntityId × K) :=
  let rank := if 0 < totalSum then entry.2 / totalSum else entry.2
  if isLive inner deletedNodes entry.1 ∧ 0 < rank then inner.reverseMap[entry.1]?.map (·, rank)
  else none

def extractPushResults (rank : SortedMap Nat K) : List (EntityId × K) :=
  let totalSum := (rank.entries.map Prod.snd).sum
  (rank.entries.filterMap (resultOf inner deletedNodes totalSum)).insertionSort resultBefore

structure PprConfig (K : Type) where
  dampingFactor : K
  convergenceEpsilon : K
  maxIterations : Nat

end Program

end Contextra.Graph
