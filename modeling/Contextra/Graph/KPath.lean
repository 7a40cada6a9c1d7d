import Contextra.Graph.Hyperedge
import Contextra.Library.Heap

/-!
# The search for k paths

Partial paths grow from the source along the edges and from the target against them, every node
keeps a few of each kind, and two that meet are joined.  Which arithmetic the distances have is left
open; they only say which partial path is extended first.
-/

namespace Contextra.Graph

open Library List

structure PathGraph (K : Type) where
  neighborsWithWeights : EntityId → List (EntityId × K)
  predecessorsWithWeights : EntityId → List (EntityId × K)
  hyperedgesForEntity : EntityId → List HyperEdgeId
  getHyperedge : HyperEdgeId → Option HyperEdge

structure PathRAGConfig (K : Type) where
  maxHops : Nat
  hyperedgeExpansionEnabled : Bool
  hyperedgeWeightDiscount : K

structure PathRAGEngine (K : Type) where
  graph : PathGraph K
  config : PathRAGConfig K

def Follows {K : Type} (neighbors : EntityId → List (EntityId × K)) (u v : EntityId) : Prop :=
  ∃ weight, (v, weight) ∈ neighbors u

namespace PathRAGEngine

variable {K : Type} [Mul K] (weightOf : F32 → K) (engine : PathRAGEngine K)

def expandWithHyperedges (node : EntityId) (candidates : List (EntityId × K)) :
    List (EntityId × K) :=
  candidates ++ ((engine.graph.hyperedgesForEntity node).filterMap engine.graph.getHyperedge).flatMap
    fun hyperedge => (hyperedge.participants.filter fun participant => participant.entity ≠ node).map
      fun participant =>
        (participant.entity, weightOf hyperedge.weight * engine.config.hyperedgeWeightDiscount)

def getExpandedNeighbors (node : EntityId) : List (EntityId × K) :=
  if engine.config.hyperedgeExpansionEnabled then
    engine.expandWithHyperedges weightOf node (engine.graph.neighborsWithWeights node)
  else engine.graph.neighborsWithWeights node

def getExpandedPredecessors (node : EntityId) : List (EntityId × K) :=
  if engine.config.hyperedgeExpansionEnabled then
    engine.expandWithHyperedges weightOf node (engine.graph.predecessorsWithWeights node)
  else engine.graph.predecessorsWithWeights node

theorem follows_expandWithHyperedges {candidates : EntityId → List (EntityId × K)}
    {u v : EntityId} :
    Follows (fun node => engine.expandWithHyperedges weightOf node (candidates node)) u v ↔
      Follows candidates u v ∨ ∃ id ∈ engine.graph.hyperedgesForEntity u, ∃ hyperedge,
        engine.graph.getHyperedge id = some hyperedge ∧ v ≠ u ∧
          ∃ participant ∈ hyperedge.participants, participant.entity = v := by
  simp only [Follows, expandWithHyperedges, mem_append, mem_flatMap, mem_filterMap,
    mem_map, mem_filter, decide_eq_true_eq, Prod.mk.injEq, exists_or]
  refine or_congr_right ⟨?_, ?_⟩
  · rintro ⟨weight, hyperedge, ⟨id, listed, isHyperedge⟩, participant, ⟨isParticipant, other⟩, rfl, -⟩
    exact ⟨id, listed, hyperedge, isHyperedge, other, participant, isParticipant, rfl⟩
  · rintro ⟨id, listed, hyperedge, isHyperedge, other, participant, isParticipant, rfl⟩
    exact ⟨_, hyperedge, ⟨id, listed, isHyperedge⟩, participant, ⟨isParticipant, other⟩, rfl, rfl⟩

def Mirrored : Prop :=
  ∀ u v, Follows (engine.getExpandedNeighbors weightOf) u v ↔
    Follows (engine.getExpandedPredecessors weightOf) v u

variable {weightOf engine}

/-- The predecessors of an engine mirror its neighbours when those of the graph do and, where they
matter, the hyperedges of an entity are those in which it takes part. -/
theorem mirrored_of_graph
    (mirror : ∀ u v, Follows engine.graph.neighborsWithWeights u v ↔
      Follows engine.graph.predecessorsWithWeights v u)
    (listed : engine.config.hyperedgeExpansionEnabled = true → ∀ node id hyperedge,
      engine.graph.getHyperedge id = some hyperedge →
        (id ∈ engine.graph.hyperedgesForEntity node ↔
          ∃ participant ∈ hyperedge.participants, participant.entity = node)) :
    engine.Mirrored weightOf := by
  intro u v
  by_cases expands : engine.config.hyperedgeExpansionEnabled = true
  · have neighbors : engine.getExpandedNeighbors weightOf = fun node =>
        engine.expandWithHyperedges weightOf node (engine.graph.neighborsWithWeights node) :=
      funext fun node => if_pos expands
    have predecessors : engine.getExpandedPredecessors weightOf = fun node =>
        engine.expandWithHyperedges weightOf node (engine.graph.predecessorsWithWeights node) :=
      funext fun node => if_pos expands
    rw [neighbors, predecessors, follows_expandWithHyperedges, follows_expandWithHyperedges, mirror]
    refine or_congr_right ⟨?_, ?_⟩
    · rintro ⟨id, isListed, hyperedge, isHyperedge, other, takesPart⟩
      exact ⟨id, (listed expands v id hyperedge isHyperedge).mpr takesPart, hyperedge, isHyperedge,
        other.symm, (listed expands u id hyperedge isHyperedge).mp isListed⟩
    · rintro ⟨id, isListed, hyperedge, isHyperedge, other, takesPart⟩
      exact ⟨id, (listed expands u id hyperedge isHyperedge).mpr takesPart, hyperedge, isHyperedge,
        other.symm, (listed expands v id hyperedge isHyperedge).mp isListed⟩
  · have neighbors : engine.getExpandedNeighbors weightOf = engine.graph.neighborsWithWeights :=
      funext fun node => if_neg expands
    have predecessors :
        engine.getExpandedPredecessors weightOf = engine.graph.predecessorsWithWeights :=
      funext fun node => if_neg expands
    rw [neighbors, predecessors]
    exact mirror u v

end PathRAGEngine

def PathGraph.ofEdges {K : Type} (edges : List (EntityId × EntityId × K)) : PathGraph K where
  neighborsWithWeights u := edges.filterMap fun edge => if edge.1 = u then some edge.2 else none
  predecessorsWithWeights v :=
    edges.filterMap fun edge => if edge.2.1 = v then some (edge.1, edge.2.2) else none
  hyperedgesForEntity _ := []
  getHyperedge _ := none

theorem PathGraph.mirrored_ofEdges {K : Type} (edges : List (EntityId × EntityId × K))
    (u v : EntityId) : Follows (PathGraph.ofEdges edges).neighborsWithWeights u v ↔
      Follows (PathGraph.ofEdges edges).predecessorsWithWeights v u := by
  refine exists_congr fun weight => ?_
  simp only [PathGraph.ofEdges, mem_filterMap, Option.ite_none_right_eq_some, Option.some.injEq]
  refine ⟨?_, ?_⟩
  · rintro ⟨⟨_, _, _⟩, isEdge, rfl, same⟩
    cases same
    exact ⟨_, isEdge, rfl, rfl⟩
  · rintro ⟨⟨_, _, _⟩, isEdge, rfl, same⟩
    cases same
    exact ⟨_, isEdge, rfl, rfl⟩

structure KPathConfig where
  k : Nat
  maxVisitedNodes : Nat
  maxHops : Nat
  deriving DecidableEq, Repr

structure HeapItem (K : Type) where
  dist : K
  path : List EntityId
  deriving DecidableEq, Repr

/-- The order of `HeapItem`: the smallest distance is the greatest, then the longest path. -/
def HeapItem.le {K : Type} [LinearOrder K] (first second : HeapItem K) : Bool :=
  second.dist < first.dist || (second.dist = first.dist && first.path.length ≤ second.path.length)

theorem HeapItem.le_total {K : Type} [LinearOrder K] (first second : HeapItem K) :
    first.le second = true ∨ second.le first = true := by
  simp only [HeapItem.le, Bool.or_eq_true, decide_eq_true_eq, Bool.and_eq_true]
  rcases lt_trichotomy first.dist second.dist with less | same | more
  · exact .inr (.inl less)
  · exact (Nat.le_total first.path.length second.path.length).imp (fun short => .inr ⟨same.symm, short⟩)
      fun long => .inr ⟨same, long⟩
  · exact .inl (.inl more)

theorem HeapItem.le_trans {K : Type} [LinearOrder K] (first second third : HeapItem K)
    (below : first.le second = true) (above : second.le third = true) : first.le third = true := by
  simp only [HeapItem.le, Bool.or_eq_true, decide_eq_true_eq, Bool.and_eq_true] at *
  rcases below with less | ⟨same, short⟩
  · rcases above with less' | ⟨same', -⟩
    · exact .inl (less'.trans less)
    · exact .inl (same'.trans_lt less)
  · rcases above with less' | ⟨same', short'⟩
    · exact .inl (less'.trans_eq same)
    · exact .inr ⟨same'.trans same, short.trans short'⟩

/-- One direction of the search: the partial paths that the nodes keep, and those to be extended. -/
structure Side (K : Type) where
  paths : EntityId → List (List EntityId)
  heap : List (HeapItem K)

/-- What both directions share.  `seen_paths` has the found paths and no others. -/
structure Shared where
  visited : List EntityId
  budgetExhausted : Bool
  found : List (List EntityId)
  deriving DecidableEq, Repr

structure KPathRun where
  paths : List (List EntityId)
  budgetExhausted : Bool
  visited : List EntityId
  fwdPaths : EntityId → List (List EntityId)
  bwdPaths : EntityId → List (List EntityId)
  limitReached : Bool

section Search

variable {K : Type} [Zero K] [LinearOrder K] (queue : Heap (HeapItem K) HeapItem.le)
  (farther : K → K → K) (config : KPathConfig)

def addVisited (visited : List EntityId) (node : EntityId) : List EntityId :=
  if node ∈ visited then visited else visited ++ [node]

/-- The partial paths that the other direction keeps at a node are joined with a new one. -/
def combine : List (List EntityId) → List (List EntityId) → List (List EntityId)
  | [], found => found
  | fullPath :: rest, found =>
    if fullPath.length - 1 ≤ config.maxHops ∧ fullPath.Nodup ∧ fullPath ∉ found then
      if config.k ≤ (found ++ [fullPath]).length then found ++ [fullPath]
      else combine rest (found ++ [fullPath])
    else combine rest found

/-- A path to a node, and a path to it from the other end. -/
def joinForward (own other : List EntityId) : List EntityId := own ++ other.reverse.drop 1

def joinBackward (own other : List EntityId) : List EntityId := other ++ own.reverse.drop 1

section Expansion

variable (join : List EntityId → List EntityId → List EntityId)
  (otherPaths : EntityId → List (List EntityId)) (current : HeapItem K)

/-- The loop over the neighbours of the last node of a partial path. -/
def extend : List (EntityId × K) → Shared × Side K → Shared × Side K
  | [], state => state
  | (neighbor, weight) :: rest, (shared, side) =>
    if neighbor ∈ current.path then extend rest (shared, side)
    else
      let nextPath := current.path ++ [neighbor]
      if neighbor ∉ shared.visited ∧ config.maxVisitedNodes ≤ shared.visited.length then
        ({ shared with budgetExhausted := true }, side)
      else
        let visited := addVisited shared.visited neighbor
        let kept := side.paths neighbor
        if kept.length < config.k ∧ nextPath ∉ kept then
          let found := combine config ((otherPaths neighbor).map (join nextPath)) shared.found
          let paths := Function.update side.paths neighbor (kept ++ [nextPath])
          if config.k ≤ found.length then
            ({ shared with visited, found }, { side with paths })
          else
            extend rest ({ shared with visited, found },
              { paths
                heap := queue.push ⟨farther current.dist weight, nextPath⟩ side.heap })
        else extend rest ({ shared with visited }, side)

end Expansion

/-- One direction of a turn.  A partial path without nodes would end the turn; there is none. -/
def turn (join : List EntityId → List EntityId → List EntityId)
    (neighbors : EntityId → List (EntityId × K)) (otherPaths : EntityId → List (List EntityId))
    (shared : Shared) (side : Side K) : Shared × Side K :=
  match queue.pop side.heap with
  | none => (shared, side)
  | some (current, heap) =>
    match current.path.getLast? with
    | none => (shared, { side with heap })
    | some node =>
      if current.path.length - 1 < config.maxHops then
        extend queue farther config join otherPaths current (neighbors node) (shared, { side with heap })
      else (shared, { side with heap })

structure KPathState (K : Type) where
  shared : Shared
  fwd : Side K
  bwd : Side K

variable (neighbors predecessors : EntityId → List (EntityId × K))

def kPathTurn (state : KPathState K) : KPathState K × Bool :=
  let (shared, fwd) := turn queue farther config joinForward neighbors state.bwd.paths state.shared state.fwd
  if config.k ≤ shared.found.length ∨ shared.budgetExhausted = true then
    (⟨shared, fwd, state.bwd⟩, false)
  else
    let (shared, bwd) := turn queue farther config joinBackward predecessors fwd.paths shared state.bwd
    (⟨shared, fwd, bwd⟩, true)

/-- The main loop with the steps that are left, and whether the limit of steps ended it. -/
def kPathLoop : Nat → KPathState K → KPathState K × Bool
  | 0, state => (state, !(state.fwd.heap.isEmpty && state.bwd.heap.isEmpty))
  | steps + 1, state =>
    if state.fwd.heap.isEmpty && state.bwd.heap.isEmpty then (state, false)
    else if config.k ≤ state.shared.found.length then (state, false)
    else
      let (state, goesOn) := kPathTurn queue farther config neighbors predecessors state
      if goesOn then kPathLoop steps state else (state, false)

def kPathStart (source target : EntityId) : KPathState K where
  shared := ⟨[source, target], false, []⟩
  fwd :=
    { paths := Function.update (fun _ => []) source [[source]]
      heap := queue.push ⟨0, [source]⟩ [] }
  bwd :=
    { paths := Function.update (fun _ => []) target [[target]]
      heap := queue.push ⟨0, [target]⟩ [] }

def endedEarly (paths : List (List EntityId)) (budgetExhausted : Bool) (visited : List EntityId) :
    KPathRun :=
  ⟨paths, budgetExhausted, visited, fun _ => [], fun _ => [], false⟩

def kPathRun (source target : EntityId) : KPathRun :=
  if config.k = 0 then endedEarly [] false []
  else if source = target then endedEarly [[source]] false []
  else if config.maxVisitedNodes = 0 then endedEarly [] true []
  else if config.maxVisitedNodes ≤ 1 then endedEarly [] true [source]
  else
    let (state, limitReached) := kPathLoop queue farther config neighbors predecessors
      (config.maxHops * 1000 + 100) (kPathStart queue source target)
    { paths := state.shared.found
      budgetExhausted := state.shared.budgetExhausted
      visited := state.shared.visited
      fwdPaths := state.fwd.paths
      bwdPaths := state.bwd.paths
      limitReached }

end Search

/-- The search of an engine.  `farther` adds a hop to a distance: `dist + 1.0 / weight.max(1e-8)`. -/
def PathRAGEngine.kPaths {K : Type} [Zero K] [Mul K] [LinearOrder K]
    (queue : Heap (HeapItem K) HeapItem.le) (farther : K → K → K) (weightOf : F32 → K)
    (engine : PathRAGEngine K) (source target : EntityId) (config : KPathConfig) : KPathRun :=
  kPathRun queue farther config (engine.getExpandedNeighbors weightOf)
    (engine.getExpandedPredecessors weightOf) source target

def exactHop {K : Type} [Field K] [LinearOrder K] (dist weight : K) : K :=
  dist + 1 / max weight (1 / ((10 : Nat) : K) ^ 8)

end Contextra.Graph
