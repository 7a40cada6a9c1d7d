import Contextra.Graph.Csr
import Contextra.Library.SortedMap

/-!
# Traversal

The breadth-first traversal at a snapshot.  A node is marked when it leaves the queue, and enters
the queue again for a better score.
-/

namespace Contextra.Graph

open Contextra.Library (SortedMap)

def maxTraversalHops : Nat := 3

def maxVisitedNodes : Nat := 10000

def isEdgeVisible (txValidFrom txValidTo : Option TxId) (asOf : TxId) : Bool :=
  txValidFrom.all (· ≤ asOf) && txValidTo.all (asOf < ·)

def isEdgeVisibleBusiness (businessValidFrom businessValidTo : Option Int) (businessAsOf : Int) :
    Bool :=
  businessValidFrom.all (· ≤ businessAsOf) && businessValidTo.all (businessAsOf < ·)

structure AsOf where
  tx : TxId
  business : Option Int
  deriving DecidableEq, Repr

section Program

variable {K : Type} [Field K] [LinearOrder K]

def isEdgeVisibleBitemporal (edge : EdgePayload K) (asOf : AsOf) : Bool :=
  if !isEdgeVisible edge.txValidFrom edge.txValidTo asOf.tx then false
  else
    match asOf.business with
    | some businessAsOf =>
      if edge.businessValidFrom.isSome || edge.businessValidTo.isSome then
        isEdgeVisibleBusiness edge.businessValidFrom edge.businessValidTo businessAsOf
      else true
    | none => true

def scoreDecay : K := 7 / 10

structure Queued (K : Type) where
  node : Nat
  hop : Nat
  score : K
  deriving DecidableEq, Repr

structure BfsState (K : Type) where
  visited : SortedMap Nat K
  queue : List (Queued K)

variable (inner : GraphInner K) (asOf : AsOf)

def isPassable (node : Nat) (edge : EdgePayload K) : Bool :=
  (node, edge.target) ∉ inner.tombstonedEdges && isEdgeVisibleBitemporal edge asOf

def isWanted (visited : SortedMap Nat K) (neighbor : Queued K) : Bool :=
  (visited.lookup neighbor.node).all (· < neighbor.score) && (inner.entityAt neighbor.node).isSome

def Queued.along (current : Queued K) (edge : EdgePayload K) : Queued K where
  node := edge.target
  hop := current.hop + 1
  score := current.score * scoreDecay * edge.weight

/-- One of the two loops of `process_bitemporal_node_edges`; it ends where there is no more room for
new nodes. -/
def pushNeighbors (visited : SortedMap Nat K) (current : Queued K) :
    List (EdgePayload K) → List (Queued K) → List (Queued K)
  | [], queue => queue
  | edge :: edges, queue =>
    if isPassable inner asOf current.node edge then
      let neighbor := current.along edge
      if isWanted inner visited neighbor then
        if (visited.lookup neighbor.node).isNone ∧
            maxVisitedNodes ≤ visited.entries.length + queue.length then queue
        else pushNeighbors visited current edges (queue ++ [neighbor])
      else pushNeighbors visited current edges queue
    else pushNeighbors visited current edges queue

def processBitemporalNodeEdges (visited : SortedMap Nat K) (current : Queued K)
    (queue : List (Queued K)) : List (Queued K) :=
  pushNeighbors inner asOf visited current (inner.pendingEdgesOf current.node)
    (pushNeighbors inner asOf visited current
      ((inner.compactedEdges current.node).map CsrEntry.payload) queue)

def visit (visited : SortedMap Nat K) (current : Queued K) : SortedMap Nat K :=
  let existing := (visited.lookup current.node).getD 0
  visited.insert current.node (if existing < current.score then current.score else existing)

/-- How a turn of the loop ends. -/
inductive BfsTurn (K : Type) where
  | finished (visited : SortedMap Nat K)
  | continued (state : BfsState K)

/-- A turn of the loop of `execute_bfs_bitemporal`. -/
def bfsTurn (effectiveMax : Nat) (state : BfsState K) : BfsTurn K :=
  match state.queue with
  | [] => .finished state.visited
  | current :: queue =>
    if effectiveMax < current.hop then .continued { state with queue }
    else
      let visited := visit state.visited current
      if current.hop < effectiveMax then
        if maxVisitedNodes ≤ visited.entries.length then .finished visited
        else
          .continued { visited, queue := processBitemporalNodeEdges inner asOf visited current queue }
      else .continued { visited, queue }

def bfsStart (startIdx : Nat) : BfsState K := ⟨.empty, [⟨startIdx, 0, 1⟩]⟩

/-- The loop, for as many turns as there is fuel. -/
def executeBfs (effectiveMax : Nat) : Nat → BfsState K → Option (SortedMap Nat K)
  | 0, _ => none
  | fuel + 1, state =>
    match bfsTurn inner asOf effectiveMax state with
    | .finished visited => some visited
    | .continued next => executeBfs effectiveMax fuel next

def validateTraversalParams (maxHops : Nat) : Except ContextraError Unit :=
  if 100 < maxHops then
    .error (.invalidInput ("max_hops " ++ toString maxHops ++ " exceeds upper safety limit of 100"))
  else .ok ()

/-- The visited nodes come in the order of the hash map. -/
def collectAndSortTraversalResults (startIdx : Nat) (visited : List (Nat × K)) :
    List (EntityId × K) :=
  ((visited.filter (·.1 ≠ startIdx)).filterMap fun entry =>
    inner.reverseMap[entry.1]?.map (·, entry.2)).insertionSort fun left right => right.2 ≤ left.2

def effectiveMax (maxHops : Nat) : Nat := min (min maxHops 255) maxTraversalHops

/-- `traverse_at_bitemporal`, with the order in which a hash map is iterated. -/
def traverseAtBitemporal (iterated : SortedMap Nat K → List (Nat × K)) (start : EntityId)
    (maxHops fuel : Nat) : Option (Except ContextraError (List (EntityId × K))) :=
  match validateTraversalParams maxHops with
  | .error error => some (.error error)
  | .ok () =>
    match inner.idMap[start]? with
    | none => some (.ok [])
    | some startIdx =>
      if (inner.entityAt startIdx).isNone then some (.ok [])
      else
        (executeBfs inner asOf (effectiveMax maxHops) fuel (bfsStart startIdx)).map fun visited =>
          .ok (collectAndSortTraversalResults inner startIdx (iterated visited))

end Program

end Contextra.Graph
