import Contextra.Graph.Hyperedge

/-!
# Cascades over hyperedges

What the indexes of the hyperedge tables answer, the search for the ancestors of the hyperedges of
a document, the order in which they are tombstoned, and the callers that tombstone them: the
cascade, its queue and the sweep over orphans.
-/

namespace Contextra.Graph

open Std (TreeMap TreeSet)

namespace HyperedgeTables

def listed (tables : HyperedgeTables) (index : HyperedgeIndex) (key : Nat) : List HyperEdgeId :=
  (index[key]?.map fun set =>
    set.toList.filter fun id => (tables.getHyperedge id).isSome).getD []

def parentHyperedgesOf (tables : HyperedgeTables) (child : HyperEdgeId) : List HyperEdgeId :=
  tables.listed tables.childToParents child

def hyperedgesForDoc (tables : HyperedgeTables) (docId : DocId) : List HyperEdgeId :=
  tables.listed tables.docToHyperedges docId

def hyperedgesForEntity (tables : HyperedgeTables) (entityId : EntityId) : List HyperEdgeId :=
  tables.listed tables.hyperedgeIndex entityId

/-- `dfs_upward` and `dfs_upward_cascade`: the closure in the order of first visits, which are the
visited set too.  A parent on the stack is visited, so skipping it changes nothing. -/
def dfsUpward (tables : HyperedgeTables) :
    Nat → List HyperEdgeId → HyperEdgeId → List HyperEdgeId
  | 0, closure, _ => closure
  | depth + 1, closure, node =>
    if node ∈ closure then closure
    else (tables.parentHyperedgesOf node).foldl (tables.dfsUpward depth) (closure ++ [node])

/-- No path of first visits is longer than the stored hyperedges and the node it starts from. -/
def searchDepth (tables : HyperedgeTables) : Nat := tables.hyperedges.size + 2

def upwardClosure (tables : HyperedgeTables) (nodes : List HyperEdgeId) : List HyperEdgeId :=
  nodes.foldl (tables.dfsUpward tables.searchDepth) []

structure KahnState where
  inDegree : HyperEdgeId → Nat
  -- the heap, the smallest id first
  ready : List HyperEdgeId
  topoOrder : List HyperEdgeId

section TopologicalOrder

variable (tables : HyperedgeTables) (nodeSet : List HyperEdgeId)

def parentsIn (node : HyperEdgeId) : List HyperEdgeId :=
  (tables.parentHyperedgesOf node).filter fun parent => decide (parent ∈ nodeSet)

/-- The entry of `children_map`. -/
def childrenIn (parent : HyperEdgeId) : List HyperEdgeId :=
  nodeSet.filter fun child => decide (parent ∈ tables.parentsIn nodeSet child)

def releaseChild (state : KahnState) (child : HyperEdgeId) : KahnState :=
  if 0 < state.inDegree child then
    { state with
      inDegree := Function.update state.inDegree child (state.inDegree child - 1)
      ready :=
        if state.inDegree child - 1 = 0 then state.ready.orderedInsert (· ≤ ·) child
        else state.ready }
  else state

/-- The main loop; every node is taken from the heap at most once. -/
def kahnLoop : Nat → KahnState → KahnState
  | 0, state => state
  | turns + 1, state =>
    match state.ready with
    | [] => state
    | node :: ready =>
      kahnLoop turns ((tables.childrenIn nodeSet node).foldl releaseChild
        { state with ready, topoOrder := state.topoOrder ++ [node] })

def kahnStart : KahnState where
  inDegree node := (tables.parentsIn nodeSet node).length
  ready := (nodeSet.filter fun node => decide ((tables.parentsIn nodeSet node).length = 0)).insertionSort
    (· ≤ ·)
  topoOrder := []

def topologicalSortHyperedgeClosure (closureNodes : List HyperEdgeId) : List HyperEdgeId :=
  let nodeSet := closureNodes.dedup
  let topoOrder := (tables.kahnLoop nodeSet nodeSet.length (tables.kahnStart nodeSet)).topoOrder
  if topoOrder.length < nodeSet.length then
    topoOrder ++ (nodeSet.filter fun node => decide (node ∉ topoOrder)).insertionSort (· ≤ ·)
  else topoOrder

end TopologicalOrder

/-- The active hyperedges with fewer than two participants that are entities of the graph. -/
def orphans (tables : HyperedgeTables) (isEntity : EntityId → Bool) : List HyperEdgeId :=
  tables.hyperedges.keys.filter fun id =>
    match tables.getHyperedge id with
    | some hedge => decide ((hedge.participants.filter fun p => isEntity p.entity).length < 2)
    | none => false

/-- The loops over `tombstone_hyperedge` are that of a batch. -/
def sweepOrphans (tables : HyperedgeTables) (isEntity : EntityId → Bool) (walTx : TxId) :
    HyperedgeTables :=
  tables.applyBatchTombstones (tables.orphans isEntity) walTx

end HyperedgeTables

def maxHyperedgeCascadeFanout : Nat := 1000

/-- The hyperedge tables and the queue of what a cascade has left over. -/
structure HyperedgeGraph where
  tables : HyperedgeTables
  cascadeQueue : List (DocId × HyperEdgeId)

namespace HyperedgeGraph

/-- The order in which a cascade tombstones the closure of a document's hyperedges. -/
def cascadeOrder (tables : HyperedgeTables) (supersededDocId : DocId) : List HyperEdgeId :=
  tables.topologicalSortHyperedgeClosure
    (tables.upwardClosure
      ((tables.hyperedgesForDoc supersededDocId).dedup.insertionSort (· ≤ ·)))

/-- `persisted` says whether the storage has taken the entries of the queue; if not, the call fails
after its tombstones and queues nothing.  The check at the end changes nothing. -/
def cascadeInvalidateHyperedges (graph : HyperedgeGraph) (supersededDocId : DocId) (walTx : TxId)
    (persisted : Bool) : HyperedgeGraph :=
  let topoOrder := cascadeOrder graph.tables supersededDocId
  let deferred := topoOrder.drop maxHyperedgeCascadeFanout
  { tables := graph.tables.applyBatchTombstones (topoOrder.take maxHyperedgeCascadeFanout) walTx
    cascadeQueue :=
      if persisted then graph.cascadeQueue ++ deferred.map fun hid => (supersededDocId, hid)
      else graph.cascadeQueue }

def processEntry (walTx : TxId) (tables : HyperedgeTables) (entry : DocId × HyperEdgeId) :
    HyperedgeTables :=
  tables.applyBatchTombstones
    (tables.topologicalSortHyperedgeClosure (tables.upwardClosure [entry.2])) walTx

def processCascadeQueue (graph : HyperedgeGraph) (batchSize : Nat) (walTx : TxId) :
    HyperedgeGraph where
  tables := (graph.cascadeQueue.take batchSize).foldl (processEntry walTx) graph.tables
  cascadeQueue := graph.cascadeQueue.drop batchSize

end HyperedgeGraph

end Contextra.Graph
