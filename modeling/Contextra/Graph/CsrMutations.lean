import Contextra.Graph.ForwardPush

/-!
# Mutations of the graph

Entities, edges and removals are staged by transaction and reach the tables when it commits.  Every
mutation of the edges of a node adjusts the cached sum of its outgoing weights, and a compaction
sets all sums anew, unless nothing is pending.
-/

namespace Contextra.Graph

/-- What the arrays keep of an edge, with sentinels for what is absent. -/
def EdgePayload.entry {K : Type} (edge : EdgePayload K) : CsrEntry K where
  target := edge.target
  weight := edge.weight
  txValidFrom := edge.txValidFrom.getD txIdInvalid
  txValidTo := edge.txValidTo.getD txIdInvalid
  businessValidFrom := edge.businessValidFrom.getD i64Min
  businessValidTo := edge.businessValidTo.getD i64Min
  sourceDocId := edge.sourceDocId.getD 0

inductive EdgeError (K : Type) where
  | invalidWeight (weight : K)
  deriving DecidableEq, Repr

namespace GraphInner

variable {K : Type} [Field K] [LinearOrder K] (inner : GraphInner K)

def getOrCreateIndex (id : EntityId) : Nat × GraphInner K :=
  match inner.idMap[id]? with
  | some index => (index, inner)
  | none =>
    let index := inner.reverseMap.length
    (index, { inner with
      idMap := inner.idMap.insert id index
      reverseMap := inner.reverseMap ++ [id]
      outWeightSums := inner.outWeightSums ++ [0] })

def paddedSums : List K :=
  inner.outWeightSums ++ List.replicate (inner.reverseMap.length - inner.outWeightSums.length) 0

def addToOutWeightSum (node : Nat) (weight : K) : GraphInner K :=
  if 0 < weight then { inner with outWeightSums := inner.paddedSums.modify node (· + weight) }
  else inner

def sumToEntities (edges : List (EdgePayload K)) : K :=
  ((edges.filter fun edge => (inner.entityAt edge.target).isSome && 0 < edge.weight).map
    EdgePayload.weight).sum

def keptEdges (node : Nat) : List (EdgePayload K) :=
  (inner.edgesOf node).filter fun edge => (node, edge.target) ∉ inner.tombstonedEdges

def recomputeNodeOutWeightSum (node : Nat) : GraphInner K :=
  if inner.reverseMap.length ≤ node then inner
  else if (inner.entityAt node).isNone then
    { inner with outWeightSums := inner.paddedSums.set node 0 }
  else
    { inner with
      outWeightSums := inner.paddedSums.set node (inner.sumToEntities (inner.keptEdges node)) }

def collectNodeEdgesForCompaction (node : Nat) : List (EdgePayload K) :=
  (inner.keptEdges node).insertionSort fun first second => first.target ≤ second.target

def compactedSum (node : Nat) : K :=
  if (inner.entityAt node).isNone then 0
  else inner.sumToEntities ((inner.compactedEdges node).map CsrEntry.payload)

def applyCompactedArrays (offsets : List Nat) (edges : List (CsrEntry K)) : GraphInner K :=
  let inner := { inner with
    offsets
    edges
    pendingEdges := ∅
    tombstonedEdges := ∅
    pendingEdgeCount := 0
    isDirty := false }
  { inner with outWeightSums := (List.range inner.reverseMap.length).map inner.compactedSum }

def compactedRows : List (List (CsrEntry K)) :=
  (List.range inner.reverseMap.length).map fun node =>
    (inner.collectNodeEdgesForCompaction node).map EdgePayload.entry

def compact : GraphInner K :=
  if inner.pendingEdges.isEmpty = true ∧ inner.tombstonedEdges = ∅ then
    { inner with
      offsets := inner.offsets ++ List.replicate (inner.reverseMap.length + 1 - inner.offsets.length)
        (inner.offsets.getLast?.getD 0)
      pendingEdgeCount := 0
      isDirty := false }
  else
    inner.applyCompactedArrays (inner.compactedRows.scanl (fun offset row => offset + row.length) 0)
      inner.compactedRows.flatten

def addEntity (tx : TxId) (id : EntityId) : GraphInner K :=
  { inner with stagedEntities := inner.stagedEntities.insert (tx, id) }

/-- An edge to an entity, where no consistency enforcer is set. -/
def addEdge (tx : TxId) (source : EntityId) (edge : EdgePayload K) :
    GraphInner K × Except (EdgeError K) Unit :=
  if edge.weight < 0 then (inner, .error (.invalidWeight edge.weight))
  else
    ({ inner with
      stagedEdges := inner.stagedEdges ++
        [⟨tx, source, { edge with txValidFrom := edge.txValidFrom.or (some tx) }⟩] }, .ok ())

def removeEdge (tx : TxId) (source target : EntityId) : GraphInner K :=
  { inner with stagedRemovals := inner.stagedRemovals ++ [(tx, source, target)] }

def rollback (tx : TxId) : GraphInner K :=
  { inner with
    stagedEntities := inner.stagedEntities.filter fun staged => staged.1 ≠ tx
    stagedEdges := inner.stagedEdges.filter fun staged => staged.tx ≠ tx
    stagedRemovals := inner.stagedRemovals.filter fun staged => staged.1 ≠ tx }

def setEntity (index : Nat) (id : EntityId) : GraphInner K :=
  { inner with
    entities := (inner.entities ++
      List.replicate (index + 1 - inner.entities.length) sentinelEntity).set index id }

def commitEntity (id : EntityId) : GraphInner K :=
  let (index, inner) := inner.getOrCreateIndex id
  inner.setEntity index id

def commitStagedEntities (tx : TxId) : GraphInner K :=
  let txEntities := (inner.stagedEntities.filter fun staged => staged.1 = tx).map Prod.snd
  let inner :=
    { inner with stagedEntities := inner.stagedEntities.filter fun staged => staged.1 ≠ tx }
  if txEntities = [] then inner
  else
    { (txEntities.insertionSort (· ≤ ·)).foldl commitEntity inner with isDirty := true }

def convertEdges (inner : GraphInner K) :
    List (StagedEdge K) → List (EdgePayload K) × GraphInner K
  | [] => ([], inner)
  | staged :: edges =>
    let (index, inner) := inner.getOrCreateIndex staged.edge.target
    let (converted, inner) := convertEdges inner edges
    ({ staged.edge with target := index } :: converted, inner)

def commitEdgesOf (source : EntityId) (edges : List (StagedEdge K)) : GraphInner K :=
  let (index, inner) := inner.getOrCreateIndex source
  let (converted, inner) := inner.convertEdges edges
  let inner := converted.foldl (fun inner edge => inner.addToOutWeightSum index edge.weight) inner
  { inner with
    pendingEdges := inner.pendingEdges.insert index (inner.pendingEdgesOf index ++ converted)
    pendingEdgeCount := inner.pendingEdgeCount + converted.length }

def commitStagedEdges (tx : TxId) : GraphInner K :=
  let txEdges := inner.stagedEdges.filter fun staged => staged.tx = tx
  let inner := { inner with stagedEdges := inner.stagedEdges.filter fun staged => staged.tx ≠ tx }
  if txEdges = [] then inner
  else
    { ((txEdges.map StagedEdge.source).dedup.insertionSort (· ≤ ·)).foldl
        (fun inner source => inner.commitEdgesOf source (txEdges.filter fun staged =>
          staged.source = source)) inner with isDirty := true }

/-- The removal of an edge between two indexes. -/
def removeIndexed (source target : Nat) : GraphInner K :=
  let inner := { inner with
    pendingEdges :=
      match inner.pendingEdges[source]? with
      | some pending =>
        inner.pendingEdges.insert source (pending.filter fun edge => edge.target ≠ target)
      | none => inner.pendingEdges
    tombstonedEdges := insert (source, target) inner.tombstonedEdges
    isDirty := true }
  inner.recomputeNodeOutWeightSum source

def commitRemoval (removal : EntityId × EntityId) : GraphInner K :=
  match inner.idMap[removal.1]?, inner.idMap[removal.2]? with
  | some source, some target => inner.removeIndexed source target
  | _, _ => inner

def commitStagedRemovals (tx : TxId) : GraphInner K :=
  ((inner.stagedRemovals.filter fun staged => staged.1 = tx).map Prod.snd).foldl commitRemoval
    { inner with stagedRemovals := inner.stagedRemovals.filter fun staged => staged.1 ≠ tx }

def commit (rebuildThreshold : Nat) (tx : TxId) : GraphInner K :=
  let inner := ((inner.commitStagedEntities tx).commitStagedEdges tx).commitStagedRemovals tx
  if rebuildThreshold ≤ inner.pendingEdgeCount then inner.compact else inner

def collectEntityIncidentEdges (index : Nat) : List EntityId × List EntityId :=
  ((inner.keptEdges index).filterMap fun edge => inner.reverseMap[edge.target]?,
    (List.range inner.reverseMap.length).flatMap fun node =>
      match inner.reverseMap[node]? with
      | some source =>
        ((inner.keptEdges node).filter fun edge => edge.target = index).map fun _ => source
      | none => [])

def forgetEntity (id : EntityId) (index : Nat) : GraphInner K :=
  { inner with
    idMap := inner.idMap.erase id
    entities := inner.entities.set index sentinelEntity
    isDirty := true }

/-- The removals are staged first, and committed when the id has no index any more. -/
def removeEntity (rebuildThreshold : Nat) (tx : TxId) (id : EntityId) : GraphInner K :=
  match inner.idMap[id]? with
  | none => inner
  | some index =>
    let (outgoing, incoming) := inner.collectEntityIncidentEdges index
    let inner := outgoing.foldl (fun inner target => inner.removeEdge tx id target) inner
    let inner := incoming.foldl (fun inner source => inner.removeEdge tx source id) inner
    (inner.forgetEntity id index).commit rebuildThreshold tx

/-- The validity of the edges between two indexes ends. -/
def endValidity (walTx : TxId) (source target : Nat) : GraphInner K :=
  { inner with
    tombstonedEdges := insert (source, target) inner.tombstonedEdges
    pendingEdges :=
      match inner.pendingEdges[source]? with
      | some pending =>
        inner.pendingEdges.insert source (pending.map fun edge =>
          if edge.target = target then { edge with txValidTo := some walTx } else edge)
      | none => inner.pendingEdges
    edges :=
      if source + 1 < inner.offsets.length then
        inner.edges.mapIdx fun position entry =>
          if inner.offsets[source]?.getD 0 ≤ position ∧ position < inner.offsets[source + 1]?.getD 0 ∧
              entry.target = target then { entry with txValidTo := walTx }
          else entry
      else inner.edges
    isDirty := true }

def tombstoneEdgeDirect (walTx : TxId) (marked : GraphInner K × List (EntityId × EntityId))
    (edge : EntityId × EntityId) : GraphInner K × List (EntityId × EntityId) :=
  match marked.1.idMap[edge.1]?, marked.1.idMap[edge.2]? with
  | some source, some target =>
    if (source, target) ∈ marked.1.tombstonedEdges then marked
    else (marked.1.endValidity walTx source target, marked.2 ++ [edge])
  | _, _ => marked

/-- The graph, the number of new tombstones, their edges and the entities at their ends. -/
def tombstoneEdgesDirect (edges : List (EntityId × EntityId)) (walTx : TxId) :
    GraphInner K × Nat × List (EntityId × EntityId) × List EntityId :=
  let (inner, newly) := edges.foldl (tombstoneEdgeDirect walTx) (inner, [])
  (inner, newly.length, newly,
    (newly.flatMap fun edge => [edge.1, edge.2]).dedup.insertionSort (· ≤ ·))

end GraphInner

section Readers

variable {K : Type} [Field K] [LinearOrder K] (exact : F32 → K) (inner : GraphInner K)
  (deletedNodes : DeletedView)

/-- `compute_out_weight_sums`: from the cache when nothing is deleted and there is no hyperedge. -/
def contextOutWeightSums : List K :=
  (if deletedNodes = ∅ ∧ inner.tables.hyperedges.isEmpty = true ∧
      inner.reverseMap.length ≤ inner.outWeightSums.length then
    inner.outWeightSums.take inner.reverseMap.length
  else computeOutWeightSums exact inner deletedNodes).mapIdx fun node sum =>
    if isLive inner deletedNodes node then sum else 0

def forwardPushPpr (seedNodes : List EntityId) (config : PprConfig K) : List (EntityId × K) :=
  let validSeeds := collectValidSeeds inner deletedNodes seedNodes
  if inner.reverseMap = [] ∨ seedNodes = [] ∨ validSeeds = [] then []
  else
    let args : PushArgs K := {
      alpha := restartProbability config.dampingFactor
      epsilon := pushEpsilon config.convergenceEpsilon
      validSeeds
      outWeightSums := contextOutWeightSums exact inner deletedNodes }
    let (_, state) := runForwardPushLoop exact inner deletedNodes args
      (min config.maxIterations 1000 * 10) (startState args)
    extractPushResults inner deletedNodes state.rank

/-- The share of a node goes to its neighbours by weight. -/
def distributeRank (damping : K) (sums ranks next : List K) (node : Nat) : List K :=
  if node ∈ deletedNodes then next.set node 0
  else if 0 < outWeight sums node ∧ 0 < outWeight ranks node then
    (neighbors exact inner deletedNodes node).foldl (fun next neighbor =>
      next.modify neighbor.1
        (· + damping * outWeight ranks node / outWeight sums node * neighbor.2)) next
  else next

def distributeDenseRanks (damping : K) (sums ranks next : List K) : List K :=
  (List.range inner.reverseMap.length).foldl
    (distributeRank exact inner deletedNodes damping sums ranks) next

end Readers

end Contextra.Graph
