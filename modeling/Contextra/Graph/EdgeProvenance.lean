import Contextra.Graph.CsrSums

/-!
# Edges and their documents

For every document the graph remembers the pairs of entities between which an edge of it was added.
When the document is superseded, the edges between these entities get tombstones.
-/

namespace Contextra.Graph

open Contextra.Library

/-- The pairs of entities that are recorded for a document. -/
abbrev DocEdges := DocId → List (EntityId × EntityId)

def DocEdges.record (index : DocEdges) (doc : Option DocId) (edge : EntityId × EntityId) :
    DocEdges :=
  match doc with
  | some doc => Function.update index doc ((index doc).insert edge)
  | none => index

/-- `CsrGraph` without storage.  An edge is recorded in `docToEdges` when it reaches the tables, and
in `docEdgeIndex` when it is staged. -/
structure CsrGraph (K : Type) where
  inner : GraphInner K
  docToEdges : DocEdges
  docEdgeIndex : DocEdges

structure CascadeInvalidationReport where
  tombstonedEdgeCount : Nat
  affectedNodeIds : List EntityId
  deriving DecidableEq, Repr

/-- `TxId::new(u64::MAX)` -/
def maxTxId : TxId := 2 ^ 64 - 1

variable {K : Type} [Field K] [LinearOrder K]

def GraphInner.pushPending (inner : GraphInner K) (node : Nat) (edge : EdgePayload K) :
    GraphInner K :=
  { inner with
    pendingEdges := inner.pendingEdges.insert node (inner.pendingEdgesOf node ++ [edge])
    pendingEdgeCount := inner.pendingEdgeCount + 1
    isDirty := true }

def GraphInner.loadEdge (inner : GraphInner K) (source : EntityId) (edge : EdgePayload K) :
    GraphInner K :=
  let (sourceIndex, inner) := inner.getOrCreateIndex source
  let (targetIndex, inner) := inner.getOrCreateIndex edge.target
  (inner.pushPending sourceIndex { edge with target := targetIndex }).addToOutWeightSum sourceIndex
    edge.weight

def GraphInner.StagedFor (edges : List (StagedEdge K)) (doc : DocId) (source target : EntityId) :
    Prop :=
  ∃ staged ∈ edges, staged.source = source ∧ staged.edge.target = target ∧
    staged.edge.sourceDocId = some doc

/-- The edges that a mutation brings into the tables. -/
def GraphInner.Commits (inner : GraphInner K) :
    GraphInner.Mutation K → DocId → EntityId → EntityId → Prop
  | .commit tx, doc, source, target =>
    StagedFor (inner.stagedEdges.filter fun staged => staged.tx = tx) doc source target
  | .removeEntity tx id, doc, source, target => id ∈ inner.idMap ∧
      StagedFor (inner.stagedEdges.filter fun staged => staged.tx = tx) doc source target
  | _, _, _, _ => False

namespace CsrGraph

def new : CsrGraph K := ⟨.new, fun _ => [], fun _ => []⟩

variable (graph : CsrGraph K)

def edgesForDoc (doc : DocId) : List (EntityId × EntityId) :=
  graph.docToEdges doc ∪ graph.docEdgeIndex doc

/-- The records of the edges that a commit brings into the tables. -/
def recordCommitted (tx : TxId) : DocEdges :=
  (graph.inner.stagedEdges.filter fun staged => staged.tx = tx).foldl
    (fun index staged => index.record staged.edge.sourceDocId (staged.source, staged.edge.target))
    graph.docToEdges

def mutate (rebuildThreshold : Nat) (mutation : GraphInner.Mutation K) : CsrGraph K where
  inner := (graph.inner.step rebuildThreshold mutation).getD graph.inner
  docToEdges :=
    match mutation with
    | .commit tx => graph.recordCommitted tx
    | .removeEntity tx id =>
      if id ∈ graph.inner.idMap then graph.recordCommitted tx else graph.docToEdges
    | _ => graph.docToEdges
  docEdgeIndex :=
    match mutation with
    | .addEdge _ source edge =>
      if edge.weight < 0 then graph.docEdgeIndex
      else graph.docEdgeIndex.record edge.sourceDocId (source, edge.target)
    | _ => graph.docEdgeIndex

def insertEntityDirect (id : EntityId) : CsrGraph K :=
  { graph with inner := graph.inner.commitEntity id }

def loadEdgeDirect (source : EntityId) (edge : EdgePayload K) :
    CsrGraph K × Except (EdgeError K) Unit :=
  if edge.weight < 0 then (graph, .error (.invalidWeight edge.weight))
  else
    ({ graph with
      inner := graph.inner.loadEdge source edge
      docToEdges := graph.docToEdges.record edge.sourceDocId (source, edge.target) }, .ok ())

/-- An edge that is added at once, where no consistency enforcer is set.  The compaction that may
follow is a mutation of its own. -/
def addEdge (source : EntityId) (edge : EdgePayload K) : CsrGraph K × Except (EdgeError K) Unit :=
  if edge.weight < 0 then (graph, .error (.invalidWeight edge.weight))
  else
    ({ (graph.loadEdgeDirect source edge).1 with
      docEdgeIndex := graph.docEdgeIndex.record edge.sourceDocId (source, edge.target) }, .ok ())

def cascadeInvalidateEdgesForSupersededDoc (doc : DocId) (walSeq : TxId) :
    CsrGraph K × CascadeInvalidationReport :=
  if graph.edgesForDoc doc = [] then (graph, ⟨0, []⟩)
  else
    let (inner, count, _, affected) :=
      graph.inner.tombstoneEdgesDirect (graph.edgesForDoc doc) walSeq
    ({ graph with inner }, ⟨count, affected⟩)

/-- The part of `GraphPurger::purge` that concerns a document. -/
def purge (doc : DocId) : CsrGraph K :=
  if graph.edgesForDoc doc = [] then graph
  else
    { graph with
      inner := (graph.inner.tombstoneEdgesDirect (graph.edgesForDoc doc) maxTxId).1
      docEdgeIndex := Function.update graph.docEdgeIndex doc [] }

inductive Event (K : Type) where
  | mutate (mutation : GraphInner.Mutation K)
  | insertEntityDirect (id : EntityId)
  | loadEdgeDirect (source : EntityId) (edge : EdgePayload K)
  | addEdge (source : EntityId) (edge : EdgePayload K)
  | cascadeInvalidate (doc : DocId) (walSeq : TxId)
  | purge (doc : DocId)

def step (rebuildThreshold : Nat) : Event K → Option (CsrGraph K)
  | .mutate mutation => some (graph.mutate rebuildThreshold mutation)
  | .insertEntityDirect id => some (graph.insertEntityDirect id)
  | .loadEdgeDirect source edge => some (graph.loadEdgeDirect source edge).1
  | .addEdge source edge => some (graph.addEdge source edge).1
  | .cascadeInvalidate doc walSeq =>
    some (graph.cascadeInvalidateEdgesForSupersededDoc doc walSeq).1
  | .purge doc => some (graph.purge doc)

/-- The event brings an edge of the document into the tables. -/
def Adds (doc : DocId) : Event K → EntityId → EntityId → Prop
  | .mutate mutation, source, target => graph.inner.Commits mutation doc source target
  | .loadEdgeDirect source' edge, source, target | .addEdge source' edge, source, target =>
    0 ≤ edge.weight ∧ source' = source ∧ edge.target = target ∧ edge.sourceDocId = some doc
  | _, _, _ => False

/-- Readers find the edge between the two entities. -/
def Visible (source target : EntityId) (edge : EdgePayload K) : Prop :=
  ∃ sourceIndex targetIndex, graph.inner.entityAt sourceIndex = some source ∧
    graph.inner.entityAt targetIndex = some target ∧
      edge ∈ graph.inner.keptEdges sourceIndex ∧ edge.target = targetIndex

end CsrGraph

end Contextra.Graph
