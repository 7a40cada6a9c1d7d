import Contextra.Graph.Hyperedge

/-!
# The graph in compressed rows

The tables of `GraphInner`.  The compacted edges of a node stand between two offsets of the
parallel arrays, newer edges are pending, and a removed edge has a tombstone until the next
compaction.  Weights are exact numbers.
-/

namespace Contextra.Graph

open List

open Std (TreeMap)

/-- `TxId::INVALID`, which stands for an absent transaction in the arrays. -/
def txIdInvalid : TxId := 0

/-- `i64::MIN`, which stands for an absent time in the arrays. -/
def i64Min : Int := -2 ^ 63

/-- An `Edge` as `EdgePayload` keeps it, with the index of its target. -/
structure EdgePayload (K : Type) where
  target : Nat
  weight : K
  txValidFrom : Option TxId
  txValidTo : Option TxId
  businessValidFrom : Option Int
  businessValidTo : Option Int
  sourceDocId : Option DocId
  deriving DecidableEq, Repr

/-- One position of the arrays `targets`, `weights`, `tx_valid_froms` and so on. -/
structure CsrEntry (K : Type) where
  target : Nat
  weight : K
  txValidFrom : TxId
  txValidTo : TxId
  businessValidFrom : Int
  businessValidTo : Int
  sourceDocId : DocId
  deriving DecidableEq, Repr

/-- What `tx_valid_from_at` and its siblings read at a position. -/
def CsrEntry.payload {K : Type} (entry : CsrEntry K) : EdgePayload K where
  target := entry.target
  weight := entry.weight
  txValidFrom := (some entry.txValidFrom).filter (· ≠ txIdInvalid)
  txValidTo := (some entry.txValidTo).filter (· ≠ txIdInvalid)
  businessValidFrom := (some entry.businessValidFrom).filter (· ≠ i64Min)
  businessValidTo := (some entry.businessValidTo).filter (· ≠ i64Min)
  sourceDocId := (some entry.sourceDocId).filter (· ≠ 0)

/-- `StagedEdgePayload`, with its source: the target is an entity. -/
structure StagedEdge (K : Type) where
  tx : TxId
  source : EntityId
  edge : EdgePayload K
  deriving DecidableEq, Repr

/-- The id of `sentinel_entity`, which stands where there is no entity. -/
def sentinelEntity : EntityId := 0

/-- `GraphInner`.  Of an entity only its id is kept. -/
structure GraphInner (K : Type) where
  idMap : TreeMap EntityId Nat
  reverseMap : List EntityId
  entities : List EntityId
  offsets : List Nat
  edges : List (CsrEntry K)
  outWeightSums : List K
  stagedEntities : List (TxId × EntityId)
  stagedEdges : List (StagedEdge K)
  stagedRemovals : List (TxId × EntityId × EntityId)
  pendingEdges : TreeMap Nat (List (EdgePayload K))
  tombstonedEdges : Finset (Nat × Nat)
  pendingEdgeCount : Nat
  isDirty : Bool
  tables : HyperedgeTables

namespace GraphInner

variable {K : Type}

def new : GraphInner K where
  idMap := ∅
  reverseMap := []
  entities := []
  offsets := [0]
  edges := []
  outWeightSums := []
  stagedEntities := []
  stagedEdges := []
  stagedRemovals := []
  pendingEdges := ∅
  tombstonedEdges := ∅
  pendingEdgeCount := 0
  isDirty := false
  tables := .new

variable (inner : GraphInner K)

def entityAt (index : Nat) : Option EntityId := inner.entities[index]?.filter (· ≠ sentinelEntity)

def compactedEdges (node : Nat) : List (CsrEntry K) :=
  if node + 1 < inner.offsets.length then
    let start := inner.offsets[node]?.getD 0
    let stop := inner.offsets[node + 1]?.getD 0
    (inner.edges.drop start).take (stop - start)
  else []

def pendingEdgesOf (node : Nat) : List (EdgePayload K) := inner.pendingEdges[node]?.getD []

def edgesOf (node : Nat) : List (EdgePayload K) :=
  (inner.compactedEdges node).map CsrEntry.payload ++ inner.pendingEdgesOf node

/-- The ids of live entities and their indexes belong together, the rows lie within the arrays, and
no weight is negative. -/
structure WellFormed [Zero K] [LE K] : Prop where
  indexed : ∀ id index : Nat, inner.idMap[id]? = some index → inner.reverseMap[index]? = some id
  entity : ∀ index id, inner.entityAt index = some id → inner.idMap[id]? = some index
  rows : ∀ offset ∈ inner.offsets, offset ≤ inner.edges.length
  weights : ∀ entry ∈ inner.edges, 0 ≤ entry.weight
  pendingWeights : ∀ (node : Nat) (edges : List (EdgePayload K)),
    inner.pendingEdges[node]? = some edges → ∀ edge ∈ edges, 0 ≤ edge.weight

theorem WellFormed.edgesOf [Zero K] [LE K] {inner : GraphInner K} (wellFormed : inner.WellFormed)
    {node : Nat} {edge : EdgePayload K} (isEdge : edge ∈ inner.edgesOf node) : 0 ≤ edge.weight := by
  rcases mem_append.mp isEdge with compacted | isPending
  · obtain ⟨entry, isEntry, rfl⟩ := mem_map.mp compacted
    unfold compactedEdges at isEntry
    split_ifs at isEntry
    · exact wellFormed.weights entry (mem_of_mem_drop (mem_of_mem_take isEntry))
    · cases isEntry
  · unfold pendingEdgesOf at isPending
    cases found : inner.pendingEdges[node]? with
    | none =>
      rw [found] at isPending
      cases isPending
    | some edges =>
      rw [found] at isPending
      exact wellFormed.pendingWeights node edges found edge isPending

end GraphInner

end Contextra.Graph
