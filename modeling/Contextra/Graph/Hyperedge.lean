import Contextra.Types

/-!
# Hyperedges

The hyperedge tables of the graph and their three writers: the direct insertion, the tombstone
and the batch.  The direct insertion looks at nothing that is stored already; the batch refuses
an id that is in use.
-/

namespace Contextra.Graph

open Option
open List hiding set

open Std (TreeMap TreeSet)

/-- The inner `u64` of `EntityId`. -/
abbrev EntityId := Nat

/-- The inner `u64` of `DocId`. -/
abbrev DocId := Nat

/-- The inner `u64` of `HyperEdgeId`. -/
abbrev HyperEdgeId := Nat

/-- The inner `u32` of `RoleId`. -/
abbrev RoleId := Nat

/-- An `f32`, by its bits. -/
structure F32 where
  bits : BitVec 32
  deriving DecidableEq, Repr

namespace F32

def one : F32 := ⟨0x3F800000⟩

def magnitude (value : F32) : Nat := (value.bits &&& 0x7FFFFFFF).toNat

/-- `is_finite`: the exponent is not all ones. -/
def isFinite (value : F32) : Bool := value.magnitude < 0x7F800000

/-- `value < 0.0`, false of negative zero and of every NaN. -/
def isNegative (value : F32) : Bool :=
  value.bits.msb && 0 < value.magnitude && value.magnitude ≤ 0x7F800000

end F32

structure RoleBinding where
  role : RoleId
  entity : EntityId
  deriving DecidableEq, Repr

inductive EdgeType where
  | default
  deriving DecidableEq, Repr

structure HyperEdge where
  id : HyperEdgeId
  predicate : EdgeType
  participants : List RoleBinding
  weight : F32
  txValidFrom : Option TxId
  txValidTo : Option TxId
  businessValidFrom : Option Int
  businessValidTo : Option Int
  sourceDocId : Option DocId
  childEdgeIds : List HyperEdgeId
  deriving DecidableEq, Repr

inductive GraphMutationError where
  | lockAcquisitionTimeout (message : String)
  | duplicateHyperEdgeId (id : HyperEdgeId)
  | roleBindingInvalid (message : String)
  | epochReclamationPending (epoch : Nat)
  | insufficientParticipants (expected found : Nat)
  | hyperedgeNotFound (id : HyperEdgeId)
  | invalidWeight (weight : F32) (reason : String)
  | internal (message : String)
  deriving DecidableEq, Repr

def displayHyperEdgeId (id : HyperEdgeId) : String := "HyperEdgeId(" ++ toString id ++ ")"

namespace HyperEdge

def new (id : HyperEdgeId) (predicate : EdgeType) (participants : List RoleBinding)
    (weight : F32) : HyperEdge where
  id := id
  predicate := predicate
  participants := participants
  weight := weight
  txValidFrom := none
  txValidTo := none
  businessValidFrom := none
  businessValidTo := none
  sourceDocId := none
  childEdgeIds := []

def withSourceDocId (edge : HyperEdge) (sourceDocId : Option DocId) : HyperEdge :=
  { edge with sourceDocId }

def validate (edge : HyperEdge) : Except GraphMutationError Unit :=
  if edge.participants.length < 2 then
    .error (.insufficientParticipants 2 edge.participants.length)
  else if !edge.weight.isFinite || edge.weight.isNegative then
    .error (.invalidWeight edge.weight "weight must be finite and non-negative")
  else if edge.id ∈ edge.childEdgeIds then
    .error (.internal ("HyperEdge " ++ displayHyperEdgeId edge.id ++
      " cannot contain itself in child_edge_ids"))
  else .ok ()

end HyperEdge

/-- The entities of a mutation in their canonical order.  No lock is taken. -/
structure ConsolidationNodesGuard where
  entities : List EntityId

def sortDedupEntities (entities : List EntityId) : List EntityId :=
  (entities.insertionSort (· ≤ ·)).destutter (· ≠ ·)

def ConsolidationNodesGuard.tryAcquire (entities : List EntityId) :
    Except GraphMutationError ConsolidationNodesGuard :=
  .ok ⟨sortDedupEntities entities⟩

abbrev HyperedgeIndex := TreeMap Nat (TreeSet HyperEdgeId)

namespace HyperedgeIndex

def add (index : HyperedgeIndex) (key : Nat) (id : HyperEdgeId) : HyperedgeIndex :=
  index.alter key fun set => some ((set.getD ∅).insert id)

def remove (index : HyperedgeIndex) (key : Nat) (id : HyperEdgeId) : HyperedgeIndex :=
  index.alter key fun
    | some set => if (set.erase id).isEmpty then none else some (set.erase id)
    | none => none

end HyperedgeIndex

/-- The hyperedge fields of `GraphInner`. -/
structure HyperedgeTables where
  hyperedges : TreeMap HyperEdgeId HyperEdge
  docToHyperedges : HyperedgeIndex
  hyperedgeIndex : HyperedgeIndex
  childToParents : HyperedgeIndex

namespace HyperedgeTables

def new : HyperedgeTables := ⟨∅, ∅, ∅, ∅⟩

def maxHyperedgeId (tables : HyperedgeTables) : Nat := tables.hyperedges.keys.max?.getD 0

def getHyperedge (tables : HyperedgeTables) (id : HyperEdgeId) : Option HyperEdge :=
  tables.hyperedges[id]?.filter fun edge => edge.txValidTo.isNone

def insertHyperedgeDirect (tables : HyperedgeTables) (edge : HyperEdge) : HyperedgeTables where
  hyperedges := tables.hyperedges.insert edge.id edge
  docToHyperedges :=
    match edge.sourceDocId with
    | some docId => tables.docToHyperedges.add docId edge.id
    | none => tables.docToHyperedges
  hyperedgeIndex := edge.participants.foldl
    (fun index participant => index.add participant.entity edge.id) tables.hyperedgeIndex
  childToParents := edge.childEdgeIds.foldl
    (fun index child => index.add child edge.id) tables.childToParents

/-- Put the closed edge in its place and take it out of the indexes. -/
def closeHyperedge (tables : HyperedgeTables) (id : HyperEdgeId) (updated : HyperEdge) :
    HyperedgeTables where
  hyperedges := tables.hyperedges.insert id updated
  docToHyperedges :=
    match updated.sourceDocId with
    | some docId => tables.docToHyperedges.remove docId id
    | none => tables.docToHyperedges
  hyperedgeIndex := updated.participants.foldl
    (fun index participant => index.remove participant.entity id) tables.hyperedgeIndex
  childToParents := updated.childEdgeIds.foldl
    (fun index child => index.remove child id) tables.childToParents

def tombstoneHyperedge (tables : HyperedgeTables) (id : HyperEdgeId) (walTx : TxId) :
    Bool × HyperedgeTables :=
  match tables.hyperedges[id]? with
  | some edge =>
    if edge.txValidTo.isSome then (false, tables)
    else (true, tables.closeHyperedge id { edge with txValidTo := some walTx })
  | none => (false, tables)

/-- `relate_n_ary` of the graph itself, under an id that its caller has chosen. -/
def relateNAry (tables : HyperedgeTables) (id : HyperEdgeId) (predicate : EdgeType)
    (participants : List RoleBinding) (weight : F32) (docId : Option DocId) :
    Except GraphMutationError (HyperEdge × HyperedgeTables) := do
  let _guard ← ConsolidationNodesGuard.tryAcquire (participants.map (·.entity))
  let hyperedge := (HyperEdge.new id predicate participants weight).withSourceDocId docId
  hyperedge.validate
  return (hyperedge, tables.insertHyperedgeDirect hyperedge)

/-- The loop of `commit_super_edge_batch` that refuses used and repeated ids. -/
def checkNewEdges (tables : HyperedgeTables) (seenIds : List HyperEdgeId) :
    List HyperEdge → Except GraphMutationError Unit
  | [] => .ok ()
  | edge :: rest =>
    if edge.id ∈ seenIds ∨ tables.hyperedges.contains edge.id then
      .error (.internal ("Duplicate hyperedge ID " ++ displayHyperEdgeId edge.id))
    else do
      edge.validate
      checkNewEdges tables (edge.id :: seenIds) rest

def applyBatchTombstones (tables : HyperedgeTables) (tombstoneIds : List HyperEdgeId)
    (walTx : TxId) : HyperedgeTables :=
  tombstoneIds.foldl (fun tables id => (tables.tombstoneHyperedge id walTx).2) tables

def applyBatchNewEdges (tables : HyperedgeTables) (newEdges : List HyperEdge) :
    HyperedgeTables :=
  newEdges.foldl insertHyperedgeDirect tables

def commitSuperEdgeBatch (tables : HyperedgeTables) (tombstoneIds : List HyperEdgeId)
    (newEdges : List HyperEdge) (walTx : TxId) : Except GraphMutationError HyperedgeTables := do
  tables.checkNewEdges [] newEdges
  return (tables.applyBatchTombstones tombstoneIds walTx).applyBatchNewEdges newEdges

/-- The id that the port's `relate_n_ary` works out before it takes the write lock; the checked
addition panics at the last id. -/
def nextHyperedgeId (tables : HyperedgeTables) : Option HyperEdgeId :=
  if tables.maxHyperedgeId + 1 < 2 ^ 64 then some (tables.maxHyperedgeId + 1) else none

section Contents

variable {tables final : HyperedgeTables} {edge : HyperEdge} {edges : List HyperEdge}
  {id other : HyperEdgeId} {walTx : TxId}

def closedAt (walTx : TxId) (edge : HyperEdge) : HyperEdge :=
  if edge.txValidTo.isSome then edge else { edge with txValidTo := some walTx }

@[simp] theorem closedAt_participants :
    (closedAt walTx edge).participants = edge.participants := by
  simp only [closedAt]
  split <;> rfl

theorem insertHyperedgeDirect_self :
    (tables.insertHyperedgeDirect edge).hyperedges[edge.id]? = some edge :=
  Std.TreeMap.getElem?_insert_self

theorem insertHyperedgeDirect_other (different : edge.id ≠ id) :
    (tables.insertHyperedgeDirect edge).hyperedges[id]? = tables.hyperedges[id]? := by
  simp [insertHyperedgeDirect, Std.TreeMap.getElem?_insert, different]

theorem tombstoneHyperedge_self :
    (tables.tombstoneHyperedge id walTx).2.hyperedges[id]? =
      tables.hyperedges[id]?.map (closedAt walTx) := by
  simp only [tombstoneHyperedge]
  split
  · rename_i edge stored
    rw [stored, map_some]
    split <;> rename_i closed
    · simp [closedAt, closed, stored]
    · simp [closedAt, closed, closeHyperedge]
  · rename_i absent
    simp [absent]

theorem tombstoneHyperedge_other (different : id ≠ other) :
    (tables.tombstoneHyperedge id walTx).2.hyperedges[other]? = tables.hyperedges[other]? := by
  simp only [tombstoneHyperedge]
  split
  · split
    · rfl
    · simp [closeHyperedge, Std.TreeMap.getElem?_insert, different]
  · rfl

theorem closedAt_closedAt : closedAt walTx (closedAt walTx edge) = closedAt walTx edge := by
  cases closed : edge.txValidTo <;> simp [closedAt, closed]

theorem applyBatchTombstones_get (tombstoneIds : List HyperEdgeId) :
    (tables.applyBatchTombstones tombstoneIds walTx).hyperedges[id]? =
      if id ∈ tombstoneIds then tables.hyperedges[id]?.map (closedAt walTx)
      else tables.hyperedges[id]? := by
  induction tombstoneIds generalizing tables with
  | nil => rfl
  | cons first rest ih =>
    have step : tables.applyBatchTombstones (first :: rest) walTx =
        (tables.tombstoneHyperedge first walTx).2.applyBatchTombstones rest walTx := rfl
    rw [step, ih]
    by_cases same : first = id
    · subst same
      rw [tombstoneHyperedge_self, if_pos mem_cons_self]
      split
      · rw [Option.map_map]
        congr 1
        funext edge
        exact closedAt_closedAt
      · rfl
    · rw [tombstoneHyperedge_other same]
      simp [Ne.symm same]

theorem applyBatchNewEdges_other (absent : id ∉ edges.map (·.id)) :
    (tables.applyBatchNewEdges edges).hyperedges[id]? = tables.hyperedges[id]? := by
  induction edges generalizing tables with
  | nil => rfl
  | cons first rest ih =>
    simp only [map_cons, mem_cons, not_or] at absent
    have step : tables.applyBatchNewEdges (first :: rest) =
        (tables.insertHyperedgeDirect first).applyBatchNewEdges rest := rfl
    rw [step, ih absent.2, insertHyperedgeDirect_other (Ne.symm absent.1)]

theorem applyBatchNewEdges_mem (different : (edges.map (·.id)).Nodup) (inBatch : edge ∈ edges) :
    (tables.applyBatchNewEdges edges).hyperedges[edge.id]? = some edge := by
  induction edges generalizing tables with
  | nil => cases inBatch
  | cons first rest ih =>
    obtain ⟨absent, different⟩ := nodup_cons.mp different
    have step : tables.applyBatchNewEdges (first :: rest) =
        (tables.insertHyperedgeDirect first).applyBatchNewEdges rest := rfl
    rw [step]
    rcases mem_cons.mp inBatch with rfl | later
    · rw [applyBatchNewEdges_other absent, insertHyperedgeDirect_self]
    · exact ih different later

theorem checkNewEdges_ok {seenIds : List HyperEdgeId}
    (passed : tables.checkNewEdges seenIds edges = .ok ()) :
    (edges.map (·.id)).Nodup ∧
      ∀ id ∈ edges.map (·.id), id ∉ seenIds ∧ tables.hyperedges[id]? = none := by
  induction edges generalizing seenIds with
  | nil => simp
  | cons first rest ih =>
    simp only [checkNewEdges] at passed
    split at passed
    · cases passed
    · rename_i free
      cases valid : first.validate with
      | error error => simp [valid, bind, Except.bind] at passed
      | ok =>
        simp only [valid, bind, Except.bind] at passed
        obtain ⟨different, unused⟩ := ih passed
        simp only [not_or, Bool.not_eq_true] at free
        have firstUnused : tables.hyperedges[first.id]? = none := by
          rw [Std.TreeMap.contains_eq_isSome_getElem?, isSome_eq_false_iff,
            isNone_iff_eq_none] at free
          exact free.2
        refine ⟨nodup_cons.mpr ⟨?_, different⟩, ?_⟩
        · intro repeated
          exact (unused first.id repeated).1 mem_cons_self
        · intro id mem
          rcases mem_cons.mp mem with rfl | later
          · exact ⟨free.1, firstUnused⟩
          · refine ⟨fun seen => ?_, (unused id later).2⟩
            exact (unused id later).1 (mem_cons_of_mem _ seen)

theorem commitSuperEdgeBatch_ok {tombstoneIds : List HyperEdgeId}
    (committed : tables.commitSuperEdgeBatch tombstoneIds edges walTx = .ok final) :
    (edges.map (·.id)).Nodup ∧ (∀ id ∈ edges.map (·.id), tables.hyperedges[id]? = none) ∧
      final = (tables.applyBatchTombstones tombstoneIds walTx).applyBatchNewEdges edges := by
  simp only [commitSuperEdgeBatch, bind, Except.bind] at committed
  split at committed
  · cases committed
  · rename_i passed
    obtain ⟨different, unused⟩ := checkNewEdges_ok passed
    cases committed
    exact ⟨different, fun id mem => (unused id mem).2, rfl⟩

end Contents

end HyperedgeTables

end Contextra.Graph
