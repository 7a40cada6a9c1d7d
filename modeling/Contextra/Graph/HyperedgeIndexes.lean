import Contextra.Graph.CascadeOrder
import Contextra.Library.Run

/-!
# The indexes of the hyperedges

What the three indexes list after each writer.  A tombstone takes an id out under the keys of the
record that is stored, so an index stays exact as long as no insertion puts an active record in
place of one whose keys it does not name.
-/

namespace Contextra.Graph

open Library List Option

namespace HyperedgeIndex

variable {index : HyperedgeIndex} {key other : Nat} {id listedId : HyperEdgeId}

def Lists (index : HyperedgeIndex) (key : Nat) (id : HyperEdgeId) : Prop :=
  ∃ set, index[key]? = some set ∧ id ∈ set

theorem lists_add :
    (index.add key id).Lists other listedId ↔
      (key = other ∧ id = listedId) ∨ index.Lists other listedId := by
  simp only [Lists, add, Std.TreeMap.getElem?_alter, Std.LawfulEqOrd.compare_eq_iff_eq]
  by_cases same : key = other
  · subst same
    cases index[key]? <;> simp [Std.TreeSet.mem_insert]
  · simp [same]

theorem lists_remove :
    (index.remove key id).Lists other listedId ↔
      index.Lists other listedId ∧ ¬ (key = other ∧ id = listedId) := by
  simp only [Lists, remove, Std.TreeMap.getElem?_alter, Std.LawfulEqOrd.compare_eq_iff_eq]
  by_cases same : key = other
  · subst same
    cases index[key]? with
    | none => simp
    | some set =>
      by_cases emptied : (set.erase id).isEmpty
      · have left : listedId ∈ set → id = listedId := by
          intro mem
          by_contra different
          refine Std.TreeSet.not_mem_of_isEmpty emptied (a := listedId) ?_
          rw [Std.TreeSet.mem_erase]
          exact ⟨by simpa [Std.LawfulEqOrd.compare_eq_iff_eq] using different, mem⟩
        simpa [emptied] using left
      · simp [emptied, Std.TreeSet.mem_erase, and_comm]
  · simp [same]

theorem lists_foldl_add {Item : Type} (keyOf : Item → Nat) (items : List Item) :
    (items.foldl (fun index item => index.add (keyOf item) id) index).Lists other listedId ↔
      (id = listedId ∧ other ∈ items.map keyOf) ∨ index.Lists other listedId := by
  induction items generalizing index with
  | nil => simp
  | cons item items ih =>
    rw [foldl_cons, ih, lists_add, map_cons, mem_cons,
      eq_comm (a := other)]
    tauto

theorem lists_foldl_remove {Item : Type} (keyOf : Item → Nat) (items : List Item) :
    (items.foldl (fun index item => index.remove (keyOf item) id) index).Lists other listedId ↔
      index.Lists other listedId ∧ ¬ (id = listedId ∧ other ∈ items.map keyOf) := by
  induction items generalizing index with
  | nil => simp
  | cons item items ih =>
    rw [foldl_cons, ih, lists_remove, map_cons, mem_cons,
      eq_comm (a := other)]
    tauto

end HyperedgeIndex

inductive IndexKind where
  | document
  | entity
  | child
  deriving DecidableEq, Repr

def HyperEdge.keys (edge : HyperEdge) : IndexKind → List Nat
  | .document => edge.sourceDocId.toList
  | .entity => edge.participants.map (·.entity)
  | .child => edge.childEdgeIds

namespace HyperedgeTables

def index (tables : HyperedgeTables) : IndexKind → HyperedgeIndex
  | .document => tables.docToHyperedges
  | .entity => tables.hyperedgeIndex
  | .child => tables.childToParents

/-- The three queries answer with the active hyperedges whose record names the key, each once. -/
structure IndexesExact (tables : HyperedgeTables) : Prop where
  once : ∀ kind key, (tables.listed (tables.index kind) key).Nodup
  forEntity : ∀ entityId id, id ∈ tables.hyperedgesForEntity entityId ↔
    ∃ edge, tables.getHyperedge id = some edge ∧ entityId ∈ edge.participants.map (·.entity)
  forDoc : ∀ docId id, id ∈ tables.hyperedgesForDoc docId ↔
    ∃ edge, tables.getHyperedge id = some edge ∧ edge.sourceDocId = some docId
  parentsOf : ∀ child id, id ∈ tables.parentHyperedgesOf child ↔
    ∃ edge, tables.getHyperedge id = some edge ∧ child ∈ edge.childEdgeIds

/-- The indexes list an active hyperedge under the keys of its record and no others. -/
def ListsActive (tables : HyperedgeTables) : Prop :=
  ∀ kind key id edge, tables.getHyperedge id = some edge →
    ((tables.index kind).Lists key id ↔ key ∈ edge.keys kind)

def ListsStored (tables : HyperedgeTables) : Prop :=
  ∀ kind key id, (tables.index kind).Lists key id → tables.hyperedges[id]?.isSome

/-- An active edge names every key under which its id is listed already. -/
def NamesListed (tables : HyperedgeTables) (edge : HyperEdge) : Prop :=
  edge.txValidTo = none →
    ∀ kind key, (tables.index kind).Lists key edge.id → key ∈ edge.keys kind

section Writers

variable {tables final : HyperedgeTables} {edge : HyperEdge} {edges : List HyperEdge}
  {kind : IndexKind} {key : Nat} {id other : HyperEdgeId} {walTx : TxId}

theorem mem_listed {index : HyperedgeIndex} :
    id ∈ tables.listed index key ↔ index.Lists key id ∧ (tables.getHyperedge id).isSome := by
  rw [listed, HyperedgeIndex.Lists]
  cases index[key]? with
  | none => simp
  | some set => simp [Std.TreeSet.mem_toList]

theorem indexesExact_iff : tables.IndexesExact ↔ tables.ListsActive := by
  constructor
  · intro exact kind key id edge found
    have active : (tables.getHyperedge id).isSome := by rw [found]; rfl
    have listedIff : (tables.index kind).Lists key id ↔
        id ∈ tables.listed (tables.index kind) key := by
      rw [mem_listed]
      exact ⟨fun lists => ⟨lists, active⟩, And.left⟩
    rw [listedIff]
    cases kind with
    | document => simpa [found, HyperEdge.keys, index, hyperedgesForDoc] using exact.forDoc key id
    | entity => simpa [found, HyperEdge.keys, index, hyperedgesForEntity] using exact.forEntity key id
    | child => simpa [found, HyperEdge.keys, index, parentHyperedgesOf] using exact.parentsOf key id
  · intro lists
    have answers : ∀ kind key id, id ∈ tables.listed (tables.index kind) key ↔
        ∃ edge, tables.getHyperedge id = some edge ∧ key ∈ edge.keys kind := by
      intro kind key id
      rw [mem_listed, isSome_iff_exists]
      constructor
      · rintro ⟨isListed, edge, found⟩
        exact ⟨edge, found, (lists kind key id edge found).mp isListed⟩
      · rintro ⟨edge, found, names⟩
        exact ⟨(lists kind key id edge found).mpr names, edge, found⟩
    refine ⟨fun kind key => listed_nodup _ _, fun entityId id => answers .entity entityId id,
      fun docId id => ?_, fun child id => answers .child child id⟩
    simpa [HyperEdge.keys, index, hyperedgesForDoc] using answers .document docId id

theorem lists_insertHyperedgeDirect :
    ((tables.insertHyperedgeDirect edge).index kind).Lists key id ↔
      (edge.id = id ∧ key ∈ edge.keys kind) ∨ (tables.index kind).Lists key id := by
  cases kind with
  | document =>
    simp only [index, insertHyperedgeDirect, HyperEdge.keys]
    cases edge.sourceDocId with
    | none => simp
    | some docId =>
      rw [HyperedgeIndex.lists_add, toList_some, mem_singleton]
      grind
  | entity => exact HyperedgeIndex.lists_foldl_add (·.entity) edge.participants
  | child =>
    have folded : ((tables.insertHyperedgeDirect edge).index .child).Lists key id ↔
        (edge.id = id ∧ key ∈ edge.childEdgeIds.map fun child => child) ∨
          (tables.index .child).Lists key id :=
      HyperedgeIndex.lists_foldl_add (fun child => child) edge.childEdgeIds
    rwa [List.map_id'] at folded

theorem getHyperedge_insert_self :
    (tables.insertHyperedgeDirect edge).getHyperedge edge.id =
      if edge.txValidTo = none then some edge else none := by
  rw [getHyperedge, insertHyperedgeDirect_self]
  simp [filter_some]

theorem getHyperedge_insert_other (different : edge.id ≠ id) :
    (tables.insertHyperedgeDirect edge).getHyperedge id = tables.getHyperedge id := by
  rw [getHyperedge, insertHyperedgeDirect_other different, getHyperedge]

/-- After an insertion the indexes are exact if and only if the edge names the keys under which
its id was listed. -/
theorem listsActive_insert_iff (lists : tables.ListsActive) :
    (tables.insertHyperedgeDirect edge).ListsActive ↔ tables.NamesListed edge := by
  constructor
  · intro after active kind key isListed
    have found : (tables.insertHyperedgeDirect edge).getHyperedge edge.id = some edge := by
      rw [getHyperedge_insert_self, if_pos active]
    exact (after kind key edge.id edge found).mp (lists_insertHyperedgeDirect.mpr (.inr isListed))
  · intro names kind key id found active
    rw [lists_insertHyperedgeDirect]
    by_cases same : edge.id = id
    · subst same
      rw [getHyperedge_insert_self] at active
      split at active
      · rename_i isActive
        cases active
        exact ⟨fun isListed => isListed.elim And.right (names isActive kind key),
          fun named => .inl ⟨rfl, named⟩⟩
      · cases active
    · rw [getHyperedge_insert_other same] at active
      rw [← lists kind key id found active]
      simp [same]

theorem listsStored_insert (stored : tables.ListsStored) :
    (tables.insertHyperedgeDirect edge).ListsStored := by
  intro kind key id isListed
  by_cases same : edge.id = id
  · subst same
    rw [insertHyperedgeDirect_self]
    rfl
  · rw [insertHyperedgeDirect_other same]
    rcases lists_insertHyperedgeDirect.mp isListed with ⟨equal, -⟩ | earlier
    · exact absurd equal same
    · exact stored kind key id earlier

theorem lists_closeHyperedge :
    ((tables.closeHyperedge id edge).index kind).Lists key other ↔
      (tables.index kind).Lists key other ∧ ¬ (id = other ∧ key ∈ edge.keys kind) := by
  cases kind with
  | document =>
    simp only [index, closeHyperedge, HyperEdge.keys]
    cases edge.sourceDocId with
    | none => simp
    | some docId =>
      rw [HyperedgeIndex.lists_remove, toList_some, mem_singleton]
      grind
  | entity => exact HyperedgeIndex.lists_foldl_remove (·.entity) edge.participants
  | child =>
    have folded : ((tables.closeHyperedge id edge).index .child).Lists key other ↔
        (tables.index .child).Lists key other ∧
          ¬ (id = other ∧ key ∈ edge.childEdgeIds.map fun child => child) :=
      HyperedgeIndex.lists_foldl_remove (fun child => child) edge.childEdgeIds
    rwa [List.map_id'] at folded

theorem listsActive_tombstone (lists : tables.ListsActive) :
    (tables.tombstoneHyperedge id walTx).2.ListsActive := by
  simp only [tombstoneHyperedge]
  split
  · rename_i edge stored
    split
    · exact lists
    · intro kind key other found active
      by_cases same : id = other
      · subst same
        simp only [getHyperedge, closeHyperedge, Std.TreeMap.getElem?_insert_self,
          filter_some, isNone_some, Bool.false_eq_true, if_false] at active
        cases active
      · have unchanged : tables.getHyperedge other = some found := by
          simpa [getHyperedge, closeHyperedge, Std.TreeMap.getElem?_insert, same] using active
        rw [lists_closeHyperedge, ← lists kind key other found unchanged]
        simp [same]
  · exact lists

theorem listsStored_tombstone (stored : tables.ListsStored) :
    (tables.tombstoneHyperedge id walTx).2.ListsStored := by
  intro kind key other isListed
  have earlier : (tables.index kind).Lists key other := by
    simp only [tombstoneHyperedge] at isListed
    split at isListed
    · split at isListed
      · exact isListed
      · exact (lists_closeHyperedge.mp isListed).1
    · exact isListed
  by_cases same : id = other
  · subst same
    simpa [tombstoneHyperedge_self] using stored kind key id earlier
  · rw [tombstoneHyperedge_other same]
    exact stored kind key other earlier

theorem lists_applyBatchTombstones (tombstoneIds : List HyperEdgeId)
    (holds : tables.ListsActive ∧ tables.ListsStored) :
    (tables.applyBatchTombstones tombstoneIds walTx).ListsActive ∧
      (tables.applyBatchTombstones tombstoneIds walTx).ListsStored := by
  induction tombstoneIds generalizing tables with
  | nil => exact holds
  | cons first rest ih =>
    exact ih ⟨listsActive_tombstone holds.1, listsStored_tombstone holds.2⟩

theorem namesListed_of_unused (stored : tables.ListsStored)
    (unused : tables.hyperedges[edge.id]? = none) : tables.NamesListed edge := by
  intro _ kind key isListed
  have used := stored kind key edge.id isListed
  rw [unused] at used
  cases used

theorem lists_applyBatchNewEdges (holds : tables.ListsActive ∧ tables.ListsStored)
    (different : (edges.map (·.id)).Nodup)
    (unused : ∀ id ∈ edges.map (·.id), tables.hyperedges[id]? = none) :
    (tables.applyBatchNewEdges edges).ListsActive ∧
      (tables.applyBatchNewEdges edges).ListsStored := by
  induction edges generalizing tables with
  | nil => exact holds
  | cons first rest ih =>
    obtain ⟨absent, different⟩ := nodup_cons.mp different
    have firstUnused := unused first.id mem_cons_self
    refine ih ⟨?_, listsStored_insert holds.2⟩ different ?_
    · exact (listsActive_insert_iff holds.1).mpr (namesListed_of_unused holds.2 firstUnused)
    · intro id later
      have different : first.id ≠ id := by
        rintro rfl
        exact absent later
      rw [insertHyperedgeDirect_other different]
      exact unused id (mem_cons_of_mem _ later)

theorem lists_commitSuperEdgeBatch {tombstoneIds : List HyperEdgeId}
    (holds : tables.ListsActive ∧ tables.ListsStored)
    (committed : tables.commitSuperEdgeBatch tombstoneIds edges walTx = .ok final) :
    final.ListsActive ∧ final.ListsStored := by
  obtain ⟨different, unused, rfl⟩ := commitSuperEdgeBatch_ok committed
  refine lists_applyBatchNewEdges (lists_applyBatchTombstones tombstoneIds holds) different ?_
  intro id isNew
  rw [applyBatchTombstones_get, unused id isNew]
  simp

end Writers

end HyperedgeTables

inductive HyperedgeCall where
  | insertHyperedge (edge : HyperEdge)
  | relateNAry (id : HyperEdgeId) (predicate : EdgeType) (participants : List RoleBinding)
      (weight : F32) (docId : Option DocId)
  | tombstoneHyperedge (id : HyperEdgeId) (walTx : TxId)
  | commitSuperEdgeBatch (tombstoneIds : List HyperEdgeId) (newEdges : List HyperEdge)
      (walTx : TxId)
  | sweepOrphans (isEntity : EntityId → Bool) (walTx : TxId)
  | cascadeInvalidateHyperedges (supersededDocId : DocId) (walTx : TxId) (persisted : Bool)
  | processCascadeQueue (batchSize : Nat) (walTx : TxId)

namespace HyperedgeGraph

open HyperedgeTables

def new : HyperedgeGraph := ⟨.new, []⟩

def apply (graph : HyperedgeGraph) : HyperedgeCall → HyperedgeGraph
  | .insertHyperedge edge => { graph with tables := graph.tables.insertHyperedgeDirect edge }
  | .relateNAry id predicate participants weight docId =>
    match graph.tables.relateNAry id predicate participants weight docId with
    | .ok (_, tables) => { graph with tables }
    | .error _ => graph
  | .tombstoneHyperedge id walTx =>
    { graph with tables := (graph.tables.tombstoneHyperedge id walTx).2 }
  | .commitSuperEdgeBatch tombstoneIds newEdges walTx =>
    match graph.tables.commitSuperEdgeBatch tombstoneIds newEdges walTx with
    | .ok tables => { graph with tables }
    | .error _ => graph
  | .sweepOrphans isEntity walTx =>
    { graph with tables := graph.tables.sweepOrphans isEntity walTx }
  | .cascadeInvalidateHyperedges supersededDocId walTx persisted =>
    graph.cascadeInvalidateHyperedges supersededDocId walTx persisted
  | .processCascadeQueue batchSize walTx => graph.processCascadeQueue batchSize walTx

def step (graph : HyperedgeGraph) (call : HyperedgeCall) : Option HyperedgeGraph :=
  some (graph.apply call)

/-- The edge that a call inserts without a look at what is stored. -/
def directInsertion : HyperedgeCall → Option HyperEdge
  | .insertHyperedge edge => some edge
  | .relateNAry id predicate participants weight docId =>
    some ((HyperEdge.new id predicate participants weight).withSourceDocId docId) |>.filter
      fun edge => edge.validate.isOk
  | _ => none

/-- A direct insertion names every key under which its id is listed already. -/
def InsertsListed (graph : HyperedgeGraph) (call : HyperedgeCall) : Prop :=
  ∀ edge ∈ directInsertion call, graph.tables.NamesListed edge

variable {graph : HyperedgeGraph} {call : HyperedgeCall}

theorem relateNAry_tables {tables : HyperedgeTables} (id : HyperEdgeId) (predicate : EdgeType)
    (participants : List RoleBinding) (weight : F32) (docId : Option DocId) :
    tables.relateNAry id predicate participants weight docId =
      ((HyperEdge.new id predicate participants weight).withSourceDocId docId).validate.map
        fun _ => ((HyperEdge.new id predicate participants weight).withSourceDocId docId,
          tables.insertHyperedgeDirect
            ((HyperEdge.new id predicate participants weight).withSourceDocId docId)) := by
  simp only [relateNAry, ConsolidationNodesGuard.tryAcquire, bind, Except.bind]
  cases ((HyperEdge.new id predicate participants weight).withSourceDocId docId).validate <;> rfl

theorem lists_foldl_processEntry {tables : HyperedgeTables} {walTx : TxId}
    (entries : List (DocId × HyperEdgeId)) (holds : tables.ListsActive ∧ tables.ListsStored) :
    (entries.foldl (processEntry walTx) tables).ListsActive ∧
      (entries.foldl (processEntry walTx) tables).ListsStored := by
  induction entries generalizing tables with
  | nil => exact holds
  | cons entry entries ih =>
    exact ih (lists_applyBatchTombstones _ holds)

theorem apply_cases (holds : graph.tables.ListsActive ∧ graph.tables.ListsStored)
    (call : HyperedgeCall) :
    (∃ edge, directInsertion call = some edge ∧
      (graph.apply call).tables = graph.tables.insertHyperedgeDirect edge) ∨
    (directInsertion call = none ∧
      (graph.apply call).tables.ListsActive ∧ (graph.apply call).tables.ListsStored) := by
  cases call with
  | insertHyperedge edge => exact .inl ⟨edge, rfl, rfl⟩
  | relateNAry id predicate participants weight docId =>
    simp only [apply, directInsertion, relateNAry_tables]
    cases valid : ((HyperEdge.new id predicate participants weight).withSourceDocId
        docId).validate with
    | ok => exact .inl ⟨_, by simp [valid, Except.isOk, Except.toBool], rfl⟩
    | error error => exact .inr ⟨by simp [valid, Except.isOk, Except.toBool], holds⟩
  | tombstoneHyperedge id walTx =>
    exact .inr ⟨rfl, listsActive_tombstone holds.1, listsStored_tombstone holds.2⟩
  | commitSuperEdgeBatch tombstoneIds newEdges walTx =>
    refine .inr ⟨rfl, ?_⟩
    simp only [apply]
    split
    · rename_i committed
      exact lists_commitSuperEdgeBatch holds committed
    · exact holds
  | sweepOrphans isEntity walTx => exact .inr ⟨rfl, lists_applyBatchTombstones _ holds⟩
  | cascadeInvalidateHyperedges supersededDocId walTx persisted =>
    exact .inr ⟨rfl, lists_applyBatchTombstones _ holds⟩
  | processCascadeQueue batchSize walTx =>
    exact .inr ⟨rfl, lists_foldl_processEntry _ holds⟩

theorem listsActive_apply_iff (holds : graph.tables.ListsActive ∧ graph.tables.ListsStored) :
    (graph.apply call).tables.ListsActive ↔ graph.InsertsListed call := by
  rcases apply_cases holds call with ⟨edge, inserts, after⟩ | ⟨inserts, after, -⟩
  · rw [after, listsActive_insert_iff holds.1]
    simp [InsertsListed, inserts]
  · simp [InsertsListed, inserts, after]

theorem listsStored_apply (holds : graph.tables.ListsActive ∧ graph.tables.ListsStored) :
    (graph.apply call).tables.ListsStored := by
  rcases apply_cases holds call with ⟨edge, -, after⟩ | ⟨-, -, after⟩
  · rw [after]
    exact listsStored_insert holds.2
  · exact after

theorem along_insertsListed_iff (calls : List HyperedgeCall)
    (holds : graph.tables.ListsActive ∧ graph.tables.ListsStored) :
    Along step InsertsListed graph calls ↔
      ∀ earlier later reached, earlier ++ later = calls → run step graph earlier = some reached →
        reached.tables.ListsActive := by
  induction calls generalizing graph with
  | nil =>
    refine ⟨fun _ earlier later reached split finished => ?_, fun _ => trivial⟩
    obtain ⟨rfl, -⟩ := append_eq_nil_iff.mp split
    cases finished
    exact holds.1
  | cons call calls ih =>
    constructor
    · rintro ⟨inserts, rest⟩ earlier later reached split finished
      cases earlier with
      | nil =>
        cases finished
        exact holds.1
      | cons first earlier =>
        obtain ⟨rfl, restSplit⟩ := cons_eq_cons.mp split
        have kept := (listsActive_apply_iff holds).mpr inserts
        exact (ih ⟨kept, listsStored_apply holds⟩).mp (rest _ rfl) earlier
          later reached restSplit finished
    · intro exact
      have kept : (graph.apply call).tables.ListsActive := exact [call] calls _ rfl rfl
      refine ⟨(listsActive_apply_iff holds).mp kept, ?_⟩
      intro next taken
      cases taken
      refine (ih ⟨kept, listsStored_apply holds⟩).mpr ?_
      intro earlier later reached split finished
      exact exact (call :: earlier) later reached (by rw [cons_append, split]) finished

theorem lists_new : new.tables.ListsActive ∧ new.tables.ListsStored := by
  constructor
  · intro kind key id edge found
    simp [new, HyperedgeTables.new, getHyperedge] at found
  · intro kind key id isListed
    obtain ⟨set, found, -⟩ := isListed
    cases kind <;> simp [new, HyperedgeTables.new, index] at found

/-- The indexes are exact in every state of a run if and only if every direct insertion names the
keys under which its id is listed; and a batch that is refused changes nothing. -/
theorem indexesExact_iff_insertsListed (calls : List HyperedgeCall) :
    ((∀ earlier later reached, earlier ++ later = calls → run step new earlier = some reached →
        reached.tables.IndexesExact) ↔ Along step InsertsListed new calls) ∧
      ∀ graph tombstoneIds newEdges walTx error,
        graph.tables.commitSuperEdgeBatch tombstoneIds newEdges walTx = .error error →
        step graph (.commitSuperEdgeBatch tombstoneIds newEdges walTx) = some graph := by
  constructor
  · simp only [indexesExact_iff]
    exact (along_insertsListed_iff calls lists_new).symm
  · intro graph tombstoneIds newEdges walTx error refused
    rw [step, apply, refused]

/-- An id inserted again with other participants is still listed under the earlier ones. -/
theorem reinserted_hyperedge_listed :
    ∃ reached, run step new
        [.insertHyperedge (.new 1 .default [⟨0, 10⟩, ⟨0, 11⟩] .one),
          .insertHyperedge (.new 1 .default [⟨0, 20⟩, ⟨0, 21⟩] .one)] = some reached ∧
      1 ∈ reached.tables.hyperedgesForEntity 10 ∧ ¬ reached.tables.IndexesExact := by
  refine ⟨_, rfl, by decide +kernel, fun exact => ?_⟩
  obtain ⟨edge, found, names⟩ := (exact.forEntity 10 1).mp (by decide +kernel)
  have current : edge = .new 1 .default [⟨0, 20⟩, ⟨0, 21⟩] .one := by
    refine some.inj (found.symm.trans ?_)
    decide +kernel
  rw [current] at names
  revert names
  decide

end HyperedgeGraph

end Contextra.Graph
