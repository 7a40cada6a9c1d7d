import Contextra.Graph.Hyperedge
import Contextra.Library.Run

/-!
# Concurrent hyperedge calls

Any number of clients create hyperedges through the port, each in two steps: the id comes from a
snapshot, the insertion happens later under the write lock.  Tombstones and batches of other
callers fall in between.
-/

namespace Contextra.Graph

open Library List Option

/-- A port call between its two steps. -/
structure RelateCall where
  nextId : HyperEdgeId
  participants : List RoleBinding
  docId : DocId
  deriving DecidableEq, Repr

/-- What callers know has happened. -/
inductive HyperedgeRecord where
  | returned (id : HyperEdgeId) (participants : List RoleBinding)
  | committed (edge : HyperEdge)
  | tombstoned (id : HyperEdgeId)
  deriving DecidableEq, Repr

/-- The graph, the calls under way, and the records, newest first. -/
structure HyperedgeSystem where
  tables : HyperedgeTables
  pending : List RelateCall
  records : List HyperedgeRecord

inductive HyperedgeEvent where
  | relateNAry (predicateTag : Nat) (participants : List RoleBinding) (docId : DocId)
  | insert (index : Nat)
  | tombstoneHyperedge (id : HyperEdgeId) (walTx : TxId)
  | commitSuperEdgeBatch (tombstoneIds : List HyperEdgeId) (newEdges : List HyperEdge)
      (walTx : TxId)
  deriving DecidableEq, Repr

def RelateCall.hyperedge (call : RelateCall) : HyperEdge :=
  (HyperEdge.new call.nextId .default call.participants .one).withSourceDocId (some call.docId)

namespace HyperedgeSystem

def initial (tables : HyperedgeTables) : HyperedgeSystem := ⟨tables, [], []⟩

/-- The second half of the port's `relate_n_ary`. -/
def insertCall (system : HyperedgeSystem) (index : Nat) (call : RelateCall) : HyperedgeSystem :=
  match system.tables.relateNAry call.nextId .default call.participants .one
      (some call.docId) with
  | .ok (hyperedge, tables) =>
    { tables, pending := system.pending.eraseIdx index,
      records := .returned hyperedge.id call.participants :: system.records }
  | .error _ => { system with pending := system.pending.eraseIdx index }

def step (system : HyperedgeSystem) : HyperedgeEvent → Option HyperedgeSystem
  -- the predicate tag is not used
  | .relateNAry _ participants docId =>
    match system.tables.nextHyperedgeId with
    | some nextId =>
      some { system with pending := system.pending ++ [⟨nextId, participants, docId⟩] }
    | none => some system
  | .insert index => system.pending[index]?.map (system.insertCall index)
  | .tombstoneHyperedge id walTx =>
    some { system with
      tables := (system.tables.tombstoneHyperedge id walTx).2
      records := .tombstoned id :: system.records }
  | .commitSuperEdgeBatch tombstoneIds newEdges walTx =>
    match system.tables.commitSuperEdgeBatch tombstoneIds newEdges walTx with
    | .ok tables =>
      some { system with
        tables
        records := newEdges.map .committed ++ (tombstoneIds.map .tombstoned ++ system.records) }
    | .error _ => some system

/-- The id under which a call is about to insert is not in use. -/
def FreeId (system : HyperedgeSystem) : HyperedgeEvent → Prop
  | .insert index => ∀ call ∈ system.pending[index]?, call.hyperedge.validate.isOk →
      system.tables.hyperedges.contains call.nextId = false
  | _ => True

instance (system : HyperedgeSystem) : ∀ event, Decidable (system.FreeId event)
  | .insert index =>
    inferInstanceAs (Decidable (∀ call ∈ system.pending[index]?, call.hyperedge.validate.isOk →
      system.tables.hyperedges.contains call.nextId = false))
  | .relateNAry .. | .tombstoneHyperedge .. | .commitSuperEdgeBatch .. =>
    inferInstanceAs (Decidable True)

end HyperedgeSystem

def HyperedgeRecord.returnedId : HyperedgeRecord → Option HyperEdgeId
  | .returned id _ => some id
  | _ => none

def HyperedgeRecord.Stores (id : HyperEdgeId) (participants : List RoleBinding) :
    HyperedgeRecord → Prop
  | .returned stored given => stored = id ∧ given = participants
  | .committed edge => edge.id = id ∧ edge.participants = participants
  | .tombstoned _ => False

/-- A call returned the id for the participants, and the id was not tombstoned after that. -/
def Awaited (id : HyperEdgeId) (participants : List RoleBinding) : List HyperedgeRecord → Prop
  | [] => False
  | .returned stored given :: earlier =>
    (stored = id ∧ given = participants) ∨ Awaited id participants earlier
  | .committed _ :: earlier => Awaited id participants earlier
  | .tombstoned closed :: earlier => closed ≠ id ∧ Awaited id participants earlier

structure HyperedgeSystem.NoOverwrite (system : HyperedgeSystem) : Prop where
  different : (system.records.filterMap HyperedgeRecord.returnedId).Nodup
  found : ∀ id participants, Awaited id participants system.records →
    ∃ edge, system.tables.getHyperedge id = some edge ∧ edge.participants = participants
  kept : ∀ record ∈ system.records, ∀ id participants, record.Stores id participants →
    ∃ edge, system.tables.hyperedges[id]? = some edge ∧ edge.participants = participants

/-- What is stored stays; nothing but the listed ids is closed. -/
def HyperedgeTables.Keeps (closed : List HyperEdgeId) (tables later : HyperedgeTables) : Prop :=
  ∀ id edge, tables.hyperedges[id]? = some edge → ∃ now, later.hyperedges[id]? = some now ∧
    now.participants = edge.participants ∧ (id ∉ closed → now.txValidTo = edge.txValidTo)

section Keeps

variable {tables middle later : HyperedgeTables} {closed : List HyperEdgeId} {edge : HyperEdge}
  {edges : List HyperEdge} {id : HyperEdgeId} {walTx : TxId}

theorem HyperedgeTables.getHyperedge_eq_some :
    tables.getHyperedge id = some edge ↔
      tables.hyperedges[id]? = some edge ∧ edge.txValidTo = none := by
  simp [HyperedgeTables.getHyperedge, filter_eq_some_iff]

theorem HyperedgeTables.Keeps.found (keeps : tables.Keeps closed later)
    (before : tables.getHyperedge id = some edge) (stillOpen : id ∉ closed) :
    ∃ now, later.getHyperedge id = some now ∧ now.participants = edge.participants := by
  obtain ⟨stored, isOpen⟩ := getHyperedge_eq_some.mp before
  obtain ⟨now, storedNow, same, unchanged⟩ := keeps id edge stored
  exact ⟨now, getHyperedge_eq_some.mpr ⟨storedNow, (unchanged stillOpen).trans isOpen⟩, same⟩

theorem HyperedgeTables.keeps_insert (free : tables.hyperedges[edge.id]? = none) :
    tables.Keeps [] (tables.insertHyperedgeDirect edge) := by
  intro id old stored
  have different : edge.id ≠ id := by
    rintro rfl
    rw [free] at stored
    cases stored
  exact ⟨old, (insertHyperedgeDirect_other different).trans stored, rfl, fun _ => rfl⟩

theorem HyperedgeTables.keeps_tombstones (tombstoneIds : List HyperEdgeId) :
    tables.Keeps tombstoneIds (tables.applyBatchTombstones tombstoneIds walTx) := by
  intro id edge stored
  rw [applyBatchTombstones_get, stored]
  split
  · rename_i mem
    exact ⟨_, rfl, closedAt_participants, fun absent => absurd mem absent⟩
  · exact ⟨edge, rfl, rfl, fun _ => rfl⟩

theorem HyperedgeTables.keeps_batch {tombstoneIds : List HyperEdgeId}
    (unused : ∀ id ∈ edges.map (·.id), tables.hyperedges[id]? = none) :
    tables.Keeps tombstoneIds
      ((tables.applyBatchTombstones tombstoneIds walTx).applyBatchNewEdges edges) := by
  intro id edge stored
  have absent : id ∉ edges.map (·.id) := by
    intro mem
    rw [unused id mem] at stored
    cases stored
  rw [applyBatchNewEdges_other absent]
  exact keeps_tombstones tombstoneIds id edge stored

end Keeps

section Awaited

variable {id : HyperEdgeId} {participants : List RoleBinding} {earlier : List HyperedgeRecord}

theorem awaited_committed (edges : List HyperEdge) :
    Awaited id participants (edges.map .committed ++ earlier) ↔
      Awaited id participants earlier := by
  induction edges with
  | nil => rfl
  | cons edge edges ih => exact ih

theorem awaited_tombstoned (ids : List HyperEdgeId) :
    Awaited id participants (ids.map .tombstoned ++ earlier) ↔
      id ∉ ids ∧ Awaited id participants earlier := by
  induction ids with
  | nil => simp
  | cons first ids ih =>
    have step : Awaited id participants ((first :: ids).map .tombstoned ++ earlier) ↔
        first ≠ id ∧ Awaited id participants (ids.map .tombstoned ++ earlier) := Iff.rfl
    rw [step, ih, mem_cons, not_or, and_assoc, ne_comm]

end Awaited

namespace HyperedgeSystem

variable {system next final : HyperedgeSystem} {event : HyperedgeEvent}

theorem NoOverwrite.kept_later {tables : HyperedgeTables} {closed : List HyperEdgeId}
    (holds : system.NoOverwrite) (keeps : system.tables.Keeps closed tables)
    {record : HyperedgeRecord} (mem : record ∈ system.records) {id : HyperEdgeId}
    {participants : List RoleBinding} (stores : record.Stores id participants) :
    ∃ edge, tables.hyperedges[id]? = some edge ∧ edge.participants = participants := by
  obtain ⟨edge, stored, same⟩ := holds.kept record mem id participants stores
  obtain ⟨now, storedNow, unchanged, -⟩ := keeps id edge stored
  exact ⟨now, storedNow, unchanged.trans same⟩

theorem NoOverwrite.found_later {tables : HyperedgeTables} {closed : List HyperEdgeId}
    (holds : system.NoOverwrite) (keeps : system.tables.Keeps closed tables) {id : HyperEdgeId}
    {participants : List RoleBinding} (awaited : Awaited id participants system.records)
    (stillOpen : id ∉ closed) :
    ∃ edge, tables.getHyperedge id = some edge ∧ edge.participants = participants := by
  obtain ⟨edge, found, same⟩ := holds.found id participants awaited
  obtain ⟨now, foundNow, unchanged⟩ := keeps.found found stillOpen
  exact ⟨now, foundNow, unchanged.trans same⟩

theorem NoOverwrite.not_returned (holds : system.NoOverwrite) {id : HyperEdgeId}
    (free : system.tables.hyperedges[id]? = none) :
    id ∉ system.records.filterMap HyperedgeRecord.returnedId := by
  intro mem
  obtain ⟨record, inRecords, isId⟩ := mem_filterMap.mp mem
  cases record with
  | returned stored participants =>
    cases isId
    obtain ⟨edge, inUse, -⟩ := holds.kept _ inRecords id participants ⟨rfl, rfl⟩
    rw [free] at inUse
    cases inUse
  | committed edge => cases isId
  | tombstoned closed => cases isId

theorem relateNAry_eq (tables : HyperedgeTables) (call : RelateCall) :
    tables.relateNAry call.nextId .default call.participants .one (some call.docId) =
      call.hyperedge.validate.map
        fun _ => (call.hyperedge, tables.insertHyperedgeDirect call.hyperedge) := by
  simp only [HyperedgeTables.relateNAry, ConsolidationNodesGuard.tryAcquire, bind, Except.bind]
  rw [← RelateCall.hyperedge]
  cases call.hyperedge.validate <;> rfl

theorem insertCall_noOverwrite (holds : system.NoOverwrite) {index : Nat} {call : RelateCall}
    (free : call.hyperedge.validate.isOk →
      system.tables.hyperedges.contains call.nextId = false) :
    (system.insertCall index call).NoOverwrite := by
  simp only [insertCall, relateNAry_eq]
  cases valid : call.hyperedge.validate with
  | error error => exact ⟨holds.different, holds.found, holds.kept⟩
  | ok =>
    have unused : system.tables.hyperedges[call.hyperedge.id]? = none := by
      have absent := free (by rw [valid]; rfl)
      rwa [Std.TreeMap.contains_eq_isSome_getElem?, isSome_eq_false_iff,
        isNone_iff_eq_none] at absent
    have keeps := HyperedgeTables.keeps_insert unused
    have stored : (system.tables.insertHyperedgeDirect call.hyperedge).hyperedges[
        call.hyperedge.id]? = some call.hyperedge :=
      HyperedgeTables.insertHyperedgeDirect_self
    refine ⟨?_, ?_, ?_⟩
    · exact nodup_cons.mpr ⟨holds.not_returned unused, holds.different⟩
    · intro id participants awaited
      rcases awaited with ⟨rfl, rfl⟩ | earlier
      · exact ⟨call.hyperedge, HyperedgeTables.getHyperedge_eq_some.mpr ⟨stored, rfl⟩, rfl⟩
      · exact holds.found_later keeps earlier not_mem_nil
    · intro record mem id participants stores
      rcases mem_cons.mp mem with rfl | earlier
      · obtain ⟨rfl, rfl⟩ := stores
        exact ⟨call.hyperedge, stored, rfl⟩
      · exact holds.kept_later keeps earlier stores

theorem tombstone_noOverwrite (holds : system.NoOverwrite) (id : HyperEdgeId) (walTx : TxId) :
    NoOverwrite { system with
      tables := (system.tables.tombstoneHyperedge id walTx).2
      records := .tombstoned id :: system.records } := by
  have keeps : system.tables.Keeps [id] (system.tables.tombstoneHyperedge id walTx).2 :=
    HyperedgeTables.keeps_tombstones [id]
  refine ⟨holds.different, ?_, ?_⟩
  · rintro other participants ⟨different, earlier⟩
    apply holds.found_later keeps earlier
    exact fun same => different (mem_singleton.mp same).symm
  · intro record mem other participants stores
    rcases mem_cons.mp mem with rfl | earlier
    · exact stores.elim
    · exact holds.kept_later keeps earlier stores

theorem batch_noOverwrite (holds : system.NoOverwrite) {tombstoneIds : List HyperEdgeId}
    {newEdges : List HyperEdge} {walTx : TxId} {tables : HyperedgeTables}
    (committed : system.tables.commitSuperEdgeBatch tombstoneIds newEdges walTx = .ok tables) :
    NoOverwrite { system with
      tables
      records := newEdges.map .committed ++
        (tombstoneIds.map .tombstoned ++ system.records) } := by
  obtain ⟨different, unused, rfl⟩ := HyperedgeTables.commitSuperEdgeBatch_ok committed
  have keeps : system.tables.Keeps tombstoneIds
      ((system.tables.applyBatchTombstones tombstoneIds walTx).applyBatchNewEdges newEdges) :=
    HyperedgeTables.keeps_batch unused
  refine ⟨?_, ?_, ?_⟩
  · simpa [filterMap_append, filterMap_map, Function.comp_def,
      HyperedgeRecord.returnedId] using holds.different
  · intro id participants awaited
    obtain ⟨stillOpen, earlier⟩ := (awaited_tombstoned _).mp ((awaited_committed _).mp awaited)
    exact holds.found_later keeps earlier stillOpen
  · intro record mem id participants stores
    rcases mem_append.mp mem with inBatch | rest
    · obtain ⟨edge, isNew, rfl⟩ := List.mem_map.mp inBatch
      obtain ⟨rfl, rfl⟩ := stores
      exact ⟨edge, HyperedgeTables.applyBatchNewEdges_mem different isNew, rfl⟩
    · rcases mem_append.mp rest with closed | earlier
      · obtain ⟨other, -, rfl⟩ := List.mem_map.mp closed
        exact stores.elim
      · exact holds.kept_later keeps earlier stores

theorem step_noOverwrite (holds : system.NoOverwrite) (free : system.FreeId event)
    (taken : system.step event = some next) : next.NoOverwrite := by
  cases event with
  | relateNAry predicateTag participants docId =>
    simp only [step] at taken
    split at taken <;> cases taken
    · exact ⟨holds.different, holds.found, holds.kept⟩
    · exact holds
  | insert index =>
    obtain ⟨call, underWay, rfl⟩ := map_eq_some_iff.mp taken
    exact insertCall_noOverwrite holds (free call underWay)
  | tombstoneHyperedge id walTx =>
    cases taken
    exact tombstone_noOverwrite holds id walTx
  | commitSuperEdgeBatch tombstoneIds newEdges walTx =>
    simp only [step] at taken
    split at taken
    · rename_i tables committed
      cases taken
      exact batch_noOverwrite holds committed
    · cases taken
      exact holds

/-- While every call inserts under a free id no hyperedge is overwritten: each returned id is new
and leads to the participants of its call until it is tombstoned. -/
theorem noOverwrite_of_freeIds {tables : HyperedgeTables} {events : List HyperedgeEvent}
    (guarded : Along step FreeId (initial tables) events)
    (reached : run step (initial tables) events = some final) : final.NoOverwrite := by
  refine run_invariant ?_ ?_ guarded reached
  · intro system event next holds free taken
    exact step_noOverwrite holds free taken
  · exact ⟨nodup_nil, fun id participants awaited => awaited.elim,
      fun record mem => nomatch mem⟩

/-- Two calls one after the other, with a tombstone and a batch in between. -/
theorem noOverwrite_of_freeIds_uninterrupted :
    ∃ final, run step (initial .new)
        [.relateNAry 0 [⟨1, 10⟩, ⟨2, 20⟩] 7, .insert 0,
          .commitSuperEdgeBatch [1] [.new 2 .default [⟨0, 10⟩, ⟨0, 30⟩] .one] 5,
          .relateNAry 0 [⟨1, 30⟩, ⟨2, 40⟩] 8, .insert 0, .tombstoneHyperedge 2 6] = some final ∧
      final.NoOverwrite := by
  have guarded : Along step FreeId (initial .new)
      [.relateNAry 0 [⟨1, 10⟩, ⟨2, 20⟩] 7, .insert 0,
        .commitSuperEdgeBatch [1] [.new 2 .default [⟨0, 10⟩, ⟨0, 30⟩] .one] 5,
        .relateNAry 0 [⟨1, 30⟩, ⟨2, 40⟩] 8, .insert 0, .tombstoneHyperedge 2 6] := by
    decide +kernel
  exact ⟨_, rfl, noOverwrite_of_freeIds guarded rfl⟩

/-- Two clients with different participants read the same largest id; both are given id 1 and
the second edge takes the place of the first. -/
theorem overlapping_calls_overwrite :
    ∃ final, run step (initial .new)
        [.relateNAry 0 [⟨1, 10⟩, ⟨2, 20⟩] 7, .relateNAry 0 [⟨1, 30⟩, ⟨2, 40⟩] 8,
          .insert 0, .insert 0] = some final ∧ ¬ final.NoOverwrite := by
  refine ⟨_, rfl, fun holds => ?_⟩
  have different := holds.different
  revert different
  decide +kernel

end HyperedgeSystem

end Contextra.Graph
