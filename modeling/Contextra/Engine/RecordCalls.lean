import Contextra.Engine.Records
import Contextra.Library.Run

/-!
# The two records of a document, over all calls

A call reads the committed records, stages its writes and commits them together, or fails and
writes nothing.  An upsert, an update and a deletion write both records; the other calls may
write one of them.
-/

namespace Contextra.Engine

open Library List Function
open Erasure (Blake3)
open Graph (DocId F32)

/-- A call with its transaction.  The storage and the indexes let it through if it is granted. -/
inductive RecordCall where
  | insert (id : Utf8) (embedding : List F32) (metadata : Option Json)
  | upsert (id : Utf8) (embedding : List F32) (metadata : Option Json)
  | update (id : Utf8) (embedding : List F32) (metadata : Option Json)
  | delete (id : Utf8)
  | linkMemories (source target : DocId) (relation : LinkRelation)
  | putKv (id : Utf8) (value : Json)

structure RecordEvent where
  tx : TxId
  granted : Bool
  call : RecordCall

namespace Collection

variable (collection : Collection)

def writesOf (records : Records) (tx : TxId) :
    RecordCall → Except ContextraError (Writes Bytes Json)
  | .insert id embedding metadata => collection.insert records tx id embedding metadata
  | .upsert id embedding metadata => collection.upsert records tx id embedding metadata
  | .update id embedding metadata => collection.update records tx id embedding metadata
  | .delete id => collection.delete id
  | .linkMemories source target relation => collection.linkMemories records tx source target relation
  | .putKv id value => collection.putKv id value

def committed (records : Records) (event : RecordEvent) : Writes Bytes Json :=
  if event.granted then
    match collection.writesOf records event.tx event.call with
    | .ok writes => writes
    | .error _ => []
  else []

def step (records : Records) (event : RecordEvent) : Option Records :=
  some (applyWrites records (collection.committed records event))

/-- Both records are absent, or both are there with the same id and the same metadata. -/
def RecordsAgree (records : Records) (id : Utf8) : Prop :=
  (records (collection.userKey id) = none ∧ records (collection.docKeyOf id) = none) ∨
    ∃ document : StoredDocument, document.id = id ∧
      records (collection.userKey id) = some document.toJson ∧
      records (collection.docKeyOf id) = some (StoredDocumentMeta.from document).toJson

/-- An upsert, an update or a deletion of the id, or an insertion of it where it has no doc-id
record. -/
def Rewrites (id : Utf8) (records : Records) : RecordCall → Prop
  | .insert other _ _ => other = id ∧ records (collection.docKeyOf id) = none
  | .upsert other _ _ => other = id
  | .update other _ _ => other = id
  | .delete other => other = id
  | .linkMemories .. => False
  | .putKv .. => False

def WritesBoth (id : Utf8) (records : Records) (event : RecordEvent) : Prop :=
  (∀ write ∈ collection.committed records event,
      write.1 ≠ collection.userKey id ∧ write.1 ≠ collection.docKeyOf id) ∨
    collection.Rewrites id records event.call

variable {collection} {records : Records} {id : Utf8} {event : RecordEvent}
  {writes : Writes Bytes Json} {tx : TxId} {embedding : List F32} {metadata : Option Json}

theorem bind_eq_ok {ε α β : Type} {first : Except ε α} {rest : α → Except ε β} {result : β}
    (succeeds : first >>= rest = .ok result) : ∃ value, first = .ok value ∧ rest value = .ok result := by
  cases first with
  | error error => cases succeeds
  | ok value => exact ⟨value, rfl, succeeds⟩

def IsDocument (collection : Collection) (id : Utf8) (writes : Writes Bytes Json) : Prop :=
  ∃ document : StoredDocument, document.id = id ∧
    writes = [(collection.userKey id, some document.toJson),
      (collection.docKeyOf id, some (StoredDocumentMeta.from document).toJson)]

theorem insertOp_eq_ok (absent : records (collection.docKeyOf id) = none)
    (apart : collection.userKey id ≠ collection.docKeyOf id)
    (accepted : collection.insertOp records [] tx id embedding metadata = .ok writes) :
    IsDocument collection id writes := by
  refine ⟨⟨id, embedding, collection.preparedMetadata tx metadata⟩, rfl, ?_⟩
  have put : ∀ json value, putIfAbsent records [(collection.userKey id, some json)]
      (collection.docKeyOf id) value = [(collection.docKeyOf id, some value)] := by
    intro json value
    simp [putIfAbsent, lastWrite, absent, apart]
  obtain ⟨-, -, accepted⟩ := bind_eq_ok accepted
  obtain ⟨-, -, accepted⟩ := bind_eq_ok accepted
  obtain ⟨-, -, accepted⟩ := bind_eq_ok accepted
  simp only [nil_append, put] at accepted
  rw [if_neg (by simp)] at accepted
  cases accepted
  rfl

theorem updateOp_eq_ok
    (accepted : collection.updateOp records [] tx id embedding metadata = .ok writes) :
    IsDocument collection id writes := by
  refine ⟨⟨id, embedding, collection.preparedMetadata tx metadata⟩, rfl, ?_⟩
  obtain ⟨-, -, accepted⟩ := bind_eq_ok accepted
  obtain ⟨-, -, accepted⟩ := bind_eq_ok accepted
  obtain ⟨-, -, accepted⟩ := bind_eq_ok accepted
  cases accepted
  rfl

theorem deleteOp_eq_ok (accepted : collection.deleteOp [] id = .ok writes) :
    writes = [(collection.userKey id, none), (collection.docKeyOf id, none)] := by
  obtain ⟨-, -, accepted⟩ := bind_eq_ok accepted
  cases accepted
  rfl

theorem IsDocument.recordsAgree (isDocument : IsDocument collection id writes)
    (apart : collection.userKey id ≠ collection.docKeyOf id) :
    collection.RecordsAgree (applyWrites records writes) id := by
  obtain ⟨document, sameId, rfl⟩ := isDocument
  refine .inr ⟨document, sameId, ?_, update_self ..⟩
  exact (update_of_ne apart ..).trans (update_self ..)

theorem recordsAgree_deleted (apart : collection.userKey id ≠ collection.docKeyOf id) :
    collection.RecordsAgree
      (applyWrites records [(collection.userKey id, none), (collection.docKeyOf id, none)]) id :=
  .inl ⟨(update_of_ne apart ..).trans (update_self ..), update_self ..⟩

theorem writesOf_recordsAgree (apart : collection.userKey id ≠ collection.docKeyOf id)
    {call : RecordCall} (accepted : collection.writesOf records tx call = .ok writes)
    (kind : collection.Rewrites id records call) :
    collection.RecordsAgree (applyWrites records writes) id := by
  cases call with
  | insert other embedding metadata =>
    obtain ⟨rfl, absent⟩ := kind
    obtain ⟨-, -, accepted⟩ := bind_eq_ok accepted
    obtain ⟨-, -, accepted⟩ := bind_eq_ok accepted
    obtain ⟨-, -, accepted⟩ := bind_eq_ok accepted
    exact (insertOp_eq_ok absent apart accepted).recordsAgree apart
  | upsert other embedding metadata =>
    obtain rfl := kind
    obtain ⟨-, -, accepted⟩ := bind_eq_ok accepted
    obtain ⟨-, -, accepted⟩ := bind_eq_ok accepted
    exact (updateOp_eq_ok accepted).recordsAgree apart
  | update other embedding metadata =>
    obtain rfl := kind
    obtain ⟨-, -, accepted⟩ := bind_eq_ok accepted
    exact (updateOp_eq_ok accepted).recordsAgree apart
  | delete other =>
    obtain rfl := kind
    obtain rfl := deleteOp_eq_ok accepted
    exact recordsAgree_deleted apart
  | linkMemories source target relation => exact kind.elim
  | putKv other value => exact kind.elim

theorem RecordsAgree.step (agrees : collection.RecordsAgree records id)
    (apart : collection.userKey id ≠ collection.docKeyOf id)
    (writesBoth : collection.WritesBoth id records event) :
    collection.RecordsAgree (applyWrites records (collection.committed records event)) id := by
  rcases writesBoth with untouched | kind
  · have user : applyWrites records (collection.committed records event) (collection.userKey id) =
        records (collection.userKey id) :=
      applyWrites_of_untouched fun write mem => (untouched write mem).1
    have doc : applyWrites records (collection.committed records event) (collection.docKeyOf id) =
        records (collection.docKeyOf id) :=
      applyWrites_of_untouched fun write mem => (untouched write mem).2
    unfold RecordsAgree
    rwa [user, doc]
  · unfold committed
    split
    · split
      · rename_i accepted
        exact writesOf_recordsAgree apart accepted kind
      · exact agrees
    · exact agrees

theorem length_smallHash : (replicate 32 (7 : UInt8)).length = 32 := length_replicate

/-- A collection of vectors with one entry; its scoring keeps the metadata. -/
def small : Collection where
  name := ascii "c"
  dimension := 1
  blake3 := fun _ => ⟨replicate 32 7, length_smallHash⟩
  ensureImportance := fun _ metadata => some (metadata.getD (.obj []))

end Collection

end Contextra.Engine
