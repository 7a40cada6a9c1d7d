import Contextra.Engine.Records
import Contextra.Library.Reachability

/-!
# Stored links and the search for a cycle

The links of a document are read from its doc-id record.  Storing a link changes the links of no
other document.
-/

namespace Contextra.Engine

open Library List
open Graph (DocId F32)

variable {fields : List (String × Json)} {name other : String} {value : Json} {id : Utf8}
  {tx : TxId} {target : DocId} {relation : LinkRelation} {metadata : Option Json}

@[simp] theorem getField_insertField :
    getField (insertField name value fields) other =
      if name = other then some value else getField fields other := by
  induction fields with
  | nil => rfl
  | cons field fields ih =>
    obtain ⟨first, old⟩ := field
    by_cases before : name < first
    · simp [insertField, before, getField]
    · by_cases same : name = first
      · subst same
        by_cases isOther : name = other <;> simp [insertField, getField, isOther]
      · by_cases isOther : first = other
        · subst isOther
          simp [insertField, before, same, getField]
        · simp [insertField, before, same, getField, isOther, ih]

theorem LinkRelation.fromString_toString (relation : LinkRelation) :
    LinkRelation.fromString (ascii relation.toString) = some relation := by
  cases relation <;> decide

theorem MemoryLink.fromJson_toJson (link : MemoryLink) :
    MemoryLink.fromJson link.toJson = some link := by
  simp [fromJson, toJson, getField, LinkRelation.fromString_toString]

theorem mapM_fromJson_toJson (links : List MemoryLink) :
    (links.map MemoryLink.toJson).mapM MemoryLink.fromJson = some links := by
  induction links with
  | nil => rfl
  | cons link links ih =>
    rw [map_cons, mapM_cons, ih, MemoryLink.fromJson_toJson]
    rfl

namespace Collection

variable {collection : Collection} {records : Records} {docId source : DocId} {record : Json}
  {writes : Writes Bytes Json}

/-- The links of a document's metadata. -/
def linksIn : Option Json → List MemoryLink
  | some (.obj fields) => linksOf fields
  | _ => []

theorem addLink_eq_some (added : addLink tx target relation metadata = some fields) :
    linksOf (insertField "updated_at_tx" (.int tx) fields) =
      linksIn metadata ++ [⟨target, relation, tx⟩] := by
  have links : ∀ old, addLink tx target relation (some (.obj old)) = some fields →
      linksOf (insertField "updated_at_tx" (.int tx) fields) =
        linksOf old ++ [⟨target, relation, tx⟩] := by
    intro old added
    simp only [addLink, Option.getD_some] at added
    split at added
    · cases added
    · cases added
      have kept : getField (insertField "updated_at_tx" (.int tx) (insertField "links"
          (.arr ((linksOf old ++ [MemoryLink.mk target relation tx]).map MemoryLink.toJson)) old))
            "links" = some (.arr ((linksOf old ++ [MemoryLink.mk target relation tx]).map
              MemoryLink.toJson)) := by
        simp
      unfold linksOf at kept ⊢
      rw [kept]
      dsimp only
      rw [mapM_fromJson_toJson]
      rfl
  cases metadata with
  | none => exact links [] added
  | some json =>
    cases json with
    | obj old => exact links old added
    | _ => cases added

def metadataOf (value : Json) : Option Json :=
  match StoredDocumentMeta.fromJson value with
  | some record => record.metadata
  | none => (StoredDocument.fromJson value).bind StoredDocument.metadata

theorem getLinks_eq :
    collection.getLinks records docId =
      linksIn ((records (collection.docKey docId)).bind metadataOf) := by
  unfold getLinks metadataOf linksIn
  cases records (collection.docKey docId) with
  | none => rfl
  | some value => rfl

theorem metadataOf_meta {document : StoredDocumentMeta} {value : Json}
    (isMeta : StoredDocumentMeta.fromJson value = some document) :
    metadataOf value = document.metadata ∧ existingId value = some document.id := by
  constructor
  · rw [metadataOf, isMeta]
  · rw [existingId, isMeta]

theorem metadataOf_full {document : StoredDocument} {value : Json}
    (noMeta : StoredDocumentMeta.fromJson value = none)
    (isFull : StoredDocument.fromJson value = some document) :
    metadataOf value = document.metadata ∧ existingId value = some document.id := by
  constructor
  · rw [metadataOf, noMeta, isFull]
    rfl
  · rw [existingId, noMeta, isFull]
    rfl

theorem updateMetadataLinks_eq {updated value : Json}
    (changed : updateMetadataLinks tx value target relation = (some id, some updated)) :
    existingId value = some id ∧
      linksIn (metadataOf updated) = linksIn (metadataOf value) ++ [⟨target, relation, tx⟩] := by
  unfold updateMetadataLinks at changed
  cases isMeta : StoredDocumentMeta.fromJson value with
  | some document =>
    rw [isMeta] at changed
    obtain ⟨sameId, isUpdated⟩ := Prod.mk.inj changed
    obtain ⟨fields, added, rfl⟩ := Option.map_eq_some_iff.mp isUpdated
    obtain ⟨sameMetadata, isId⟩ := metadataOf_meta isMeta
    rw [sameMetadata, isId]
    exact ⟨sameId, addLink_eq_some added⟩
  | none =>
    rw [isMeta] at changed
    cases isFull : StoredDocument.fromJson value with
    | some document =>
      rw [isFull] at changed
      obtain ⟨sameId, isUpdated⟩ := Prod.mk.inj changed
      obtain ⟨fields, added, rfl⟩ := Option.map_eq_some_iff.mp isUpdated
      obtain ⟨sameMetadata, isId⟩ := metadataOf_full isMeta isFull
      rw [sameMetadata, isId]
      exact ⟨sameId, addLink_eq_some added⟩
    | none =>
      rw [isFull] at changed
      cases changed

/-- The writes of `link_memories` once the search has met no cycle. -/
def linkWrites (collection : Collection) (records : Records) (tx : TxId) (source target : DocId)
    (relation : LinkRelation) : Writes Bytes Json :=
  match records (collection.docKey source) with
  | none => []
  | some value =>
    match updateMetadataLinks tx value target relation with
    | (some id, some updated) =>
      (collection.docKey source, some updated) ::
        collection.linkUserRecord records tx id target relation
    | _ => []

/-- The documents that the search goes to from a document. -/
def targetsOf (collection : Collection) (records : Records) (relation : LinkRelation)
    (docId : DocId) : List DocId :=
  ((collection.getLinks records docId).filter fun link => link.relation = relation).map
    MemoryLink.target

def Linked (collection : Collection) (records : Records) (relation : LinkRelation)
    (source target : DocId) : Prop :=
  source < 2 ^ 64 ∧ target ∈ collection.targetsOf records relation source

theorem mem_targetsOf :
    target ∈ collection.targetsOf records relation source ↔
      ∃ link ∈ collection.getLinks records source, link.relation = relation ∧ link.target = target := by
  simp [targetsOf, and_assoc]

theorem docKey_inj {other : DocId} (docBound : docId < 2 ^ 64) (otherBound : other < 2 ^ 64) :
    collection.docKey docId = collection.docKey other ↔ docId = other := by
  constructor
  · intro same
    have sameBytes : docIdBytes docId = docIdBytes other := namespacedKey_inj.mp same
    have docRead : fromLeBytes (docIdBytes docId) = docId := fromLeBytes_toLeBytes docBound
    have otherRead : fromLeBytes (docIdBytes other) = other := fromLeBytes_toLeBytes otherBound
    rw [← docRead, ← otherRead, sameBytes]
  · exact congrArg _

/-- The id in the record of a document begins like no key of the collection's own records. -/
def HasPlainId (collection : Collection) (records : Records) (source : DocId) : Prop :=
  collection.isDefault = true →
    ∀ id, (records (collection.docKey source)).bind existingId = some id → isInternal id = false

theorem linkUserRecord_key (write : Bytes × Option Json)
    (isWrite : write ∈ collection.linkUserRecord records tx id target relation) :
    write.1 = collection.userKey id := by
  unfold linkUserRecord at isWrite
  split at isWrite
  · split at isWrite
    · rw [mem_singleton.mp isWrite]
    · cases isWrite
  · cases isWrite

theorem getLinks_linkWrites (docBound : docId < 2 ^ 64) (sourceBound : source < 2 ^ 64)
    (plain : collection.HasPlainId records source) :
    let next := applyWrites records (collection.linkWrites records tx source target relation)
    collection.getLinks next docId = collection.getLinks records docId ∨
      (docId = source ∧ collection.getLinks next docId =
        collection.getLinks records docId ++ [⟨target, relation, tx⟩]) := by
  intro next
  cases stored : records (collection.docKey source) with
  | none =>
    have unchanged : next = records := by
      dsimp only [next]
      rw [linkWrites, stored]
      rfl
    rw [unchanged]
    exact .inl rfl
  | some value =>
    rcases changed : updateMetadataLinks tx value target relation with ⟨_ | id, _ | updated⟩
    case some.some =>
      have writes : next = applyWrites
          (Function.update records (collection.docKey source) (some updated))
          (collection.linkUserRecord records tx id target relation) := by
        dsimp only [next]
        rw [linkWrites, stored]
        dsimp only
        rw [changed]
        rfl
      have isPlain : collection.isDefault = true → isInternal id = false := by
        intro isDefault
        apply plain isDefault id
        rw [stored]
        exact (updateMetadataLinks_eq changed).1
      have kept : next (collection.docKey docId) =
          Function.update records (collection.docKey source) (some updated)
            (collection.docKey docId) := by
        rw [writes]
        apply applyWrites_of_untouched
        intro write isWrite
        rw [linkUserRecord_key write isWrite]
        exact userKey_ne_docKey isPlain
      by_cases same : docId = source
      · subst same
        refine .inr ⟨rfl, ?_⟩
        rw [getLinks_eq, getLinks_eq, kept, Function.update_self, stored]
        exact (updateMetadataLinks_eq changed).2
      · left
        have otherKey : collection.docKey docId ≠ collection.docKey source :=
          fun sameKey => same ((docKey_inj docBound sourceBound).mp sameKey)
        rw [getLinks_eq, getLinks_eq, kept, Function.update_of_ne otherKey]
    all_goals
      have unchanged : next = records := by
        dsimp only [next]
        rw [linkWrites, stored]
        dsimp only
        rw [changed]
        rfl
      rw [unchanged]
      exact .inl rfl

variable {other : LinkRelation} {a b : DocId}

theorem Linked.commit (linked : collection.Linked records other a b)
    (sourceBound : source < 2 ^ 64) (plain : collection.HasPlainId records source) :
    collection.Linked
      (applyWrites records (collection.linkWrites records tx source target relation)) other a b := by
  obtain ⟨bound, isTarget⟩ := linked
  obtain ⟨link, isLink, parts⟩ := mem_targetsOf.mp isTarget
  refine ⟨bound, mem_targetsOf.mpr ⟨link, ?_, parts⟩⟩
  rcases getLinks_linkWrites bound sourceBound plain with same | ⟨-, more⟩
  · rwa [same]
  · rw [more]
    exact mem_append_left _ isLink

theorem linked_commit (sourceBound : source < 2 ^ 64) (plain : collection.HasPlainId records source)
    (linked : collection.Linked
      (applyWrites records (collection.linkWrites records tx source target relation)) other a b) :
    collection.Linked records other a b ∨ (other = relation ∧ a = source ∧ b = target) := by
  obtain ⟨bound, isTarget⟩ := linked
  obtain ⟨link, isLink, isRelation, isEnd⟩ := mem_targetsOf.mp isTarget
  rcases getLinks_linkWrites bound sourceBound plain with same | ⟨isSource, more⟩
  · rw [same] at isLink
    exact .inl ⟨bound, mem_targetsOf.mpr ⟨link, isLink, isRelation, isEnd⟩⟩
  · rw [more] at isLink
    rcases mem_append.mp isLink with old | new
    · exact .inl ⟨bound, mem_targetsOf.mpr ⟨link, old, isRelation, isEnd⟩⟩
    · obtain rfl := mem_singleton.mp new
      exact .inr ⟨isRelation.symm, isSource, isEnd.symm⟩

end Collection

end Contextra.Engine
