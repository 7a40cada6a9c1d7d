import Contextra.Erasure.VaultSlot
import Contextra.Graph.Hyperedge
import Contextra.Library.StagedMap

/-!
# The records of a document

A document has two records in the storage of its collection: one at its user key, with the
embedding, and one at the key of its doc id, without.  The operations read committed records
only and stage their writes.
-/

/-!
## Keys of a collection

All collections share one storage.  Ids, names and texts are given by their UTF-8 bytes.
-/

namespace Contextra.Engine

open Contextra.Library
open Contextra.Erasure (Blake3)
open Contextra.Graph (DocId EntityId)

abbrev Utf8 := Bytes

def ascii (text : String) : Utf8 := text.toList.map fun character => UInt8.ofNat character.toNat

def display (text : Utf8) : String := (String.fromUTF8? ⟨text.toArray⟩).getD ""

/-- The first 8 bytes of the BLAKE3 hash, least significant byte first; an empty key is refused. -/
def DocId.fromKey (blake3 : Blake3) (key : Utf8) : Except ContextraError DocId :=
  if key = [] then .error (.invalidInput "Key cannot be empty")
  else .ok (fromLeBytes ((blake3 key).val.take 8))

/-- `DocId::inner().to_le_bytes()` -/
def docIdBytes (docId : DocId) : Bytes := toLeBytes 8 docId

structure CollectionName where
  name : Utf8
  deriving DecidableEq

namespace CollectionName

def isDefault (collection : CollectionName) : Bool := collection.name = ascii "default"

def prefixOf (collection : CollectionName) : Bytes :=
  if collection.isDefault then [] else ascii "__col:" ++ collection.name ++ ascii ":" ++ [0]

/-- Key types: 0 a user key, 1 a doc-id record, 2 a relation, 3 a transaction intent, 4 system. -/
def namespacedKey (collection : CollectionName) (key : Bytes) (keyType : UInt8) : Bytes :=
  if collection.isDefault then
    if keyType = 0 then key
    else if keyType = 1 then ascii "__docid:" ++ key
    else if keyType = 2 then ascii "__rel:" ++ key
    else if keyType = 3 then ascii "__tx_intent:" ++ key
    else key
  else collection.prefixOf ++ keyType :: key

def userKey (collection : CollectionName) (id : Utf8) : Bytes := collection.namespacedKey id 0

def docKey (collection : CollectionName) (docId : DocId) : Bytes :=
  collection.namespacedKey (docIdBytes docId) 1

end CollectionName

def validateDocId (id : Utf8) : Except ContextraError Unit :=
  if id = [] then .error (.invalidInput "Document ID cannot be empty")
  else if 256 < id.length then
    .error (.invalidInput "Document ID exceeds maximum length of 256 bytes")
  else if 0 ∈ id then .error (.invalidInput "Document ID cannot contain null bytes")
  else .ok ()

/-- A user key that begins like the keys of the records that the default collection keeps. -/
def isInternal (id : Utf8) : Bool := (ascii "__").isPrefixOf id

variable {collection : CollectionName} {id : Utf8} {docId : DocId}

theorem namespacedKey_inj {key other : Bytes} {keyType : UInt8} :
    collection.namespacedKey key keyType = collection.namespacedKey other keyType ↔ key = other := by
  unfold CollectionName.namespacedKey
  split_ifs <;> simp

theorem userKey_ne_docKey (plain : collection.isDefault = true → isInternal id = false) :
    collection.userKey id ≠ collection.docKey docId := by
  intro same
  unfold CollectionName.userKey CollectionName.docKey CollectionName.namespacedKey at same
  cases isDefault : collection.isDefault with
  | true =>
    have internal : isInternal id = true := by
      rw [isDefault] at same
      simp only [if_true] at same
      rw [same]
      rfl
    rw [plain isDefault] at internal
    cases internal
  | false =>
    rw [isDefault] at same
    simp at same

end Contextra.Engine

namespace Contextra.Engine

open Contextra.Library
open Contextra.Erasure (Blake3)
open Contextra.Graph (DocId F32)

/-- `serde_json::Value`; a number is an integer or an `f32`. -/
inductive Json where
  | null
  | bool (value : Bool)
  | int (value : Int)
  | real (value : F32)
  | str (text : Utf8)
  | arr (items : List Json)
  | obj (fields : List (String × Json))

def getField : List (String × Json) → String → Option Json
  | [], _ => none
  | (other, value) :: fields, name => if other = name then some value else getField fields name

/-- `Map::insert`; the fields stand in the order of their names. -/
def insertField (name : String) (value : Json) : List (String × Json) → List (String × Json)
  | [] => [(name, value)]
  | (other, old) :: fields =>
    if name < other then (name, value) :: (other, old) :: fields
    else if name = other then (name, value) :: fields
    else (other, old) :: insertField name value fields

/-- An optional field: a missing field and `null` are both `None`. -/
def optionOf : Option Json → Option Json
  | some .null => none
  | other => other

structure StoredDocument where
  id : Utf8
  embedding : List F32
  metadata : Option Json

structure StoredDocumentMeta where
  id : Utf8
  metadata : Option Json

def StoredDocumentMeta.from (document : StoredDocument) : StoredDocumentMeta :=
  ⟨document.id, document.metadata⟩

def StoredDocument.toJson (document : StoredDocument) : Json :=
  .obj [("id", .str document.id), ("embedding", .arr (document.embedding.map .real)),
    ("metadata", document.metadata.getD .null)]

def StoredDocumentMeta.toJson (record : StoredDocumentMeta) : Json :=
  .obj [("id", .str record.id), ("metadata", record.metadata.getD .null)]

def Json.toF32 : Json → Option F32
  | .real value => some value
  | _ => none

/-- A struct is read from an object, or from the array of its fields; fields that it does not
have are skipped. -/
def StoredDocumentMeta.fromJson : Json → Option StoredDocumentMeta
  | .obj fields =>
    match getField fields "id" with
    | some (.str id) => some ⟨id, optionOf (getField fields "metadata")⟩
    | _ => none
  | .arr [.str id, metadata] => some ⟨id, optionOf (some metadata)⟩
  | _ => none

def StoredDocument.fromJson : Json → Option StoredDocument
  | .obj fields =>
    match getField fields "id", getField fields "embedding" with
    | some (.str id), some (.arr items) =>
      (items.mapM Json.toF32).map fun embedding =>
        ⟨id, embedding, optionOf (getField fields "metadata")⟩
    | _, _ => none
  | .arr [.str id, .arr items, metadata] =>
    (items.mapM Json.toF32).map fun embedding => ⟨id, embedding, optionOf (some metadata)⟩
  | _ => none

inductive LinkRelation where
  | elaborates
  | contradicts
  | supersedes
  | references
  deriving DecidableEq

namespace LinkRelation

def toString : LinkRelation → String
  | elaborates => "Elaborates"
  | contradicts => "Contradicts"
  | supersedes => "Supersedes"
  | references => "References"

def fromString (text : Utf8) : Option LinkRelation :=
  [elaborates, contradicts, supersedes, references].find? fun relation =>
    ascii relation.toString = text

end LinkRelation

structure MemoryLink where
  target : DocId
  relation : LinkRelation
  createdAtTx : TxId
  deriving DecidableEq

namespace MemoryLink

def toJson (link : MemoryLink) : Json :=
  .obj [("created_at_tx", .int link.createdAtTx),
    ("relation", .str (ascii link.relation.toString)), ("target", .int link.target)]

def fromJson : Json → Option MemoryLink
  | .obj fields =>
    match getField fields "target", getField fields "relation", getField fields "created_at_tx" with
    | some (.int target), some (.str relation), some (.int tx) =>
      if 0 ≤ target ∧ 0 ≤ tx then
        (LinkRelation.fromString relation).map fun relation =>
          ⟨target.toNat, relation, tx.toNat⟩
      else none
    | _, _, _ => none
  | _ => none

end MemoryLink

/-- The links of a metadata object; no links where they cannot be read. -/
def linksOf (fields : List (String × Json)) : List MemoryLink :=
  match getField fields "links" with
  | some (.arr items) => (items.mapM MemoryLink.fromJson).getD []
  | _ => []

abbrev Records := Bytes → Option Json

/-- A collection, with the hash of ids and the scoring that completes metadata.  The scoring
stands for `extract_text` with `ensure_importance_metadata`. -/
structure Collection extends CollectionName where
  dimension : Nat
  blake3 : Blake3
  ensureImportance : TxId → Option Json → Option Json

namespace Collection

variable (collection : Collection)

def docKeyOf (id : Utf8) : Bytes :=
  collection.docKey (fromLeBytes ((collection.blake3 id).val.take 8))

def validateEmbedding (embedding : List F32) : Except ContextraError Unit :=
  if embedding = [] then .error (.invalidInput "Embedding vector cannot be empty")
  else if embedding.all fun x => x.magnitude = 0 then
    .error (.invalidInput "Zero vector embeddings are not allowed in regular Collection insertion. Use put_kv for non-vector entries.")
  else if embedding.any fun x => !x.isFinite then
    .error (.invalidInput "Embedding vector contains NaN or Infinite values")
  else .ok ()

/-- The id of a record; a full document is read as the meta record that it contains. -/
def existingId (value : Json) : Option Utf8 :=
  match StoredDocumentMeta.fromJson value with
  | some record => some record.id
  | none => (StoredDocument.fromJson value).map StoredDocument.id

def checkDocIdCollision (records : Records) (id : Utf8) : Except ContextraError Unit :=
  match (records (collection.docKeyOf id)).bind existingId with
  | some existing =>
    if existing ≠ id then
      .error (.internal ("DocId-Kollision erkannt für Schlüssel '" ++ display id ++
        "' — bitte Support kontaktieren"))
    else .ok ()
  | none => .ok ()

def preparedMetadata (tx : TxId) (metadata : Option Json) : Option Json :=
  match collection.ensureImportance tx metadata with
  | some (.obj fields) => some (.obj (insertField "updated_at_tx" (.int tx) fields))
  | other => other

/-- The write of `put_if_absent`, if it makes one; `staged` are the writes of the transaction. -/
def putIfAbsent (records : Records) (staged : Writes Bytes Json) (key : Bytes) (value : Json) :
    Writes Bytes Json :=
  match lastWrite staged key with
  | some (some _) => []
  | _ => if (records key).isSome then [] else [(key, some value)]

/-- The writes of `insert_op`, after those that its transaction has staged. -/
def insertOp (records : Records) (staged : Writes Bytes Json) (tx : TxId) (id : Utf8)
    (embedding : List F32) (metadata : Option Json) : Except ContextraError (Writes Bytes Json) := do
  validateDocId id
  validateEmbedding embedding
  collection.checkDocIdCollision records id
  let stored : StoredDocument := ⟨id, embedding, collection.preparedMetadata tx metadata⟩
  let staged := staged ++ [(collection.userKey id, some stored.toJson)]
  let written := putIfAbsent records staged (collection.docKeyOf id)
    (StoredDocumentMeta.from stored).toJson
  if written = [] then collection.checkDocIdCollision records id
  return staged ++ written

def updateOp (records : Records) (staged : Writes Bytes Json) (tx : TxId) (id : Utf8)
    (embedding : List F32) (metadata : Option Json) : Except ContextraError (Writes Bytes Json) := do
  validateDocId id
  validateEmbedding embedding
  collection.checkDocIdCollision records id
  let stored : StoredDocument := ⟨id, embedding, collection.preparedMetadata tx metadata⟩
  return staged ++ [(collection.userKey id, some stored.toJson),
    (collection.docKeyOf id, some (StoredDocumentMeta.from stored).toJson)]

/-- `delete_op` checks nothing of the id but that it has a doc id. -/
def deleteOp (staged : Writes Bytes Json) (id : Utf8) :
    Except ContextraError (Writes Bytes Json) := do
  let _ ← DocId.fromKey collection.blake3 id
  return staged ++ [(collection.userKey id, none), (collection.docKeyOf id, none)]

def checkDimension (embedding : List F32) : Except ContextraError Unit :=
  if embedding.length ≠ collection.dimension then
    .error (.invalidInput ("Dimension mismatch: expected " ++ toString collection.dimension ++
      ", got " ++ toString embedding.length))
  else .ok ()

def checkIdLength (id : Utf8) : Except ContextraError Unit :=
  if id = [] then .error (.invalidInput "Document ID cannot be empty")
  else if 1024 < id.length then
    .error (.invalidInput "Document ID length exceeds maximum allowed limit of 1024 bytes")
  else .ok ()

def insert (records : Records) (tx : TxId) (id : Utf8) (embedding : List F32)
    (metadata : Option Json) : Except ContextraError (Writes Bytes Json) := do
  collection.checkDimension embedding
  checkIdLength id
  validateEmbedding embedding
  collection.insertOp records [] tx id embedding metadata

def upsert (records : Records) (tx : TxId) (id : Utf8) (embedding : List F32)
    (metadata : Option Json) : Except ContextraError (Writes Bytes Json) := do
  checkIdLength id
  collection.checkDimension embedding
  collection.updateOp records [] tx id embedding metadata

def update (records : Records) (tx : TxId) (id : Utf8) (embedding : List F32)
    (metadata : Option Json) : Except ContextraError (Writes Bytes Json) := do
  collection.checkDimension embedding
  collection.updateOp records [] tx id embedding metadata

def delete (id : Utf8) : Except ContextraError (Writes Bytes Json) :=
  collection.deleteOp [] id

def putKv (id : Utf8) (value : Json) : Except ContextraError (Writes Bytes Json) := do
  validateDocId id
  return [(collection.userKey id, some value)]

def getLinks (records : Records) (docId : DocId) : List MemoryLink :=
  match records (collection.docKey docId) with
  | none => []
  | some value =>
    let metadata :=
      match StoredDocumentMeta.fromJson value with
      | some record => record.metadata
      | none => (StoredDocument.fromJson value).bind StoredDocument.metadata
    match metadata with
    | some (.obj fields) => linksOf fields
    | _ => []

/-- The breadth-first search of `check_link_cycle`: whether it meets `from`. -/
def reaches (records : Records) (source : DocId) (relation : LinkRelation) :
    Nat → List DocId → List DocId → Bool
  | 0, _, _ => false
  | _ + 1, _, [] => false
  | steps + 1, visited, current :: queue =>
    if current = source then true
    else
      let targets := ((collection.getLinks records current).filter
        fun link => link.relation = relation).map MemoryLink.target
      let fresh := targets.foldl
        (fun fresh target => if target ∈ visited ++ fresh then fresh else fresh ++ [target]) []
      reaches records source relation steps (visited ++ fresh) (queue ++ fresh)

/-- The metadata object with one link more, or nothing where the link is there already. -/
def addLink (tx : TxId) (target : DocId) (relation : LinkRelation) (metadata : Option Json) :
    Option (List (String × Json)) :=
  match metadata.getD (.obj []) with
  | .obj fields =>
    let links := linksOf fields
    if links.any fun link => link.target = target && link.relation = relation then none
    else
      some (insertField "links" (.arr ((links ++ [MemoryLink.mk target relation tx]).map MemoryLink.toJson))
        fields)
  | _ => none

/-- `update_metadata_links`: the id of the record, and its new value if it has one. -/
def updateMetadataLinks (tx : TxId) (value : Json) (target : DocId) (relation : LinkRelation) :
    Option Utf8 × Option Json :=
  match StoredDocumentMeta.fromJson value with
  | some record =>
    (some record.id, (addLink tx target relation record.metadata).map fun fields =>
      StoredDocumentMeta.toJson
        { record with metadata := some (.obj (insertField "updated_at_tx" (.int tx) fields)) })
  | none =>
    match StoredDocument.fromJson value with
    | some full =>
      (some full.id, (addLink tx target relation full.metadata).map fun fields =>
        StoredDocument.toJson
          { full with metadata := some (.obj (insertField "updated_at_tx" (.int tx) fields)) })
    | none => (none, none)

def linkUserRecord (records : Records) (tx : TxId) (id : Utf8) (target : DocId)
    (relation : LinkRelation) : Writes Bytes Json :=
  match (records (collection.userKey id)).bind StoredDocument.fromJson with
  | some full =>
    match addLink tx target relation full.metadata with
    | some fields =>
      [(collection.userKey id, some (StoredDocument.toJson { full with metadata := some (.obj fields) }))]
    | none => []
  | none => []

def linkMemories (records : Records) (tx : TxId) (source target : DocId)
    (relation : LinkRelation) : Except ContextraError (Writes Bytes Json) :=
  if source = target then .error (.invalidInput "Cannot link a document to itself")
  else if collection.reaches records source relation 1000 [target] [target] then
    .error (.invalidInput ("Cyclic " ++ relation.toString ++ " relation detected: document DocId(" ++
      toString target ++ ") transitively reaches DocId(" ++ toString source ++ ")"))
  else
    match records (collection.docKey source) with
    | none => .ok []
    | some value =>
      match updateMetadataLinks tx value target relation with
      | (some id, some updated) =>
        .ok ((collection.docKey source, some updated) ::
          collection.linkUserRecord records tx id target relation)
      | _ => .ok []

end Collection

end Contextra.Engine
