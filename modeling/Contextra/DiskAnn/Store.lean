import Contextra.DiskAnn.Graph
import Contextra.Library.Run

/-!
# The files and the memory of a DiskANN index

The calls of `vector_index_impl.rs`, `persistence.rs` and `build.rs`.  A call is given by what it
does to the files, one operation after the other, and by what it leaves in memory; a crash comes
after some of the operations and takes the memory.  The bytes of the files, quantization, the
fallback and the cache of nodes are left out.
-/

namespace Contextra.DiskAnn

open Contextra.Library

abbrev DocId := Nat

structure CachedNode (Vector : Type) where
  vector : Vector
  neighbors : List Nat
  docId : DocId

/-- `delta.tmp` and `idx.tmp` -/
inductive Temporary where
  | delta
  | index
  deriving DecidableEq

structure Files (Vector : Type) where
  index : Option (List (CachedNode Vector))
  temporary : Temporary → Option (List (CachedNode Vector))
  pendingWal : Option (List (DocId × Vector))
  tombstoneWal : Option (List DocId)

inductive FileOp (Vector : Type) where
  | writeTemporary (temporary : Temporary) (nodes : List (CachedNode Vector))
  | renameTemporary (temporary : Temporary)
  | removeTemporaries
  | appendToPendingWal (id : DocId) (vector : Vector)
  | appendToTombstoneWal (id : DocId)
  | removePendingWal
  | removeTombstoneWal

variable {Vector : Type}

def FileOp.apply (files : Files Vector) : FileOp Vector → Files Vector
  | .writeTemporary temporary nodes =>
    { files with temporary := Function.update files.temporary temporary (some nodes) }
  | .renameTemporary temporary =>
    { files with
      index := files.temporary temporary
      temporary := Function.update files.temporary temporary none }
  | .removeTemporaries => { files with temporary := fun _ => none }
  | .appendToPendingWal id vector =>
    { files with pendingWal := some (files.pendingWal.getD [] ++ [(id, vector)]) }
  | .appendToTombstoneWal id =>
    { files with tombstoneWal := some (files.tombstoneWal.getD [] ++ [id]) }
  | .removePendingWal => { files with pendingWal := none }
  | .removeTombstoneWal => { files with tombstoneWal := none }

def Files.applyAll (files : Files Vector) (ops : List (FileOp Vector)) : Files Vector :=
  ops.foldl FileOp.apply files

/-- The nodes of the loaded file, the inserts that are not in it, and the deleted documents. -/
structure DiskAnnIndexInner (Vector : Type) where
  nodes : List (CachedNode Vector)
  pendingInserts : List (DocId × Vector)
  tombstones : List DocId

namespace DiskAnnIndexInner

variable (inner : DiskAnnIndexInner Vector)

def new : DiskAnnIndexInner Vector := ⟨[], [], []⟩

def docIds : List DocId := inner.nodes.map CachedNode.docId

def pendingIds : List DocId := inner.pendingInserts.map Prod.fst

/-- The nodes that `load_all_vectors_from_mmap` reads. -/
def liveNodes : List (CachedNode Vector) :=
  inner.nodes.filter fun node => decide (node.docId ∉ inner.tombstones)

def allDocIds : List DocId :=
  let stored := inner.docIds.filter fun id => decide (id ∉ inner.tombstones)
  inner.pendingIds.foldl
    (fun ids id => if id ∉ inner.tombstones ∧ id ∉ ids then ids ++ [id] else ids) stored

/-- More than a tenth is pending (the comparison of `f64` is exact below `2 ^ 49` documents). -/
def rebuilds : Prop :=
  inner.docIds.length + inner.pendingInserts.length < 10 * inner.pendingInserts.length ∨
    inner.docIds.length = 0

instance : Decidable inner.rebuilds :=
  inferInstanceAs (Decidable (_ ∨ _))

end DiskAnnIndexInner

structure Outcome (Vector : Type) where
  ops : List (FileOp Vector)
  inner : DiskAnnIndexInner Vector
  result : Except DiskAnnError Unit

section Calls

variable (config : DiskAnnConfig Vector)

/-- `write_to_path_sync`, with the padding of a list that is too long as a panic. -/
def writeToPath : List Vector → AdjacencyLists → List DocId →
    Except DiskAnnError (List (CachedNode Vector))
  | [], _, _ => .ok []
  | vector :: vectors, neighbors :: graph, id :: ids =>
    if config.maxDegree < neighbors.length then .error .panicked
    else do
      let nodes ← writeToPath vectors graph ids
      return ⟨vector, neighbors, id⟩ :: nodes
  | _ :: _, _, _ => .error .panicked

def inMemory (vectors : List Vector) : VectorAccess config.metric where
  vectorOf index := vectors[index]?
  searchName := "search_in_memory"
  fallback := some config.metric.maxDist

/-- `get_vec_mixed` -/
def streaming (nodes : List (CachedNode Vector)) (newVecs : List (DocId × Vector)) :
    VectorAccess config.metric where
  vectorOf index := (nodes.map CachedNode.vector ++ newVecs.map Prod.snd)[index]?
  searchName := "search_streaming"
  fallback := none

def ring (count : Nat) : AdjacencyLists := (List.range count).map fun node => [(node + 1) % count]

def buildToPath (vectors : List Vector) (ids : List DocId) :
    Except DiskAnnError (Option (List (CachedNode Vector))) :=
  if vectors.isEmpty then .ok none
  else do
    let access := inMemory config vectors
    let nodes := List.range vectors.length
    let graph ← linkNodes config access .one 0 nodes (ring vectors.length)
    let graph ← linkNodes config access .relaxed 0 nodes graph
    let written ← writeToPath config vectors graph ids
    return some written

def writeIncrementalToFile (inner : DiskAnnIndexInner Vector) (newVecs : List (DocId × Vector)) :
    Except DiskAnnError (Option (List (CachedNode Vector))) :=
  if newVecs.isEmpty then .ok none
  else if inner.docIds.length = 0 then
    buildToPath config (newVecs.map Prod.snd) (newVecs.map Prod.fst)
  else do
    let graph := inner.nodes.map CachedNode.neighbors ++ newVecs.map fun _ => []
    let allIds := inner.docIds ++ newVecs.map Prod.fst
    let newNodes := (List.range newVecs.length).map fun j => inner.docIds.length + j
    let graph ← linkNodes config (streaming config inner.nodes newVecs) .relaxed 0 newNodes graph
    let allVecs := inner.liveNodes.map CachedNode.vector ++ newVecs.map Prod.snd
    let written ← writeToPath config allVecs graph allIds
    return some written

/-- The first part of `load_sync`. -/
def openIndex (files : Files Vector) (inner : DiskAnnIndexInner Vector) :
    DiskAnnIndexInner Vector :=
  match files.index with
  | some nodes => { inner with nodes := nodes }
  | none => inner

/-- The last part of `load_sync`. -/
def recoverTombstones (files : Files Vector) (inner : DiskAnnIndexInner Vector) :
    DiskAnnIndexInner Vector :=
  match files.tombstoneWal with
  | some tombstones => { inner with tombstones := tombstones }
  | none => inner

/-- The operations of a persist, and the load of the file after them. -/
def replaceIndex (files : Files Vector) (inner : DiskAnnIndexInner Vector)
    (ops : List (FileOp Vector)) : Outcome Vector :=
  let after := files.applyAll ops
  ⟨ops ++ [.removeTemporaries], recoverTombstones after (openIndex after inner), .ok ()⟩

/-- `persist_delta_sync`; a build that fails leaves at most a part of a temporary file. -/
def persistDelta (files : Files Vector) (inner : DiskAnnIndexInner Vector) : Outcome Vector :=
  let pending := inner.pendingInserts
  let taken : DiskAnnIndexInner Vector := { inner with pendingInserts := [] }
  if pending.isEmpty then ⟨[.removePendingWal], taken, .ok ()⟩
  else if inner.rebuilds then
    let allVecs := inner.liveNodes.map CachedNode.vector ++ pending.map Prod.snd
    let allIds := inner.liveNodes.map CachedNode.docId ++ pending.map Prod.fst
    match buildToPath config allVecs allIds with
    | .error error => ⟨[], taken, .error error⟩
    | .ok none => ⟨[], taken, .error (.io "No such file or directory")⟩
    | .ok (some nodes) =>
      replaceIndex files { taken with tombstones := [] }
        [.writeTemporary .index nodes, .renameTemporary .index, .removePendingWal,
          .removeTombstoneWal]
  else
    match writeIncrementalToFile config inner pending with
    | .error error => ⟨[], taken, .error error⟩
    | .ok none => ⟨[], taken, .error (.io "No such file or directory")⟩
    | .ok (some nodes) =>
      replaceIndex files taken
        [.writeTemporary .delta nodes, .renameTemporary .delta, .removePendingWal]

/-- What `load_sync` has in memory when it comes to the log of the inserts. -/
def recovered (files : Files Vector) : DiskAnnIndexInner Vector :=
  { openIndex files .new with pendingInserts := files.pendingWal.getD [] }

/-- `recover_pending_delta_sync` -/
def recoverPendingDelta (files : Files Vector) : Outcome Vector :=
  if (files.pendingWal.getD []).isEmpty then
    ⟨[.removePendingWal], openIndex files .new, .ok ()⟩
  else persistDelta config files (recovered files)

/-- Orphaned temporary files are removed when there is an index. -/
def cleanup (files : Files Vector) : List (FileOp Vector) :=
  if files.index.isSome then [.removeTemporaries] else []

/-- `load_sync` of an index that was just made. -/
def load (files : Files Vector) : Outcome Vector :=
  if files.index.isNone ∧ files.pendingWal.isNone then
    ⟨[], .new, .error (.io ("DiskANN index file does not exist: " ++ config.indexPath))⟩
  else
    let cleaned := files.applyAll (cleanup files)
    let recovery : Outcome Vector :=
      if files.pendingWal.isSome then recoverPendingDelta config cleaned
      else ⟨[], openIndex cleaned .new, .ok ()⟩
    match recovery.result with
    | .error error => ⟨cleanup files ++ recovery.ops, recovery.inner, .error error⟩
    | .ok () =>
      ⟨cleanup files ++ recovery.ops,
        recoverTombstones (cleaned.applyAll recovery.ops) recovery.inner, .ok ()⟩

def insert (inner : DiskAnnIndexInner Vector) (id : DocId) (embedding : Vector) :
    Outcome Vector :=
  if config.metric.allFinite embedding then
    ⟨[.appendToPendingWal id embedding],
      { inner with pendingInserts := inner.pendingInserts ++ [(id, embedding)] }, .ok ()⟩
  else ⟨[], inner, .error (.invalidInput "NaN or Infinity detected in vector")⟩

def delete (inner : DiskAnnIndexInner Vector) (id : DocId) : Outcome Vector :=
  if id ∈ inner.tombstones then
    ⟨[], inner, .error
      (.notFound ("DocId " ++ toString id ++ " not found in index or already deleted"))⟩
  else if id ∉ inner.docIds ∧ id ∉ inner.pendingIds then
    ⟨[], inner, .error
      (.notFound ("DocId " ++ toString id ++ " not found in DiskANN index"))⟩
  else
    ⟨[.appendToTombstoneWal id], { inner with tombstones := id :: inner.tombstones }, .ok ()⟩

end Calls

/-- An index with its files; it has no memory between a crash and the next load. -/
structure DiskAnnIndex (Vector : Type) where
  files : Files Vector
  inner : Option (DiskAnnIndexInner Vector)
  /-- The vector of the last insert that was acknowledged, and was not deleted since. -/
  acknowledged : DocId → Option Vector

/-- A crash may come between two operations of a call on the files; one that comes after the
only operation of an insert or a delete is the crash after that call. -/
inductive DiskAnnEvent (Vector : Type) where
  | insert (id : DocId) (embedding : Vector)
  | delete (id : DocId)
  | persistDelta
  | persistDeltaCrash (done : Nat)
  | crash
  | load
  | loadCrash (done : Nat)

namespace DiskAnnIndex

def new : DiskAnnIndex Vector where
  files := ⟨none, fun _ => none, none, none⟩
  inner := some .new
  acknowledged _ := none

def acknowledge (result : Except DiskAnnError Unit) (id : DocId) (vector : Option Vector)
    (acknowledged : DocId → Option Vector) : DocId → Option Vector :=
  match result with
  | .ok () => Function.update acknowledged id vector
  | .error _ => acknowledged

def complete (index : DiskAnnIndex Vector) (outcome : Outcome Vector) : DiskAnnIndex Vector :=
  { index with files := index.files.applyAll outcome.ops, inner := some outcome.inner }

/-- A call with a crash after some of its operations. -/
def interrupt (index : DiskAnnIndex Vector) (outcome : Outcome Vector) (done : Nat) :
    DiskAnnIndex Vector :=
  { index with files := index.files.applyAll (outcome.ops.take done), inner := none }

def step (config : DiskAnnConfig Vector) (index : DiskAnnIndex Vector) :
    DiskAnnEvent Vector → Option (DiskAnnIndex Vector)
  | .insert id embedding =>
    index.inner.map fun inner =>
      let outcome := DiskAnn.insert config inner id embedding
      { index.complete outcome with
        acknowledged := acknowledge outcome.result id (some embedding) index.acknowledged }
  | .delete id =>
    index.inner.map fun inner =>
      let outcome := DiskAnn.delete inner id
      { index.complete outcome with
        acknowledged := acknowledge outcome.result id none index.acknowledged }
  | .persistDelta =>
    index.inner.map fun inner => index.complete (DiskAnn.persistDelta config index.files inner)
  | .persistDeltaCrash done =>
    index.inner.map fun inner =>
      index.interrupt (DiskAnn.persistDelta config index.files inner) done
  | .crash => index.inner.map fun _ => { index with inner := none }
  | .load =>
    match index.inner with
    | some _ => none
    | none => some (index.complete (DiskAnn.load config index.files))
  | .loadCrash done =>
    match index.inner with
    | some _ => none
    | none => some (index.interrupt (DiskAnn.load config index.files) done)

end DiskAnnIndex

end Contextra.DiskAnn
