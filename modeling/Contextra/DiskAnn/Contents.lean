import Contextra.Library.StagedMap
import Contextra.DiskAnn.Builds

/-!
# The documents in the files of a DiskANN index

The index file and the log of the inserts are one list of writes, and the log of the deletions hides
documents of it.  Every operation on the files leaves the same documents, also the one that puts a
file with the inserts merged in place, as long as the merge had nothing to decide.
-/

namespace Contextra.DiskAnn

open Library List

variable {Vector : Type} {config : DiskAnnConfig Vector} {files : Files Vector}
  {acknowledged : DocId → Option Vector}

def recordsOf (nodes : List (CachedNode Vector)) : List (DocId × Vector) :=
  nodes.map fun node => (node.docId, node.vector)

theorem recordsOf_ids (nodes : List (CachedNode Vector)) :
    (recordsOf nodes).map Prod.fst = nodes.map CachedNode.docId :=
  map_map

namespace Files

def nodes (files : Files Vector) : List (CachedNode Vector) := files.index.getD []

def pending (files : Files Vector) : List (DocId × Vector) := files.pendingWal.getD []

def dead (files : Files Vector) : List DocId := files.tombstoneWal.getD []

def vectorOf (files : Files Vector) (id : DocId) : Option Vector :=
  if id ∈ files.dead then none else lastEntry (recordsOf files.nodes ++ files.pending) id

/-- The files have the acknowledged documents, and each of them in at most one node. -/
structure Sound (config : DiskAnnConfig Vector) (files : Files Vector)
    (acknowledged : DocId → Option Vector) : Prop where
  agrees : ∀ id, acknowledged id = files.vectorOf id
  valid : NodesValid config files.nodes
  fits : ∀ entry ∈ files.pending, config.metric.fits entry.2 = true
  once : ∀ id, id ∉ files.dead → (files.nodes.map CachedNode.docId).count id ≤ 1
  /-- Nothing is deleted before something was inserted. -/
  begun : files.index = none → files.pending = [] → files.tombstoneWal = none

/-- A list of nodes has the inserts of the log merged into those of the file. -/
structure Merged (config : DiskAnnConfig Vector) (files : Files Vector)
    (nodes : List (CachedNode Vector)) : Prop where
  valid : NodesValid config nodes
  same : ∀ id, id ∉ files.dead →
    lastEntry (recordsOf nodes) id = lastEntry (recordsOf files.nodes ++ files.pending) id
  again : ∀ id, lastEntry (recordsOf nodes ++ files.pending) id = lastEntry (recordsOf nodes) id
  once : ∀ id, id ∉ files.dead → (nodes.map CachedNode.docId).count id ≤ 1

namespace Sound

theorem temporaries (sound : files.Sound config acknowledged)
    (temporary : Temporary → Option (List (CachedNode Vector))) :
    Sound config { files with temporary := temporary } acknowledged :=
  ⟨sound.agrees, sound.valid, sound.fits, sound.once, sound.begun⟩

theorem replaceIndex (sound : files.Sound config acknowledged)
    {built : List (CachedNode Vector)} (merged : files.Merged config built)
    (temporary : Temporary → Option (List (CachedNode Vector))) :
    Sound config { files with index := some built, temporary := temporary } acknowledged where
  agrees := by
    intro id
    rw [sound.agrees id, vectorOf, vectorOf]
    split
    · rename_i isDead
      exact (if_pos isDead).symm
    · rename_i isLive
      rw [← merged.same id isLive, ← merged.again id]
      exact (if_neg isLive).symm
  valid := merged.valid
  fits := sound.fits
  once := merged.once
  begun := fun none => nomatch none

theorem removePendingWal (sound : files.Sound config acknowledged)
    (merged : ∀ id, lastEntry (recordsOf files.nodes ++ files.pending) id =
      lastEntry (recordsOf files.nodes) id)
    (begun : files.index = none → files.tombstoneWal = none) :
    Sound config (FileOp.apply files .removePendingWal) acknowledged where
  agrees := by
    intro id
    rw [sound.agrees id, vectorOf, vectorOf, merged id]
    exact congrArg (ite _ none) (congrArg (lastEntry · id) (append_nil _).symm)
  valid := sound.valid
  fits := fun entry impossible => absurd impossible not_mem_nil
  once := sound.once
  begun := fun none _ => begun none

theorem removeTombstoneWal (sound : files.Sound config acknowledged)
    (noPending : files.pending = [])
    (absent : ∀ id ∈ files.dead, id ∉ files.nodes.map CachedNode.docId) :
    Sound config (FileOp.apply files .removeTombstoneWal) acknowledged where
  agrees := by
    intro id
    rw [sound.agrees id, vectorOf, vectorOf]
    have noDead : id ∉ dead (FileOp.apply files .removeTombstoneWal) := not_mem_nil
    rw [if_neg noDead]
    split
    · rename_i isDead
      apply Eq.symm
      apply lastEntry_eq_none.mpr
      intro isWritten
      have isStored : id ∈ (recordsOf files.nodes ++ files.pending).map Prod.fst := isWritten
      rw [noPending, append_nil, recordsOf_ids] at isStored
      exact absent id isDead isStored
    · rfl
  valid := sound.valid
  fits := sound.fits
  once := by
    intro id _
    by_cases isDead : id ∈ files.dead
    · have none := count_eq_zero.mpr (absent id isDead)
      exact none.le.trans (Nat.zero_le _)
    · exact sound.once id isDead
  begun := fun _ _ => rfl

theorem appendToPendingWal (sound : files.Sound config acknowledged) {id : DocId}
    (isLive : id ∉ files.dead) {vector : Vector} (fits : config.metric.fits vector = true) :
    Sound config (FileOp.apply files (.appendToPendingWal id vector))
      (Function.update acknowledged id (some vector)) where
  agrees := by
    intro other
    have records : lastEntry (recordsOf files.nodes ++ (files.pending ++ [(id, vector)])) other =
        if other = id then some vector
        else lastEntry (recordsOf files.nodes ++ files.pending) other := by
      rw [← append_assoc]
      exact lastEntry_concat _ id other vector
    have after : vectorOf (FileOp.apply files (.appendToPendingWal id vector)) other =
        if other ∈ files.dead then none
        else lastEntry (recordsOf files.nodes ++ (files.pending ++ [(id, vector)])) other := rfl
    rw [Function.update_apply, sound.agrees other, vectorOf, after, records]
    by_cases same : other = id
    · rw [if_pos same, if_pos same, same]
      exact (if_neg isLive).symm
    · rw [if_neg same, if_neg same]
  valid := sound.valid
  fits := by
    intro entry isEntry
    rcases mem_append.mp isEntry with before | new
    · exact sound.fits entry before
    · cases mem_singleton.mp new
      exact fits
  once := sound.once
  begun := fun _ isEmpty =>
    absurd isEmpty (append_ne_nil_of_right_ne_nil _ (cons_ne_nil _ _))

theorem appendToTombstoneWal (sound : files.Sound config acknowledged) {id : DocId}
    (isKnown : id ∈ files.nodes.map CachedNode.docId ∨ id ∈ files.pending.map Prod.fst) :
    Sound config (FileOp.apply files (.appendToTombstoneWal id))
      (Function.update acknowledged id none) where
  agrees := by
    intro other
    have isDead : other ∈ files.dead ++ [id] ↔ other ∈ files.dead ∨ other = id := by
      rw [mem_append, mem_singleton]
    have after : vectorOf (FileOp.apply files (.appendToTombstoneWal id)) other =
        if other ∈ files.dead ++ [id] then none
        else lastEntry (recordsOf files.nodes ++ files.pending) other := rfl
    rw [Function.update_apply, sound.agrees other, vectorOf, after]
    by_cases same : other = id
    · rw [if_pos same, if_pos (isDead.mpr (.inr same))]
    · rw [if_neg same]
      by_cases before : other ∈ files.dead
      · rw [if_pos before, if_pos (isDead.mpr (.inl before))]
      · rw [if_neg before, if_neg fun dead => (isDead.mp dead).elim before same]
  valid := sound.valid
  fits := sound.fits
  once := fun other isLive => sound.once other fun isDead => isLive (mem_append_left _ isDead)
  begun := by
    intro noIndex noPending
    rcases isKnown with stored | pending
    · have isNone : files.index = none := noIndex
      rw [Files.nodes, isNone] at stored
      exact absurd stored not_mem_nil
    · have isEmpty : files.pending = [] := noPending
      rw [isEmpty] at pending
      exact absurd pending not_mem_nil

end Sound

end Files

end Contextra.DiskAnn
