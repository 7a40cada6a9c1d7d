import Contextra.DiskAnn.Contents

/-!
# The calls of a DiskANN index keep its documents

A persist merges the inserts of the log into the nodes of the file, rightly when every insert that
is not deleted again is of a document that the file does not have, when a full build leaves no
deleted document behind, and when an incremental build has none among its nodes.
-/

namespace Contextra.DiskAnn

open Library List

variable {Vector : Type} {config : DiskAnnConfig Vector} {files : Files Vector}
  {inner : DiskAnnIndexInner Vector} {acknowledged : DocId → Option Vector}

structure DiskAnnIndexInner.Shows (inner : DiskAnnIndexInner Vector) (files : Files Vector) :
    Prop where
  nodes : inner.nodes = files.nodes
  pending : inner.pendingInserts = files.pending
  tombstones : ∀ id, id ∈ inner.tombstones ↔ id ∈ files.dead

section InOrder

variable (config) (inner : DiskAnnIndexInner Vector) (dead : List DocId)

def RebuildInOrder : Prop :=
  (∀ id ∈ inner.pendingIds, id ∉ dead) ∧
    (∀ id ∈ inner.docIds, id ∈ dead → id ∈ inner.tombstones) ∧
    ∀ vector ∈ inner.liveNodes.map CachedNode.vector ++ inner.pendingInserts.map Prod.snd,
      ReachesEntry config
        (inner.liveNodes.map CachedNode.vector ++ inner.pendingInserts.map Prod.snd).head? vector

def AppendInOrder : Prop :=
  (∀ id ∈ inner.docIds, id ∉ inner.tombstones) ∧
    ∀ vector ∈ inner.pendingInserts.map Prod.snd,
      ReachesEntry config (inner.nodes.map CachedNode.vector).head? vector

def MergeInOrder : Prop :=
  (∀ id ∈ inner.pendingIds, id ∉ dead → inner.pendingIds.count id ≤ 1 ∧ id ∉ inner.docIds) ∧
    if inner.rebuilds then RebuildInOrder config inner dead else AppendInOrder config inner

instance : Decidable (RebuildInOrder config inner dead) :=
  inferInstanceAs (Decidable (_ ∧ _))

instance : Decidable (AppendInOrder config inner) :=
  inferInstanceAs (Decidable (_ ∧ _))

instance : Decidable (MergeInOrder config inner dead) :=
  inferInstanceAs (Decidable (_ ∧ _))

end InOrder

section Prefixes

variable {op : FileOp Vector} {ops : List (FileOp Vector)}

theorem prefix_nil (now : files.Sound config acknowledged) (done : Nat) :
    (files.applyAll (([] : List (FileOp Vector)).take done)).Sound config acknowledged := by
  rw [take_nil]
  exact now

theorem prefix_cons (now : files.Sound config acknowledged)
    (later : ∀ done,
      ((FileOp.apply files op).applyAll (ops.take done)).Sound config acknowledged)
    (done : Nat) : (files.applyAll ((op :: ops).take done)).Sound config acknowledged := by
  cases done with
  | zero => exact now
  | succ done => exact later done

end Prefixes

theorem Files.applyAll_append (files : Files Vector) (first second : List (FileOp Vector)) :
    files.applyAll (first ++ second) = (files.applyAll first).applyAll second :=
  foldl_append

theorem recordsOf_built {kept built : List (CachedNode Vector)} {entries : List (DocId × Vector)}
    (isBuilt : Built config (kept.map CachedNode.vector ++ entries.map Prod.snd)
      (kept.map CachedNode.docId ++ entries.map Prod.fst) built) :
    recordsOf built = recordsOf kept ++ entries := by
  have zipped (nodes : List (CachedNode Vector)) : recordsOf nodes =
      (nodes.map CachedNode.docId).zip (nodes.map CachedNode.vector) := zip_map'.symm
  have entriesZipped : (entries.map Prod.fst).zip (entries.map Prod.snd) = entries :=
    zip_map'.trans (map_id entries)
  have lengths : (kept.map CachedNode.docId).length = (kept.map CachedNode.vector).length := by
    rw [length_map, length_map]
  rw [zipped, isBuilt.vectors, isBuilt.docIds, zip_append lengths, ← zipped, entriesZipped]

theorem merged_of_records {kept built : List (CachedNode Vector)}
    (sound : files.Sound config acknowledged) (valid : NodesValid config built)
    (records : recordsOf built = recordsOf kept ++ files.pending)
    (sublist : (kept.map CachedNode.docId).Sublist (files.nodes.map CachedNode.docId))
    (same : ∀ id, id ∉ files.dead →
      lastEntry (recordsOf kept) id = lastEntry (recordsOf files.nodes) id)
    (isNew : ∀ id ∈ files.pending.map Prod.fst, id ∉ files.dead →
      (files.pending.map Prod.fst).count id ≤ 1 ∧ id ∉ files.nodes.map CachedNode.docId) :
    files.Merged config built where
  valid := valid
  same := by
    intro id isLive
    rw [records, lastEntry_append, lastEntry_append, same id isLive]
  again := by
    intro id
    rw [records]
    exact lastEntry_again _ _ id
  once := by
    intro id isLive
    rw [← recordsOf_ids, records, map_append, count_append, recordsOf_ids]
    have stored := (sublist.count_le id).trans (sound.once id isLive)
    by_cases isPending : id ∈ files.pending.map Prod.fst
    · obtain ⟨single, absent⟩ := isNew id isPending isLive
      have none : (kept.map CachedNode.docId).count id = 0 :=
        count_eq_zero.mpr fun isKept => absent (sublist.subset isKept)
      rwa [none, Nat.zero_add]
    · rwa [count_eq_zero.mpr isPending, Nat.add_zero]

theorem DiskAnnIndexInner.lastEntry_liveNodes {id : DocId} (isLive : id ∉ inner.tombstones) :
    lastEntry (recordsOf inner.liveNodes) id = lastEntry (recordsOf inner.nodes) id := by
  have filtered : recordsOf inner.liveNodes =
      (recordsOf inner.nodes).filter fun entry => decide (entry.1 ∉ inner.tombstones) := by
    rw [recordsOf, recordsOf, filter_map]
    rfl
  rw [filtered]
  exact lastEntry_filter (fun other => decide (other ∉ inner.tombstones)) (decide_eq_true isLive) _

theorem DiskAnnIndexInner.liveNodes_sublist (inner : DiskAnnIndexInner Vector) :
    (inner.liveNodes.map CachedNode.docId).Sublist inner.docIds :=
  filter_sublist.map _

section Merge

variable {dead : List DocId} (sound : files.Sound config acknowledged)
  (nodes : inner.nodes = files.nodes) (pending : inner.pendingInserts = files.pending)
  (isDead : ∀ id, id ∈ dead ↔ id ∈ files.dead)
  (tombstones : ∀ id ∈ inner.tombstones, id ∈ files.dead)
  (isNew : ∀ id ∈ inner.pendingIds, id ∉ dead →
    inner.pendingIds.count id ≤ 1 ∧ id ∉ inner.docIds)

include nodes pending isDead isNew

theorem isNew_files : ∀ id ∈ files.pending.map Prod.fst, id ∉ files.dead →
    (files.pending.map Prod.fst).count id ≤ 1 ∧ id ∉ files.nodes.map CachedNode.docId := by
  intro id isPending isLive
  rw [← nodes, ← pending]
  rw [← pending] at isPending
  exact isNew id isPending (mt (isDead id).mp isLive)

include sound tombstones

theorem merged_of_rebuild (inOrder : RebuildInOrder config inner dead)
    {built : List (CachedNode Vector)}
    (isBuilt : Built config
      (inner.liveNodes.map CachedNode.vector ++ inner.pendingInserts.map Prod.snd)
      (inner.liveNodes.map CachedNode.docId ++ inner.pendingInserts.map Prod.fst) built) :
    files.Merged config built ∧ ∀ id ∈ files.dead, id ∉ built.map CachedNode.docId := by
  obtain ⟨notDead, isTombstoned, _⟩ := inOrder
  constructor
  · apply merged_of_records sound isBuilt.valid
    · rw [← pending]
      exact recordsOf_built isBuilt
    · rw [← nodes]
      exact inner.liveNodes_sublist
    · intro id isLive
      rw [← nodes]
      exact DiskAnnIndexInner.lastEntry_liveNodes fun isTombstone =>
        isLive (tombstones id isTombstone)
    · exact isNew_files nodes pending isDead isNew
  · intro id isGone
    rw [isBuilt.docIds]
    intro isMember
    have gone := (isDead id).mpr isGone
    rcases mem_append.mp isMember with stored | inserted
    · obtain ⟨node, isNode, rfl⟩ := mem_map.mp stored
      have isLive := of_decide_eq_true (mem_filter.mp isNode).2
      have isStored := inner.liveNodes_sublist.subset (mem_map_of_mem isNode)
      exact isLive (isTombstoned _ isStored gone)
    · exact notDead id inserted gone

omit tombstones

theorem merged_of_append {built : List (CachedNode Vector)}
    (isBuilt : Built config
      (inner.nodes.map CachedNode.vector ++ inner.pendingInserts.map Prod.snd)
      (inner.docIds ++ inner.pendingInserts.map Prod.fst) built) :
    files.Merged config built := by
  have records : recordsOf built = recordsOf files.nodes ++ files.pending := by
    rw [← pending, ← nodes]
    exact recordsOf_built isBuilt
  apply merged_of_records sound isBuilt.valid records
  · exact List.Sublist.refl _
  · exact fun id _ => rfl
  · exact isNew_files nodes pending isDead isNew

end Merge

end Contextra.DiskAnn
