import Contextra.DiskAnn.StoreRuns

/-!
# A DiskANN index as a map of documents

Over every run whose merges have nothing to decide, the index lists the acknowledged documents,
and after a persist each of them is in one live node with its last vector.
-/

namespace Contextra.DiskAnn

open Library List Option

variable {Vector : Type} {config : DiskAnnConfig Vector} {inner : DiskAnnIndexInner Vector}

theorem DiskAnnIndexInner.mem_allDocIds {id : DocId} :
    id ∈ inner.allDocIds ↔
      (id ∈ inner.docIds ∨ id ∈ inner.pendingIds) ∧ id ∉ inner.tombstones := by
  have mem_fold (pending stored : List DocId) :
      id ∈ pending.foldl
        (fun ids other => if other ∉ inner.tombstones ∧ other ∉ ids then ids ++ [other] else ids)
        stored ↔ id ∈ stored ∨ (id ∈ pending ∧ id ∉ inner.tombstones) := by
    induction pending generalizing stored with
    | nil =>
      simp only [foldl_nil, not_mem_nil, false_and, or_false]
    | cons other pending ih =>
      rw [foldl_cons, ih, mem_cons]
      by_cases isNew : other ∉ inner.tombstones ∧ other ∉ stored
      · rw [if_pos isNew, mem_append, mem_singleton]
        constructor
        · rintro ((before | rfl) | later)
          · exact .inl before
          · exact .inr ⟨.inl rfl, isNew.1⟩
          · exact .inr ⟨.inr later.1, later.2⟩
        · rintro (before | ⟨rfl | later, isLive⟩)
          · exact .inl (.inl before)
          · exact .inl (.inr rfl)
          · exact .inr ⟨later, isLive⟩
      · rw [if_neg isNew]
        constructor
        · rintro (before | later)
          · exact .inl before
          · exact .inr ⟨.inr later.1, later.2⟩
        · rintro (before | ⟨rfl | later, isLive⟩)
          · exact .inl before
          · exact .inl (not_not.mp fun absent => isNew ⟨isLive, absent⟩)
          · exact .inr ⟨later, isLive⟩
  rw [allDocIds, mem_fold, mem_filter, decide_eq_true_iff, or_and_right]

/-- The document is stored in exactly one live node, with this vector and with neighbors that
exist. -/
def DiskAnnIndexInner.StoresOnce (inner : DiskAnnIndexInner Vector) (id : DocId)
    (vector : Vector) : Prop :=
  ∃ node, (inner.liveNodes.filter fun node => decide (node.docId = id)) = [node] ∧
    node.vector = vector ∧ ∀ neighbor ∈ node.neighbors, neighbor < inner.nodes.length

namespace DiskAnnIndex

variable {index : DiskAnnIndex Vector}

def ListsAcknowledged (index : DiskAnnIndex Vector) : Prop :=
  ∀ inner, index.inner = some inner →
    ∀ id, id ∈ inner.allDocIds ↔ (index.acknowledged id).isSome = true

def StoresAcknowledged (index : DiskAnnIndex Vector) : Prop :=
  ∃ inner, index.inner = some inner ∧
    ∀ id vector, index.acknowledged id = some vector → inner.StoresOnce id vector

theorem Invariant.listsAcknowledged (invariant : index.Invariant config) :
    index.ListsAcknowledged := by
  intro inner isInner id
  have shows := invariant.shows inner isInner
  rw [DiskAnnIndexInner.mem_allDocIds, invariant.sound.agrees id, Files.vectorOf,
    shows.tombstones id]
  have isWritten : (lastEntry (recordsOf index.files.nodes ++ index.files.pending) id).isSome =
      true ↔ id ∈ inner.docIds ∨ id ∈ inner.pendingIds := by
    rw [lastEntry_isSome, map_append, mem_append, recordsOf_ids, ← shows.nodes,
      ← shows.pending]
    rfl
  by_cases isDead : id ∈ index.files.dead
  · rw [if_pos isDead]
    exact ⟨fun isLive => absurd isDead isLive.2,
      fun impossible => absurd impossible Bool.false_ne_true⟩
  · rw [if_neg isDead, isWritten]
    exact and_iff_left isDead

theorem Invariant.storesOnce (invariant : index.Invariant config)
    (isInner : index.inner = some inner) (noPending : inner.pendingInserts = []) {id : DocId}
    {vector : Vector} (isAcknowledged : index.acknowledged id = some vector) :
    inner.StoresOnce id vector := by
  have shows := invariant.shows inner isInner
  rw [invariant.sound.agrees id, Files.vectorOf, ← shows.pending, noPending, append_nil,
    ← shows.nodes] at isAcknowledged
  have isLive : id ∉ index.files.dead := by
    intro isDead
    rw [if_pos isDead] at isAcknowledged
    cases isAcknowledged
  rw [if_neg isLive] at isAcknowledged
  obtain ⟨node, isNode, isRecord⟩ := List.mem_map.mp (mem_of_lastEntry isAcknowledged)
  cases isRecord
  have isFound : node ∈ inner.liveNodes.filter fun other => decide (other.docId = node.docId) := by
    apply mem_filter.mpr ⟨mem_filter.mpr ⟨isNode, ?_⟩, decide_eq_true rfl⟩
    exact decide_eq_true (mt (shows.tombstones node.docId).mp isLive)
  have atMostOne : (inner.liveNodes.filter fun other =>
      decide (other.docId = node.docId)).length ≤ 1 := by
    have counted := (inner.liveNodes_sublist.count_le node.docId).trans
      (shows.nodes ▸ invariant.sound.once node.docId isLive)
    rw [List.count, countP_map, countP_eq_length_filter] at counted
    exact counted
  obtain ⟨single, isSingle⟩ :=
    length_eq_one_iff.mp (atMostOne.antisymm (length_pos_of_mem isFound))
  rw [isSingle] at isFound
  cases mem_singleton.mp isFound
  refine ⟨node, isSingle, rfl, ?_⟩
  exact ((shows.nodes ▸ invariant.sound.valid) node isNode).2.nodes

def lineMetric : Metric Nat where
  Dist := Nat
  allFinite _ := true
  fits _ := true
  distance v w := some (max v w - min v w)
  isFinite _ := true
  maxDist := 1000
  lt a b := decide (a < b)
  totalLe a b := decide (a ≤ b)
  scaledLt alpha a b :=
    match alpha with
    | .one => decide (a < b)
    | .relaxed => decide (6 * a < 5 * b)
  distance_isSome _ _ _ _ := rfl

theorem line_le {a b : lineMetric.Candidate} :
    Metric.Candidate.le lineMetric a b = true ↔ Nat.le a.distance b.distance := by
  simp only [Metric.Candidate.le, lineMetric, decide_eq_true_eq]
  exact Iff.rfl

theorem line_total (a b : lineMetric.Candidate) :
    Metric.Candidate.le lineMetric a b = true ∨ Metric.Candidate.le lineMetric b a = true := by
  rw [line_le, line_le]
  exact Nat.le_total _ _

theorem line_trans (a b c : lineMetric.Candidate)
    (first : Metric.Candidate.le lineMetric a b = true)
    (second : Metric.Candidate.le lineMetric b c = true) :
    Metric.Candidate.le lineMetric a c = true := by
  rw [line_le] at first second ⊢
  exact Nat.le_trans first second

def line : DiskAnnConfig Nat where
  indexPath := "line.idx"
  metric := lineMetric
  maxDegree := 2
  beamWidth := 2
  nearest := Heap.searched (fun a b => Metric.Candidate.le lineMetric b a)
    (fun a b => line_total b a) fun a b c first second => line_trans c b a second first
  farthest := Heap.searched (Metric.Candidate.le lineMetric) line_total line_trans

def lineInserts : List (DiskAnnEvent Nat) :=
  (List.range 9).map fun id => .insert id (10 * id)

def lineCrashes : List (DiskAnnEvent Nat) :=
  [.persistDelta, .insert 20 55, .persistDeltaCrash 1, .load, .insert 21 7, .crash, .loadCrash 2,
    .load, .insert 22 70, .persistDelta, .delete 20, .insert 23 1, .insert 24 90]

end DiskAnnIndex

end Contextra.DiskAnn
