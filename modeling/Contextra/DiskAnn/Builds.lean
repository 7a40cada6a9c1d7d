import Contextra.DiskAnn.GraphSound
import Contextra.DiskAnn.Store

/-!
# The two builds of the index file

The full build and the incremental one succeed over vectors of the configured dimension with a
finite distance to the entry point.  The file has a node for each document, in their order, with
its vector and with neighbors among the nodes.
-/

namespace Contextra.DiskAnn

open Library List

variable {Vector : Type} {config : DiskAnnConfig Vector}

def ReachesEntry (config : DiskAnnConfig Vector) (entry : Option Vector) (vector : Vector) : Prop :=
  entry.all (fun first => (config.metric.distance vector first).any config.metric.isFinite) = true

instance (entry : Option Vector) (vector : Vector) : Decidable (ReachesEntry config entry vector) :=
  inferInstanceAs (Decidable (_ = _))

/-- Every node has a vector of the configured dimension, and a list of neighbors within the file. -/
def NodesValid (config : DiskAnnConfig Vector) (nodes : List (CachedNode Vector)) : Prop :=
  ∀ node ∈ nodes, config.metric.fits node.vector = true ∧
    ListValid config nodes.length node.neighbors

/-- The nodes of a file that was built for some vectors and documents. -/
structure Built (config : DiskAnnConfig Vector) (vectors : List Vector) (ids : List DocId)
    (nodes : List (CachedNode Vector)) : Prop where
  vectors : nodes.map CachedNode.vector = vectors
  docIds : nodes.map CachedNode.docId = ids
  valid : NodesValid config nodes

variable {vectors : List Vector} {ids : List DocId}

theorem writeToPath_ok {graph : AdjacencyLists}
    (graphLength : graph.length = vectors.length) (idsLength : ids.length = vectors.length)
    (short : ∀ list ∈ graph, list.length ≤ config.maxDegree) :
    ∃ nodes, writeToPath config vectors graph ids = .ok nodes ∧
      nodes.map CachedNode.vector = vectors ∧ nodes.map CachedNode.docId = ids ∧
      nodes.map CachedNode.neighbors = graph := by
  induction vectors generalizing graph ids with
  | nil =>
    cases eq_nil_of_length_eq_zero graphLength
    cases eq_nil_of_length_eq_zero idsLength
    exact ⟨[], rfl, rfl, rfl, rfl⟩
  | cons vector vectors ih =>
    obtain ⟨neighbors, graph, rfl⟩ := exists_cons_of_length_eq_add_one graphLength
    obtain ⟨id, ids, rfl⟩ := exists_cons_of_length_eq_add_one idsLength
    obtain ⟨nodes, written, isVectors, isIds, isGraph⟩ := ih
      (Nat.succ.inj graphLength) (Nat.succ.inj idsLength)
      fun list isList => short list (mem_cons_of_mem _ isList)
    refine ⟨⟨vector, neighbors, id⟩ :: nodes, ?_, ?_, ?_, ?_⟩
    · rw [writeToPath, if_neg (not_lt.mpr (short neighbors mem_cons_self)), ok_bind written]
      rfl
    · rw [map_cons, isVectors]
    · rw [map_cons, isIds]
    · rw [map_cons, isGraph]

variable (config) in
theorem built_of_write {graph : AdjacencyLists}
    (valid : GraphValid vectors.length graph) (idsLength : ids.length = vectors.length)
    (fits : ∀ vector ∈ vectors, config.metric.fits vector = true)
    (short : ∀ node < vectors.length, Bounded config graph node) :
    ∃ nodes, writeToPath config vectors graph ids = .ok nodes ∧
      Built config vectors ids nodes := by
  have isShort : ∀ list ∈ graph, list.length ≤ config.maxDegree := by
    intro list isList
    obtain ⟨node, bounded, found⟩ := mem_iff_getElem.mp isList
    apply short node (by rwa [← valid.length])
    rw [getElem?_eq_getElem bounded, found]
  obtain ⟨nodes, written, isVectors, isIds, isGraph⟩ :=
    writeToPath_ok valid.length idsLength isShort
  refine ⟨nodes, written, isVectors, isIds, ?_⟩
  intro node isNode
  have isVector : node.vector ∈ vectors := isVectors ▸ mem_map_of_mem isNode
  have isList : node.neighbors ∈ graph := isGraph ▸ mem_map_of_mem isNode
  have length : nodes.length = vectors.length := by rw [← isVectors, length_map]
  refine ⟨fits _ isVector, ?_, isShort _ isList⟩
  rw [length]
  exact valid.nodes _ isList

theorem covers_of_list {access : VectorAccess config.metric}
    (isList : ∀ index, access.vectorOf index = vectors[index]?)
    (fits : ∀ vector ∈ vectors, config.metric.fits vector = true) :
    access.Covers vectors.length := by
  intro index bounded
  refine ⟨vectors[index], ?_, fits _ (getElem_mem bounded)⟩
  rw [isList, getElem?_eq_getElem bounded]

theorem reaches_of_list {access : VectorAccess config.metric}
    (isList : ∀ index, access.vectorOf index = vectors[index]?) {nodes : List Nat}
    (finite : ∀ node ∈ nodes, ∀ vector, vectors[node]? = some vector →
      ReachesEntry config vectors.head? vector) :
    access.Reaches 0 nodes := by
  intro node isNode vector entry isVector isEntry
  rw [isList] at isVector isEntry
  have reaches := finite node isNode vector isVector
  rw [head?_eq_getElem?, isEntry] at reaches
  exact reaches

theorem ring_valid {count : Nat} (positive : 0 < count) : GraphValid count (ring count) where
  length := by rw [ring, length_map, length_range]
  nodes := by
    intro list isList node isNode
    obtain ⟨before, _, rfl⟩ := mem_map.mp isList
    cases mem_singleton.mp isNode
    exact Nat.mod_lt _ positive

theorem buildToPath_ok (some : vectors ≠ []) (idsLength : ids.length = vectors.length)
    (fits : ∀ vector ∈ vectors, config.metric.fits vector = true)
    (finite : ∀ vector ∈ vectors, ReachesEntry config vectors.head? vector) :
    ∃ nodes, buildToPath config vectors ids = .ok (.some nodes) ∧
      Built config vectors ids nodes := by
  have positive : 0 < vectors.length := length_pos_iff.mpr some
  have covers : (inMemory config vectors).Covers vectors.length :=
    covers_of_list (fun _ => rfl) fits
  have reaches : (inMemory config vectors).Reaches 0 (List.range vectors.length) :=
    reaches_of_list (fun _ => rfl) fun _ _ vector found => finite vector (mem_of_getElem? found)
  have bounded : ∀ node ∈ List.range vectors.length, node < vectors.length :=
    fun _ isNode => mem_range.mp isNode
  obtain ⟨first, linkedFirst, firstStep, _⟩ :=
    linkNodes_ok covers .one positive bounded reaches (ring_valid positive)
  obtain ⟨second, linkedSecond, secondStep, short⟩ :=
    linkNodes_ok covers .relaxed positive bounded reaches firstStep.valid
  obtain ⟨nodes, written, built⟩ := built_of_write config secondStep.valid idsLength
    fits fun node isNode => short node (mem_range.mpr isNode)
  refine ⟨nodes, ?_, built⟩
  have nonempty : ¬ vectors.isEmpty = true := fun isEmpty => some (List.isEmpty_iff.mp isEmpty)
  rw [buildToPath, if_neg nonempty]
  dsimp only
  rw [ok_bind linkedFirst, ok_bind linkedSecond, ok_bind written]
  rfl

theorem extended_valid {nodes : List (CachedNode Vector)} (valid : NodesValid config nodes)
    (newVecs : List (DocId × Vector)) :
    GraphValid (nodes.length + newVecs.length)
      (nodes.map CachedNode.neighbors ++ newVecs.map fun _ => []) where
  length := by rw [length_append, length_map, length_map]
  nodes := by
    intro list isList node isNode
    rcases mem_append.mp isList with before | new
    · obtain ⟨owner, isOwner, rfl⟩ := mem_map.mp before
      exact Nat.lt_add_right _ ((valid owner isOwner).2.nodes node isNode)
    · obtain ⟨_, _, rfl⟩ := mem_map.mp new
      exact absurd isNode not_mem_nil

theorem extended_bounded {nodes : List (CachedNode Vector)} (valid : NodesValid config nodes)
    (newVecs : List (DocId × Vector)) (node : Nat) :
    Bounded config (nodes.map CachedNode.neighbors ++ newVecs.map fun _ => []) node := by
  intro list found
  rcases mem_append.mp (mem_of_getElem? found) with before | new
  · obtain ⟨owner, isOwner, rfl⟩ := mem_map.mp before
    exact (valid owner isOwner).2.degree
  · obtain ⟨_, _, rfl⟩ := mem_map.mp new
    exact Nat.zero_le _

theorem DiskAnnIndexInner.liveNodes_of_untouched {inner : DiskAnnIndexInner Vector}
    (untouched : ∀ id ∈ inner.docIds, id ∉ inner.tombstones) : inner.liveNodes = inner.nodes := by
  apply filter_eq_self.mpr
  intro node isNode
  exact decide_eq_true (untouched _ (mem_map_of_mem isNode))

theorem writeIncrementalToFile_ok {inner : DiskAnnIndexInner Vector}
    {newVecs : List (DocId × Vector)} (some : newVecs ≠ []) (stored : inner.nodes ≠ [])
    (untouched : ∀ id ∈ inner.docIds, id ∉ inner.tombstones)
    (valid : NodesValid config inner.nodes)
    (fits : ∀ entry ∈ newVecs, config.metric.fits entry.2 = true)
    (finite : ∀ entry ∈ newVecs,
      ReachesEntry config (inner.nodes.map CachedNode.vector).head? entry.2) :
    ∃ nodes, writeIncrementalToFile config inner newVecs = .ok (.some nodes) ∧
      Built config (inner.nodes.map CachedNode.vector ++ newVecs.map Prod.snd)
        (inner.docIds ++ newVecs.map Prod.fst) nodes := by
  have count : inner.docIds.length = inner.nodes.length := length_map _
  have positive : 0 < inner.nodes.length := length_pos_iff.mpr stored
  have total : (inner.nodes.map CachedNode.vector ++ newVecs.map Prod.snd).length =
      inner.nodes.length + newVecs.length := by
    rw [length_append, length_map, length_map]
  have allFit : ∀ vector ∈ inner.nodes.map CachedNode.vector ++ newVecs.map Prod.snd,
      config.metric.fits vector = true := by
    intro vector isVector
    rcases mem_append.mp isVector with before | new
    · obtain ⟨node, isNode, rfl⟩ := mem_map.mp before
      exact (valid node isNode).1
    · obtain ⟨entry, isEntry, rfl⟩ := mem_map.mp new
      exact fits entry isEntry
  have covers : (streaming config inner.nodes newVecs).Covers
      (inner.nodes.length + newVecs.length) := total ▸ covers_of_list (fun _ => rfl) allFit
  have isNew {node : Nat} (isNode : node ∈ (List.range newVecs.length).map fun j =>
      inner.docIds.length + j) : inner.nodes.length ≤ node ∧
        node < inner.nodes.length + newVecs.length := by
    obtain ⟨j, isIndex, rfl⟩ := mem_map.mp isNode
    rw [count]
    exact ⟨Nat.le_add_right _ _, Nat.add_lt_add_left (mem_range.mp isIndex) _⟩
  have reaches : (streaming config inner.nodes newVecs).Reaches 0
      ((List.range newVecs.length).map fun j => inner.docIds.length + j) := by
    apply reaches_of_list fun _ => rfl
    intro node isNode vector found
    have notOld : (inner.nodes.map CachedNode.vector).length ≤ node := by
      rw [length_map]
      exact (isNew isNode).1
    rw [getElem?_append_right notOld] at found
    obtain ⟨entry, isEntry, rfl⟩ := mem_map.mp (mem_of_getElem? found)
    have head : (inner.nodes.map CachedNode.vector ++ newVecs.map Prod.snd).head? =
        (inner.nodes.map CachedNode.vector).head? := by
      apply head?_append_of_ne_nil
      intro isEmpty
      exact stored (map_eq_nil_iff.mp isEmpty)
    rw [head]
    exact finite entry isEntry
  obtain ⟨graph, linked, step, _⟩ := linkNodes_ok covers .relaxed (Nat.add_pos_left positive _)
    (fun node isNode => (isNew isNode).2) reaches (extended_valid valid newVecs)
  have idsLength : (inner.docIds ++ newVecs.map Prod.fst).length =
      (inner.nodes.map CachedNode.vector ++ newVecs.map Prod.snd).length := by
    rw [total, length_append, length_map, count]
  obtain ⟨nodes, written, built⟩ := built_of_write config (total ▸ step.valid) idsLength allFit
    fun node _ => step.bounded node (extended_bounded valid newVecs node)
  refine ⟨nodes, ?_, built⟩
  have nonempty : ¬ newVecs.isEmpty = true := fun isEmpty => some (List.isEmpty_iff.mp isEmpty)
  have notZero : ¬ inner.docIds.length = 0 := by
    rw [count]
    exact Nat.ne_of_gt positive
  rw [writeIncrementalToFile, if_neg nonempty, if_neg notZero,
    DiskAnnIndexInner.liveNodes_of_untouched untouched]
  dsimp only
  rw [ok_bind linked, ok_bind written]
  rfl

end Contextra.DiskAnn
