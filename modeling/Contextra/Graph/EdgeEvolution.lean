import Contextra.Graph.EdgeProvenance

/-!
# How edges come and go

A mutation keeps edges, gives them tombstones or drops them, and adds edges between known entities.
What it does to the edges of a document is said once for every mutation.
-/

namespace Contextra.Graph.GraphInner

open Library List Option

variable {K : Type} {inner next final : GraphInner K}

variable {node : Nat}

theorem mem_compactedEdges {entry : CsrEntry K} :
    entry ∈ inner.compactedEdges node ↔ node + 1 < inner.offsets.length ∧
      ∃ position, inner.offsets[node]?.getD 0 ≤ position ∧
        position < inner.offsets[node + 1]?.getD 0 ∧ inner.edges[position]? = some entry := by
  unfold compactedEdges
  split_ifs with isRow
  · simp only [mem_iff_getElem?, getElem?_take, getElem?_drop, isRow, true_and]
    constructor
    · rintro ⟨index, isEntry⟩
      split_ifs at isEntry with inside
      exact ⟨_, Nat.le_add_right _ _, by omega, isEntry⟩
    · rintro ⟨position, lower, upper, isEntry⟩
      refine ⟨position - inner.offsets[node]?.getD 0, ?_⟩
      rw [if_pos (by omega), Nat.add_sub_cancel' lower]
      exact isEntry
  · exact ⟨fun impossible => absurd impossible not_mem_nil, fun ⟨row, _⟩ => absurd row isRow⟩

variable {edge : EdgePayload K}

theorem mem_pendingEdgesOf :
    edge ∈ inner.pendingEdgesOf node ↔
      ∃ edges, inner.pendingEdges[node]? = some edges ∧ edge ∈ edges := by
  unfold pendingEdgesOf
  cases inner.pendingEdges[node]? with
  | none => simp
  | some edges => simp

theorem edgesOf_congr (offsets : next.offsets = inner.offsets) (edges : next.edges = inner.edges)
    (pending : next.pendingEdges = inner.pendingEdges) (node : Nat) :
    next.edgesOf node = inner.edgesOf node := by
  rw [edgesOf, edgesOf, compactedEdges, compactedEdges, pendingEdgesOf, pendingEdgesOf, offsets,
    edges, pending]

variable {fresh fresh' : DocId → EntityId → EntityId → Prop}

/-- Indexes are added at the end and never given away again; every edge with a document was there
before, under its tombstone if it had one, or is fresh. -/
structure Evolves (fresh : DocId → EntityId → EntityId → Prop) (inner next : GraphInner K) :
    Prop where
  reverse : inner.reverseMap <+: next.reverseMap
  created : ∀ id index : Nat, next.idMap[id]? = some index →
    inner.idMap[id]? = some index ∨ inner.reverseMap.length ≤ index
  edges : ∀ node, ∀ edge ∈ next.edgesOf node, ∀ doc, edge.sourceDocId = some doc →
    (∃ old ∈ inner.edgesOf node, old.target = edge.target ∧ old.sourceDocId = some doc ∧
      ((node, edge.target) ∈ inner.tombstonedEdges → (node, edge.target) ∈ next.tombstonedEdges)) ∨
    ∃ source target, next.reverseMap[node]? = some source ∧
      next.reverseMap[edge.target]? = some target ∧ fresh doc source target
  ordered : inner.offsets.Pairwise (· ≤ ·) → next.offsets.Pairwise (· ≤ ·)

theorem getElem?_of_reverse (reverse : inner.reverseMap <+: next.reverseMap) {index : Nat}
    {id : EntityId} (found : inner.reverseMap[index]? = some id) :
    next.reverseMap[index]? = some id := by
  obtain ⟨ids, isReverse⟩ := reverse
  rw [← isReverse, getElem?_append_left (List.getElem?_eq_some_iff.mp found).1]
  exact found

theorem Evolves.refl (inner : GraphInner K) : Evolves fresh inner inner where
  reverse := prefix_refl _
  created _ _ found := .inl found
  edges _ edge isEdge _ isDoc := .inl ⟨edge, isEdge, rfl, isDoc, id⟩
  ordered := id

theorem Evolves.trans (first : Evolves fresh inner next) (second : Evolves fresh next final) :
    Evolves fresh inner final where
  reverse := first.reverse.trans second.reverse
  created id index found := by
    rcases second.created id index found with old | new
    · exact first.created id index old
    · exact .inr (first.reverse.length_le.trans new)
  edges node edge isEdge doc isDoc := by
    rcases second.edges node edge isEdge doc isDoc with ⟨middle, isMiddle, same, isDoc, kept⟩ | new
    · rcases first.edges node middle isMiddle doc isDoc with
        ⟨old, isOld, same', isDoc', kept'⟩ | ⟨source, target, isSource, isTarget, isFresh⟩
      · rw [same] at same' kept'
        exact .inl ⟨old, isOld, same', isDoc', fun dead => kept (kept' dead)⟩
      · rw [same] at isTarget
        exact .inr ⟨source, target, getElem?_of_reverse second.reverse isSource,
          getElem?_of_reverse second.reverse isTarget, isFresh⟩
    · exact .inr new
  ordered sorted := second.ordered (first.ordered sorted)

theorem Evolves.mono (evolves : Evolves fresh inner next)
    (le : ∀ doc source target, fresh doc source target → fresh' doc source target) :
    Evolves fresh' inner next :=
  ⟨evolves.reverse, evolves.created, fun node edge isEdge doc isDoc =>
    (evolves.edges node edge isEdge doc isDoc).imp_right
      fun ⟨source, target, isSource, isTarget, isFresh⟩ =>
        ⟨source, target, isSource, isTarget, le doc source target isFresh⟩, evolves.ordered⟩

theorem Evolves.of_subset (reverse : next.reverseMap = inner.reverseMap)
    (known : ∀ id index : Nat, next.idMap[id]? = some index → inner.idMap[id]? = some index)
    (edges : ∀ node, next.edgesOf node ⊆ inner.edgesOf node)
    (dead : inner.tombstonedEdges ⊆ next.tombstonedEdges) (offsets : next.offsets = inner.offsets) :
    Evolves fresh inner next where
  reverse := by rw [reverse]
  created id index found := .inl (known id index found)
  edges node edge isEdge _ isDoc :=
    .inl ⟨edge, edges node isEdge, rfl, isDoc, fun isDead => dead isDead⟩
  ordered sorted := by rwa [offsets]

theorem Grown.evolves [Field K] (grown : Grown inner next) : Evolves fresh inner next where
  reverse := by
    obtain ⟨ids, isReverse, -⟩ := grown.reverse
    exact ⟨ids, isReverse.symm⟩
  created := grown.created
  edges node edge isEdge _ isDoc := by
    rw [edgesOf_congr grown.rows.1 grown.rows.2 grown.pending.1] at isEdge
    refine .inl ⟨edge, isEdge, rfl, isDoc, fun dead => ?_⟩
    rw [grown.pending.2]
    exact dead
  ordered sorted := by rwa [grown.rows.1]

theorem Evolves.of_tables (reverse : next.reverseMap = inner.reverseMap)
    (known : ∀ id index : Nat, next.idMap[id]? = some index → inner.idMap[id]? = some index)
    (offsets : next.offsets = inner.offsets) (edges : next.edges = inner.edges)
    (pending : next.pendingEdges = inner.pendingEdges)
    (dead : next.tombstonedEdges = inner.tombstonedEdges) : Evolves fresh inner next :=
  .of_subset reverse known
    (fun node => by
      rw [edgesOf_congr offsets edges pending]
      exact List.Subset.refl _)
    (by rw [dead]) offsets

theorem evolves_appendPending {node count : Nat} {edges : List (EdgePayload K)} {isDirty : Bool}
    (isFresh : ∀ edge ∈ edges, ∀ doc, edge.sourceDocId = some doc → ∃ source target,
      inner.reverseMap[node]? = some source ∧ inner.reverseMap[edge.target]? = some target ∧
        fresh doc source target) :
    Evolves fresh inner { inner with
      pendingEdges := inner.pendingEdges.insert node (inner.pendingEdgesOf node ++ edges)
      pendingEdgeCount := count
      isDirty } where
  reverse := prefix_refl _
  created _ _ found := .inl found
  ordered := id
  edges other edge isEdge doc isDoc := by
    rcases mem_append.mp isEdge with compacted | isPending
    · exact .inl ⟨edge, mem_append_left _ compacted, rfl, isDoc, id⟩
    · obtain ⟨others, found, inside⟩ := mem_pendingEdgesOf.mp isPending
      change (inner.pendingEdges.insert node (inner.pendingEdgesOf node ++ edges))[other]? =
        some others at found
      rw [Std.TreeMap.getElem?_insert] at found
      split_ifs at found with same
      · obtain rfl := compare_eq_iff_eq.mp same
        cases found
        rcases mem_append.mp inside with old | new
        · exact .inl ⟨edge, mem_append_right _ old, rfl, isDoc, id⟩
        · exact .inr (isFresh edge new doc isDoc)
      · exact .inl ⟨edge, mem_append_right _ (mem_pendingEdgesOf.mpr ⟨others, found, inside⟩),
          rfl, isDoc, id⟩

theorem convertEdges_targets [Field K] (indexed : Indexed inner) (edges : List (StagedEdge K)) :
    ∀ edge ∈ (inner.convertEdges edges).1, ∃ staged ∈ edges,
      edge.sourceDocId = staged.edge.sourceDocId ∧
        (inner.convertEdges edges).2.reverseMap[edge.target]? = some staged.edge.target := by
  induction edges generalizing inner with
  | nil => exact fun edge impossible => absurd impossible not_mem_nil
  | cons staged edges ih =>
    obtain ⟨isIndexed, -, found, -⟩ := getOrCreateIndex_spec indexed staged.edge.target
    obtain ⟨-, grown, -⟩ := convertEdges_spec isIndexed edges
    intro edge isEdge
    rcases mem_cons.mp isEdge with rfl | isLater
    · exact ⟨staged, mem_cons_self, rfl, getElem?_of_reverse (@Grown.evolves K _ _
        (fun _ _ _ => False) _ grown).reverse (isIndexed.indexed _ _ found)⟩
    · obtain ⟨later, inside, holds⟩ := ih isIndexed edge isLater
      exact ⟨later, mem_cons_of_mem _ inside, holds⟩

theorem evolves_foldl {α : Type} {step : GraphInner K → α → GraphInner K} {list : List α}
    (preserved : ∀ inner, Indexed inner → ∀ a ∈ list,
      Indexed (step inner a) ∧ Evolves fresh inner (step inner a)) (indexed : Indexed inner) :
    Indexed (list.foldl step inner) ∧ Evolves fresh inner (list.foldl step inner) := by
  induction list generalizing inner with
  | nil => exact ⟨indexed, .refl inner⟩
  | cons a list ih =>
    obtain ⟨isIndexed, first⟩ := preserved inner indexed a mem_cons_self
    obtain ⟨isFinal, second⟩ := ih
      (fun inner indexed a inside => preserved inner indexed a (mem_cons_of_mem _ inside))
      isIndexed
    exact ⟨isFinal, first.trans second⟩

variable [Field K] [LinearOrder K]

theorem evolves_addToOutWeightSum (inner : GraphInner K) (node : Nat) (weight : K) :
    Evolves fresh inner (inner.addToOutWeightSum node weight) := by
  unfold addToOutWeightSum
  split_ifs
  · exact .of_tables rfl (fun _ _ found => found) rfl rfl rfl rfl
  · exact .refl inner

theorem evolves_recompute (inner : GraphInner K) (node : Nat) :
    Evolves fresh inner (inner.recomputeNodeOutWeightSum node) := by
  unfold recomputeNodeOutWeightSum
  split_ifs
  · exact .refl inner
  · exact .of_tables rfl (fun _ _ found => found) rfl rfl rfl rfl
  · exact .of_tables rfl (fun _ _ found => found) rfl rfl rfl rfl

theorem evolves_commitEdgesOf (indexed : Indexed inner) {source : EntityId}
    {edges : List (StagedEdge K)} (isSource : ∀ staged ∈ edges, staged.source = source) :
    Evolves (StagedFor edges) inner (inner.commitEdgesOf source edges) := by
  obtain ⟨isIndexed, first, found, -⟩ := getOrCreateIndex_spec indexed source
  obtain ⟨converted, second, -⟩ := convertEdges_spec isIndexed edges
  have targets := convertEdges_targets isIndexed edges
  have known := converted.indexed _ _ (second.known _ _ found)
  obtain ⟨-, isReverse, -⟩ := foldl_addToOutWeightSum_spec converted
    (inner.getOrCreateIndex source).1 ((inner.getOrCreateIndex source).2.convertEdges edges).1
  have summed := (@evolves_foldl K _ (StagedFor edges) _
    (fun graph edge => graph.addToOutWeightSum (inner.getOrCreateIndex source).1 edge.weight)
    ((inner.getOrCreateIndex source).2.convertEdges edges).1
    (fun _ indexed _ _ => ⟨indexed.addToOutWeightSum _ _, evolves_addToOutWeightSum _ _ _⟩)
    converted).2
  refine (first.evolves.trans second.evolves).trans (summed.trans (evolves_appendPending ?_))
  intro edge isEdge doc isDoc
  obtain ⟨staged, inside, same, isTarget⟩ := targets edge isEdge
  rw [isReverse]
  exact ⟨source, staged.edge.target, known, isTarget, staged, inside, isSource staged inside, rfl,
    same.symm.trans isDoc⟩

theorem evolves_commitStagedEdges (indexed : Indexed inner) (tx : TxId) :
    Evolves (StagedFor (inner.stagedEdges.filter fun staged => staged.tx = tx)) inner
      (inner.commitStagedEdges tx) := by
  let unstaged : GraphInner K :=
    { inner with stagedEdges := inner.stagedEdges.filter fun staged => staged.tx ≠ tx }
  have isIndexed : Indexed unstaged := ⟨indexed.indexed, indexed.entity, indexed.targets,
    indexed.pendingTargets, indexed.offsets, indexed.sums, indexed.tables⟩
  have cleared : Evolves (StagedFor (inner.stagedEdges.filter fun staged => staged.tx = tx)) inner
      unstaged := .of_tables rfl (fun _ _ found => found) rfl rfl rfl rfl
  unfold commitStagedEdges
  by_cases none : (inner.stagedEdges.filter fun staged => staged.tx = tx) = []
  · simp only [none, if_true] at cleared ⊢
    exact cleared
  · simp only [if_neg none]
    refine (cleared.trans (evolves_foldl (fun graph indexed source _ => ⟨
      (commitEdgesOf_spec indexed source _).1, ?_⟩) isIndexed).2).trans
        (.of_tables rfl (fun _ _ found => found) rfl rfl rfl rfl)
    refine (evolves_commitEdgesOf indexed fun staged inside =>
      of_decide_eq_true (mem_filter.mp inside).2).mono ?_
    rintro doc source target ⟨staged, inside, holds⟩
    exact ⟨staged, mem_of_mem_filter inside, holds⟩

theorem evolves_removeIndexed (inner : GraphInner K) (source target : Nat) :
    Evolves fresh inner (inner.removeIndexed source target) := by
  simp only [removeIndexed]
  refine Evolves.trans ?_ (evolves_recompute _ source)
  refine .of_subset rfl (fun _ _ found => found) (fun node edge isEdge => ?_)
    (Finset.subset_insert _ _) rfl
  rcases mem_append.mp isEdge with compacted | isPending
  · exact mem_append_left _ compacted
  · refine mem_append_right _ ?_
    obtain ⟨edges, found, inside⟩ := mem_pendingEdgesOf.mp isPending
    cases isRow : inner.pendingEdges[source]? with
    | none =>
      simp only [isRow] at found
      exact mem_pendingEdgesOf.mpr ⟨edges, found, inside⟩
    | some pending =>
      simp only [isRow, Std.TreeMap.getElem?_insert] at found
      split_ifs at found with same
      · obtain rfl := compare_eq_iff_eq.mp same
        cases found
        exact mem_pendingEdgesOf.mpr ⟨pending, isRow, mem_of_mem_filter inside⟩
      · exact mem_pendingEdgesOf.mpr ⟨edges, found, inside⟩

theorem commitRemoval_spec (indexed : Indexed inner) (removal : EntityId × EntityId) :
    Indexed (inner.commitRemoval removal) ∧ Evolves fresh inner (inner.commitRemoval removal) := by
  unfold commitRemoval
  split
  · exact ⟨(removeIndexed_spec indexed _ _).1, evolves_removeIndexed _ _ _⟩
  · exact ⟨indexed, .refl inner⟩

theorem evolves_commitStagedRemovals (indexed : Indexed inner) (tx : TxId) :
    Evolves fresh inner (inner.commitStagedRemovals tx) := by
  let unstaged : GraphInner K :=
    { inner with stagedRemovals := inner.stagedRemovals.filter fun staged => staged.1 ≠ tx }
  have isIndexed : Indexed unstaged := ⟨indexed.indexed, indexed.entity, indexed.targets,
    indexed.pendingTargets, indexed.offsets, indexed.sums, indexed.tables⟩
  have cleared : Evolves fresh inner unstaged :=
    .of_tables rfl (fun _ _ found => found) rfl rfl rfl rfl
  exact cleared.trans
    (evolves_foldl (fun _ indexed removal _ => commitRemoval_spec indexed removal) isIndexed).2

section Offsets

variable {α : Type} (rows : List (List α)) (base : Nat)

def rowOffsets : List Nat := rows.scanl (fun offset row => offset + row.length) base

theorem le_of_mem_rowOffsets {offset : Nat} (inside : offset ∈ rowOffsets rows base) :
    base ≤ offset := by
  induction rows generalizing base with
  | nil => exact (mem_singleton.mp inside).ge
  | cons row rows ih =>
    rw [rowOffsets, scanl_cons] at inside
    rcases mem_cons.mp inside with rfl | later
    · exact le_rfl
    · exact (Nat.le_add_right _ _).trans (ih _ later)

theorem pairwise_rowOffsets : (rowOffsets rows base).Pairwise (· ≤ ·) := by
  induction rows generalizing base with
  | nil => exact pairwise_singleton _ _
  | cons row rows ih =>
    rw [rowOffsets, scanl_cons]
    exact pairwise_cons.mpr ⟨fun offset inside =>
      (Nat.le_add_right _ _).trans (le_of_mem_rowOffsets rows _ inside), ih _⟩

variable {rows base}

theorem mem_row_of_offsets {node position lower upper : Nat} {a : α}
    (isLower : (rowOffsets rows base)[node]? = some lower)
    (isUpper : (rowOffsets rows base)[node + 1]? = some upper) (above : lower ≤ position)
    (below : position < upper) (found : rows.flatten[position - base]? = some a) :
    ∃ row, rows[node]? = some row ∧ a ∈ row := by
  induction rows generalizing base node with
  | nil =>
    rw [rowOffsets, scanl_nil] at isUpper
    cases isUpper
  | cons row rows ih =>
    rw [rowOffsets, scanl_cons] at isLower isUpper
    rw [flatten_cons] at found
    cases node with
    | zero =>
      obtain rfl := some.inj isLower
      have bound : upper = base + row.length := by
        rw [getElem?_cons_succ] at isUpper
        cases rows with
        | nil => exact (some.inj isUpper).symm
        | cons first rows =>
          rw [scanl_cons] at isUpper
          exact (some.inj isUpper).symm
      rw [getElem?_append_left (by omega)] at found
      exact ⟨row, rfl, mem_of_getElem? found⟩
    | succ node =>
      rw [getElem?_cons_succ] at isLower isUpper
      have base_le := le_of_mem_rowOffsets rows _ (mem_of_getElem? isLower)
      rw [getElem?_append_right (by omega), Nat.sub_sub] at found
      exact ih isLower isUpper found

end Offsets

theorem mem_edgesOf_compact (isEdge : edge ∈ inner.compact.edgesOf node) :
    ∃ old ∈ inner.keptEdges node, edge = old ∨ edge = old.entry.payload := by
  by_cases idle : inner.pendingEdges.isEmpty = true ∧ inner.tombstonedEdges = ∅
  · have rows := compactedEdges_compact idle node
    rw [edgesOf, rows] at isEdge
    rw [GraphInner.compact, if_pos idle] at isEdge
    refine ⟨edge, mem_filter.mpr ⟨isEdge, ?_⟩, .inl rfl⟩
    rw [idle.2]
    exact decide_eq_true (Finset.notMem_empty _)
  · rw [GraphInner.compact, if_neg idle] at isEdge
    rcases mem_append.mp isEdge with compacted | isPending
    · obtain ⟨entry, isEntry, rfl⟩ := List.mem_map.mp compacted
      obtain ⟨isRow, position, lower, upper, found⟩ := mem_compactedEdges.mp isEntry
      change node + 1 < (rowOffsets inner.compactedRows 0).length at isRow
      change (rowOffsets inner.compactedRows 0)[node]?.getD 0 ≤ position at lower
      change position < (rowOffsets inner.compactedRows 0)[node + 1]?.getD 0 at upper
      rw [getElem?_eq_getElem (by omega), getD_some] at lower
      rw [getElem?_eq_getElem isRow, getD_some] at upper
      obtain ⟨row, atNode, inside⟩ := mem_row_of_offsets (getElem?_eq_getElem (by omega))
        (getElem?_eq_getElem isRow) lower upper found
      rw [compactedRows, getElem?_map] at atNode
      obtain ⟨node', isNode, rfl⟩ := map_eq_some_iff.mp atNode
      obtain ⟨inRange, rfl⟩ := List.getElem?_eq_some_iff.mp isNode
      rw [getElem_range] at inside
      obtain ⟨old, isOld, rfl⟩ := List.mem_map.mp inside
      exact ⟨old, (mem_insertionSort _).mp isOld, .inr rfl⟩
    · obtain ⟨edges, found, -⟩ := mem_pendingEdgesOf.mp isPending
      have none : (∅ : Std.TreeMap Nat (List (EdgePayload K)))[node]? = none :=
        Std.TreeMap.getElem?_emptyc
      cases none.symm.trans found

omit [Field K] [LinearOrder K] in
theorem sourceDocId_payload {doc : DocId}
    (isDoc : edge.entry.payload.sourceDocId = some doc) : edge.sourceDocId = some doc := by
  change (some (edge.sourceDocId.getD 0)).filter (· ≠ 0) = some doc at isDoc
  obtain ⟨same, nonzero⟩ := filter_eq_some_iff.mp isDoc
  cases found : edge.sourceDocId with
  | none =>
    rw [found] at same
    cases same
    exact absurd rfl (of_decide_eq_true nonzero)
  | some other =>
    rw [found] at same
    exact same

theorem le_getLast_of_pairwise {offsets : List Nat} (sorted : offsets.Pairwise (· ≤ ·))
    {offset : Nat} (inside : offset ∈ offsets) : offset ≤ offsets.getLast?.getD 0 := by
  obtain ⟨index, bound, rfl⟩ := getElem_of_mem inside
  rw [getLast?_eq_getElem?, getElem?_eq_getElem (by omega), getD_some]
  rcases Nat.lt_or_ge index (offsets.length - 1) with less | last
  · exact pairwise_iff_getElem.mp sorted _ _ _ _ less
  · exact le_of_eq (by congr 1; omega)

theorem evolves_compact (inner : GraphInner K) : Evolves fresh inner inner.compact := by
  have kept : inner.compact.reverseMap = inner.reverseMap ∧ inner.compact.idMap = inner.idMap := by
    unfold GraphInner.compact
    split_ifs
    · exact ⟨rfl, rfl⟩
    · exact ⟨rfl, rfl⟩
  refine ⟨by rw [kept.1], fun id index found => .inl (kept.2 ▸ found), ?_, fun sorted => ?_⟩
  · intro node edge isEdge doc isDoc
    obtain ⟨old, isOld, same⟩ := mem_edgesOf_compact isEdge
    obtain ⟨inside, alive⟩ := mem_filter.mp isOld
    refine .inl ⟨old, inside, ?_, ?_, fun dead => ?_⟩
    · rcases same with rfl | rfl
      · rfl
      · rfl
    · rcases same with rfl | rfl
      · exact isDoc
      · exact sourceDocId_payload isDoc
    · refine absurd ?_ (of_decide_eq_true alive)
      rcases same with rfl | rfl
      · exact dead
      · exact dead
  · unfold GraphInner.compact
    split_ifs
    · refine pairwise_append.mpr ⟨sorted, ?_, fun offset inside last isLast => ?_⟩
      · exact pairwise_replicate.mpr (.inr le_rfl)
      · rw [eq_of_mem_replicate isLast]
        exact le_getLast_of_pairwise sorted inside
    · exact pairwise_rowOffsets inner.compactedRows 0

omit [Field K] [LinearOrder K] in
theorem getElem?_endValidity (walTx : TxId) (source target position : Nat) :
    (inner.endValidity walTx source target).edges[position]? =
      inner.edges[position]?.map fun entry =>
        if source + 1 < inner.offsets.length ∧ inner.offsets[source]?.getD 0 ≤ position ∧
            position < inner.offsets[source + 1]?.getD 0 ∧ entry.target = target then
          { entry with txValidTo := walTx }
        else entry := by
  simp only [endValidity]
  split_ifs with isRow
  · rw [getElem?_mapIdx]
    simp only [isRow, true_and]
  · simp only [isRow, false_and, if_false, Option.map_id']

omit [Field K] [LinearOrder K] in
theorem getElem?_pendingEdges_endValidity (walTx : TxId) (source target node : Nat) :
    (inner.endValidity walTx source target).pendingEdges[node]? =
      inner.pendingEdges[node]?.map fun edges => edges.map fun edge =>
        if node = source ∧ edge.target = target then { edge with txValidTo := some walTx }
        else edge := by
  have unchanged : inner.pendingEdges[node]? = inner.pendingEdges[node]?.map fun edges =>
      edges.map fun edge => edge := by
    simp
  cases found : inner.pendingEdges[source]? with
  | none =>
    simp only [endValidity, found]
    by_cases same : node = source
    · rw [same, found]
      rfl
    · simp [same]
  | some pending =>
    simp only [endValidity, found, Std.TreeMap.getElem?_insert, compare_eq_iff_eq]
    by_cases same : source = node
    · subst same
      simp [found]
    · simp [same, Ne.symm same]

omit [Field K] [LinearOrder K] in
theorem evolves_endValidity (inner : GraphInner K) (walTx : TxId) (source target : Nat) :
    Evolves fresh inner (inner.endValidity walTx source target) where
  reverse := prefix_refl _
  created _ _ found := .inl found
  ordered := id
  edges node edge isEdge doc isDoc := by
    refine .inl ?_
    have dead : (node, edge.target) ∈ inner.tombstonedEdges →
        (node, edge.target) ∈ (inner.endValidity walTx source target).tombstonedEdges :=
      fun isDead => Finset.mem_insert_of_mem isDead
    rcases mem_append.mp isEdge with compacted | isPending
    · obtain ⟨entry, isEntry, rfl⟩ := List.mem_map.mp compacted
      obtain ⟨isRow, position, lower, upper, found⟩ := mem_compactedEdges.mp isEntry
      rw [getElem?_endValidity] at found
      obtain ⟨old, isOld, rfl⟩ := map_eq_some_iff.mp found
      refine ⟨old.payload, mem_append_left _ (List.mem_map_of_mem
        (mem_compactedEdges.mpr ⟨isRow, position, lower, upper, isOld⟩)), ?_, ?_, dead⟩
      · split_ifs <;> rfl
      · rw [← isDoc]
        split_ifs <;> rfl
    · obtain ⟨edges, found, inside⟩ := mem_pendingEdgesOf.mp isPending
      rw [getElem?_pendingEdges_endValidity] at found
      obtain ⟨olds, isOlds, rfl⟩ := map_eq_some_iff.mp found
      obtain ⟨old, isOld, rfl⟩ := List.mem_map.mp inside
      refine ⟨old, mem_append_right _ (mem_pendingEdgesOf.mpr ⟨olds, isOlds, isOld⟩), ?_, ?_,
        dead⟩
      · split_ifs <;> rfl
      · rw [← isDoc]
        split_ifs <;> rfl

omit [Field K] [LinearOrder K] in
theorem tombstoneEdgesDirect_spec (indexed : Indexed inner) (edges : List (EntityId × EntityId))
    (walTx : TxId) : Indexed (inner.tombstoneEdgesDirect edges walTx).1 ∧
      Evolves fresh inner (inner.tombstoneEdgesDirect edges walTx).1 := by
  have folded (marked : GraphInner K × List (EntityId × EntityId)) (isIndexed : Indexed marked.1) :
      Indexed (edges.foldl (tombstoneEdgeDirect walTx) marked).1 ∧
        Evolves fresh marked.1 (edges.foldl (tombstoneEdgeDirect walTx) marked).1 := by
    induction edges generalizing marked with
    | nil => exact ⟨isIndexed, .refl _⟩
    | cons edge edges ih =>
      have first : Indexed (tombstoneEdgeDirect walTx marked edge).1 ∧
          Evolves fresh marked.1 (tombstoneEdgeDirect walTx marked edge).1 := by
        unfold tombstoneEdgeDirect
        split
        · split_ifs
          · exact ⟨isIndexed, .refl _⟩
          · exact ⟨isIndexed.endValidity walTx _ _, evolves_endValidity _ _ _ _⟩
        · exact ⟨isIndexed, .refl _⟩
      obtain ⟨isFinal, second⟩ := ih _ first.1
      exact ⟨isFinal, first.2.trans second⟩
  exact folded (inner, []) indexed

theorem commit_spec (indexed : Indexed inner) (rebuildThreshold : Nat) (tx : TxId) :
    Indexed (inner.commit rebuildThreshold tx) ∧
      Evolves (StagedFor (inner.stagedEdges.filter fun staged => staged.tx = tx)) inner
        (inner.commit rebuildThreshold tx) := by
  obtain ⟨isFirst, settled⟩ := commitStagedEntities_spec indexed tx
  have isSecond := (commitStagedEdges_spec isFirst tx).1
  have isThird := (commitStagedRemovals_spec isSecond tx).1
  have edges := evolves_commitStagedEdges isFirst tx
  rw [settled.staged.1] at edges
  have committed := (settled.toGrown.evolves.trans edges).trans
    (evolves_commitStagedRemovals isSecond tx)
  unfold GraphInner.commit
  simp only
  split_ifs
  · exact ⟨isThird.compact, committed.trans (evolves_compact _)⟩
  · exact ⟨isThird, committed⟩

theorem removeEntity_spec (indexed : Indexed inner) (rebuildThreshold : Nat) (tx : TxId)
    (id : EntityId) : Indexed (inner.removeEntity rebuildThreshold tx id) ∧
      Evolves (StagedFor (inner.stagedEdges.filter fun staged => staged.tx = tx)) inner
        (inner.removeEntity rebuildThreshold tx id) := by
  unfold GraphInner.removeEntity
  cases found : inner.idMap[id]? with
  | none => exact ⟨indexed, .refl inner⟩
  | some index =>
    simp only
    generalize (inner.collectEntityIncidentEdges index).1 = outgoing
    generalize (inner.collectEntityIncidentEdges index).2 = incoming
    have first := @foldl_removeEdge K inner _ tx (fun target => (id, target)) outgoing
    have second := @foldl_removeEdge K { inner with
      stagedRemovals := inner.stagedRemovals ++ outgoing.map fun target => (tx, id, target) } _ tx
      (fun source => (source, id)) incoming
    simp only at first second
    rw [first, second]
    let staged : GraphInner K := { inner with
      stagedRemovals := inner.stagedRemovals ++ outgoing.map (fun target => (tx, id, target)) ++
        incoming.map fun source => (tx, source, id) }
    have isStaged : Indexed staged := ⟨indexed.indexed, indexed.entity, indexed.targets,
      indexed.pendingTargets, indexed.offsets, indexed.sums, indexed.tables⟩
    obtain ⟨isFinal, committed⟩ := commit_spec (isStaged.forgetEntity found) rebuildThreshold tx
    have forgotten : Evolves (StagedFor (inner.stagedEdges.filter fun staged => staged.tx = tx))
        inner (staged.forgetEntity id index) :=
      .of_tables rfl (fun _ _ isIndex => (@idMap_forgetEntity K staged id _ _ index isIndex).2) rfl
        rfl rfl rfl
    exact ⟨isFinal, forgotten.trans committed⟩

omit [Field K] [LinearOrder K] in
theorem Indexed.pushPending (indexed : Indexed inner) (node : Nat)
    (isTarget : edge.target < inner.reverseMap.length) : Indexed (inner.pushPending node edge) := by
  have targets : ∀ other ∈ inner.pendingEdgesOf node ++ [edge],
      other.target < inner.reverseMap.length := by
    intro other isOther
    rcases mem_append.mp isOther with old | new
    · exact indexed.target_lt (mem_append_right _ old)
    · rwa [mem_singleton.mp new]
  have pending : Indexed { inner with
      pendingEdges := inner.pendingEdges.insert node (inner.pendingEdgesOf node ++ [edge])
      pendingEdgeCount := inner.pendingEdgeCount + 1 } := indexed.withPending targets
  exact ⟨pending.indexed, pending.entity, pending.targets, pending.pendingTargets, pending.offsets,
    pending.sums, pending.tables⟩

theorem loadEdge_spec (indexed : Indexed inner) (source : EntityId) (edge : EdgePayload K) :
    Indexed (inner.loadEdge source edge) ∧
      Evolves (fun doc source' target => source = source' ∧ edge.target = target ∧
        edge.sourceDocId = some doc) inner (inner.loadEdge source edge) := by
  obtain ⟨isFirst, first, isSource, -⟩ := getOrCreateIndex_spec indexed source
  obtain ⟨isSecond, second, isTarget, -⟩ := getOrCreateIndex_spec isFirst edge.target
  have sourceId := isSecond.indexed _ _ (second.known _ _ isSource)
  have targetId := isSecond.indexed _ _ isTarget
  refine ⟨(isSecond.pushPending _ (isSecond.index_lt isTarget)).addToOutWeightSum _ _, ?_⟩
  refine ((first.evolves.trans second.evolves).trans (evolves_appendPending ?_)).trans
    (evolves_addToOutWeightSum _ _ _)
  intro added isAdded doc isDoc
  obtain rfl := mem_singleton.mp isAdded
  exact ⟨source, edge.target, sourceId, targetId, rfl, rfl, isDoc⟩

theorem step_spec (indexed : Indexed inner) {rebuildThreshold : Nat} {mutation : Mutation K}
    (taken : step rebuildThreshold inner mutation = some next) :
    Indexed next ∧ Evolves (inner.Commits mutation) inner next := by
  have restaged (stagedEntities : List (TxId × EntityId)) (stagedEdges : List (StagedEdge K))
      (stagedRemovals : List (TxId × EntityId × EntityId)) :
      Indexed { inner with stagedEntities, stagedEdges, stagedRemovals } ∧
        Evolves (fun _ _ _ => False) inner
          { inner with stagedEntities, stagedEdges, stagedRemovals } :=
    ⟨⟨indexed.indexed, indexed.entity, indexed.targets, indexed.pendingTargets, indexed.offsets,
      indexed.sums, indexed.tables⟩, .of_tables rfl (fun _ _ found => found) rfl rfl rfl rfl⟩
  cases mutation with
  | addEntity tx id =>
    cases taken
    exact restaged _ _ _
  | addEdge tx source edge =>
    cases taken
    unfold GraphInner.addEdge
    split_ifs
    · exact ⟨indexed, .refl inner⟩
    · exact restaged _ _ _
  | removeEdge tx source target =>
    cases taken
    exact restaged _ _ _
  | removeEntity tx id =>
    cases taken
    by_cases known : id ∈ inner.idMap
    · obtain ⟨isIndexed, evolves⟩ := removeEntity_spec indexed rebuildThreshold tx id
      exact ⟨isIndexed, evolves.mono fun _ _ _ staged => ⟨known, staged⟩⟩
    · have missing : inner.idMap[id]? = none := Std.TreeMap.getElem?_eq_none known
      rw [GraphInner.removeEntity, missing]
      exact ⟨indexed, .refl inner⟩
  | commit tx =>
    cases taken
    exact commit_spec indexed rebuildThreshold tx
  | rollback tx =>
    cases taken
    exact restaged _ _ _
  | tombstoneEdgesDirect edges walTx =>
    cases taken
    exact tombstoneEdgesDirect_spec indexed edges walTx
  | compact =>
    cases taken
    exact ⟨indexed.compact, evolves_compact inner⟩

end Contextra.Graph.GraphInner
