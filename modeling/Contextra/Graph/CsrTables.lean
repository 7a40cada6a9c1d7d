import Contextra.Graph.CsrMutations

/-!
# The tables of the graph

What holds of the tables between mutations: an id leads to its index and back, a live entity is
under its id, and the edges lead to indexes that exist.
-/

namespace Contextra.Graph.GraphInner

open List Option

variable {K : Type} {inner next : GraphInner K}

structure Indexed (inner : GraphInner K) : Prop where
  indexed : ∀ id index : Nat, inner.idMap[id]? = some index → inner.reverseMap[index]? = some id
  entity : ∀ index id, inner.entityAt index = some id → inner.idMap[id]? = some index
  targets : ∀ entry ∈ inner.edges, entry.target < inner.reverseMap.length
  pendingTargets : ∀ (node : Nat) (edges : List (EdgePayload K)),
    inner.pendingEdges[node]? = some edges → ∀ edge ∈ edges, edge.target < inner.reverseMap.length
  offsets : inner.offsets.length ≤ inner.reverseMap.length + 1
  sums : inner.outWeightSums.length = inner.reverseMap.length
  tables : inner.tables = .new

theorem indexed_new : Indexed (new : GraphInner K) where
  indexed := by
    intro id index impossible
    cases impossible
  entity := by
    intro index id impossible
    cases impossible
  targets := fun _ impossible => absurd impossible not_mem_nil
  pendingTargets := by
    intro node edges impossible
    cases impossible
  offsets := le_rfl
  sums := rfl
  tables := rfl

theorem Indexed.index_lt (indexed : Indexed inner) {id index : Nat}
    (found : inner.idMap[id]? = some index) : index < inner.reverseMap.length :=
  (List.getElem?_eq_some_iff.mp (indexed.indexed id index found)).1

theorem Indexed.target_lt (indexed : Indexed inner) {node : Nat} {edge : EdgePayload K}
    (isEdge : edge ∈ inner.edgesOf node) : edge.target < inner.reverseMap.length := by
  rcases mem_append.mp isEdge with compacted | isPending
  · obtain ⟨entry, isEntry, rfl⟩ := List.mem_map.mp compacted
    unfold compactedEdges at isEntry
    split_ifs at isEntry
    · exact indexed.targets entry (mem_of_mem_drop (mem_of_mem_take isEntry))
    · cases isEntry
  · unfold pendingEdgesOf at isPending
    cases found : inner.pendingEdges[node]? with
    | none =>
      rw [found] at isPending
      cases isPending
    | some edges =>
      rw [found] at isPending
      exact indexed.pendingTargets node edges found edge isPending

theorem entityAt_setEntity (inner : GraphInner K) (index other : Nat) (id : EntityId) :
    (inner.setEntity index id).entityAt other =
      if other = index then (some id).filter (· ≠ sentinelEntity) else inner.entityAt other := by
  have size : index < (inner.entities ++
      replicate (index + 1 - inner.entities.length) sentinelEntity).length := by
    rw [length_append, length_replicate]
    omega
  rw [entityAt, setEntity]
  simp only
  split_ifs with same
  · rw [same, getElem?_set_self size]
  · rw [getElem?_set_ne (Ne.symm same), entityAt]
    by_cases inside : other < inner.entities.length
    · rw [getElem?_append_left inside]
    · rw [getElem?_append_right (not_lt.mp inside), getElem?_replicate,
        getElem?_eq_none (not_lt.mp inside)]
      split_ifs <;> rfl

theorem entityAt_of_mem {index : Nat} {id : EntityId} (found : inner.entityAt index = some id) :
    id ≠ sentinelEntity :=
  of_decide_eq_true (filter_eq_some_iff.mp found).2

theorem Indexed.setEntity (indexed : Indexed inner) {id index : Nat}
    (found : inner.idMap[id]? = some index) : Indexed (inner.setEntity index id) where
  indexed := indexed.indexed
  entity := by
    intro other id' isEntity
    rw [entityAt_setEntity] at isEntity
    split_ifs at isEntity with same
    · obtain ⟨isId, -⟩ := filter_eq_some_iff.mp isEntity
      rw [← some.inj isId, same]
      exact found
    · exact indexed.entity other id' isEntity
  targets := indexed.targets
  pendingTargets := indexed.pendingTargets
  offsets := indexed.offsets
  sums := indexed.sums
  tables := indexed.tables

theorem Indexed.withSums (indexed : Indexed inner) {sums : List K}
    (length : sums.length = inner.outWeightSums.length) :
    Indexed { inner with outWeightSums := sums } :=
  ⟨indexed.indexed, indexed.entity, indexed.targets, indexed.pendingTargets, indexed.offsets,
    length.trans indexed.sums, indexed.tables⟩

theorem Indexed.withPending (indexed : Indexed inner) {node count : Nat}
    {edges : List (EdgePayload K)}
    (targets : ∀ edge ∈ edges, edge.target < inner.reverseMap.length) :
    Indexed { inner with
      pendingEdges := inner.pendingEdges.insert node edges
      pendingEdgeCount := count } where
  indexed := indexed.indexed
  entity := indexed.entity
  targets := indexed.targets
  pendingTargets := by
    intro other others isPending
    change (inner.pendingEdges.insert node edges)[other]? = some others at isPending
    rw [Std.TreeMap.getElem?_insert] at isPending
    split_ifs at isPending with same
    · obtain rfl := some.inj isPending
      exact targets
    · exact indexed.pendingTargets other others isPending
  offsets := indexed.offsets
  sums := indexed.sums
  tables := indexed.tables

variable [Field K]

/-- New indexes behind the old ones, and nothing else. -/
structure Grown (inner next : GraphInner K) : Prop where
  rows : next.offsets = inner.offsets ∧ next.edges = inner.edges
  pending : next.pendingEdges = inner.pendingEdges ∧ next.tombstonedEdges = inner.tombstonedEdges
  staged : next.stagedEdges = inner.stagedEdges ∧ next.stagedRemovals = inner.stagedRemovals
  reverse : ∃ ids, next.reverseMap = inner.reverseMap ++ ids ∧
    next.outWeightSums = inner.outWeightSums ++ replicate ids.length 0
  known : ∀ id index : Nat, inner.idMap[id]? = some index → next.idMap[id]? = some index
  created : ∀ id index : Nat, next.idMap[id]? = some index →
    inner.idMap[id]? = some index ∨ inner.reverseMap.length ≤ index

theorem Grown.refl (inner : GraphInner K) : Grown inner inner where
  rows := ⟨rfl, rfl⟩
  pending := ⟨rfl, rfl⟩
  staged := ⟨rfl, rfl⟩
  reverse := ⟨[], (append_nil _).symm, (append_nil _).symm⟩
  known := fun _ _ found => found
  created := fun _ _ found => Or.inl found

theorem Grown.length_le (grown : Grown inner next) :
    inner.reverseMap.length ≤ next.reverseMap.length := by
  obtain ⟨ids, isReverse, -⟩ := grown.reverse
  rw [isReverse, length_append]
  exact Nat.le_add_right _ _

theorem Grown.trans {final : GraphInner K} (first : Grown inner next) (second : Grown next final) :
    Grown inner final where
  rows := ⟨second.rows.1.trans first.rows.1, second.rows.2.trans first.rows.2⟩
  pending := ⟨second.pending.1.trans first.pending.1, second.pending.2.trans first.pending.2⟩
  staged := ⟨second.staged.1.trans first.staged.1, second.staged.2.trans first.staged.2⟩
  reverse := by
    obtain ⟨ids, isReverse, isSums⟩ := first.reverse
    obtain ⟨ids', isReverse', isSums'⟩ := second.reverse
    refine ⟨ids ++ ids', ?_, ?_⟩
    · rw [isReverse', isReverse, append_assoc]
    · rw [isSums', isSums, append_assoc, ← replicate_add, length_append]
  known := fun id index found => second.known id index (first.known id index found)
  created := fun id index found => by
    rcases second.created id index found with old | new
    · exact first.created id index old
    · exact Or.inr (first.length_le.trans new)

theorem getOrCreateIndex_spec (indexed : Indexed inner) (id : EntityId) :
    Indexed (inner.getOrCreateIndex id).2 ∧ Grown inner (inner.getOrCreateIndex id).2 ∧
      (inner.getOrCreateIndex id).2.idMap[id]? = some (inner.getOrCreateIndex id).1 ∧
      (inner.getOrCreateIndex id).2.entities = inner.entities := by
  unfold getOrCreateIndex
  cases found : inner.idMap[id]? with
  | some index => exact ⟨indexed, .refl inner, found, rfl⟩
  | none =>
    have lookup (other : Nat) : (inner.idMap.insert id inner.reverseMap.length)[other]? =
        if id = other then some inner.reverseMap.length else inner.idMap[other]? := by
      rw [Std.TreeMap.getElem?_insert]
      simp only [compare_eq_iff_eq]
    refine ⟨⟨?_, ?_, ?_, ?_, ?_, ?_, indexed.tables⟩, ⟨⟨rfl, rfl⟩, ⟨rfl, rfl⟩, ⟨rfl, rfl⟩,
      ⟨[id], rfl, rfl⟩, ?_, ?_⟩, ?_, rfl⟩
    · intro other index isIndex
      change (inner.idMap.insert id inner.reverseMap.length)[other]? = some index at isIndex
      rw [lookup] at isIndex
      split_ifs at isIndex with same
      · obtain rfl := some.inj isIndex
        rw [← same, getElem?_concat_length]
      · rw [getElem?_append_left (indexed.index_lt isIndex)]
        exact indexed.indexed other index isIndex
    · intro index other isEntity
      change (inner.idMap.insert id inner.reverseMap.length)[other]? = some index
      have old := indexed.entity index other isEntity
      rw [lookup, if_neg]
      · exact old
      · rintro rfl
        rw [found] at old
        cases old
    · intro entry inside
      exact (indexed.targets entry inside).trans_le (by simp)
    · intro node edges isPending edge isEdge
      exact (indexed.pendingTargets node edges isPending edge isEdge).trans_le (by simp)
    · exact indexed.offsets.trans (by simp)
    · simp [indexed.sums]
    · intro other index isIndex
      change (inner.idMap.insert id inner.reverseMap.length)[other]? = some index
      rw [lookup, if_neg]
      · exact isIndex
      · rintro rfl
        rw [found] at isIndex
        cases isIndex
    · intro other index isIndex
      change (inner.idMap.insert id inner.reverseMap.length)[other]? = some index at isIndex
      rw [lookup] at isIndex
      split_ifs at isIndex
      · exact Or.inr (some.inj isIndex).le
      · exact Or.inl isIndex
    · change (inner.idMap.insert id inner.reverseMap.length)[id]? = _
      rw [lookup, if_pos rfl]

/-- A commit of entities makes the entities of known ids live. -/
structure Settled (ids : List EntityId) (inner next : GraphInner K) : Prop extends
    Grown inner next where
  live : ∀ node < inner.reverseMap.length, (next.entityAt node).isSome = true ↔
    (inner.entityAt node).isSome = true ∨
      ∃ id ∈ ids, id ≠ sentinelEntity ∧ inner.idMap[id]? = some node

theorem commitEntity_spec (indexed : Indexed inner) (id : EntityId) :
    Indexed (inner.commitEntity id) ∧ Settled [id] inner (inner.commitEntity id) := by
  obtain ⟨isIndexed, grown, found, sameEntities⟩ := getOrCreateIndex_spec indexed id
  have isNext : inner.commitEntity id = (inner.getOrCreateIndex id).2.setEntity
      (inner.getOrCreateIndex id).1 id := rfl
  have before (node : Nat) : (inner.getOrCreateIndex id).2.entityAt node = inner.entityAt node := by
    rw [entityAt, entityAt, sameEntities]
  rw [isNext]
  refine ⟨isIndexed.setEntity found,
    ⟨⟨grown.rows, grown.pending, grown.staged, grown.reverse, grown.known, grown.created⟩, ?_⟩⟩
  intro node inside
  rw [entityAt_setEntity, before]
  have known : inner.idMap[id]? = some node ↔ node = (inner.getOrCreateIndex id).1 := by
    constructor
    · intro isNode
      have same := grown.known id node isNode
      rw [found] at same
      exact (some.inj same).symm
    · rintro rfl
      exact (grown.created id _ found).resolve_right (not_le.mpr inside)
  split_ifs with same
  · -- an entity with the sentinel's id stays invisible, and its index had no other entity
    have isNode := known.mpr same
    constructor
    · intro isLive
      obtain ⟨id', found'⟩ := isSome_iff_exists.mp isLive
      obtain ⟨isId, notSentinel⟩ := filter_eq_some_iff.mp found'
      obtain rfl := some.inj isId
      exact Or.inr ⟨id, mem_singleton_self id, of_decide_eq_true notSentinel, isNode⟩
    · rintro (old | ⟨id', isId, notSentinel, -⟩)
      · obtain ⟨id', isEntity⟩ := isSome_iff_exists.mp old
        have reverse := indexed.indexed id' node (indexed.entity node id' isEntity)
        rw [indexed.indexed id node isNode] at reverse
        obtain rfl := some.inj reverse
        exact isSome_iff_exists.mpr ⟨id, filter_eq_some_iff.mpr
          ⟨rfl, decide_eq_true (entityAt_of_mem isEntity)⟩⟩
      · obtain rfl := mem_singleton.mp isId
        exact isSome_iff_exists.mpr ⟨id', filter_eq_some_iff.mpr
          ⟨rfl, decide_eq_true notSentinel⟩⟩
  · refine ⟨Or.inl, ?_⟩
    rintro (old | ⟨id', isId, -, isNode⟩)
    · exact old
    · obtain rfl := mem_singleton.mp isId
      exact absurd (known.mp isNode) same

theorem commitEntities_spec (indexed : Indexed inner) (ids : List EntityId) :
    Indexed (ids.foldl commitEntity inner) ∧ Settled ids inner (ids.foldl commitEntity inner) := by
  induction ids generalizing inner with
  | nil =>
    refine ⟨indexed, ⟨.refl inner, fun node _ => ⟨Or.inl, ?_⟩⟩⟩
    rintro (old | ⟨id, impossible, -⟩)
    · exact old
    · cases impossible
  | cons id ids ih =>
    obtain ⟨isIndexed, first⟩ := commitEntity_spec indexed id
    obtain ⟨final, second⟩ := ih isIndexed
    refine ⟨final, ⟨first.toGrown.trans second.toGrown, fun node inside => ?_⟩⟩
    have known (id' : EntityId) : (inner.commitEntity id).idMap[id']? = some node ↔
        inner.idMap[id']? = some node :=
      ⟨fun isNode => (first.created id' node isNode).resolve_right (not_le.mpr inside),
        first.known id' node⟩
    rw [foldl_cons, second.live node (inside.trans_le first.length_le), first.live node inside]
    constructor
    · rintro ((old | ⟨id', isId, rest⟩) | ⟨id', isId, notSentinel, isNode⟩)
      · exact Or.inl old
      · exact Or.inr ⟨id', mem_cons.mpr (Or.inl (mem_singleton.mp isId)), rest⟩
      · exact Or.inr ⟨id', mem_cons_of_mem id isId, notSentinel, (known id').mp isNode⟩
    · rintro (old | ⟨id', isId, notSentinel, isNode⟩)
      · exact Or.inl (Or.inl old)
      · rcases mem_cons.mp isId with rfl | isId
        · exact Or.inl (Or.inr ⟨id', mem_singleton_self id', notSentinel, isNode⟩)
        · exact Or.inr ⟨id', isId, notSentinel, (known id').mpr isNode⟩

theorem commitStagedEntities_spec (indexed : Indexed inner) (tx : TxId) :
    Indexed (inner.commitStagedEntities tx) ∧
      Settled ((inner.stagedEntities.filter fun staged => staged.1 = tx).map Prod.snd) inner
        (inner.commitStagedEntities tx) := by
  let unstaged : GraphInner K :=
    { inner with stagedEntities := inner.stagedEntities.filter fun staged => staged.1 ≠ tx }
  have isIndexed : Indexed unstaged := ⟨indexed.indexed, indexed.entity, indexed.targets,
    indexed.pendingTargets, indexed.offsets, indexed.sums, indexed.tables⟩
  unfold commitStagedEntities
  by_cases none : (inner.stagedEntities.filter fun staged => staged.1 = tx).map Prod.snd = []
  · simp only [none, if_true]
    refine ⟨isIndexed, ⟨⟨⟨rfl, rfl⟩, ⟨rfl, rfl⟩, ⟨rfl, rfl⟩,
      ⟨[], (append_nil _).symm, (append_nil _).symm⟩, fun _ _ found => found,
      fun _ _ found => Or.inl found⟩, fun node _ => ⟨Or.inl, ?_⟩⟩⟩
    rintro (old | ⟨id, impossible, -⟩)
    · exact old
    · cases impossible
  · simp only [if_neg none]
    obtain ⟨final, settled⟩ := commitEntities_spec isIndexed
      (((inner.stagedEntities.filter fun staged => staged.1 = tx).map Prod.snd).insertionSort
        (· ≤ ·))
    refine ⟨⟨final.indexed, final.entity, final.targets, final.pendingTargets, final.offsets,
      final.sums, final.tables⟩, ⟨⟨settled.rows, settled.pending, settled.staged, settled.reverse,
      settled.known, settled.created⟩, fun node inside => ?_⟩⟩
    refine (settled.live node inside).trans (or_congr_right (exists_congr fun id => ?_))
    rw [mem_insertionSort]

theorem paddedSums_eq (indexed : Indexed inner) : inner.paddedSums = inner.outWeightSums := by
  rw [paddedSums, indexed.sums, Nat.sub_self, replicate_zero, append_nil]

theorem convertEdges_spec (indexed : Indexed inner) (edges : List (StagedEdge K)) :
    Indexed (inner.convertEdges edges).2 ∧ Grown inner (inner.convertEdges edges).2 ∧
      ∀ edge ∈ (inner.convertEdges edges).1,
        edge.target < (inner.convertEdges edges).2.reverseMap.length := by
  induction edges generalizing inner with
  | nil => exact ⟨indexed, .refl inner, fun _ impossible => absurd impossible not_mem_nil⟩
  | cons staged edges ih =>
    obtain ⟨isIndexed, first, found, -⟩ := getOrCreateIndex_spec indexed staged.edge.target
    obtain ⟨final, second, targets⟩ := ih isIndexed
    refine ⟨final, first.trans second, fun edge isEdge => ?_⟩
    rcases mem_cons.mp isEdge with rfl | isEdge
    · exact (isIndexed.index_lt found).trans_le second.length_le
    · exact targets edge isEdge

variable [LinearOrder K]

theorem Indexed.addToOutWeightSum (indexed : Indexed inner) (node : Nat) (weight : K) :
    Indexed (inner.addToOutWeightSum node weight) := by
  unfold GraphInner.addToOutWeightSum
  split_ifs
  · refine indexed.withSums ?_
    rw [length_modify, paddedSums_eq indexed]
  · exact indexed

theorem Indexed.recompute (indexed : Indexed inner) (node : Nat) :
    Indexed (inner.recomputeNodeOutWeightSum node) := by
  unfold recomputeNodeOutWeightSum
  split_ifs
  · exact indexed
  · refine indexed.withSums ?_
    rw [length_set, paddedSums_eq indexed]
  · refine indexed.withSums ?_
    rw [length_set, paddedSums_eq indexed]

theorem foldl_addToOutWeightSum_spec (indexed : Indexed inner) (node : Nat)
    (edges : List (EdgePayload K)) :
    let final := edges.foldl (fun inner edge => inner.addToOutWeightSum node edge.weight) inner
    Indexed final ∧ final.reverseMap = inner.reverseMap ∧ final.pendingEdges = inner.pendingEdges := by
  induction edges generalizing inner with
  | nil => exact ⟨indexed, rfl, rfl⟩
  | cons edge edges ih =>
    obtain ⟨final, isReverse, isPending⟩ :=
      ih (indexed.addToOutWeightSum node edge.weight)
    have same : (inner.addToOutWeightSum node edge.weight).reverseMap = inner.reverseMap ∧
        (inner.addToOutWeightSum node edge.weight).pendingEdges = inner.pendingEdges := by
      unfold GraphInner.addToOutWeightSum
      split_ifs <;> exact ⟨rfl, rfl⟩
    exact ⟨final, isReverse.trans same.1, isPending.trans same.2⟩

theorem commitEdgesOf_spec (indexed : Indexed inner) (source : EntityId)
    (edges : List (StagedEdge K)) : Indexed (inner.commitEdgesOf source edges) ∧
      (inner.commitEdgesOf source edges).pendingEdges.isEmpty = false := by
  obtain ⟨isIndexed, -, -⟩ := getOrCreateIndex_spec indexed source
  obtain ⟨converted, grown, targets⟩ := convertEdges_spec isIndexed edges
  obtain ⟨final, isReverse, isPending⟩ := foldl_addToOutWeightSum_spec converted
    (inner.getOrCreateIndex source).1 ((inner.getOrCreateIndex source).2.convertEdges edges).1
  refine ⟨final.withPending ?_, Std.TreeMap.isEmpty_insert⟩
  intro edge isEdge
  rcases mem_append.mp isEdge with old | new
  · exact final.target_lt (mem_append_right _ old)
  · rw [isReverse]
    exact targets edge new

theorem commitStagedEdges_spec (indexed : Indexed inner) (tx : TxId) :
    Indexed (inner.commitStagedEdges tx) ∧
      ((inner.commitStagedEdges tx).pendingEdges.isEmpty = false ∨
        ((∀ staged ∈ inner.stagedEdges, staged.tx ≠ tx) ∧
          inner.commitStagedEdges tx =
            { inner with stagedEdges := inner.stagedEdges.filter fun staged => staged.tx ≠ tx })) := by
  let unstaged : GraphInner K :=
    { inner with stagedEdges := inner.stagedEdges.filter fun staged => staged.tx ≠ tx }
  have isIndexed : Indexed unstaged := ⟨indexed.indexed, indexed.entity, indexed.targets,
    indexed.pendingTargets, indexed.offsets, indexed.sums, indexed.tables⟩
  have folded (sources : List EntityId) (txEdges : List (StagedEdge K)) {start : GraphInner K}
      (isStart : Indexed start) :
      let final := sources.foldl (fun inner source => inner.commitEdgesOf source
        (txEdges.filter fun staged => staged.source = source)) start
      Indexed final ∧ (start.pendingEdges.isEmpty = false ∨ sources ≠ [] →
        final.pendingEdges.isEmpty = false) := by
    induction sources generalizing start with
    | nil => exact ⟨isStart, fun filled => filled.resolve_right (fun impossible => impossible rfl)⟩
    | cons source sources ih =>
      obtain ⟨isNext, filled⟩ := commitEdgesOf_spec isStart source
        (txEdges.filter fun staged => staged.source = source)
      obtain ⟨final, isFilled⟩ := ih isNext
      exact ⟨final, fun _ => isFilled (Or.inl filled)⟩
  unfold commitStagedEdges
  by_cases none : (inner.stagedEdges.filter fun staged => staged.tx = tx) = []
  · simp only [none, if_true]
    refine ⟨isIndexed, Or.inr ⟨fun staged inside same => ?_, trivial⟩⟩
    have kept := filter_eq_nil_iff.mp none staged inside
    exact kept (decide_eq_true same)
  · simp only [if_neg none]
    obtain ⟨final, filled⟩ := folded ((((inner.stagedEdges.filter fun staged => staged.tx = tx).map
      StagedEdge.source).dedup).insertionSort (· ≤ ·))
      (inner.stagedEdges.filter fun staged => staged.tx = tx) isIndexed
    refine ⟨⟨final.indexed, final.entity, final.targets, final.pendingTargets, final.offsets,
      final.sums, final.tables⟩, Or.inl (filled (Or.inr fun empty => ?_))⟩
    obtain ⟨staged, rest, isCons⟩ := exists_cons_of_ne_nil none
    have inside : staged.source ∈ ((((inner.stagedEdges.filter fun staged => staged.tx = tx).map
        StagedEdge.source).dedup).insertionSort (· ≤ ·)) := by
      rw [mem_insertionSort, mem_dedup, isCons]
      exact mem_cons_self
    rw [empty] at inside
    cases inside

theorem tombstonedEdges_recompute (node : Nat) :
    (inner.recomputeNodeOutWeightSum node).tombstonedEdges = inner.tombstonedEdges := by
  unfold recomputeNodeOutWeightSum
  split_ifs <;> rfl

theorem removeIndexed_spec (indexed : Indexed inner) (source target : Nat) :
    Indexed (inner.removeIndexed source target) ∧
      (inner.removeIndexed source target).tombstonedEdges ≠ ∅ := by
  constructor
  · refine Indexed.recompute ?_ source
    refine ⟨indexed.indexed, indexed.entity, indexed.targets, fun node edges isPending => ?_,
      indexed.offsets, indexed.sums, indexed.tables⟩
    cases found : inner.pendingEdges[source]? with
    | none =>
      simp only [found] at isPending
      exact indexed.pendingTargets node edges isPending
    | some pending =>
      simp only [found, Std.TreeMap.getElem?_insert] at isPending
      split_ifs at isPending
      · obtain rfl := some.inj isPending
        exact fun edge isEdge => indexed.pendingTargets source pending found edge
          (mem_of_mem_filter isEdge)
      · exact indexed.pendingTargets node edges isPending
  · rw [removeIndexed, tombstonedEdges_recompute]
    exact Finset.insert_ne_empty _ _

theorem commitStagedRemovals_spec (indexed : Indexed inner) (tx : TxId) :
    Indexed (inner.commitStagedRemovals tx) ∧
      ((inner.commitStagedRemovals tx).tombstonedEdges ≠ ∅ ∨
        ((∀ removal ∈ inner.stagedRemovals, removal.1 = tx →
            removal.2.1 ∉ inner.idMap ∨ removal.2.2 ∉ inner.idMap) ∧
          inner.commitStagedRemovals tx = { inner with
            stagedRemovals := inner.stagedRemovals.filter fun staged => staged.1 ≠ tx })) := by
  have folded (removals : List (EntityId × EntityId)) {start : GraphInner K}
      (isStart : Indexed start) : Indexed (removals.foldl commitRemoval start) ∧
      ((removals.foldl commitRemoval start).tombstonedEdges ≠ ∅ ∨
        ((∀ removal ∈ removals, removal.1 ∉ start.idMap ∨ removal.2 ∉ start.idMap) ∧
          start.tombstonedEdges = ∅ ∧ removals.foldl commitRemoval start = start)) := by
    induction removals generalizing start with
    | nil =>
      refine ⟨isStart, ?_⟩
      by_cases empty : start.tombstonedEdges = ∅
      · exact Or.inr ⟨fun _ impossible => absurd impossible not_mem_nil, empty, rfl⟩
      · exact Or.inl empty
    | cons removal removals ih =>
      rw [foldl_cons]
      cases isSource : start.idMap[removal.1]? with
      | none =>
        have skipped : start.commitRemoval removal = start := by
          simp only [commitRemoval, isSource]
        have missing : removal.1 ∉ start.idMap := by
          rw [Std.TreeMap.mem_iff_isSome_getElem?, isSource]
          exact Bool.false_ne_true
        rw [skipped]
        obtain ⟨final, filled | ⟨all, rest⟩⟩ := ih isStart
        · exact ⟨final, Or.inl filled⟩
        · exact ⟨final, Or.inr ⟨forall_mem_cons.mpr ⟨Or.inl missing, all⟩, rest⟩⟩
      | some source =>
        cases isTarget : start.idMap[removal.2]? with
        | none =>
          have skipped : start.commitRemoval removal = start := by
            simp only [commitRemoval, isSource, isTarget]
          have missing : removal.2 ∉ start.idMap := by
            rw [Std.TreeMap.mem_iff_isSome_getElem?, isTarget]
            exact Bool.false_ne_true
          rw [skipped]
          obtain ⟨final, filled | ⟨all, rest⟩⟩ := ih isStart
          · exact ⟨final, Or.inl filled⟩
          · exact ⟨final, Or.inr ⟨forall_mem_cons.mpr ⟨Or.inr missing, all⟩, rest⟩⟩
        | some target =>
          have removed : start.commitRemoval removal = start.removeIndexed source target := by
            simp only [commitRemoval, isSource, isTarget]
          obtain ⟨isNext, filled⟩ := removeIndexed_spec isStart source target
          rw [removed]
          obtain ⟨final, isFilled | ⟨-, empty, -⟩⟩ := ih isNext
          · exact ⟨final, Or.inl isFilled⟩
          · exact absurd empty filled
  let unstaged : GraphInner K :=
    { inner with stagedRemovals := inner.stagedRemovals.filter fun staged => staged.1 ≠ tx }
  have isIndexed : Indexed unstaged := ⟨indexed.indexed, indexed.entity, indexed.targets,
    indexed.pendingTargets, indexed.offsets, indexed.sums, indexed.tables⟩
  obtain ⟨final, filled | ⟨all, -, unchanged⟩⟩ :=
    folded ((inner.stagedRemovals.filter fun staged => staged.1 = tx).map Prod.snd) isIndexed
  · exact ⟨final, Or.inl filled⟩
  · refine ⟨final, Or.inr ⟨fun removal inside isTx => ?_, unchanged⟩⟩
    exact all removal.2 (List.mem_map.mpr
      ⟨removal, mem_filter.mpr ⟨inside, decide_eq_true isTx⟩, rfl⟩)

end Contextra.Graph.GraphInner
