import Contextra.Graph.EdgeEvolution

/-!
# The invalidation of a document's edges

Tombstones hide all edges between two entities.  The edges of a superseded document are among those
that they hide; no others are when no visible edge of another origin lies between entities that are
recorded for the document.
-/

namespace Contextra.Graph

open Library List Option Function

namespace GraphInner

variable {K : Type} {inner : GraphInner K} {node source target : Nat} {edge : EdgePayload K}
  {walTx : TxId}

theorem row_unique (ordered : inner.offsets.Pairwise (· ≤ ·)) {position : Nat}
    (isNode : node + 1 < inner.offsets.length) (isSource : source + 1 < inner.offsets.length)
    (nodeLower : inner.offsets[node]?.getD 0 ≤ position)
    (nodeUpper : position < inner.offsets[node + 1]?.getD 0)
    (sourceLower : inner.offsets[source]?.getD 0 ≤ position)
    (sourceUpper : position < inner.offsets[source + 1]?.getD 0) : node = source := by
  have rising {first second : Nat} (bound : second < inner.offsets.length)
      (le : first ≤ second) : inner.offsets[first]?.getD 0 ≤ inner.offsets[second]?.getD 0 := by
    rw [getElem?_eq_getElem (le.trans_lt bound), getElem?_eq_getElem bound,
      getD_some, getD_some]
    rcases le.eq_or_lt with rfl | less
    · exact le_rfl
    · exact pairwise_iff_getElem.mp ordered _ _ _ _ less
  rcases lt_trichotomy node source with less | same | more
  · have below : node + 1 ≤ source := less
    have := rising (Nat.lt_of_succ_lt isSource) below
    omega
  · exact same
  · have below : source + 1 ≤ node := more
    have := rising (Nat.lt_of_succ_lt isNode) below
    omega

theorem mem_edgesOf_endValidity (ordered : inner.offsets.Pairwise (· ≤ ·))
    (other : ¬ (node = source ∧ edge.target = target)) :
    edge ∈ (inner.endValidity walTx source target).edgesOf node ↔ edge ∈ inner.edgesOf node := by
  refine mem_append.trans (Iff.trans (or_congr ?_ ?_) mem_append.symm)
  · simp only [List.mem_map, mem_compactedEdges, getElem?_endValidity, map_eq_some_iff]
    constructor
    · rintro ⟨entry, ⟨isRow, position, lower, upper, old, isOld, rfl⟩, rfl⟩
      refine ⟨old, ⟨isRow, position, lower, upper, isOld⟩, ?_⟩
      split_ifs at other ⊢ with inRow
      · obtain ⟨isSource, sourceLower, sourceUpper, isTarget⟩ := inRow
        exact absurd ⟨row_unique ordered isRow isSource lower upper sourceLower sourceUpper,
          isTarget⟩ other
      · rfl
    · rintro ⟨old, ⟨isRow, position, lower, upper, isOld⟩, rfl⟩
      refine ⟨old, ⟨isRow, position, lower, upper, old, isOld, if_neg ?_⟩, rfl⟩
      rintro ⟨isSource, sourceLower, sourceUpper, isTarget⟩
      exact other ⟨row_unique ordered isRow isSource lower upper sourceLower sourceUpper, isTarget⟩
  · simp only [mem_pendingEdgesOf, getElem?_pendingEdges_endValidity, map_eq_some_iff]
    constructor
    · rintro ⟨edges, ⟨olds, found, rfl⟩, inside⟩
      obtain ⟨old, isOld, rfl⟩ := List.mem_map.mp inside
      refine ⟨olds, found, ?_⟩
      split_ifs at other ⊢ with inRow
      · exact absurd inRow other
      · exact isOld
    · rintro ⟨olds, found, inside⟩
      exact ⟨_, ⟨olds, found, rfl⟩, List.mem_map.mpr ⟨edge, inside, if_neg other⟩⟩

theorem mem_keptEdges_endValidity (ordered : inner.offsets.Pairwise (· ≤ ·)) :
    edge ∈ (inner.endValidity walTx source target).keptEdges node ↔
      edge ∈ inner.keptEdges node ∧ ¬ (node = source ∧ edge.target = target) := by
  have dead : (node, edge.target) ∈ (inner.endValidity walTx source target).tombstonedEdges ↔
      (node = source ∧ edge.target = target) ∨ (node, edge.target) ∈ inner.tombstonedEdges :=
    Finset.mem_insert.trans (or_congr_left (iff_of_eq (Prod.mk.injEq _ _ _ _)))
  simp only [keptEdges, mem_filter, decide_eq_true_eq, dead, not_or]
  constructor
  · rintro ⟨inside, other, alive⟩
    exact ⟨⟨(mem_edgesOf_endValidity ordered other).mp inside, alive⟩, other⟩
  · rintro ⟨⟨inside, alive⟩, other⟩
    exact ⟨(mem_edgesOf_endValidity ordered other).mpr inside, other, alive⟩

structure SameNodes (inner next : GraphInner K) : Prop where
  idMap : next.idMap = inner.idMap
  entities : next.entities = inner.entities
  offsets : next.offsets = inner.offsets

theorem mem_keptEdges_tombstone (ordered : inner.offsets.Pairwise (· ≤ ·))
    (edges : List (EntityId × EntityId)) (walTx : TxId) :
    SameNodes inner (inner.tombstoneEdgesDirect edges walTx).1 ∧
      ∀ node edge, edge ∈ (inner.tombstoneEdgesDirect edges walTx).1.keptEdges node ↔
        edge ∈ inner.keptEdges node ∧ ∀ pair ∈ edges,
          ¬ (inner.idMap[pair.1]? = some node ∧ inner.idMap[pair.2]? = some edge.target) := by
  have folded (marked : GraphInner K × List (EntityId × EntityId)) (same : SameNodes inner marked.1) :
      SameNodes inner (edges.foldl (tombstoneEdgeDirect walTx) marked).1 ∧
        ∀ node edge, edge ∈ (edges.foldl (tombstoneEdgeDirect walTx) marked).1.keptEdges node ↔
          edge ∈ marked.1.keptEdges node ∧ ∀ pair ∈ edges,
            ¬ (inner.idMap[pair.1]? = some node ∧ inner.idMap[pair.2]? = some edge.target) := by
    induction edges generalizing marked with
    | nil =>
      refine ⟨same, fun node edge => ⟨fun kept => ⟨kept, ?_⟩, fun kept => kept.1⟩⟩
      exact fun pair impossible => absurd impossible not_mem_nil
    | cons pair edges ih =>
      have first : SameNodes inner (tombstoneEdgeDirect walTx marked pair).1 ∧
          ∀ node edge, edge ∈ (tombstoneEdgeDirect walTx marked pair).1.keptEdges node ↔
            edge ∈ marked.1.keptEdges node ∧
              ¬ (inner.idMap[pair.1]? = some node ∧ inner.idMap[pair.2]? = some edge.target) := by
        unfold tombstoneEdgeDirect
        rw [← same.idMap]
        split
        · rename_i source target isSource isTarget
          have between (node other : Nat) : (marked.1.idMap[pair.1]? = some node ∧
              marked.1.idMap[pair.2]? = some other) ↔ node = source ∧ other = target := by
            rw [isSource, isTarget, Option.some.injEq, Option.some.injEq, eq_comm,
              @eq_comm _ target]
          simp only [between]
          split_ifs with dead
          · refine ⟨same, fun node edge => ⟨fun kept => ⟨kept, ?_⟩, fun kept => kept.1⟩⟩
            rintro ⟨rfl, rfl⟩
            exact of_decide_eq_true (mem_filter.mp kept).2 dead
          · refine ⟨⟨same.idMap, same.entities, same.offsets⟩, fun node edge => ?_⟩
            exact mem_keptEdges_endValidity (same.offsets ▸ ordered)
        · rename_i missing
          refine ⟨same, fun node edge => ⟨fun kept => ⟨kept, ?_⟩, fun kept => kept.1⟩⟩
          exact fun ⟨isSource, isTarget⟩ => missing _ _ isSource isTarget
      obtain ⟨isFinal, kept⟩ := ih _ first.1
      refine ⟨isFinal, fun node edge => ?_⟩
      rw [foldl_cons, kept, first.2, forall_mem_cons, and_assoc]
  exact folded (inner, []) ⟨rfl, rfl, rfl⟩

end GraphInner

namespace CsrGraph

variable {K : Type} {graph next : CsrGraph K} {doc : DocId} {walSeq : TxId}

theorem subset_record (index : DocEdges) (recorded : Option DocId) (edge : EntityId × EntityId)
    (doc : DocId) : index doc ⊆ index.record recorded edge doc := by
  unfold DocEdges.record
  split
  · rename_i other
    by_cases same : doc = other
    · subst same
      rw [update_self]
      exact fun pair inside => mem_insert_of_mem inside
    · rw [update_of_ne same]
      exact List.Subset.refl _
  · exact List.Subset.refl _

theorem mem_record (index : DocEdges) (doc : DocId) (edge : EntityId × EntityId) :
    edge ∈ index.record (some doc) edge doc := by
  simp only [DocEdges.record, update_self]
  exact mem_insert_self

theorem recordCommitted_spec (graph : CsrGraph K) (tx : TxId) (doc : DocId) :
    graph.docToEdges doc ⊆ graph.recordCommitted tx doc ∧
      ∀ source target, GraphInner.StagedFor
        (graph.inner.stagedEdges.filter fun staged => staged.tx = tx) doc source target →
          (source, target) ∈ graph.recordCommitted tx doc := by
  unfold recordCommitted
  generalize graph.docToEdges = index
  generalize (graph.inner.stagedEdges.filter fun staged => staged.tx = tx) = edges
  induction edges generalizing index with
  | nil => exact ⟨List.Subset.refl _, fun _ _ ⟨_, impossible, _⟩ => absurd impossible not_mem_nil⟩
  | cons staged edges ih =>
    obtain ⟨grows, recorded⟩ :=
      ih (index.record staged.edge.sourceDocId (staged.source, staged.edge.target))
    refine ⟨List.Subset.trans (subset_record _ _ _ _) grows, fun source target isStaged => ?_⟩
    obtain ⟨other, inside, isSource, isTarget, isDoc⟩ := isStaged
    rcases mem_cons.mp inside with rfl | later
    · refine grows ?_
      rw [isDoc, ← isSource, ← isTarget]
      exact mem_record _ _ _
    · exact recorded source target ⟨other, later, isSource, isTarget, isDoc⟩

structure Sound (graph : CsrGraph K) : Prop where
  indexed : graph.inner.Indexed
  ordered : graph.inner.offsets.Pairwise (· ≤ ·)
  recorded : ∀ node, ∀ edge ∈ graph.inner.edgesOf node, ∀ doc, edge.sourceDocId = some doc →
    ∃ source target, graph.inner.reverseMap[node]? = some source ∧
      graph.inner.reverseMap[edge.target]? = some target ∧ (source, target) ∈ graph.docToEdges doc

structure Advances (graph next : CsrGraph K) (adds : DocId → EntityId → EntityId → Prop) : Prop where
  indexed : next.inner.Indexed
  evolves : GraphInner.Evolves adds graph.inner next.inner
  keeps : ∀ doc, graph.docToEdges doc ⊆ next.docToEdges doc
  records : ∀ doc source target, adds doc source target → (source, target) ∈ next.docToEdges doc

variable {adds : DocId → EntityId → EntityId → Prop}

theorem Sound.advance (sound : graph.Sound)
    (advances : Advances graph next adds) : next.Sound := by
  refine ⟨advances.indexed, advances.evolves.ordered sound.ordered, ?_⟩
  intro node edge isEdge doc isDoc
  rcases advances.evolves.edges node edge isEdge doc isDoc with
    ⟨old, isOld, same, isDoc, -⟩ | ⟨source, target, isSource, isTarget, added⟩
  · obtain ⟨source, target, isSource, isTarget, recorded⟩ := sound.recorded node old isOld doc isDoc
    rw [same] at isTarget
    exact ⟨source, target, GraphInner.getElem?_of_reverse advances.evolves.reverse isSource,
      GraphInner.getElem?_of_reverse advances.evolves.reverse isTarget,
      advances.keeps doc recorded⟩
  · exact ⟨source, target, isSource, isTarget, advances.records doc source target added⟩

theorem sound_new : Sound (new : CsrGraph K) where
  indexed := GraphInner.indexed_new
  ordered := pairwise_singleton _ _
  recorded := by
    intro node edge isEdge
    rcases mem_append.mp isEdge with compacted | isPending
    · obtain ⟨entry, isEntry, -⟩ := List.mem_map.mp compacted
      obtain ⟨-, position, -, -, found⟩ := GraphInner.mem_compactedEdges.mp isEntry
      cases found
    · obtain ⟨edges, found, -⟩ := GraphInner.mem_pendingEdgesOf.mp isPending
      cases found

/-- No id leads to the index, and none ever will. -/
def Dead (graph : CsrGraph K) (index : Nat) : Prop :=
  ∀ id : Nat, graph.inner.idMap[id]? ≠ some index

/-- The edges of a document have tombstones, or an end that is dead. -/
def Gone (graph : CsrGraph K) (doc : DocId) : Prop :=
  ∀ node, ∀ edge ∈ graph.inner.edgesOf node, edge.sourceDocId = some doc →
    (node, edge.target) ∈ graph.inner.tombstonedEdges ∨ graph.Dead node ∨ graph.Dead edge.target

theorem Dead.advance {index : Nat} {id : EntityId}
    (dead : graph.Dead index) (advances : Advances graph next adds)
    (known : graph.inner.reverseMap[index]? = some id) : next.Dead index := by
  intro other found
  rcases advances.evolves.created other index found with old | new
  · exact dead other old
  · exact absurd (List.getElem?_eq_some_iff.mp known).1 (not_lt.mpr new)

theorem Gone.advance (gone : graph.Gone doc)
    (sound : graph.Sound) (advances : Advances graph next adds)
    (nothing : ∀ source target, ¬ adds doc source target) : next.Gone doc := by
  intro node edge isEdge isDoc
  rcases advances.evolves.edges node edge isEdge doc isDoc with
    ⟨old, isOld, same, isDoc, kept⟩ | ⟨source, target, -, -, added⟩
  · obtain ⟨source, target, isSource, isTarget, -⟩ := sound.recorded node old isOld doc isDoc
    have before := gone node old isOld isDoc
    rw [same] at before isTarget
    exact before.imp kept (Or.imp (fun dead => dead.advance advances isSource)
      fun dead => dead.advance advances isTarget)
  · exact absurd added (nothing source target)

theorem Gone.not_visible (gone : graph.Gone doc) (sound : graph.Sound) {source target : EntityId}
    {edge : EdgePayload K} (visible : graph.Visible source target edge) :
    edge.sourceDocId ≠ some doc := by
  intro isDoc
  obtain ⟨node, other, isSource, isTarget, kept, rfl⟩ := visible
  obtain ⟨isEdge, alive⟩ := mem_filter.mp kept
  rcases gone node edge isEdge isDoc with dead | dead | dead
  · exact of_decide_eq_true alive dead
  · exact dead source (sound.indexed.entity node source isSource)
  · exact dead target (sound.indexed.entity edge.target target isTarget)

theorem cascade_fst (graph : CsrGraph K) (doc : DocId) (walSeq : TxId) :
    (graph.cascadeInvalidateEdgesForSupersededDoc doc walSeq).1 =
      { graph with inner := (graph.inner.tombstoneEdgesDirect (graph.edgesForDoc doc) walSeq).1 } := by
  unfold cascadeInvalidateEdgesForSupersededDoc
  split_ifs with none
  · rw [none]
    rfl
  · rfl

theorem visible_cascade (sound : graph.Sound) {source target : EntityId} {edge : EdgePayload K} :
    (graph.cascadeInvalidateEdgesForSupersededDoc doc walSeq).1.Visible source target edge ↔
      graph.Visible source target edge ∧ (source, target) ∉ graph.edgesForDoc doc := by
  obtain ⟨same, kept⟩ := GraphInner.mem_keptEdges_tombstone sound.ordered
    (graph.edgesForDoc doc) walSeq
  have entityAt (index : Nat) : (graph.inner.tombstoneEdgesDirect (graph.edgesForDoc doc)
      walSeq).1.entityAt index = graph.inner.entityAt index := by
    rw [GraphInner.entityAt, same.entities, GraphInner.entityAt]
  rw [cascade_fst]
  simp only [Visible, entityAt, kept]
  constructor
  · rintro ⟨node, other, isSource, isTarget, ⟨isKept, spared⟩, rfl⟩
    refine ⟨⟨node, _, isSource, isTarget, isKept, rfl⟩, fun recorded => ?_⟩
    exact spared _ recorded ⟨sound.indexed.entity _ _ isSource, sound.indexed.entity _ _ isTarget⟩
  · rintro ⟨⟨node, other, isSource, isTarget, isKept, rfl⟩, notRecorded⟩
    refine ⟨node, _, isSource, isTarget, ⟨isKept, ?_⟩, rfl⟩
    rintro ⟨source', target'⟩ recorded ⟨isSource', isTarget'⟩
    have first := sound.indexed.indexed _ _ (sound.indexed.entity _ _ isSource)
    have second := sound.indexed.indexed _ _ (sound.indexed.entity _ _ isTarget)
    rw [sound.indexed.indexed _ _ isSource'] at first
    rw [sound.indexed.indexed _ _ isTarget'] at second
    cases first
    cases second
    exact notRecorded recorded

variable [Field K] [LinearOrder K]

variable {rebuildThreshold : Nat}

theorem step_advances (sound : graph.Sound) {event : Event K}
    (taken : graph.step rebuildThreshold event = some next) :
    Advances graph next fun doc => graph.Adds doc event := by
  have cleared (edges : List (EntityId × EntityId)) (walTx : TxId) (docEdgeIndex : DocEdges) :
      Advances graph ⟨(graph.inner.tombstoneEdgesDirect edges walTx).1, graph.docToEdges,
        docEdgeIndex⟩ fun _ _ _ => False := by
    obtain ⟨isIndexed, evolves⟩ :=
      GraphInner.tombstoneEdgesDirect_spec sound.indexed edges walTx
    exact ⟨isIndexed, evolves, fun _ => List.Subset.refl _, fun _ _ _ => False.elim⟩
  have unchanged (adds : DocId → EntityId → EntityId → Prop)
      (nothing : ∀ doc source target, ¬ adds doc source target) : Advances graph graph adds :=
    ⟨sound.indexed, .refl _, fun _ => List.Subset.refl _,
      fun doc source target isAdded => absurd isAdded (nothing doc source target)⟩
  have loaded (source : EntityId) (edge : EdgePayload K) (docEdgeIndex : DocEdges)
      (positive : 0 ≤ edge.weight) : Advances graph ⟨graph.inner.loadEdge source edge,
        graph.docToEdges.record edge.sourceDocId (source, edge.target), docEdgeIndex⟩
        fun doc source' target => 0 ≤ edge.weight ∧ source = source' ∧ edge.target = target ∧
          edge.sourceDocId = some doc := by
    obtain ⟨isIndexed, evolves⟩ := GraphInner.loadEdge_spec sound.indexed source edge
    refine ⟨isIndexed, evolves.mono fun _ _ _ added => ⟨positive, added⟩,
      fun doc => subset_record _ _ _ _, ?_⟩
    rintro doc _ _ ⟨-, rfl, rfl, isDoc⟩
    rw [isDoc]
    exact mem_record _ _ _
  cases event with
  | mutate mutation =>
    cases taken
    obtain ⟨after, isAfter⟩ : ∃ after, graph.inner.step rebuildThreshold mutation = some after := by
      cases mutation <;> exact ⟨_, rfl⟩
    obtain ⟨isIndexed, evolves⟩ := GraphInner.step_spec sound.indexed isAfter
    have isInner : (graph.mutate rebuildThreshold mutation).inner = after := by
      change (graph.inner.step rebuildThreshold mutation).getD graph.inner = after
      rw [isAfter, getD_some]
    refine ⟨isInner ▸ isIndexed, isInner ▸ evolves, fun doc => ?_, fun doc source target added => ?_⟩
    · cases mutation with
      | commit tx => exact (recordCommitted_spec graph tx doc).1
      | removeEntity tx id =>
        simp only [mutate]
        split_ifs
        · exact (recordCommitted_spec graph tx doc).1
        · exact List.Subset.refl _
      | _ => exact List.Subset.refl _
    · cases mutation with
      | commit tx => exact (recordCommitted_spec graph tx doc).2 source target added
      | removeEntity tx id =>
        simp only [mutate, if_pos added.1]
        exact (recordCommitted_spec graph tx doc).2 source target added.2
      | _ => exact absurd added id
  | insertEntityDirect id =>
    cases taken
    obtain ⟨isIndexed, settled⟩ := GraphInner.commitEntity_spec sound.indexed id
    exact ⟨isIndexed, settled.toGrown.evolves, fun _ => List.Subset.refl _,
      fun _ _ _ => False.elim⟩
  | loadEdgeDirect source edge =>
    cases taken
    unfold loadEdgeDirect
    split_ifs with negative
    · exact unchanged _ fun _ _ _ added => not_le.mpr negative added.1
    · exact loaded source edge _ (not_lt.mp negative)
  | addEdge source edge =>
    cases taken
    unfold addEdge loadEdgeDirect
    split_ifs with negative
    · exact unchanged _ fun _ _ _ added => not_le.mpr negative added.1
    · exact loaded source edge _ (not_lt.mp negative)
  | cascadeInvalidate doc walSeq =>
    cases taken
    unfold cascadeInvalidateEdgesForSupersededDoc
    split_ifs
    · exact unchanged _ fun _ _ _ => id
    · exact cleared _ _ _
  | purge doc =>
    cases taken
    unfold purge
    split_ifs
    · exact unchanged _ fun _ _ _ => id
    · exact cleared _ _ _

theorem sound_run {events : List (Event K)} (sound : graph.Sound)
    (reached : run (step · rebuildThreshold) graph events = some next) : next.Sound :=
  run_preserves Sound (fun _ _ _ sound taken => sound.advance (step_advances sound taken)) sound
    reached

theorem gone_run {events : List (Event K)} (sound : graph.Sound)
    (gone : graph.Gone doc)
    (noAddition : Along (step · rebuildThreshold)
      (fun graph event => ∀ source target, ¬ graph.Adds doc event source target) graph events)
    (reached : run (step · rebuildThreshold) graph events = some next) :
    next.Sound ∧ next.Gone doc := by
  have preserved : ∀ (graph : CsrGraph K) (event : Event K) (next : CsrGraph K),
      graph.Sound ∧ graph.Gone doc →
        (∀ source target, ¬ graph.Adds doc event source target) →
          graph.step rebuildThreshold event = some next → next.Sound ∧ next.Gone doc := by
    intro graph event next holds nothing taken
    have advances := step_advances holds.1 taken
    exact ⟨holds.1.advance advances, holds.2.advance holds.1 advances nothing⟩
  exact run_invariant preserved ⟨sound, gone⟩ noAddition reached

theorem gone_cascade (sound : graph.Sound) :
    (graph.cascadeInvalidateEdgesForSupersededDoc doc walSeq).1.Sound ∧
      (graph.cascadeInvalidateEdgesForSupersededDoc doc walSeq).1.Gone doc := by
  have taken : graph.step 0 (.cascadeInvalidate doc walSeq) =
      some (graph.cascadeInvalidateEdgesForSupersededDoc doc walSeq).1 := rfl
  have advances := step_advances sound taken
  refine ⟨sound.advance advances, fun node edge isEdge isDoc => ?_⟩
  obtain ⟨source, target, isSource, isTarget, recorded⟩ :=
    (sound.advance advances).recorded node edge isEdge doc isDoc
  obtain ⟨same, kept⟩ := GraphInner.mem_keptEdges_tombstone sound.ordered
    (graph.edgesForDoc doc) walSeq
  rw [cascade_fst] at isEdge isSource isTarget recorded ⊢
  by_cases dead : (node, edge.target) ∈
      (graph.inner.tombstoneEdgesDirect (graph.edgesForDoc doc) walSeq).1.tombstonedEdges
  · exact .inl dead
  · have isKept : edge ∈ (graph.inner.tombstoneEdgesDirect (graph.edgesForDoc doc)
        walSeq).1.keptEdges node := mem_filter.mpr ⟨isEdge, decide_eq_true dead⟩
    have spared := ((kept node edge).mp isKept).2 (source, target)
      (mem_union_iff.mpr (.inl recorded))
    have only {id index : Nat} (isId : (graph.inner.tombstoneEdgesDirect (graph.edgesForDoc doc)
        walSeq).1.reverseMap[index]? = some id) (lost : graph.inner.idMap[id]? ≠ some index) :
        ∀ other : Nat, (graph.inner.tombstoneEdgesDirect (graph.edgesForDoc doc)
          walSeq).1.idMap[other]? ≠ some index := by
      intro other found
      have isIndexed := advances.indexed
      rw [cascade_fst] at isIndexed
      have isOther := isIndexed.indexed other index found
      rw [isId] at isOther
      cases isOther
      rw [same.idMap] at found
      exact lost found
    rcases Classical.not_and_iff_not_or_not.mp spared with lost | lost
    · exact .inr (.inl (only isSource lost))
    · exact .inr (.inr (only isTarget lost))

/-- A call hides the edges of the document and no others, whatever is recorded of edges that have
not reached the tables. -/
structure InvalidatesExactly (graph : CsrGraph K) (doc : DocId) (walSeq : TxId) : Prop where
  exact : ∀ source target edge,
    (graph.cascadeInvalidateEdgesForSupersededDoc doc walSeq).1.Visible source target edge ↔
      graph.Visible source target edge ∧ edge.sourceDocId ≠ some doc
  uncommitted : ∀ source target edge,
    (graph.cascadeInvalidateEdgesForSupersededDoc doc walSeq).1.Visible source target edge ↔
      ({ graph with docEdgeIndex := fun _ => [] }.cascadeInvalidateEdgesForSupersededDoc doc
        walSeq).1.Visible source target edge

/-- A call that readers do not notice. -/
def ChangesNothing (graph : CsrGraph K) (doc : DocId) (walSeq : TxId) : Prop :=
  ∀ source target edge,
    (graph.cascadeInvalidateEdgesForSupersededDoc doc walSeq).1.Visible source target edge ↔
      graph.Visible source target edge

/-- Between entities that are recorded for the document, only edges of it are visible. -/
def HasOwnPairs (graph : CsrGraph K) (doc : DocId) : Prop :=
  ∀ source target edge, graph.Visible source target edge →
    (source, target) ∈ graph.edgesForDoc doc → edge.sourceDocId = some doc

omit [Field K] [LinearOrder K] in
theorem Sound.recorded_of_visible (sound : graph.Sound) {source target : EntityId}
    {edge : EdgePayload K} (visible : graph.Visible source target edge)
    (isDoc : edge.sourceDocId = some doc) : (source, target) ∈ graph.docToEdges doc := by
  obtain ⟨node, other, isSource, isTarget, kept, rfl⟩ := visible
  obtain ⟨source', target', isSource', isTarget', recorded⟩ :=
    sound.recorded node edge (mem_of_mem_filter kept) doc isDoc
  rw [sound.indexed.indexed _ _ (sound.indexed.entity _ _ isSource)] at isSource'
  rw [sound.indexed.indexed _ _ (sound.indexed.entity _ _ isTarget)] at isTarget'
  cases isSource'
  cases isTarget'
  exact recorded

omit [Field K] [LinearOrder K] in
theorem invalidatesExactly_iff (sound : graph.Sound) :
    graph.InvalidatesExactly doc walSeq ↔ graph.HasOwnPairs doc := by
  have committed : ({ graph with docEdgeIndex := fun _ => [] } : CsrGraph K).Sound :=
    ⟨sound.indexed, sound.ordered, sound.recorded⟩
  constructor
  · intro invalidates source target edge visible recorded
    by_contra foreign
    have stays := (invalidates.exact source target edge).mpr ⟨visible, foreign⟩
    exact ((visible_cascade sound).mp stays).2 recorded
  · intro own
    have hides (records : DocEdges) (le : records doc ⊆ graph.docEdgeIndex doc)
        (isSound : ({ graph with docEdgeIndex := records } : CsrGraph K).Sound)
        (source target : EntityId) (edge : EdgePayload K) :
        ({ graph with docEdgeIndex := records }.cascadeInvalidateEdgesForSupersededDoc doc
          walSeq).1.Visible source target edge ↔
            graph.Visible source target edge ∧ edge.sourceDocId ≠ some doc := by
      rw [visible_cascade isSound]
      refine and_congr_right fun visible => not_congr ⟨fun recorded => ?_, fun isDoc => ?_⟩
      · refine own source target edge visible (mem_union_iff.mpr ?_)
        exact (mem_union_iff.mp recorded).imp_right fun old => le old
      · exact mem_union_iff.mpr (.inl (sound.recorded_of_visible visible isDoc))
    have exact := hides graph.docEdgeIndex (List.Subset.refl _) sound
    exact ⟨exact, fun source target edge => (exact source target edge).trans
      (hides (fun _ => []) (nil_subset _) committed source target edge).symm⟩

/-- In every run: the edges of a superseded document vanish and no others, and a later call changes
nothing, if and only if at both calls the visible edges between its entities are its own. -/
theorem invalidatesExactly_iff_hasOwnPairs {rebuildThreshold : Nat} {before later : List (Event K)}
    {graph final : CsrGraph K} {doc : DocId} {walSeq laterSeq : TxId}
    (reached : run (step · rebuildThreshold) new before = some graph)
    (noAddition : Along (step · rebuildThreshold)
      (fun graph event => ∀ source target, ¬ graph.Adds doc event source target)
      (graph.cascadeInvalidateEdgesForSupersededDoc doc walSeq).1 later)
    (returned : run (step · rebuildThreshold)
      (graph.cascadeInvalidateEdgesForSupersededDoc doc walSeq).1 later = some final) :
    (graph.InvalidatesExactly doc walSeq ∧ final.ChangesNothing doc laterSeq) ↔
      (graph.HasOwnPairs doc ∧ final.HasOwnPairs doc) := by
  have sound := sound_run sound_new reached
  obtain ⟨isSound, gone⟩ : _ ∧
      (graph.cascadeInvalidateEdgesForSupersededDoc doc walSeq).1.Gone doc := gone_cascade sound
  obtain ⟨finalSound, finalGone⟩ := gone_run isSound gone noAddition returned
  refine and_congr (invalidatesExactly_iff sound) ⟨fun unchanged => ?_, fun own => ?_⟩
  · intro source target edge visible recorded
    exact absurd recorded
      ((visible_cascade finalSound).mp ((unchanged source target edge).mpr visible)).2
  · intro source target edge
    refine (visible_cascade finalSound).trans ⟨And.left, fun visible => ⟨visible, ?_⟩⟩
    exact fun recorded => finalGone.not_visible finalSound visible
      (own source target edge visible recorded)

def derived (target : EntityId) (doc : DocId) : EdgePayload ℚ :=
  ⟨target, 1, none, none, none, none, some doc⟩

theorem invalidatesExactly_iff_compacted : ∃ graph final : CsrGraph ℚ,
    run (step · 10) new [.insertEntityDirect 1, .insertEntityDirect 2,
      .loadEdgeDirect 1 (derived 2 7)] = some graph ∧
    run (step · 10) (graph.cascadeInvalidateEdgesForSupersededDoc 7 5).1 [.mutate .compact] =
      some final ∧
    ((graph.InvalidatesExactly 7 5 ∧ final.ChangesNothing 7 6) ↔
      (graph.HasOwnPairs 7 ∧ final.HasOwnPairs 7)) :=
  ⟨_, _, rfl, rfl, @invalidatesExactly_iff_hasOwnPairs ℚ _ _ 10 [.insertEntityDirect 1,
    .insertEntityDirect 2, .loadEdgeDirect 1 (derived 2 7)] [.mutate .compact] _ _ 7 5 6 rfl
    ⟨fun _ _ added => added, fun _ _ => trivial⟩ rfl⟩

/-- An edge of another document between the same entities vanishes with the edge of the document. -/
theorem parallel_edge_vanishes : ∃ graph : CsrGraph ℚ,
    run (step · 10) new [.insertEntityDirect 1, .insertEntityDirect 2,
      .loadEdgeDirect 1 (derived 2 7), .loadEdgeDirect 1 (derived 2 8)] = some graph ∧
    graph.Visible 1 2 { derived 2 8 with target := 1 } ∧
    ¬ (graph.cascadeInvalidateEdgesForSupersededDoc 7 5).1.Visible 1 2
      { derived 2 8 with target := 1 } := by
  refine ⟨_, rfl, ⟨0, 1, rfl, rfl, ?_, rfl⟩, fun visible => ?_⟩
  · decide +kernel
  · have sound := @sound_run ℚ new _ _ _ 10 [.insertEntityDirect 1, .insertEntityDirect 2,
      .loadEdgeDirect 1 (derived 2 7), .loadEdgeDirect 1 (derived 2 8)] sound_new rfl
    refine ((visible_cascade sound).mp visible).2 ?_
    decide +kernel

end CsrGraph

end Contextra.Graph
