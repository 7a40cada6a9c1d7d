import Contextra.Graph.CsrTables
import Contextra.Graph.ForwardPushRuns
import Contextra.Library.Run

/-!
# Cached sums

While no edge is pending and none has a tombstone, the cached sums are those of the compacted edges,
as long as the entities stay.  A mutation that makes an entity live or dead keeps them when it adds
something pending or when no compacted edge is concerned.
-/

namespace Contextra.Graph.GraphInner

open Library List Option

variable {K : Type} [Field K] [LinearOrder K] {inner next : GraphInner K}

def rowSum (inner : GraphInner K) (live : Nat → Bool) (node : Nat) : K :=
  if live node then
    (((inner.compactedEdges node).filter fun entry => live entry.target && 0 < entry.weight).map
      CsrEntry.weight).sum
  else 0

def liveAt (inner : GraphInner K) (node : Nat) : Bool := (inner.entityAt node).isSome

theorem compactedSum_eq (inner : GraphInner K) (node : Nat) :
    inner.compactedSum node = inner.rowSum inner.liveAt node := by
  unfold compactedSum rowSum sumToEntities liveAt
  cases inner.entityAt node with
  | none => rfl
  | some id =>
    simp only [isNone_some, isSome_some, Bool.false_eq_true, if_false, if_true,
      List.filter_map, List.map_map]
    rfl

/-- Between the two sets of live nodes no sum of a row changes. -/
def Steady (inner : GraphInner K) (before after : Nat → Bool) : Prop :=
  ∀ node, after node = true → ∀ entry ∈ inner.compactedEdges node, 0 < entry.weight →
    (after entry.target = true ↔ before node = true ∧ before entry.target = true)

theorem rowSum_steady {before after : Nat → Bool} (steady : Steady inner before after) {node : Nat}
    (kept : after node = false → before node = false) :
    inner.rowSum after node = inner.rowSum before node := by
  unfold rowSum
  cases isAfter : after node with
  | false => rw [kept isAfter, if_neg Bool.false_ne_true, if_neg Bool.false_ne_true]
  | true =>
    have step := steady node isAfter
    cases isBefore : before node with
    | true =>
      rw [if_pos rfl, if_pos rfl]
      congr 2
      refine filter_congr fun entry inside => ?_
      by_cases positive : 0 < entry.weight
      · have same := step entry inside positive
        rw [isBefore, eq_self, true_and, ← Bool.eq_iff_iff] at same
        rw [same]
      · rw [decide_eq_false positive, Bool.and_false, Bool.and_false]
    | false =>
      rw [if_pos rfl, if_neg Bool.false_ne_true, filter_eq_nil_iff.mpr, map_nil,
        sum_nil]
      intro entry inside isKept
      obtain ⟨isTarget, positive⟩ := Bool.and_eq_true_iff.mp isKept
      have impossible := ((step entry inside (of_decide_eq_true positive)).mp isTarget).1
      rw [isBefore] at impossible
      cases impossible

theorem rowSum_congr {live live' : Nat → Bool} {node : Nat} (same : live node = live' node)
    (targets : ∀ entry ∈ inner.compactedEdges node, live entry.target = live' entry.target) :
    inner.rowSum live node = inner.rowSum live' node := by
  unfold rowSum
  rw [same]
  congr 3
  refine filter_congr fun entry inside => ?_
  rw [targets entry inside]

theorem rowSum_rows {live : Nat → Bool} {node : Nat}
    (same : next.compactedEdges node = inner.compactedEdges node) :
    next.rowSum live node = inner.rowSum live node := by
  rw [rowSum, same, rowSum]

def SumsOf (inner : GraphInner K) (live : Nat → Bool) : Prop :=
  ∀ id node : Nat, inner.idMap[id]? = some node →
    inner.outWeightSums[node]? = some (inner.rowSum live node)

/-- Nothing waits for a compaction. -/
def Idle (inner : GraphInner K) : Prop :=
  inner.pendingEdges.isEmpty = true ∧ inner.tombstonedEdges = ∅

instance (inner : GraphInner K) : Decidable (Idle inner) := inferInstanceAs (Decidable (_ ∧ _))

structure Sound (inner : GraphInner K) : Prop extends Indexed inner where
  summed : Idle inner → SumsOf inner inner.liveAt

omit [Field K] [LinearOrder K] in
theorem compactedEdges_padded (inner : GraphInner K) {next : GraphInner K} (count : Nat)
    (isOffsets : next.offsets =
      inner.offsets ++ replicate count (inner.offsets.getLast?.getD 0))
    (isEdges : next.edges = inner.edges) (node : Nat) :
    next.compactedEdges node = inner.compactedEdges node := by
  unfold compactedEdges
  rw [isOffsets, isEdges]
  by_cases inside : node + 1 < inner.offsets.length
  · rw [if_pos inside, if_pos (by rw [length_append]; omega),
      getElem?_append_left (by omega), getElem?_append_left inside]
  · rw [if_neg inside]
    split_ifs with padded
    · rw [length_append, length_replicate] at padded
      have second : (inner.offsets ++ replicate count (inner.offsets.getLast?.getD 0))[node + 1]? =
          some (inner.offsets.getLast?.getD 0) := by
        rw [getElem?_append_right (by omega), getElem?_replicate, if_pos (by omega)]
      have first : (inner.offsets ++ replicate count (inner.offsets.getLast?.getD 0))[node]?.getD
          0 = inner.offsets.getLast?.getD 0 := by
        by_cases last : node < inner.offsets.length
        · have isLast : node = inner.offsets.length - 1 := by omega
          rw [getElem?_append_left last, getLast?_eq_getElem?, isLast]
        · rw [getElem?_append_right (by omega), getElem?_replicate, if_pos (by omega)]
          rfl
      rw [second, first]
      simp only [getD_some, Nat.sub_self, take_zero]
    · rfl

theorem compactedEdges_compact
    (idle : inner.pendingEdges.isEmpty = true ∧ inner.tombstonedEdges = ∅) (node : Nat) :
    inner.compact.compactedEdges node = inner.compactedEdges node := by
  rw [GraphInner.compact, if_pos idle]
  refine compactedEdges_padded inner (inner.reverseMap.length + 1 - inner.offsets.length) ?_ ?_ node
  · rfl
  · rfl

omit [Field K] [LinearOrder K] in
theorem mem_compactedRows (indexed : Indexed inner) {row : List (CsrEntry K)}
    (isRow : row ∈ inner.compactedRows) {entry : CsrEntry K} (isEntry : entry ∈ row) :
    entry.target < inner.reverseMap.length := by
  obtain ⟨node, -, rfl⟩ := List.mem_map.mp isRow
  obtain ⟨edge, isEdge, rfl⟩ := List.mem_map.mp isEntry
  exact indexed.target_lt (mem_of_mem_filter ((mem_insertionSort _).mp isEdge))

theorem Indexed.compact (indexed : Indexed inner) : Indexed inner.compact := by
  unfold GraphInner.compact
  by_cases idle : inner.pendingEdges.isEmpty = true ∧ inner.tombstonedEdges = ∅
  · rw [if_pos idle]
    refine ⟨indexed.indexed, indexed.entity, indexed.targets, indexed.pendingTargets, ?_,
      indexed.sums, indexed.tables⟩
    have bound := indexed.offsets
    simp only [length_append, length_replicate]
    omega
  · rw [if_neg idle]
    refine ⟨indexed.indexed, indexed.entity, fun entry inside => ?_, ?_, ?_, ?_, indexed.tables⟩
    · obtain ⟨row, isRow, isEntry⟩ := mem_flatten.mp inside
      exact mem_compactedRows indexed isRow isEntry
    · intro node edges impossible
      have none : (∅ : Std.TreeMap Nat (List (EdgePayload K)))[node]? = none :=
        Std.TreeMap.getElem?_emptyc
      cases none.symm.trans impossible
    · change (inner.compactedRows.scanl (fun offset row => offset + row.length) 0).length ≤ _
      rw [length_scanl, compactedRows, length_map, length_range]
      exact le_rfl
    · change ((List.range inner.reverseMap.length).map _).length = _
      rw [length_map, length_range]
      rfl

theorem Sound.compact (sound : Sound inner) :
    Sound inner.compact ∧ Idle inner.compact ∧ inner.compact.entities = inner.entities := by
  have isIndexed := sound.toIndexed.compact
  unfold GraphInner.compact at isIndexed ⊢
  by_cases idle : inner.pendingEdges.isEmpty = true ∧ inner.tombstonedEdges = ∅
  · rw [if_pos idle] at isIndexed ⊢
    refine ⟨⟨isIndexed, fun _ id node found => ?_⟩, idle, rfl⟩
    have rows := compactedEdges_compact idle node
    rw [GraphInner.compact, if_pos idle] at rows
    exact (sound.summed idle id node found).trans (congrArg some (rowSum_rows rows).symm)
  · rw [if_neg idle] at isIndexed ⊢
    refine ⟨⟨isIndexed, fun _ id node found => ?_⟩, ⟨Std.TreeMap.isEmpty_emptyc, rfl⟩, rfl⟩
    rw [← compactedSum_eq]
    change ((List.range inner.reverseMap.length).map _)[node]? = _
    rw [getElem?_map, getElem?_range (sound.index_lt found), map_some]
    rfl

/-- The nodes that are live once the entities of a transaction are committed. -/
def liveAfter (inner : GraphInner K) (tx : TxId) (node : Nat) : Bool :=
  inner.liveAt node || inner.stagedEntities.any fun staged =>
    staged.1 = tx ∧ staged.2 ≠ sentinelEntity ∧ inner.idMap[staged.2]? = some node

/-- A commit leaves something for the next compaction. -/
def Refreshes (inner : GraphInner K) (tx : TxId) : Prop :=
  ¬ Idle inner ∨ (∃ staged ∈ inner.stagedEdges, staged.tx = tx) ∨
    ∃ removal ∈ inner.stagedRemovals,
      removal.1 = tx ∧ removal.2.1 ∈ inner.idMap ∧ removal.2.2 ∈ inner.idMap

instance (inner : GraphInner K) (tx : TxId) : Decidable (Refreshes inner tx) :=
  inferInstanceAs (Decidable (_ ∨ _ ∨ _))

omit [Field K] [LinearOrder K] in
theorem compactedEdges_behind (indexed : Indexed inner) {node : Nat}
    (behind : inner.reverseMap.length ≤ node) : inner.compactedEdges node = [] := by
  have bound := indexed.offsets
  rw [compactedEdges, if_neg (by omega)]

omit [Field K] [LinearOrder K] in
theorem target_of_compacted (indexed : Indexed inner) {node : Nat} {entry : CsrEntry K}
    (inside : entry ∈ inner.compactedEdges node) : entry.target < inner.reverseMap.length :=
  indexed.target_lt (mem_append_left _ (List.mem_map.mpr ⟨entry, inside, rfl⟩))

theorem sumsOf_entities (indexed : Indexed inner) {before : Nat → Bool} {tx : TxId}
    (summed : SumsOf inner before) (steady : Steady inner before (inner.liveAfter tx))
    (kept : ∀ id node : Nat, inner.idMap[id]? = some node →
      inner.liveAfter tx node = false → before node = false) :
    SumsOf (inner.commitStagedEntities tx) (inner.commitStagedEntities tx).liveAt := by
  obtain ⟨-, settled⟩ := commitStagedEntities_spec indexed tx
  have rows (node : Nat) : (inner.commitStagedEntities tx).compactedEdges node =
      inner.compactedEdges node := by
    unfold compactedEdges
    rw [settled.rows.1, settled.rows.2]
  have live {node : Nat} (inside : node < inner.reverseMap.length) :
      (inner.commitStagedEntities tx).liveAt node = inner.liveAfter tx node := by
    rw [Bool.eq_iff_iff, liveAt, settled.live node inside, liveAfter, Bool.or_eq_true,
      List.any_eq_true]
    refine or_congr_right ⟨?_, ?_⟩
    · rintro ⟨id, isId, notSentinel, found⟩
      obtain ⟨staged, isStaged, rfl⟩ := List.mem_map.mp isId
      obtain ⟨inside, isTx⟩ := mem_filter.mp isStaged
      exact ⟨staged, inside, decide_eq_true ⟨of_decide_eq_true isTx, notSentinel, found⟩⟩
    · rintro ⟨staged, inside, isStaged⟩
      obtain ⟨isTx, notSentinel, found⟩ := of_decide_eq_true isStaged
      exact ⟨staged.2, List.mem_map.mpr ⟨staged, mem_filter.mpr
        ⟨inside, decide_eq_true isTx⟩, rfl⟩, notSentinel, found⟩
  obtain ⟨ids, isReverse, isSums⟩ := settled.reverse
  intro id node found
  rw [rowSum_rows (rows node), isSums]
  by_cases inside : node < inner.reverseMap.length
  · have isNode := (settled.created id node found).resolve_right (not_le.mpr inside)
    have sameRow : inner.rowSum (inner.commitStagedEntities tx).liveAt node =
        inner.rowSum (inner.liveAfter tx) node :=
      rowSum_congr (live inside) fun entry isEntry => live (target_of_compacted indexed isEntry)
    rw [getElem?_append_left (indexed.sums.symm ▸ inside), summed id node isNode, sameRow,
      rowSum_steady steady (kept id node isNode)]
  · have behind := not_lt.mp inside
    have bound := (commitStagedEntities_spec indexed tx).1.index_lt found
    rw [isReverse, length_append] at bound
    rw [getElem?_append_right (indexed.sums.symm ▸ behind), getElem?_replicate,
      if_pos (by rw [indexed.sums]; omega), rowSum, compactedEdges_behind indexed behind]
    split_ifs <;> rfl

theorem commit_sound (indexed : Indexed inner) {before : Nat → Bool} {tx : TxId}
    {rebuildThreshold : Nat} (summed : Idle inner → SumsOf inner before)
    (spares : Refreshes inner tx ∨ Steady inner before (inner.liveAfter tx))
    (kept : ∀ id node : Nat, inner.idMap[id]? = some node →
      inner.liveAfter tx node = false → before node = false) :
    Sound (inner.commit rebuildThreshold tx) := by
  obtain ⟨isFirst, settled⟩ := commitStagedEntities_spec indexed tx
  obtain ⟨isSecond, second⟩ := commitStagedEdges_spec isFirst tx
  obtain ⟨isThird, third⟩ := commitStagedRemovals_spec isSecond tx
  have committed : Sound (((inner.commitStagedEntities tx).commitStagedEdges
      tx).commitStagedRemovals tx) := by
    refine ⟨isThird, fun idle => ?_⟩
    obtain ⟨noRemoval, isRemoved⟩ := third.resolve_left (fun filled => filled idle.2)
    rw [isRemoved] at idle ⊢
    obtain ⟨noEdge, isCommitted⟩ := second.resolve_left (fun filled => by
      have empty : ((inner.commitStagedEntities tx).commitStagedEdges tx).pendingEdges.isEmpty =
        true := idle.1
      rw [filled] at empty
      cases empty)
    rw [isCommitted] at idle noRemoval ⊢
    have idleBefore : Idle inner := by
      refine ⟨?_, ?_⟩
      · rw [← settled.pending.1]
        exact idle.1
      · rw [← settled.pending.2]
        exact idle.2
    have steady : Steady inner before (inner.liveAfter tx) := by
      refine spares.resolve_left ?_
      rintro (busy | ⟨staged, inside, isTx⟩ | ⟨removal, inside, isTx, isSource, isTarget⟩)
      · exact busy idleBefore
      · exact noEdge staged (settled.staged.1 ▸ inside) isTx
      · have known {id : EntityId} (isKnown : id ∈ inner.idMap) :
            id ∈ (inner.commitStagedEntities tx).idMap := by
          rw [Std.TreeMap.mem_iff_isSome_getElem?] at isKnown ⊢
          obtain ⟨index, found⟩ := isSome_iff_exists.mp isKnown
          rw [settled.known id index found]
          rfl
        rcases noRemoval removal (settled.staged.2 ▸ inside) isTx with missing | missing
        · exact missing (known isSource)
        · exact missing (known isTarget)
    exact sumsOf_entities indexed (summed idleBefore) steady kept
  unfold GraphInner.commit
  simp only
  split_ifs
  · exact committed.compact.1
  · exact committed

end Contextra.Graph.GraphInner

/-!
## Runs of mutations

In a run whose mutations spare the rows of idle tables, a compaction leaves exact sums.  Readers of
the sums then hand out what they take.
-/

namespace Contextra.Graph.GraphInner

open Library List Option

variable {K : Type} [Field K] [LinearOrder K] {inner next : GraphInner K}

theorem Sound.restage (sound : Sound inner) (stagedEntities : List (TxId × EntityId))
    (stagedEdges : List (StagedEdge K)) (stagedRemovals : List (TxId × EntityId × EntityId)) :
    Sound { inner with stagedEntities, stagedEdges, stagedRemovals } :=
  ⟨⟨sound.indexed, sound.entity, sound.targets, sound.pendingTargets, sound.offsets, sound.sums,
    sound.tables⟩, sound.summed⟩

omit [Field K] [LinearOrder K] in
theorem foldl_removeEdge {α : Type} (tx : TxId) (ends : α → EntityId × EntityId) (edges : List α) :
    edges.foldl (fun inner edge => inner.removeEdge tx (ends edge).1 (ends edge).2) inner =
      { inner with stagedRemovals :=
        inner.stagedRemovals ++ edges.map fun edge => (tx, (ends edge).1, (ends edge).2) } := by
  induction edges generalizing inner with
  | nil =>
    rw [foldl_nil, map_nil, append_nil]
  | cons edge edges ih =>
    rw [foldl_cons, ih, removeEdge, append_assoc]
    rfl

omit [Field K] [LinearOrder K] in
theorem idMap_forgetEntity {id other node index : Nat}
    (found : (inner.forgetEntity id index).idMap[other]? = some node) :
    other ≠ id ∧ inner.idMap[other]? = some node := by
  change (inner.idMap.erase id)[other]? = some node at found
  rw [Std.TreeMap.getElem?_erase] at found
  split_ifs at found with same
  exact ⟨fun isId => same (compare_eq_iff_eq.mpr isId.symm), found⟩

omit [Field K] [LinearOrder K] in
theorem entityAt_forgetEntity {id index other : Nat} :
    (inner.forgetEntity id index).entityAt other =
      if other = index then none else inner.entityAt other := by
  rw [entityAt, forgetEntity]
  simp only
  split_ifs with same
  · rw [same]
    by_cases inside : index < inner.entities.length
    · rw [getElem?_set_self inside]
      rfl
    · rw [getElem?_eq_none (by rw [length_set]; omega)]
      rfl
  · rw [getElem?_set_ne (Ne.symm same), entityAt]

omit [Field K] [LinearOrder K] in
theorem Indexed.forgetEntity (indexed : Indexed inner) {id index : Nat}
    (found : inner.idMap[id]? = some index) : Indexed (inner.forgetEntity id index) where
  indexed := fun other node isNode => indexed.indexed other node (idMap_forgetEntity isNode).2
  entity := by
    intro node other isEntity
    rw [entityAt_forgetEntity] at isEntity
    split_ifs at isEntity with same
    have isNode := indexed.entity node other isEntity
    have different : ¬ compare id other = .eq := by
      intro isId
      obtain rfl := compare_eq_iff_eq.mp isId
      rw [found] at isNode
      exact same (some.inj isNode).symm
    change (inner.idMap.erase id)[other]? = some node
    rw [Std.TreeMap.getElem?_erase, if_neg different]
    exact isNode
  targets := indexed.targets
  pendingTargets := indexed.pendingTargets
  offsets := indexed.offsets
  sums := indexed.sums
  tables := indexed.tables

theorem Sound.removeEntity (sound : Sound inner) {tx : TxId} {id : EntityId}
    {rebuildThreshold : Nat} (spares : ∀ index, inner.idMap[id]? = some index →
      Refreshes (inner.forgetEntity id index) tx ∨
        Steady inner inner.liveAt ((inner.forgetEntity id index).liveAfter tx)) :
    Sound (inner.removeEntity rebuildThreshold tx id) := by
  unfold GraphInner.removeEntity
  cases found : inner.idMap[id]? with
  | none => exact sound
  | some index =>
    simp only
    generalize (inner.collectEntityIncidentEdges index).1 = outgoing
    generalize (inner.collectEntityIncidentEdges index).2 = incoming
    have first := @foldl_removeEdge K inner _ tx (fun target => (id, target)) outgoing
    have second := @foldl_removeEdge K { inner with
      stagedRemovals := inner.stagedRemovals ++ outgoing.map fun target => (tx, id, target) } _ tx
      (fun source => (source, id)) incoming
    simp only at first second
    rw [first, second]
    let staged : GraphInner K := { inner with
      stagedRemovals := inner.stagedRemovals ++ outgoing.map (fun target => (tx, id, target)) ++
        incoming.map fun source => (tx, source, id) }
    have isStaged : Sound staged := sound.restage _ _ _
    have apart {other node : Nat} (isNode : (staged.forgetEntity id index).idMap[other]? = some node) :
        node ≠ index := by
      obtain ⟨different, isOther⟩ := idMap_forgetEntity isNode
      rintro rfl
      have same := sound.indexed other node isOther
      rw [sound.indexed id node found] at same
      exact different (some.inj same).symm
    refine @commit_sound _ _ _ (staged.forgetEntity id index) (isStaged.toIndexed.forgetEntity found)
      inner.liveAt tx rebuildThreshold ?_ ?_ ?_
    · intro idle other node isNode
      exact sound.summed idle other node (idMap_forgetEntity isNode).2
    · refine (spares index found).imp (fun refreshes => ?_) fun steady => steady
      rcases refreshes with busy | edge | ⟨removal, inside, rest⟩
      · exact Or.inl busy
      · exact Or.inr (Or.inl edge)
      · refine Or.inr (Or.inr ⟨removal, ?_, rest⟩)
        exact mem_append_left _ (mem_append_left _ inside)
    · intro other node isNode isDead
      obtain ⟨dead, -⟩ := Bool.or_eq_false_iff.mp isDead
      rw [liveAt, entityAt_forgetEntity, if_neg (apart isNode)] at dead
      exact dead

omit [Field K] [LinearOrder K] in
theorem Indexed.endValidity (indexed : Indexed inner) (walTx : TxId) (source target : Nat) :
    Indexed (inner.endValidity walTx source target) where
  indexed := indexed.indexed
  entity := indexed.entity
  targets := by
    intro entry inside
    simp only [GraphInner.endValidity] at inside
    split_ifs at inside
    · obtain ⟨position, bound, rfl⟩ := mem_mapIdx.mp inside
      have isTarget := indexed.targets _ (getElem_mem bound)
      split_ifs
      · exact isTarget
      · exact isTarget
    · exact indexed.targets entry inside
  pendingTargets := by
    intro node edges isPending edge isEdge
    cases found : inner.pendingEdges[source]? with
    | none =>
      simp only [GraphInner.endValidity, found] at isPending
      exact indexed.pendingTargets node edges isPending edge isEdge
    | some pending =>
      simp only [GraphInner.endValidity, found, Std.TreeMap.getElem?_insert] at isPending
      split_ifs at isPending
      · obtain rfl := some.inj isPending
        obtain ⟨before, isBefore, rfl⟩ := List.mem_map.mp isEdge
        split_ifs
        · exact indexed.pendingTargets source pending found before isBefore
        · exact indexed.pendingTargets source pending found before isBefore
      · exact indexed.pendingTargets node edges isPending edge isEdge
  offsets := indexed.offsets
  sums := indexed.sums
  tables := indexed.tables

theorem Sound.tombstoneEdgesDirect (sound : Sound inner) (edges : List (EntityId × EntityId))
    (walTx : TxId) : Sound (inner.tombstoneEdgesDirect edges walTx).1 := by
  have folded (marked : GraphInner K × List (EntityId × EntityId)) (isSound : Sound marked.1) :
      Sound (edges.foldl (tombstoneEdgeDirect walTx) marked).1 := by
    induction edges generalizing marked with
    | nil => exact isSound
    | cons edge edges ih =>
      refine ih _ ?_
      unfold tombstoneEdgeDirect
      cases marked.1.idMap[edge.1]? with
      | none => exact isSound
      | some source =>
        cases marked.1.idMap[edge.2]? with
        | none => exact isSound
        | some target =>
          simp only
          split_ifs
          · exact isSound
          · refine ⟨isSound.toIndexed.endValidity walTx source target, fun idle => ?_⟩
            exact absurd idle.2 (Finset.insert_ne_empty _ _)
  exact folded (inner, []) sound

inductive Mutation (K : Type) where
  | addEntity (tx : TxId) (id : EntityId)
  | addEdge (tx : TxId) (source : EntityId) (edge : EdgePayload K)
  | removeEdge (tx : TxId) (source target : EntityId)
  | removeEntity (tx : TxId) (id : EntityId)
  | commit (tx : TxId)
  | rollback (tx : TxId)
  | tombstoneEdgesDirect (edges : List (EntityId × EntityId)) (walTx : TxId)
  | compact

def step (rebuildThreshold : Nat) (inner : GraphInner K) : Mutation K → Option (GraphInner K)
  | .addEntity tx id => some (inner.addEntity tx id)
  | .addEdge tx source edge => some (inner.addEdge tx source edge).1
  | .removeEdge tx source target => some (inner.removeEdge tx source target)
  | .removeEntity tx id => some (inner.removeEntity rebuildThreshold tx id)
  | .commit tx => some (inner.commit rebuildThreshold tx)
  | .rollback tx => some (inner.rollback tx)
  | .tombstoneEdgesDirect edges walTx => some (inner.tombstoneEdgesDirect edges walTx).1
  | .compact => some inner.compact

/-- Entities appear and vanish with something to compact, or at no end of a compacted edge between
live nodes. -/
def Spares (inner : GraphInner K) : Mutation K → Prop
  | .removeEntity tx id => ∀ index, inner.idMap[id]? = some index →
      Refreshes (inner.forgetEntity id index) tx ∨
        Steady inner inner.liveAt ((inner.forgetEntity id index).liveAfter tx)
  | .commit tx => Refreshes inner tx ∨ Steady inner inner.liveAt (inner.liveAfter tx)
  | _ => True

theorem sound_new : Sound (new : GraphInner K) :=
  ⟨indexed_new, fun _ id node impossible => by cases impossible⟩

theorem sound_step {rebuildThreshold : Nat} {mutation : Mutation K} (sound : Sound inner)
    (spares : Spares inner mutation) (taken : step rebuildThreshold inner mutation = some next) :
    Sound next := by
  cases mutation with
  | addEntity tx id =>
    cases taken
    exact sound.restage _ _ _
  | addEdge tx source edge =>
    cases taken
    unfold addEdge
    split_ifs
    · exact sound
    · exact sound.restage _ _ _
  | removeEdge tx source target =>
    cases taken
    exact sound.restage _ _ _
  | removeEntity tx id =>
    cases taken
    exact sound.removeEntity spares
  | commit tx =>
    cases taken
    exact commit_sound sound.toIndexed sound.summed spares fun id node _ isDead =>
      (Bool.or_eq_false_iff.mp isDead).1
  | rollback tx =>
    cases taken
    exact sound.restage _ _ _
  | tombstoneEdgesDirect edges walTx =>
    cases taken
    exact sound.tombstoneEdgesDirect edges walTx
  | compact =>
    cases taken
    exact sound.compact.1

end GraphInner

open GraphInner Library List Option

variable {K : Type} [Field K] [LinearOrder K] {exact : F32 → K} {inner : GraphInner K}
  {deletedNodes : DeletedView}

omit [Field K] [LinearOrder K] in
theorem isLive_empty (inner : GraphInner K) (node : Nat) :
    isLive inner ∅ node = inner.liveAt node := by
  rw [isLive, liveAt, decide_eq_true (Finset.notMem_empty node), Bool.true_and]

theorem computeNodeOutWeightSum_sound (sound : Sound inner) (node : Nat) :
    computeNodeOutWeightSum exact inner ∅ node = inner.sumToEntities (inner.edgesOf node) := by
  have noHyperedge (source : EntityId) : hyperedgeNeighbors exact inner ∅ source = [] := by
    rw [hyperedgeNeighbors, sound.tables]
    rfl
  rw [computeNodeOutWeightSum, neighbors, edgeNeighbors, sumToEntities]
  cases inner.reverseMap[node]? with
  | some source =>
    simp only [noHyperedge, append_nil, List.map_map, isLive_empty]
    rfl
  | none =>
    simp only [append_nil, List.map_map, isLive_empty]
    rfl

omit [Field K] [LinearOrder K] in
theorem edgesOf_idle (idle : Idle inner) (node : Nat) :
    inner.edgesOf node = (inner.compactedEdges node).map CsrEntry.payload := by
  rw [edgesOf, pendingEdgesOf, Std.TreeMap.getElem?_of_isEmpty idle.1]
  exact append_nil _

theorem computeOutWeightSums_idle (sound : Sound inner) (idle : Idle inner) :
    computeOutWeightSums exact inner ∅ = (List.range inner.reverseMap.length).map inner.compactedSum := by
  refine map_congr_left fun node _ => ?_
  rw [isLive_empty, computeNodeOutWeightSum_sound sound, edgesOf_idle idle, compactedSum, liveAt]
  cases inner.entityAt node <;> rfl

theorem contextOutWeightSums_idle (sound : Sound inner) (idle : Idle inner) :
    contextOutWeightSums exact inner ∅ = computeOutWeightSums exact inner ∅ := by
  have cached : ∅ = (∅ : DeletedView) ∧ inner.tables.hyperedges.isEmpty = true ∧
      inner.reverseMap.length ≤ inner.outWeightSums.length := by
    rw [sound.tables, sound.sums]
    exact ⟨rfl, rfl, le_rfl⟩
  rw [contextOutWeightSums, if_pos cached, computeOutWeightSums_idle sound idle]
  refine ext_getElem? fun node => ?_
  rw [getElem?_mapIdx, getElem?_map]
  by_cases inside : node < inner.reverseMap.length
  · rw [getElem?_take_of_lt inside, getElem?_range inside, isLive_empty, map_some,
      compactedSum_eq]
    cases live : inner.liveAt node with
    | false =>
      rw [rowSum, live, getElem?_eq_getElem (sound.sums.symm ▸ inside)]
      rfl
    | true =>
      obtain ⟨id, found⟩ := isSome_iff_exists.mp live
      rw [sound.summed idle id node (sound.entity node id found)]
      rfl
  · rw [getElem?_eq_none, getElem?_eq_none]
    · rfl
    · rw [length_range]
      omega
    · rw [length_take]
      omega

theorem outWeight_computed {node : Nat}
    (positive : 0 < outWeight (computeOutWeightSums exact inner deletedNodes) node) :
    outWeight (computeOutWeightSums exact inner deletedNodes) node =
      computeNodeOutWeightSum exact inner deletedNodes node := by
  rw [outWeight, computeOutWeightSums, getElem?_map] at positive ⊢
  by_cases inside : node < inner.reverseMap.length
  · rw [getElem?_range inside, map_some, getD_some] at positive ⊢
    split_ifs at positive ⊢
    · rfl
    · exact absurd positive (lt_irrefl 0)
  · rw [getElem?_eq_none (by rw [length_range]; omega)] at positive
    exact absurd positive (lt_irrefl 0)

section Mass

variable {sums ranks next : List K} {damping : K} {node : Nat}

omit [LinearOrder K] in
theorem sum_modify {values : List K} {index : Nat} (inside : index < values.length) (amount : K) :
    (values.modify index (· + amount)).sum = values.sum + amount := by
  induction values generalizing index with
  | nil => cases inside
  | cons value values ih =>
    cases index with
    | zero =>
      rw [modify_zero_cons, sum_cons, sum_cons]
      ring
    | succ index =>
      rw [modify_succ_cons, sum_cons, sum_cons,
        ih (Nat.lt_of_succ_lt_succ inside), add_assoc]

omit [LinearOrder K] in
theorem foldl_modify {entries : List (Nat × K)} {values : List K} {share : K}
    (inside : ∀ entry ∈ entries, entry.1 < values.length) :
    let final := entries.foldl (fun values entry => values.modify entry.1 (· + share * entry.2)) values
    final.length = values.length ∧ final.sum = values.sum + share * (entries.map Prod.snd).sum := by
  induction entries generalizing values with
  | nil => exact ⟨rfl, by simp⟩
  | cons entry entries ih =>
    have length := length_modify (· + share * entry.2) values entry.1
    have insideRest : ∀ other ∈ entries,
        other.1 < (values.modify entry.1 (· + share * entry.2)).length := fun other isOther =>
      length.symm ▸ inside other (mem_cons_of_mem _ isOther)
    obtain ⟨sameLength, isSum⟩ := ih insideRest
    refine ⟨sameLength.trans length, isSum.trans ?_⟩
    rw [sum_modify (inside entry mem_cons_self), map_cons, sum_cons, mul_add,
      add_assoc]

/-- What an iteration takes from a node, before damping. -/
def takenRank (sums ranks : List K) (node : Nat) : K :=
  if 0 < outWeight sums node ∧ 0 < outWeight ranks node then outWeight ranks node else 0

theorem sum_distributeRank
    (matching : 0 < outWeight sums node →
      outWeight sums node = computeNodeOutWeightSum exact inner ∅ node)
    (inside : ∀ neighbor ∈ neighbors exact inner ∅ node, neighbor.1 < next.length) :
    (distributeRank exact inner ∅ damping sums ranks next node).length = next.length ∧
      (distributeRank exact inner ∅ damping sums ranks next node).sum =
        next.sum + damping * takenRank sums ranks node := by
  unfold distributeRank takenRank
  rw [if_neg (Finset.notMem_empty node)]
  split_ifs with taken
  · obtain ⟨length, isSum⟩ := @foldl_modify K _ (neighbors exact inner ∅ node) next
      (damping * outWeight ranks node / outWeight sums node) inside
    refine ⟨length, isSum.trans ?_⟩
    rw [← computeNodeOutWeightSum, ← matching taken.1, div_mul_cancel₀ _ taken.1.ne']
  · exact ⟨rfl, by rw [mul_zero, add_zero]⟩

theorem sum_distributeDenseRanks
    (matching : ∀ node, 0 < outWeight sums node →
      outWeight sums node = computeNodeOutWeightSum exact inner ∅ node)
    (inside : ∀ node, ∀ neighbor ∈ neighbors exact inner ∅ node,
      neighbor.1 < inner.reverseMap.length)
    (room : inner.reverseMap.length ≤ next.length) :
    (distributeDenseRanks exact inner ∅ damping sums ranks next).sum =
      next.sum + damping * ((List.range inner.reverseMap.length).map (takenRank sums ranks)).sum := by
  have folded (nodes : List Nat) {next : List K} (room : inner.reverseMap.length ≤ next.length) :
      (nodes.foldl (distributeRank exact inner ∅ damping sums ranks) next).sum =
        next.sum + damping * (nodes.map (takenRank sums ranks)).sum := by
    induction nodes generalizing next with
    | nil =>
      rw [foldl_nil, map_nil, sum_nil, mul_zero, add_zero]
    | cons node nodes ih =>
      obtain ⟨length, isSum⟩ := @sum_distributeRank K _ _ exact inner sums ranks next damping node
        (matching node) fun neighbor isNeighbor => (inside node neighbor isNeighbor).trans_le room
      rw [foldl_cons, ih (length.symm ▸ room), isSum, map_cons,
        sum_cons, mul_add, add_assoc]
  exact folded _ room

theorem totalMass_pushMassToNeighbors {pushMass : K} {residual : SortedMap Nat K}
    (positive : 0 < outWeight sums node)
    (matching : outWeight sums node = computeNodeOutWeightSum exact inner ∅ node) :
    totalMass (pushMassToNeighbors exact inner ∅ node pushMass (outWeight sums node) residual).masses =
      totalMass residual.masses + pushMass := by
  rw [pushMassToNeighbors, SortedMap.foldl_add_masses, map_add, massesOf_scaled, map_smul,
    totalMass_massesOf, List.map_map, smul_eq_mul]
  have whole : ((neighbors exact inner ∅ node).map
      (Prod.snd ∘ fun neighbor => (neighbor.1, neighbor.2 / outWeight sums node))).sum = 1 := by
    calc ((neighbors exact inner ∅ node).map
          (Prod.snd ∘ fun neighbor => (neighbor.1, neighbor.2 / outWeight sums node))).sum
        = ((neighbors exact inner ∅ node).map fun neighbor =>
            neighbor.2 / outWeight sums node).sum := rfl
      _ = computeNodeOutWeightSum exact inner ∅ node / outWeight sums node := by
          simp only [div_eq_mul_inv]
          rw [sum_map_mul_right]
          rfl
      _ = 1 := by rw [← matching, div_self positive.ne']
  rw [whole, mul_one]

end Mass

/-- The cached sums are those of the edges to live entities, and every reader hands out what it
takes. -/
structure ExactSums (exact : F32 → K) (inner : GraphInner K) : Prop where
  sums : ∀ node id, inner.entityAt node = some id →
    inner.outWeightSums[node]? = some (inner.sumToEntities (inner.edgesOf node))
  cached : contextOutWeightSums exact inner ∅ = computeOutWeightSums exact inner ∅
  dense : ∀ damping ranks next, inner.reverseMap.length ≤ next.length →
    (distributeDenseRanks exact inner ∅ damping (contextOutWeightSums exact inner ∅) ranks next).sum =
      next.sum + damping * ((List.range inner.reverseMap.length).map
        (takenRank (contextOutWeightSums exact inner ∅) ranks)).sum
  push : ∀ node pushMass residual, 0 < outWeight (contextOutWeightSums exact inner ∅) node →
    totalMass (pushMassToNeighbors exact inner ∅ node pushMass
        (outWeight (contextOutWeightSums exact inner ∅) node) residual).masses =
      totalMass residual.masses + pushMass

theorem exactSums_of_idle (sound : Sound inner) (idle : Idle inner) : ExactSums exact inner := by
  have cached := @contextOutWeightSums_idle K _ _ exact inner sound idle
  refine ⟨fun node id found => ?_, cached, ?_, ?_⟩
  · have live : inner.entityAt node ≠ none := by
      rw [found]
      exact some_ne_none id
    rw [sound.summed idle id node (sound.entity node id found), ← compactedSum_eq, compactedSum,
      if_neg (by rwa [isNone_iff_eq_none]), edgesOf_idle idle]
  · intro damping ranks next room
    rw [cached]
    refine sum_distributeDenseRanks (fun node => outWeight_computed) ?_ room
    intro node neighbor isNeighbor
    obtain ⟨live, -⟩ := neighbors_live isNeighbor
    rw [isLive_empty] at live
    obtain ⟨id, found⟩ := isSome_iff_exists.mp live
    exact sound.index_lt (sound.entity neighbor.1 id found)
  · intro node pushMass residual positive
    rw [cached] at positive ⊢
    exact totalMass_pushMassToNeighbors positive (outWeight_computed positive)

/-- In a run that spares the rows of idle tables, a compaction leaves exact sums. -/
theorem outWeightSums_exact {rebuildThreshold : Nat} {mutations : List (Mutation K)}
    (spares : Along (GraphInner.step rebuildThreshold) Spares .new mutations)
    (reached : run (GraphInner.step rebuildThreshold) .new mutations = some inner) :
    ExactSums exact inner.compact := by
  have sound : Sound inner :=
    run_invariant (fun _ _ _ isSound isSpared taken => sound_step isSound isSpared taken) sound_new
      spares reached
  obtain ⟨compacted, idle, -⟩ := sound.compact
  exact exactSums_of_idle compacted idle

def weighted (target : EntityId) (weight : ℚ) : EdgePayload ℚ :=
  ⟨target, weight, none, none, none, none, none⟩

theorem outWeightSums_exact_two : ∃ inner : GraphInner ℚ,
    run (GraphInner.step 1000) .new
        [.addEntity 1 11, .addEntity 1 12, .addEdge 1 11 (weighted 12 3), .commit 1, .compact,
          .addEdge 2 12 (weighted 11 5), .commit 2] = some inner ∧
      inner.compact.outWeightSums = [3, 5] ∧ ExactSums (fun _ => 1) inner.compact := by
  have spares : Along (GraphInner.step 1000) Spares (.new : GraphInner ℚ)
      [.addEntity 1 11, .addEntity 1 12, .addEdge 1 11 (weighted 12 3), .commit 1, .compact,
        .addEdge 2 12 (weighted 11 5), .commit 2] := by
    refine ⟨trivial, ?_⟩
    rintro first ⟨rfl⟩
    refine ⟨trivial, ?_⟩
    rintro second ⟨rfl⟩
    refine ⟨trivial, ?_⟩
    rintro staged ⟨rfl⟩
    refine ⟨Or.inl (by decide +kernel), ?_⟩
    rintro committed ⟨rfl⟩
    refine ⟨trivial, ?_⟩
    rintro compacted ⟨rfl⟩
    refine ⟨trivial, ?_⟩
    rintro staged' ⟨rfl⟩
    refine ⟨Or.inl (by decide +kernel), ?_⟩
    rintro committed' ⟨rfl⟩
    trivial
  exact ⟨_, rfl, by decide +kernel, outWeightSums_exact spares rfl⟩

/-- The removal of an entity forgets its id before the removals of its edges are committed, and the
compaction behind it finds nothing to do. -/
theorem removed_entity_counts : ∃ inner : GraphInner ℚ,
    run (GraphInner.step 1000) .new
        [.addEntity 1 11, .addEntity 1 12, .addEdge 1 11 (weighted 12 1), .commit 1, .compact,
          .removeEntity 2 12] = some inner ∧
      ¬ ExactSums (fun _ => 1) inner.compact := by
  refine ⟨_, rfl, fun exactSums => ?_⟩
  have stale := exactSums.sums 0 11 (by decide +kernel)
  revert stale
  decide +kernel

end Contextra.Graph
