import Contextra.Graph.Cascade
import Contextra.Library.Reachability

/-!
# The order of a cascade

Kahn's loop places exactly the nodes that no cycle stands above, each after its parents.  What is
left over is appended by id, and among these nodes the order of the ids decides.
-/

namespace Contextra.Graph

open Library List
open Relation (TransGen ReflTransGen)

namespace HyperedgeTables

variable {tables : HyperedgeTables}

theorem listed_nodup (index : HyperedgeIndex) (key : Nat) : (tables.listed index key).Nodup := by
  rw [listed]
  cases index[key]? with
  | none => exact nodup_nil
  | some set =>
    refine List.Nodup.filter _ ?_
    exact set.distinct_toList.imp fun {a b} different same =>
      different (Std.LawfulEqOrd.compare_eq_iff_eq.mpr same)

theorem isSome_of_mem_listed {index : HyperedgeIndex} {key : Nat} {id : HyperEdgeId}
    (isListed : id ∈ tables.listed index key) : (tables.getHyperedge id).isSome := by
  rw [listed] at isListed
  cases found : index[key]? with
  | none => simp [found] at isListed
  | some set =>
    rw [found] at isListed
    exact (mem_filter.mp isListed).2

section Kahn

variable {nodeSet : List HyperEdgeId} {state : KahnState} {node child : HyperEdgeId}

variable (tables nodeSet) in
def IsParent (parent child : HyperEdgeId) : Prop :=
  child ∈ nodeSet ∧ parent ∈ tables.parentsIn nodeSet child

theorem parentsIn_nodup (node : HyperEdgeId) : (tables.parentsIn nodeSet node).Nodup :=
  (listed_nodup _ _).filter _

theorem mem_nodeSet_of_mem_parentsIn {parent : HyperEdgeId}
    (isParent : parent ∈ tables.parentsIn nodeSet node) : parent ∈ nodeSet :=
  of_decide_eq_true (mem_filter.mp isParent).2

theorem mem_childrenIn :
    child ∈ tables.childrenIn nodeSet node ↔ IsParent tables nodeSet node child := by
  simp [childrenIn, IsParent]

theorem releaseChild_topoOrder : (releaseChild state child).topoOrder = state.topoOrder := by
  unfold releaseChild
  split <;> rfl

theorem releaseChild_inDegree (other : HyperEdgeId) :
    (releaseChild state child).inDegree other =
      if other = child then state.inDegree other - 1 else state.inDegree other := by
  unfold releaseChild
  by_cases same : other = child
  · subst same
    split
    · simp
    · rw [if_pos rfl]
      omega
  · split <;> simp [same]

theorem releaseChild_ready :
    (releaseChild state child).ready.Perm
      (state.ready ++ if state.inDegree child = 1 then [child] else []) := by
  unfold releaseChild
  split
  · rename_i positive
    by_cases one : state.inDegree child = 1
    · rw [if_pos one, if_pos (by omega)]
      exact (perm_orderedInsert _ _ _).trans (perm_append_singleton _ _).symm
    · rw [if_neg one, if_neg (by omega), append_nil]
  · rename_i zero
    rw [if_neg (by omega), append_nil]

theorem foldl_releaseChild {children : List HyperEdgeId} (different : children.Nodup) :
    let released := children.foldl releaseChild state
    released.topoOrder = state.topoOrder ∧
      (∀ other, released.inDegree other =
        if other ∈ children then state.inDegree other - 1 else state.inDegree other) ∧
      released.ready.Perm
        (state.ready ++ children.filter fun child => decide (state.inDegree child = 1)) := by
  induction children generalizing state with
  | nil => exact ⟨rfl, fun _ => rfl, by simp⟩
  | cons child children ih =>
    obtain ⟨notLater, differentRest⟩ := nodup_cons.mp different
    obtain ⟨sameOrder, degrees, readyPerm⟩ :=
      @ih (releaseChild state child) differentRest
    refine ⟨sameOrder.trans releaseChild_topoOrder, fun other => ?_, readyPerm.trans ?_⟩
    · rw [foldl_cons, degrees, releaseChild_inDegree]
      by_cases same : other = child
      · subst same
        simp [notLater]
      · simp [same]
    · have later : (children.filter fun other =>
          decide ((releaseChild state child).inDegree other = 1)) =
          children.filter fun other => decide (state.inDegree other = 1) := by
        refine filter_congr fun other isLater => ?_
        have notSame : other ≠ child := fun same => notLater (same ▸ isLater)
        rw [releaseChild_inDegree, if_neg notSame]
      rw [later]
      refine (releaseChild_ready.append_right _).trans (List.Perm.of_eq ?_)
      by_cases one : state.inDegree child = 1 <;> simp [one]

variable (tables nodeSet) in
/-- The state between two turns of the main loop. -/
structure Sorting (state : KahnState) : Prop where
  nodup : (state.topoOrder ++ state.ready).Nodup
  within : ∀ node ∈ state.topoOrder ++ state.ready, node ∈ nodeSet
  degree : ∀ node ∈ nodeSet, state.inDegree node =
    ((tables.parentsIn nodeSet node).filter fun parent => decide (parent ∉ state.topoOrder)).length
  released : ∀ node ∈ nodeSet, node ∈ state.topoOrder ++ state.ready ↔ state.inDegree node = 0
  parentsFirst : ∀ earlier node later, state.topoOrder = earlier ++ node :: later →
    ∀ parent ∈ tables.parentsIn nodeSet node, parent ∈ earlier

theorem kahnStart_sorting (different : nodeSet.Nodup) :
    Sorting tables nodeSet (tables.kahnStart nodeSet) where
  nodup := by
    rw [kahnStart, nil_append]
    exact (perm_insertionSort _ _).nodup_iff.mpr (different.filter _)
  within := by
    intro node isReady
    rw [kahnStart, nil_append, (perm_insertionSort _ _).mem_iff] at isReady
    exact (mem_filter.mp isReady).1
  degree := by
    intro node _
    simp [kahnStart]
  released := by
    intro node inSet
    rw [kahnStart, nil_append, (perm_insertionSort _ _).mem_iff, mem_filter]
    simp [inSet]
  parentsFirst := by
    intro earlier node later isOrder
    simp [kahnStart] at isOrder

namespace Sorting

theorem parents_placed (sorting : Sorting tables nodeSet state)
    (isReleased : node ∈ state.topoOrder ++ state.ready) :
    ∀ parent ∈ tables.parentsIn nodeSet node, parent ∈ state.topoOrder := by
  intro parent isParent
  have inSet := sorting.within node isReleased
  have zero := (sorting.released node inSet).mp isReleased
  rw [sorting.degree node inSet, length_eq_zero_iff, filter_eq_nil_iff] at zero
  simpa using zero parent isParent

theorem degree_placed (notPlaced : node ∉ state.topoOrder) :
    ((tables.parentsIn nodeSet child).filter
        fun parent => decide (parent ∉ state.topoOrder ++ [node])).length =
      if node ∈ tables.parentsIn nodeSet child then
        ((tables.parentsIn nodeSet child).filter
          fun parent => decide (parent ∉ state.topoOrder)).length - 1
      else
        ((tables.parentsIn nodeSet child).filter
          fun parent => decide (parent ∉ state.topoOrder)).length := by
  have split : ((tables.parentsIn nodeSet child).filter
      fun parent => decide (parent ∉ state.topoOrder ++ [node])) =
      ((tables.parentsIn nodeSet child).filter
        fun parent => decide (parent ∉ state.topoOrder)).erase node := by
    rw [((parentsIn_nodup child).filter _).erase_eq_filter, filter_filter]
    refine filter_congr fun parent _ => ?_
    by_cases same : parent = node <;> simp [same]
  rw [split, List.length_erase]
  simp [notPlaced]

theorem turn {ready : List HyperEdgeId} (different : nodeSet.Nodup)
    (sorting : Sorting tables nodeSet state) (isReady : state.ready = node :: ready) :
    Sorting tables nodeSet ((tables.childrenIn nodeSet node).foldl releaseChild
      { state with ready, topoOrder := state.topoOrder ++ [node] }) := by
  have childrenNodup : (tables.childrenIn nodeSet node).Nodup := different.filter _
  obtain ⟨sameOrder, degrees, readyPerm⟩ := @foldl_releaseChild
    { state with ready, topoOrder := state.topoOrder ++ [node] } _ childrenNodup
  obtain ⟨next, isNext⟩ : ∃ next, next = (tables.childrenIn nodeSet node).foldl releaseChild
    { state with ready, topoOrder := state.topoOrder ++ [node] } := ⟨_, rfl⟩
  rw [← isNext] at sameOrder degrees readyPerm ⊢
  have before := sorting.nodup
  have released := sorting.released
  have withinSet := sorting.within
  rw [isReady] at before released withinSet
  have isReleased : node ∈ state.topoOrder ++ state.ready := by simp [isReady]
  have notPlaced : node ∉ state.topoOrder := fun isPlaced =>
    (disjoint_of_nodup_append before) isPlaced mem_cons_self
  have together : (next.topoOrder ++ next.ready).Perm
      (state.topoOrder ++ node :: ready ++ (tables.childrenIn nodeSet node).filter
        fun child => decide (state.inDegree child = 1)) := by
    rw [sameOrder]
    refine (readyPerm.append_left _).trans (List.Perm.of_eq ?_)
    simp
  refine ⟨?_, ?_, ?_, ?_, ?_⟩
  · rw [together.nodup_iff]
    refine before.append (childrenNodup.filter _) fun other isOld isNew => ?_
    obtain ⟨isChild, isOne⟩ := mem_filter.mp isNew
    have zero := (released other (withinSet other isOld)).mp isOld
    rw [zero] at isOne
    simp at isOne
  · intro other isIn
    rcases mem_append.mp (together.mem_iff.mp isIn) with isOld | isNew
    · exact withinSet other isOld
    · exact (mem_childrenIn.mp (mem_filter.mp isNew).1).1
  · intro other inSet
    rw [degrees, sameOrder, degree_placed notPlaced, ← sorting.degree other inSet]
    simp only [mem_childrenIn, IsParent, inSet, true_and]
  · intro other inSet
    rw [together.mem_iff, mem_append, released other inSet, degrees, mem_filter]
    by_cases isChild : other ∈ tables.childrenIn nodeSet node
    · simp only [isChild, true_and, if_true, decide_eq_true_eq]
      omega
    · simp [isChild]
  · intro earlier other later isOrder
    rw [sameOrder] at isOrder
    rcases eq_nil_or_concat' later with rfl | ⟨later, last, rfl⟩
    · obtain ⟨rfl, same⟩ := append_inj' isOrder rfl
      obtain rfl := singleton_inj.mp same
      exact sorting.parents_placed isReleased
    · rw [← cons_append, ← append_assoc] at isOrder
      obtain ⟨isOld, -⟩ := append_inj' isOrder rfl
      exact sorting.parentsFirst earlier other later isOld

theorem kahnLoop_sorting (different : nodeSet.Nodup) (turns : Nat)
    (sorting : Sorting tables nodeSet state)
    (enough : nodeSet.length ≤ state.topoOrder.length + turns) :
    Sorting tables nodeSet (tables.kahnLoop nodeSet turns state) ∧
      (tables.kahnLoop nodeSet turns state).ready = [] := by
  induction turns generalizing state with
  | zero =>
    refine ⟨sorting, ?_⟩
    have few := (subperm_of_subset sorting.nodup sorting.within).length_le
    rw [length_append] at few
    exact length_eq_zero_iff.mp (by rw [kahnLoop]; omega)
  | succ turns ih =>
    rw [kahnLoop]
    cases isReady : state.ready with
    | nil => exact ⟨sorting, isReady⟩
    | cons node ready =>
      refine ih (sorting.turn different isReady) ?_
      have sameOrder := (@foldl_releaseChild
        { state with ready, topoOrder := state.topoOrder ++ [node] }
        (tables.childrenIn nodeSet node) (different.filter _)).1
      rw [sameOrder, length_append, length_singleton]
      omega

theorem ancestors_placed (sorting : Sorting tables nodeSet state) {ancestor : HyperEdgeId}
    (above : TransGen (IsParent tables nodeSet) ancestor node) (isPlaced : node ∈ state.topoOrder) :
    ancestor ∈ state.topoOrder ∧ state.topoOrder.idxOf ancestor < state.topoOrder.idxOf node := by
  have parent : ∀ {parent child}, IsParent tables nodeSet parent child →
      child ∈ state.topoOrder →
        parent ∈ state.topoOrder ∧ state.topoOrder.idxOf parent < state.topoOrder.idxOf child := by
    intro parent child isParent childPlaced
    obtain ⟨earlier, later, isOrder⟩ := append_of_mem childPlaced
    have isEarlier := sorting.parentsFirst earlier child later isOrder parent isParent.2
    have nodup := (nodup_append.mp sorting.nodup).1
    rw [isOrder] at nodup ⊢
    have notEarlier : child ∉ earlier := fun isIn =>
      (disjoint_of_nodup_append nodup) isIn mem_cons_self
    refine ⟨mem_append_left _ isEarlier, ?_⟩
    rw [idxOf_append_of_mem isEarlier, idxOf_append_of_notMem notEarlier,
      idxOf_cons_self, Nat.add_zero]
    exact idxOf_lt_length_of_mem isEarlier
  induction above using TransGen.head_induction_on with
  | single isParent => exact parent isParent isPlaced
  | head isParent _ ih =>
    obtain ⟨middlePlaced, before⟩ := ih
    obtain ⟨ancestorPlaced, isBefore⟩ := parent isParent middlePlaced
    exact ⟨ancestorPlaced, isBefore.trans before⟩

theorem placed_iff (sorting : Sorting tables nodeSet state) (empty : state.ready = [])
    (inSet : node ∈ nodeSet) :
    node ∈ state.topoOrder ↔ ¬BehindCycle (IsParent tables nodeSet) node := by
  constructor
  · rintro isPlaced ⟨onCycle, cycle, path⟩
    have cyclePlaced : onCycle ∈ state.topoOrder := by
      rcases Relation.reflTransGen_iff_eq_or_transGen.mp path with rfl | above
      · exact isPlaced
      · exact (sorting.ancestors_placed above isPlaced).1
    exact lt_irrefl _ (sorting.ancestors_placed cycle cyclePlaced).2
  · intro free
    by_contra notPlaced
    have isMissing : node ∈ nodeSet.filter fun other => decide (other ∉ state.topoOrder) :=
      mem_filter.mpr ⟨inSet, by simpa using notPlaced⟩
    refine free (behindCycle_of_noSource (fun other isLeft => ?_) isMissing)
    obtain ⟨otherIn, isMissing⟩ := mem_filter.mp isLeft
    have notReleased : other ∉ state.topoOrder ++ state.ready := by
      rw [empty, append_nil]
      exact of_decide_eq_true isMissing
    have someMissing : ((tables.parentsIn nodeSet other).filter
        fun parent => decide (parent ∉ state.topoOrder)) ≠ [] := by
      intro noneMissing
      refine notReleased ((sorting.released other otherIn).mpr ?_)
      rw [sorting.degree other otherIn, noneMissing, length_nil]
    obtain ⟨parent, isParent⟩ := exists_mem_of_ne_nil _ someMissing
    obtain ⟨isParent, parentMissing⟩ := mem_filter.mp isParent
    exact ⟨parent, mem_filter.mpr ⟨mem_nodeSet_of_mem_parentsIn isParent, parentMissing⟩,
      otherIn, isParent⟩

end Sorting

end Kahn

section Order

variable {closureNodes : List HyperEdgeId} {node ancestor : HyperEdgeId}

variable (tables closureNodes) in
def placed : List HyperEdgeId :=
  (tables.kahnLoop closureNodes.dedup closureNodes.dedup.length
    (tables.kahnStart closureNodes.dedup)).topoOrder

variable (tables closureNodes) in
def leftOver : List HyperEdgeId :=
  (closureNodes.dedup.filter fun node => decide (node ∉ placed tables closureNodes)).insertionSort
    (· ≤ ·)

variable (tables closureNodes) in
def IsAncestor (ancestor node : HyperEdgeId) : Prop :=
  TransGen (IsParent tables closureNodes.dedup) ancestor node

theorem placed_sorting (tables : HyperedgeTables) (closureNodes : List HyperEdgeId) :
    ∃ state, Sorting tables closureNodes.dedup state ∧ state.ready = [] ∧
      state.topoOrder = placed tables closureNodes := by
  obtain ⟨sorting, empty⟩ := Sorting.kahnLoop_sorting
    (nodup_dedup closureNodes) closureNodes.dedup.length (kahnStart_sorting (nodup_dedup _))
    (Nat.le_add_left _ _)
  exact ⟨_, sorting, empty, rfl⟩

theorem placed_nodup : (placed tables closureNodes).Nodup := by
  obtain ⟨state, sorting, -, same⟩ := placed_sorting tables closureNodes
  rw [← same]
  exact (nodup_append.mp sorting.nodup).1

theorem placed_subset : placed tables closureNodes ⊆ closureNodes.dedup := by
  obtain ⟨state, sorting, -, same⟩ := placed_sorting tables closureNodes
  rw [← same]
  exact fun node isPlaced => sorting.within node (mem_append_left _ isPlaced)

theorem mem_placed (inClosure : node ∈ closureNodes) :
    node ∈ placed tables closureNodes ↔
      ¬BehindCycle (IsParent tables closureNodes.dedup) node := by
  obtain ⟨state, sorting, empty, same⟩ := placed_sorting tables closureNodes
  rw [← same]
  exact sorting.placed_iff empty (mem_dedup.mpr inClosure)

theorem mem_leftOver : node ∈ leftOver tables closureNodes ↔
    node ∈ closureNodes ∧ node ∉ placed tables closureNodes := by
  rw [leftOver, (perm_insertionSort _ _).mem_iff, mem_filter, mem_dedup,
    decide_eq_true_eq]

theorem leftOver_rises : (leftOver tables closureNodes).Pairwise (· < ·) := by
  have nodup : (leftOver tables closureNodes).Nodup :=
    (perm_insertionSort _ _).nodup_iff.mpr ((nodup_dedup _).filter _)
  have sorted : (leftOver tables closureNodes).Pairwise (· ≤ ·) :=
    pairwise_insertionSort _ _
  exact (sorted.and nodup).imp fun ⟨le, ne⟩ => lt_of_le_of_ne le ne

theorem placed_append_leftOver_perm (tables : HyperedgeTables) (closureNodes : List HyperEdgeId) :
    (placed tables closureNodes ++ leftOver tables closureNodes).Perm closureNodes.dedup := by
  have nodup : (placed tables closureNodes ++ leftOver tables closureNodes).Nodup :=
    placed_nodup.append (leftOver_rises.imp ne_of_lt) fun node isPlaced isLeft =>
      (mem_leftOver.mp isLeft).2 isPlaced
  refine (perm_ext_iff_of_nodup nodup (nodup_dedup _)).mpr fun node => ?_
  rw [mem_append, mem_leftOver, mem_dedup]
  constructor
  · rintro (isPlaced | ⟨inClosure, -⟩)
    · exact mem_dedup.mp (placed_subset isPlaced)
    · exact inClosure
  · intro inClosure
    by_cases isPlaced : node ∈ placed tables closureNodes
    · exact .inl isPlaced
    · exact .inr ⟨inClosure, isPlaced⟩

theorem topologicalSort_eq :
    tables.topologicalSortHyperedgeClosure closureNodes =
      placed tables closureNodes ++ leftOver tables closureNodes := by
  have unfolded : tables.topologicalSortHyperedgeClosure closureNodes =
      if (placed tables closureNodes).length < closureNodes.dedup.length then
        placed tables closureNodes ++ leftOver tables closureNodes
      else placed tables closureNodes := rfl
  rw [unfolded]
  split
  · rfl
  · have lengths := (placed_append_leftOver_perm tables closureNodes).length_eq
    rw [length_append] at lengths
    have none : leftOver tables closureNodes = [] := length_eq_zero_iff.mp (by omega)
    rw [none, append_nil]

variable (tables closureNodes) in
def AncestorsFirst (order : List HyperEdgeId) : Prop :=
  ∀ ancestor ∈ closureNodes, ∀ node ∈ closureNodes, IsAncestor tables closureNodes ancestor node →
    ¬IsAncestor tables closureNodes node ancestor → order.idxOf ancestor < order.idxOf node

variable (tables closureNodes) in
/-- Behind a cycle the ids rise from strict ancestors to their descendants. -/
def RisesBehindCycles : Prop :=
  ∀ ancestor ∈ closureNodes, ∀ node ∈ closureNodes,
    BehindCycle (IsParent tables closureNodes.dedup) ancestor →
      IsAncestor tables closureNodes ancestor node →
        ¬IsAncestor tables closureNodes node ancestor → ancestor < node

theorem idxOf_lt_iff {list : List HyperEdgeId} (rises : list.Pairwise (· < ·)) {a b : HyperEdgeId}
    (inA : a ∈ list) (inB : b ∈ list) : list.idxOf a < list.idxOf b ↔ a < b := by
  have inOrder : ∀ {a b}, a ∈ list → b ∈ list → list.idxOf a < list.idxOf b → a < b := by
    intro a b inA inB before
    have rise := pairwise_iff_getElem.mp rises _ _ (idxOf_lt_length_of_mem inA)
      (idxOf_lt_length_of_mem inB) before
    rwa [getElem_idxOf, getElem_idxOf] at rise
  refine ⟨inOrder inA inB, fun less => ?_⟩
  rcases Nat.lt_trichotomy (list.idxOf a) (list.idxOf b) with before | same | behind
  · exact before
  · exact absurd ((idxOf_inj inA).mp same) less.ne
  · exact absurd (inOrder inB inA behind) less.asymm

theorem ancestorsFirst_iff :
    AncestorsFirst tables closureNodes (tables.topologicalSortHyperedgeClosure closureNodes) ↔
      RisesBehindCycles tables closureNodes := by
  rw [topologicalSort_eq]
  have leftOver_of_behind : ∀ {node}, node ∈ closureNodes →
      BehindCycle (IsParent tables closureNodes.dedup) node →
        node ∉ placed tables closureNodes ∧ node ∈ leftOver tables closureNodes := by
    intro node inClosure behind
    have notPlaced : node ∉ placed tables closureNodes := fun isPlaced =>
      (mem_placed inClosure).mp isPlaced behind
    exact ⟨notPlaced, mem_leftOver.mpr ⟨inClosure, notPlaced⟩⟩
  have behindCase : ∀ {ancestor node}, ancestor ∈ closureNodes → node ∈ closureNodes →
      BehindCycle (IsParent tables closureNodes.dedup) ancestor →
      IsAncestor tables closureNodes ancestor node →
      ((placed tables closureNodes ++ leftOver tables closureNodes).idxOf ancestor <
        (placed tables closureNodes ++ leftOver tables closureNodes).idxOf node ↔
          ancestor < node) := by
    intro ancestor node ancestorIn nodeIn behind above
    obtain ⟨ancestorNot, ancestorLeft⟩ := leftOver_of_behind ancestorIn behind
    obtain ⟨nodeNot, nodeLeft⟩ := leftOver_of_behind nodeIn (behind.trans above.to_reflTransGen)
    rw [idxOf_append_of_notMem ancestorNot, idxOf_append_of_notMem nodeNot,
      Nat.add_lt_add_iff_left, idxOf_lt_iff leftOver_rises ancestorLeft nodeLeft]
  constructor
  · intro first ancestor ancestorIn node nodeIn behind above notBack
    exact (behindCase ancestorIn nodeIn behind above).mp
      (first ancestor ancestorIn node nodeIn above notBack)
  · intro rises ancestor ancestorIn node nodeIn above notBack
    by_cases behind : BehindCycle (IsParent tables closureNodes.dedup) ancestor
    · exact (behindCase ancestorIn nodeIn behind above).mpr
        (rises ancestor ancestorIn node nodeIn behind above notBack)
    · have ancestorPlaced := (mem_placed ancestorIn).mpr behind
      rw [idxOf_append_of_mem ancestorPlaced]
      by_cases nodePlaced : node ∈ placed tables closureNodes
      · rw [idxOf_append_of_mem nodePlaced]
        obtain ⟨state, sorting, -, same⟩ := placed_sorting tables closureNodes
        rw [← same] at nodePlaced ⊢
        exact (sorting.ancestors_placed above nodePlaced).2
      · rw [idxOf_append_of_notMem nodePlaced]
        exact (idxOf_lt_length_of_mem ancestorPlaced).trans_le (Nat.le_add_right _ _)

end Order

section Closure

theorem forall_mem_dfsUpward {holds : HyperEdgeId → Prop}
    (parents : ∀ child, ∀ parent ∈ tables.parentHyperedgesOf child, holds parent) (depth : Nat)
    {closure : List HyperEdgeId} {node : HyperEdgeId} (before : ∀ id ∈ closure, holds id)
    (start : holds node) : ∀ id ∈ tables.dfsUpward depth closure node, holds id := by
  induction depth generalizing closure node with
  | zero => exact before
  | succ depth ih =>
    rw [dfsUpward]
    split
    · exact before
    · have each : ∀ (list closure : List HyperEdgeId), (∀ id ∈ list, holds id) →
          (∀ id ∈ closure, holds id) →
          ∀ id ∈ list.foldl (tables.dfsUpward depth) closure, holds id := by
        intro list
        induction list with
        | nil => exact fun _ _ before => before
        | cons parent list later =>
          intro closure isParent before
          rw [forall_mem_cons] at isParent
          exact later _ isParent.2 (ih before isParent.1)
      refine each _ _ (parents node) ?_
      intro id isIn
      rcases mem_append.mp isIn with old | isNode
      · exact before id old
      · rw [mem_singleton.mp isNode]
        exact start

theorem isSome_of_mem_upwardClosure {nodes : List HyperEdgeId}
    (active : ∀ id ∈ nodes, (tables.getHyperedge id).isSome) :
    ∀ id ∈ tables.upwardClosure nodes, (tables.getHyperedge id).isSome := by
  have each : ∀ (list closure : List HyperEdgeId),
      (∀ id ∈ list, (tables.getHyperedge id).isSome) →
      (∀ id ∈ closure, (tables.getHyperedge id).isSome) →
      ∀ id ∈ list.foldl (tables.dfsUpward tables.searchDepth) closure,
        (tables.getHyperedge id).isSome := by
    intro list
    induction list with
    | nil => exact fun _ _ before => before
    | cons node list later =>
      intro closure isNode before
      rw [forall_mem_cons] at isNode
      exact later _ isNode.2 (forall_mem_dfsUpward
        (fun _ _ isParent => isSome_of_mem_listed isParent) _ before isNode.1)
  exact each nodes [] active fun _ impossible => absurd impossible not_mem_nil

end Closure

section Prefixes

variable {id : HyperEdgeId} {ids : List HyperEdgeId} {walTx : TxId}

theorem getHyperedge_applyBatchTombstones (active : (tables.getHyperedge id).isSome) :
    (tables.applyBatchTombstones ids walTx).getHyperedge id = none ↔ id ∈ ids := by
  obtain ⟨edge, isEdge⟩ := Option.isSome_iff_exists.mp active
  obtain ⟨stored, isOpen⟩ : tables.hyperedges[id]? = some edge ∧ edge.txValidTo = none := by
    simpa [getHyperedge, Option.filter_eq_some_iff] using isEdge
  rw [getHyperedge, applyBatchTombstones_get, stored]
  by_cases isStep : id ∈ ids
  · simp [isStep, closedAt, isOpen]
  · simp [isStep, isOpen]

variable (tables) in
/-- After any number of its steps no node is tombstoned whose strict ancestor is active. -/
def NeverChildFirst (closureNodes order : List HyperEdgeId) (walTx : TxId) : Prop :=
  ∀ steps, ∀ ancestor ∈ closureNodes, ∀ node ∈ closureNodes,
    IsAncestor tables closureNodes ancestor node →
      ¬IsAncestor tables closureNodes node ancestor →
        (tables.applyBatchTombstones (order.take steps) walTx).getHyperedge node = none →
          (tables.applyBatchTombstones (order.take steps) walTx).getHyperedge ancestor = none

theorem neverChildFirst {closureNodes order : List HyperEdgeId}
    (active : ∀ id ∈ closureNodes, (tables.getHyperedge id).isSome)
    (complete : ∀ id ∈ closureNodes, id ∈ order)
    (first : AncestorsFirst tables closureNodes order) (walTx : TxId) :
    NeverChildFirst tables closureNodes order walTx := by
  intro steps ancestor ancestorIn node nodeIn above notBack nodeClosed
  rw [getHyperedge_applyBatchTombstones (active _ ancestorIn)]
  rw [getHyperedge_applyBatchTombstones (active _ nodeIn)] at nodeClosed
  have before := first ancestor ancestorIn node nodeIn above notBack
  rw [mem_take_iff_idxOf_lt (complete _ ancestorIn)]
  rw [mem_take_iff_idxOf_lt (complete _ nodeIn)] at nodeClosed
  exact before.trans nodeClosed

end Prefixes

end HyperedgeTables

open HyperedgeTables HyperedgeGraph

def cascadeClosure (tables : HyperedgeTables) (docId : DocId) : List HyperEdgeId :=
  tables.upwardClosure ((tables.hyperedgesForDoc docId).dedup.insertionSort (· ≤ ·))

/-- The order is a permutation of the closure; strict ancestors come first in it exactly when the
ids behind cycles rise from ancestors to descendants, and then no prefix of a cascade tombstones a
child before its strict ancestor. -/
theorem cascadeOrder_exact (tables : HyperedgeTables) :
    (∀ closureNodes, (tables.topologicalSortHyperedgeClosure closureNodes).Perm
        closureNodes.dedup ∧
      (AncestorsFirst tables closureNodes (tables.topologicalSortHyperedgeClosure closureNodes) ↔
        RisesBehindCycles tables closureNodes)) ∧
      ∀ docId walTx, RisesBehindCycles tables (cascadeClosure tables docId) →
        NeverChildFirst tables (cascadeClosure tables docId) (cascadeOrder tables docId) walTx := by
  refine ⟨fun closureNodes => ⟨?_, ancestorsFirst_iff⟩, fun docId walTx rises => ?_⟩
  · rw [topologicalSort_eq]
    exact placed_append_leftOver_perm tables closureNodes
  · refine neverChildFirst (isSome_of_mem_upwardClosure fun id isCandidate => ?_) (fun id isIn => ?_)
      (ancestorsFirst_iff.mpr rises) walTx
    · rw [(perm_insertionSort _ _).mem_iff, mem_dedup] at isCandidate
      exact isSome_of_mem_listed isCandidate
    · rw [topologicalSort_eq, (placed_append_leftOver_perm _ _).mem_iff, mem_dedup]
      exact isIn

/-- Two hyperedges that contain each other, and a child of one of them with a smaller id. -/
def cyclicTables : HyperedgeTables :=
  ((HyperedgeTables.new.insertHyperedgeDirect
    { HyperEdge.new 5 .default [⟨0, 10⟩, ⟨1, 11⟩] .one with childEdgeIds := [6, 1] }
    ).insertHyperedgeDirect
    { HyperEdge.new 6 .default [⟨0, 10⟩, ⟨1, 11⟩] .one with childEdgeIds := [5] }
    ).insertHyperedgeDirect
    { HyperEdge.new 1 .default [⟨0, 10⟩, ⟨1, 11⟩] .one with sourceDocId := some 7 }

/-- The child comes before its ancestor, and the first step of the cascade leaves the ancestor
active. -/
theorem child_behind_cycle_comes_first :
    cascadeOrder cyclicTables 7 = [1, 5, 6] ∧
      ¬AncestorsFirst cyclicTables (cascadeClosure cyclicTables 7) (cascadeOrder cyclicTables 7) ∧
      ¬NeverChildFirst cyclicTables (cascadeClosure cyclicTables 7) (cascadeOrder cyclicTables 7)
        9 := by
  have isOrder : cascadeOrder cyclicTables 7 = [1, 5, 6] := by decide +kernel
  have isClosure : cascadeClosure cyclicTables 7 = [1, 5, 6] := by decide +kernel
  have above : IsAncestor cyclicTables [1, 5, 6] 5 1 := .single ⟨by decide, by decide +kernel⟩
  have noChildren : ∀ child ∈ [1, 5, 6], 1 ∉ cyclicTables.parentsIn [1, 5, 6].dedup child := by
    decide +kernel
  have notBack : ¬IsAncestor cyclicTables [1, 5, 6] 1 5 := by
    intro back
    obtain ⟨child, isParent, -⟩ := Relation.TransGen.head'_iff.mp back
    exact noChildren child (mem_dedup.mp isParent.1) isParent.2
  rw [isOrder, isClosure]
  refine ⟨rfl, fun first => ?_, fun never => ?_⟩
  · have before := first 5 (by decide) 1 (by decide) above notBack
    revert before
    decide
  · have closed := never 1 5 (by decide) 1 (by decide) above notBack (by decide +kernel)
    revert closed
    decide +kernel

end Contextra.Graph
