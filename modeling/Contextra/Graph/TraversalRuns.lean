import Contextra.Graph.Traversal

/-!
# Scores are maxima over walks

Every entry that has left the queue stands for a walk, and every walk is matched by an entry with
no more hops and no smaller score: weights are not negative, so the entry reaches whatever the walk
reaches.
-/

namespace Contextra.Graph

open Library (SortedMap)
open Library.SortedMap List

section Walks

variable {K : Type} [Field K] [LinearOrder K]

/-- A walk along passable edges between live entities, with its hops, its end and its score. -/
inductive Walk (inner : GraphInner K) (asOf : AsOf) (startIdx : Nat) : Nat → Nat → K → Prop where
  | start : Walk inner asOf startIdx 0 startIdx 1
  | extend {hops node : Nat} {score : K} {edge : EdgePayload K}
      (walk : Walk inner asOf startIdx hops node score) (isEdge : edge ∈ inner.edgesOf node)
      (passable : isPassable inner asOf node edge = true)
      (live : (inner.entityAt edge.target).isSome = true) :
      Walk inner asOf startIdx (hops + 1) edge.target (score * scoreDecay * edge.weight)

/-- The states that the loop comes to. -/
inductive Reaches (inner : GraphInner K) (asOf : AsOf) (effectiveMax : Nat) :
    BfsState K → BfsState K → Prop where
  | refl (state : BfsState K) : Reaches inner asOf effectiveMax state state
  | turn {state next final : BfsState K}
      (isTurn : bfsTurn inner asOf effectiveMax state = .continued next)
      (rest : Reaches inner asOf effectiveMax next final) :
      Reaches inner asOf effectiveMax state final

/-- Fewer nodes are visited or queued than the limit, in every state of the loop. -/
def Roomy (inner : GraphInner K) (asOf : AsOf) (effectiveMax : Nat) (state : BfsState K) : Prop :=
  ∀ reached, Reaches inner asOf effectiveMax state reached →
    reached.visited.entries.length + reached.queue.length < maxVisitedNodes

variable {inner : GraphInner K} {asOf : AsOf}

/-- The neighbours that a node pushes where there is room. -/
def wantedNeighbors (inner : GraphInner K) (asOf : AsOf) (visited : SortedMap Nat K)
    (current : Queued K) (edges : List (EdgePayload K)) : List (Queued K) :=
  ((edges.filter (isPassable inner asOf current.node)).map current.along).filter
    (isWanted inner visited)

variable {visited : SortedMap Nat K}

theorem mem_wantedNeighbors {current neighbor : Queued K} {edges : List (EdgePayload K)} :
    neighbor ∈ wantedNeighbors inner asOf visited current edges ↔
      ∃ edge ∈ edges, isPassable inner asOf current.node edge = true ∧
        current.along edge = neighbor ∧ isWanted inner visited neighbor = true := by
  rw [wantedNeighbors, mem_filter, List.mem_map]
  constructor
  · rintro ⟨⟨edge, kept, same⟩, wanted⟩
    exact ⟨edge, (mem_filter.mp kept).1, (mem_filter.mp kept).2, same, wanted⟩
  · rintro ⟨edge, isEdge, passable, same, wanted⟩
    exact ⟨⟨edge, mem_filter.mpr ⟨isEdge, passable⟩, same⟩, wanted⟩

variable {current : Queued K}

theorem wantedNeighbors_append {first second : List (EdgePayload K)} :
    wantedNeighbors inner asOf visited current (first ++ second) =
      wantedNeighbors inner asOf visited current first ++
        wantedNeighbors inner asOf visited current second := by
  rw [wantedNeighbors, filter_append, map_append, filter_append]
  rfl

theorem length_wantedNeighbors_le {edges : List (EdgePayload K)} :
    (wantedNeighbors inner asOf visited current edges).length ≤ edges.length :=
  (length_filter_le _ _).trans
    ((length_map _).le.trans (length_filter_le _ _))

theorem pushNeighbors_spec (visited : SortedMap Nat K) (current : Queued K)
    (edges : List (EdgePayload K)) (queue : List (Queued K)) :
    ∃ pushed, pushNeighbors inner asOf visited current edges queue = queue ++ pushed ∧
      pushed.Sublist (wantedNeighbors inner asOf visited current edges) ∧
      (visited.entries.length + (queue ++ pushed).length < maxVisitedNodes →
        pushed = wantedNeighbors inner asOf visited current edges) := by
  induction edges generalizing queue with
  | nil => exact ⟨[], (append_nil _).symm, List.Sublist.refl _, fun _ => rfl⟩
  | cons edge edges ih =>
    rw [pushNeighbors]
    by_cases passable : isPassable inner asOf current.node edge = true
    · by_cases wanted : isWanted inner visited (current.along edge) = true
      · have isFirst : wantedNeighbors inner asOf visited current (edge :: edges) =
            current.along edge :: wantedNeighbors inner asOf visited current edges := by
          rw [wantedNeighbors, filter_cons_of_pos passable, map_cons,
            filter_cons_of_pos wanted]
          rfl
        rw [if_pos passable]
        simp only [wanted, if_true]
        rw [isFirst]
        split_ifs with full
        · refine ⟨[], (append_nil _).symm, nil_sublist _, fun room => ?_⟩
          rw [append_nil] at room
          omega
        · obtain ⟨pushed, same, isPart, all⟩ := ih (queue ++ [current.along edge])
          refine ⟨current.along edge :: pushed, ?_, isPart.cons_cons _, fun room => ?_⟩
          · rw [same, append_assoc]
            rfl
          · rw [all]
            rw [append_assoc]
            exact room
      · have isSkipped : wantedNeighbors inner asOf visited current (edge :: edges) =
            wantedNeighbors inner asOf visited current edges := by
          rw [wantedNeighbors, filter_cons_of_pos passable, map_cons,
            filter_cons_of_neg wanted]
          rfl
        rw [if_pos passable, isSkipped]
        simp only [wanted]
        exact ih queue
    · have isSkipped : wantedNeighbors inner asOf visited current (edge :: edges) =
          wantedNeighbors inner asOf visited current edges := by
        rw [wantedNeighbors, filter_cons_of_neg passable]
        rfl
      rw [if_neg passable, isSkipped]
      exact ih queue

theorem processEdges_spec (visited : SortedMap Nat K) (current : Queued K)
    (queue : List (Queued K)) :
    ∃ pushed, processBitemporalNodeEdges inner asOf visited current queue = queue ++ pushed ∧
      pushed.Sublist (wantedNeighbors inner asOf visited current (inner.edgesOf current.node)) ∧
      (visited.entries.length + (queue ++ pushed).length < maxVisitedNodes →
        pushed = wantedNeighbors inner asOf visited current (inner.edgesOf current.node)) := by
  obtain ⟨first, same, isPart, all⟩ := @pushNeighbors_spec _ _ _ inner asOf visited current
    ((inner.compactedEdges current.node).map CsrEntry.payload) queue
  obtain ⟨second, same', isPart', all'⟩ := @pushNeighbors_spec _ _ _ inner asOf visited current
    (inner.pendingEdgesOf current.node) (queue ++ first)
  refine ⟨first ++ second, ?_, ?_, fun room => ?_⟩
  · rw [processBitemporalNodeEdges, same, same', append_assoc]
  · rw [GraphInner.edgesOf, wantedNeighbors_append]
    exact isPart.append isPart'
  · rw [← append_assoc] at room
    rw [GraphInner.edgesOf, wantedNeighbors_append, all' room, all]
    rw [length_append] at room
    omega

variable [IsStrictOrderedRing K] {startIdx effectiveMax : Nat}

theorem Walk.nonneg (wellFormed : inner.WellFormed) {hops node : Nat} {score : K}
    (walk : Walk inner asOf startIdx hops node score) : 0 ≤ score := by
  have decay : (0 : K) ≤ scoreDecay := by
    unfold scoreDecay
    norm_num
  induction walk with
  | start => exact zero_le_one
  | extend walk isEdge passable live ih =>
    exact mul_nonneg (mul_nonneg ih decay) (wellFormed.edgesOf isEdge)

/-- What holds in every state of the loop, of the entries that have left the queue and of those in
it. -/
structure Searched (inner : GraphInner K) (asOf : AsOf) (startIdx effectiveMax : Nat)
    (popped : List (Queued K)) (state : BfsState K) : Prop where
  started : ⟨startIdx, 0, 1⟩ ∈ popped ++ state.queue
  walks : ∀ entry ∈ popped ++ state.queue,
    entry.hop ≤ effectiveMax ∧ Walk inner asOf startIdx entry.hop entry.node entry.score
  ordered : state.queue.Pairwise fun left right => left.hop ≤ right.hop
  near : ∀ left ∈ state.queue, ∀ right ∈ state.queue, right.hop ≤ left.hop + 1
  behind : ∀ before ∈ popped, ∀ entry ∈ state.queue, before.hop ≤ entry.hop
  attained : ∀ node best, state.visited.lookup node = some best →
    ∃ entry ∈ popped, entry.node = node ∧ entry.score = best
  marked : ∀ entry ∈ popped, ∃ best, state.visited.lookup entry.node = some best ∧
    entry.score ≤ best
  closed : ∀ entry ∈ popped, entry.hop < effectiveMax → ∀ edge ∈ inner.edgesOf entry.node,
    isPassable inner asOf entry.node edge = true → (inner.entityAt edge.target).isSome = true →
    ∃ other ∈ popped ++ state.queue, other.node = edge.target ∧ other.hop ≤ entry.hop + 1 ∧
      (entry.along edge).score ≤ other.score

omit [IsStrictOrderedRing K] in
theorem searched_start : Searched inner asOf startIdx effectiveMax [] (bfsStart startIdx) := by
  have only (entry : Queued K) (inside : entry ∈ [⟨startIdx, 0, 1⟩]) : entry = ⟨startIdx, 0, 1⟩ :=
    mem_singleton.mp inside
  refine ⟨mem_singleton_self _, ?_, pairwise_singleton _ _, ?_, ?_, ?_, ?_, ?_⟩
  · intro entry inside
    obtain rfl := only entry inside
    exact ⟨Nat.zero_le _, .start⟩
  · intro left isLeft right isRight
    obtain rfl := only right isRight
    exact Nat.zero_le _
  · exact fun before impossible => absurd impossible not_mem_nil
  · intro node best impossible
    rw [bfsStart, lookup_empty] at impossible
    cases impossible
  · exact fun before impossible => absurd impossible not_mem_nil
  · exact fun before impossible => absurd impossible not_mem_nil

variable {popped : List (Queued K)}

theorem Searched.visit {queue : List (Queued K)}
    (wellFormed : inner.WellFormed)
    (searched : Searched inner asOf startIdx effectiveMax popped ⟨visited, current :: queue⟩) :
    (∀ node best, (visit visited current).lookup node = some best →
      ∃ entry ∈ popped ++ [current], entry.node = node ∧ entry.score = best) ∧
    ∀ entry ∈ popped ++ [current], ∃ best, (Graph.visit visited current).lookup entry.node =
      some best ∧ entry.score ≤ best := by
  have nonneg : 0 ≤ current.score :=
    (searched.walks current (mem_append_right _ mem_cons_self)).2.nonneg wellFormed
  let existing := (visited.lookup current.node).getD 0
  have isCurrent : (Graph.visit visited current).lookup current.node =
      some (max existing current.score) := by
    rw [Graph.visit, lookup_insert_self]
    congr 1
    rcases lt_or_ge existing current.score with below | above
    · rw [if_pos below, max_eq_right below.le]
    · rw [if_neg (not_lt.mpr above), max_eq_left above]
  have isOther (node : Nat) (other : node ≠ current.node) :
      (Graph.visit visited current).lookup node = visited.lookup node := by
    rw [Graph.visit, lookup_insert_ne other]
  constructor
  · intro node best found
    by_cases same : node = current.node
    · subst same
      rw [isCurrent] at found
      obtain rfl := Option.some.inj found
      rcases lt_or_ge existing current.score with below | above
      · exact ⟨current, mem_append_right _ (mem_singleton_self _), rfl,
          (max_eq_right below.le).symm⟩
      · rw [max_eq_left above]
        cases before : visited.lookup current.node with
        | none =>
          have isZero : existing = 0 := by
            simp only [existing, before, Option.getD_none]
          exact ⟨current, mem_append_right _ (mem_singleton_self _), rfl,
            le_antisymm above (isZero ▸ nonneg)⟩
        | some value =>
          obtain ⟨entry, inside, isNode, isScore⟩ := searched.attained _ _ before
          refine ⟨entry, mem_append_left _ inside, isNode, ?_⟩
          simp only [existing, before, Option.getD_some]
          exact isScore
    · rw [isOther node same] at found
      obtain ⟨entry, inside, rest⟩ := searched.attained node best found
      exact ⟨entry, mem_append_left _ inside, rest⟩
  · intro entry inside
    by_cases same : entry.node = current.node
    · rw [same]
      refine ⟨_, isCurrent, ?_⟩
      rcases mem_append.mp inside with isPopped | isLast
      · obtain ⟨best, found, below⟩ := searched.marked entry isPopped
        rw [same] at found
        have isExisting : existing = best := by
          change (visited.lookup current.node).getD 0 = best
          rw [found]
          rfl
        exact below.trans (isExisting ▸ le_max_left _ _)
      · obtain rfl := mem_singleton.mp isLast
        exact le_max_right _ _
    · rw [isOther _ same]
      rcases mem_append.mp inside with isPopped | isLast
      · exact searched.marked entry isPopped
      · obtain rfl := mem_singleton.mp isLast
        exact absurd rfl same

/-- The entry at the head of the queue has left it, and some entries of the next hop have been
pushed behind the others. -/
theorem Searched.advance {queue : List (Queued K)}
    {pushed : List (Queued K)} (wellFormed : inner.WellFormed)
    (searched : Searched inner asOf startIdx effectiveMax popped ⟨visited, current :: queue⟩)
    (isPushed : ∀ entry ∈ pushed, current.hop < effectiveMax ∧
      entry ∈ wantedNeighbors inner asOf (Graph.visit visited current) current
        (inner.edgesOf current.node))
    (all : current.hop < effectiveMax → pushed =
      wantedNeighbors inner asOf (Graph.visit visited current) current
        (inner.edgesOf current.node)) :
    Searched inner asOf startIdx effectiveMax (popped ++ [current])
      ⟨Graph.visit visited current, queue ++ pushed⟩ := by
  obtain ⟨attained, marked⟩ := searched.visit wellFormed
  have kept {entry : Queued K} (inside : entry ∈ popped ++ current :: queue) :
      entry ∈ (popped ++ [current]) ++ (queue ++ pushed) := by
    rw [← append_assoc, append_assoc popped]
    exact mem_append_left _ inside
  have isCurrent : current ∈ current :: queue := mem_cons_self
  have nextHop {entry : Queued K} (inside : entry ∈ pushed) : entry.hop = current.hop + 1 := by
    obtain ⟨edge, -, -, rfl, -⟩ := mem_wantedNeighbors.mp (isPushed entry inside).2
    rfl
  obtain ⟨headFirst, ordered⟩ := pairwise_cons.mp searched.ordered
  refine ⟨kept searched.started, ?_, ?_, ?_, ?_, attained, marked, ?_⟩
  · intro entry inside
    rw [← append_assoc, append_assoc popped] at inside
    rcases mem_append.mp inside with old | new
    · exact searched.walks entry old
    · obtain ⟨below, isWanted⟩ := isPushed entry new
      obtain ⟨edge, isEdge, passable, rfl, wanted⟩ := mem_wantedNeighbors.mp isWanted
      have walk := (searched.walks current (mem_append_right _ isCurrent)).2
      exact ⟨below, walk.extend isEdge passable (Bool.and_eq_true_iff.mp wanted).2⟩
  · apply pairwise_append.mpr
    refine ⟨ordered, ?_, fun left isLeft right isRight => ?_⟩
    · refine pairwise_of_forall_mem_list fun left isLeft right isRight => ?_
      rw [nextHop isLeft, nextHop isRight]
    · rw [nextHop isRight]
      exact searched.near current isCurrent left (mem_cons_of_mem _ isLeft)
  · intro left isLeft right isRight
    have leftBound : current.hop ≤ left.hop := by
      rcases mem_append.mp isLeft with old | new
      · exact headFirst left old
      · rw [nextHop new]
        exact Nat.le_succ _
    have rightBound : right.hop ≤ current.hop + 1 := by
      rcases mem_append.mp isRight with old | new
      · exact searched.near current isCurrent right (mem_cons_of_mem _ old)
      · rw [nextHop new]
    omega
  · intro before isBefore entry inside
    have beforeBound : before.hop ≤ current.hop := by
      rcases mem_append.mp isBefore with old | new
      · exact searched.behind before old current isCurrent
      · rw [mem_singleton.mp new]
    rcases mem_append.mp inside with old | new
    · exact beforeBound.trans (headFirst entry old)
    · rw [nextHop new]
      omega
  · intro entry isPopped below edge isEdge passable live
    rcases mem_append.mp isPopped with old | isLast
    · obtain ⟨other, inside, rest⟩ := searched.closed entry old below edge isEdge passable live
      exact ⟨other, kept inside, rest⟩
    · obtain rfl := mem_singleton.mp isLast
      by_cases wanted : isWanted inner (Graph.visit visited entry) (entry.along edge) = true
      · have isNeighbor : entry.along edge ∈ pushed := by
          rw [all below]
          exact mem_wantedNeighbors.mpr ⟨edge, isEdge, passable, rfl, wanted⟩
        exact ⟨entry.along edge, mem_append_right _ (mem_append_right _ isNeighbor), rfl,
          le_rfl, le_rfl⟩
      · -- the neighbour was reached before, with no more hops and no smaller score
        unfold isWanted at wanted
        cases found : (Graph.visit visited entry).lookup (entry.along edge).node with
        | none =>
          rw [found] at wanted
          exact absurd live wanted
        | some best =>
          rw [found] at wanted
          have notBetter : ¬ best < (entry.along edge).score := by
            intro better
            exact wanted (Bool.and_eq_true_iff.mpr ⟨decide_eq_true better, live⟩)
          obtain ⟨other, inside, isNode, rfl⟩ := attained _ _ found
          refine ⟨other, mem_append_left _ inside, isNode, ?_, not_lt.mp notBetter⟩
          rcases mem_append.mp inside with old | new
          · exact (searched.behind other old entry isCurrent).trans (Nat.le_succ _)
          · rw [mem_singleton.mp new]
            exact Nat.le_succ _

theorem Searched.turn {state next : BfsState K} (wellFormed : inner.WellFormed)
    (searched : Searched inner asOf startIdx effectiveMax popped state)
    (isTurn : bfsTurn inner asOf effectiveMax state = .continued next)
    (room : next.visited.entries.length + next.queue.length < maxVisitedNodes) :
    ∃ popped, Searched inner asOf startIdx effectiveMax popped next := by
  obtain ⟨visited, queue⟩ := state
  unfold bfsTurn at isTurn
  cases queue with
  | nil => cases isTurn
  | cons current queue =>
    have inBound := (searched.walks current (mem_append_right _ mem_cons_self)).1
    simp only at isTurn
    rw [if_neg (not_lt.mpr inBound)] at isTurn
    by_cases below : current.hop < effectiveMax
    · rw [if_pos below] at isTurn
      split_ifs at isTurn
      obtain rfl := BfsTurn.continued.inj isTurn
      obtain ⟨pushed, same, isPart, all⟩ :=
        @processEdges_spec _ _ _ inner asOf (Graph.visit visited current) current queue
      rw [same] at room ⊢
      exact ⟨_, searched.advance wellFormed (fun entry inside => ⟨below, isPart.subset inside⟩)
        fun _ => all room⟩
    · rw [if_neg below] at isTurn
      obtain rfl := BfsTurn.continued.inj isTurn
      have advanced := searched.advance wellFormed
        (fun entry impossible => absurd impossible not_mem_nil)
        (fun isBelow => absurd isBelow below)
      rw [append_nil] at advanced
      exact ⟨_, advanced⟩

theorem executeBfs_searched {state : BfsState K} {fuel : Nat} (wellFormed : inner.WellFormed)
    (searched : Searched inner asOf startIdx effectiveMax popped state)
    (roomy : Roomy inner asOf effectiveMax state)
    (returned : executeBfs inner asOf effectiveMax fuel state = some visited) :
    ∃ popped, Searched inner asOf startIdx effectiveMax popped ⟨visited, []⟩ := by
  induction fuel generalizing popped state with
  | zero => cases returned
  | succ fuel ih =>
    rw [executeBfs] at returned
    cases isTurn : bfsTurn inner asOf effectiveMax state with
    | continued next =>
      rw [isTurn] at returned
      obtain ⟨popped', searched'⟩ := searched.turn wellFormed isTurn
        (roomy next (.turn isTurn (.refl next)))
      exact ih searched'
        (fun reached rest => roomy reached (.turn isTurn rest)) returned
    | finished final =>
      rw [isTurn] at returned
      obtain rfl := Option.some.inj returned
      obtain ⟨before, queue⟩ := state
      have room := roomy _ (.refl _)
      unfold bfsTurn at isTurn
      cases queue with
      | nil =>
        obtain rfl := BfsTurn.finished.inj isTurn
        exact ⟨popped, searched⟩
      | cons current queue =>
        -- there is room for one more visited node, so the loop does not stop here
        exfalso
        have grown : (Graph.visit before current).entries.length ≤ before.entries.length + 1 := by
          rw [Graph.visit, (insert_perm ..).length_eq, length_cons]
          exact Nat.succ_le_succ (length_filter_le _ _)
        simp only [length_cons] at room isTurn
        split_ifs at isTurn with tooFar below full
        omega

omit [Field K] [LinearOrder K] [IsStrictOrderedRing K] in
theorem exists_degree (inner : GraphInner K) : ∃ degree, ∀ node, (inner.edgesOf node).length ≤ degree := by
  have pending : ∃ bound, ∀ node, (inner.pendingEdgesOf node).length ≤ bound := by
    refine ⟨(inner.pendingEdges.toList.map fun entry => entry.2.length).sum, fun node => ?_⟩
    unfold GraphInner.pendingEdgesOf
    cases found : inner.pendingEdges[node]? with
    | none => exact Nat.zero_le _
    | some edges =>
      have isEntry : (node, edges) ∈ inner.pendingEdges.toList :=
        Std.TreeMap.mem_toList_iff_getElem?_eq_some.mpr found
      exact single_le_sum (fun _ _ => Nat.zero_le _) _
        (List.mem_map.mpr ⟨(node, edges), isEntry, rfl⟩)
  obtain ⟨bound, below⟩ := pending
  refine ⟨inner.edges.length + bound, fun node => ?_⟩
  rw [GraphInner.edgesOf, length_append, length_map]
  refine Nat.add_le_add ?_ (below node)
  unfold GraphInner.compactedEdges
  split_ifs
  · rw [length_take, length_drop]
    exact (Nat.min_le_right _ _).trans (Nat.sub_le _ _)
  · exact Nat.zero_le _

/-- The work that the entries of a queue may still cause. -/
def work (degree effectiveMax : Nat) (queue : List (Queued K)) : Nat :=
  (queue.map fun entry => (degree + 1) ^ (effectiveMax + 1 - entry.hop)).sum

omit [Field K] [LinearOrder K] [IsStrictOrderedRing K] in
theorem work_append (degree effectiveMax : Nat) (first second : List (Queued K)) :
    work degree effectiveMax (first ++ second) =
      work degree effectiveMax first + work degree effectiveMax second := by
  rw [work, map_append, sum_append]
  rfl

omit [IsStrictOrderedRing K] in
theorem bfsTurn_work {degree : Nat} (bounded : ∀ node, (inner.edgesOf node).length ≤ degree)
    {state next : BfsState K} (isTurn : bfsTurn inner asOf effectiveMax state = .continued next) :
    work degree effectiveMax next.queue < work degree effectiveMax state.queue := by
  obtain ⟨visited, queue⟩ := state
  unfold bfsTurn at isTurn
  cases queue with
  | nil => cases isTurn
  | cons current queue =>
    have positive (exponent : Nat) : 0 < (degree + 1) ^ exponent := Nat.pow_pos (Nat.succ_pos _)
    have isHead : work degree effectiveMax (current :: queue) =
        (degree + 1) ^ (effectiveMax + 1 - current.hop) + work degree effectiveMax queue := by
      rw [work, map_cons, sum_cons]
      rfl
    simp only at isTurn ⊢
    rw [isHead]
    split_ifs at isTurn with tooFar below full
    · obtain rfl := BfsTurn.continued.inj isTurn
      exact Nat.lt_add_of_pos_left (positive _)
    · obtain rfl := BfsTurn.continued.inj isTurn
      obtain ⟨pushed, same, isPart, -⟩ :=
        @processEdges_spec _ _ _ inner asOf (Graph.visit visited current) current queue
      simp only [same, work_append]
      have few : pushed.length ≤ degree :=
        isPart.length_le.trans (length_wantedNeighbors_le.trans (bounded _))
      have each : work degree effectiveMax pushed ≤
          pushed.length * (degree + 1) ^ (effectiveMax - current.hop) := by
        refine (sum_le_card_nsmul _ ((degree + 1) ^ (effectiveMax - current.hop)) ?_).trans ?_
        · intro amount inside
          obtain ⟨entry, isEntry, rfl⟩ := List.mem_map.mp inside
          obtain ⟨edge, -, -, rfl, -⟩ := mem_wantedNeighbors.mp (isPart.subset isEntry)
          refine Nat.pow_le_pow_right (Nat.succ_pos _) ?_
          simp only [Queued.along]
          omega
        · rw [length_map, smul_eq_mul]
      have deeper : (degree + 1) ^ (effectiveMax + 1 - current.hop) =
          (degree + 1) * (degree + 1) ^ (effectiveMax - current.hop) := by
        rw [Nat.succ_sub below.le, pow_succ, Nat.mul_comm]
      have more : pushed.length * (degree + 1) ^ (effectiveMax - current.hop) ≤
          degree * (degree + 1) ^ (effectiveMax - current.hop) := Nat.mul_le_mul_right _ few
      have step := positive (effectiveMax - current.hop)
      rw [deeper, Nat.succ_mul]
      omega
    · obtain rfl := BfsTurn.continued.inj isTurn
      exact Nat.lt_add_of_pos_left (positive _)

omit [IsStrictOrderedRing K] in
theorem executeBfs_returns {degree : Nat} (bounded : ∀ node, (inner.edgesOf node).length ≤ degree)
    {state : BfsState K} {fuel : Nat} (enough : work degree effectiveMax state.queue < fuel) :
    ∃ visited, executeBfs inner asOf effectiveMax fuel state = some visited := by
  induction fuel generalizing state with
  | zero => exact absurd enough (Nat.not_lt_zero _)
  | succ fuel ih =>
    rw [executeBfs]
    cases isTurn : bfsTurn inner asOf effectiveMax state with
    | finished visited => exact ⟨visited, rfl⟩
    | continued next =>
      have less := bfsTurn_work bounded isTurn
      exact ih (by omega)

theorem Searched.matched (wellFormed : inner.WellFormed)
    (searched : Searched inner asOf startIdx effectiveMax popped ⟨visited, []⟩)
    {hops node : Nat} {score : K} (walk : Walk inner asOf startIdx hops node score)
    (inBound : hops ≤ effectiveMax) :
    ∃ entry ∈ popped, entry.node = node ∧ entry.hop ≤ hops ∧ score ≤ entry.score := by
  have decay : (0 : K) ≤ scoreDecay := by
    unfold scoreDecay
    norm_num
  induction walk with
  | start =>
    have started := searched.started
    rw [append_nil] at started
    exact ⟨_, started, rfl, le_rfl, le_rfl⟩
  | extend walk isEdge passable live ih =>
    obtain ⟨entry, isPopped, rfl, fewer, better⟩ := ih (by omega)
    obtain ⟨other, inside, isTarget, hop, along⟩ :=
      searched.closed entry isPopped (by omega) _ isEdge passable live
    rw [append_nil] at inside
    refine ⟨other, inside, isTarget, by omega, le_trans ?_ along⟩
    exact mul_le_mul_of_nonneg_right (mul_le_mul_of_nonneg_right better decay)
      (wellFormed.edgesOf isEdge)

def walkScores (inner : GraphInner K) (asOf : AsOf) (startIdx effectiveMax node : Nat) : Set K :=
  {score | ∃ hops ≤ effectiveMax, Walk inner asOf startIdx hops node score}

theorem Searched.visited_iff (wellFormed : inner.WellFormed)
    (searched : Searched inner asOf startIdx effectiveMax popped ⟨visited, []⟩) {node : Nat}
    {best : K} :
    visited.lookup node = some best ↔
      IsGreatest (walkScores inner asOf startIdx effectiveMax node) best := by
  have isWalk {entry : Queued K} (inside : entry ∈ popped) :
      entry.score ∈ walkScores inner asOf startIdx effectiveMax entry.node := by
    obtain ⟨inBound, walk⟩ := searched.walks entry (mem_append_left _ inside)
    exact ⟨entry.hop, inBound, walk⟩
  have isBound {score : K} (isScore : score ∈ walkScores inner asOf startIdx effectiveMax node) :
      ∃ value, visited.lookup node = some value ∧ score ≤ value := by
    obtain ⟨hops, inBound, walk⟩ := isScore
    obtain ⟨entry, inside, rfl, -, better⟩ := searched.matched wellFormed walk inBound
    obtain ⟨value, found, above⟩ := searched.marked entry inside
    exact ⟨value, found, better.trans above⟩
  constructor
  · intro found
    obtain ⟨entry, inside, rfl, rfl⟩ := searched.attained node best found
    refine ⟨isWalk inside, fun score isScore => ?_⟩
    obtain ⟨value, isValue, below⟩ := isBound isScore
    rw [found] at isValue
    exact Option.some.inj isValue ▸ below
  · rintro ⟨isScore, upper⟩
    obtain ⟨value, found, below⟩ := isBound isScore
    obtain ⟨entry, inside, rfl, rfl⟩ := searched.attained node value found
    rw [found, le_antisymm below (upper (isWalk inside))]

end Walks

end Contextra.Graph
