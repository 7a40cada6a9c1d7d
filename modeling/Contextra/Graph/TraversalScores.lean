import Contextra.Graph.TraversalRuns

/-!
# The answer of a traversal

The entities that walks lead to, each with the greatest score of its walks.
-/

namespace Contextra.Graph

open Library (SortedMap)
open Library.SortedMap List

section Answer

variable {K : Type} [Field K] [LinearOrder K] [IsStrictOrderedRing K] {inner : GraphInner K}
  {asOf : AsOf} {startIdx effectiveMax : Nat}

variable {entity : EntityId}

omit [Field K] [IsStrictOrderedRing K] in
theorem mem_collect {visited : List (Nat × K)} {score : K} :
    (entity, score) ∈ collectAndSortTraversalResults inner startIdx visited ↔
      ∃ idx, idx ≠ startIdx ∧ (idx, score) ∈ visited ∧ inner.reverseMap[idx]? = some entity := by
  rw [collectAndSortTraversalResults, mem_insertionSort, mem_filterMap]
  constructor
  · rintro ⟨⟨idx, value⟩, kept, found⟩
    obtain ⟨isVisited, other⟩ := mem_filter.mp kept
    obtain ⟨id, isEntity, same⟩ := Option.map_eq_some_iff.mp found
    obtain ⟨rfl, rfl⟩ := Prod.mk.inj same
    exact ⟨idx, of_decide_eq_true other, isVisited, isEntity⟩
  · rintro ⟨idx, other, isVisited, isEntity⟩
    refine ⟨(idx, score), mem_filter.mpr ⟨isVisited, decide_eq_true other⟩, ?_⟩
    rw [isEntity]
    rfl

omit [Field K] [IsStrictOrderedRing K] in
theorem sorted_collect (visited : List (Nat × K)) :
    (collectAndSortTraversalResults inner startIdx visited).Pairwise
      fun left right => right.2 ≤ left.2 := by
  have total : Std.Total fun left right : EntityId × K => right.2 ≤ left.2 :=
    ⟨fun left right => le_total right.2 left.2⟩
  have transitive : IsTrans (EntityId × K) fun left right => right.2 ≤ left.2 :=
    ⟨fun _ _ _ left right => right.trans left⟩
  exact pairwise_insertionSort _ _

omit [Field K] [IsStrictOrderedRing K] in
theorem nodup_collect {visited : List (Nat × K)} (distinct : (visited.map Prod.fst).Nodup)
    (apart : ∀ first ∈ visited, ∀ second ∈ visited, ∀ entity,
      inner.reverseMap[first.1]? = some entity → inner.reverseMap[second.1]? = some entity →
      first.1 = second.1) :
    ((collectAndSortTraversalResults inner startIdx visited).map Prod.fst).Nodup := by
  have perm : (collectAndSortTraversalResults inner startIdx visited).Perm
      ((visited.filter (·.1 ≠ startIdx)).filterMap fun entry =>
        inner.reverseMap[entry.1]?.map (·, entry.2)) := perm_insertionSort _ _
  rw [(perm.map Prod.fst).nodup_iff, List.Nodup, pairwise_map]
  have pairs : visited.Pairwise fun first second => first.1 ≠ second.1 := by
    rw [List.Nodup, pairwise_map] at distinct
    exact distinct
  have members : visited.Pairwise fun first second =>
      first.1 ≠ second.1 ∧ first ∈ visited ∧ second ∈ visited := by
    refine List.Pairwise.imp_of_mem ?_ pairs
    exact fun isFirst isSecond different => ⟨different, isFirst, isSecond⟩
  refine (members.filter _).filterMap _ ?_
  rintro first second ⟨different, isFirst, isSecond⟩ left isLeft right isRight
  obtain ⟨entity, found, rfl⟩ := Option.map_eq_some_iff.mp isLeft
  obtain ⟨other, found', rfl⟩ := Option.map_eq_some_iff.mp isRight
  rintro rfl
  exact different (apart first isFirst second isSecond _ found found')

omit [LinearOrder K] [IsStrictOrderedRing K] in
theorem Walk.live {hops node : Nat} {score : K} (isLive : (inner.entityAt startIdx).isSome = true)
    (walk : Walk inner asOf startIdx hops node score) : (inner.entityAt node).isSome = true := by
  cases walk with
  | start => exact isLive
  | extend walk isEdge passable live => exact live

variable {maxHops : Nat}

theorem effectiveMax_eq (allowed : maxHops ≤ 100) :
    Graph.effectiveMax maxHops = min maxHops maxTraversalHops := by
  rw [Graph.effectiveMax, min_eq_left (by omega : maxHops ≤ 255)]

/-- The live entities other than the start that walks of at most three hops reach, each once, with
the greatest score of its walks, by descending score. -/
structure Answers (inner : GraphInner K) (asOf : AsOf) (start : EntityId) (maxHops : Nat)
    (results : List (EntityId × K)) : Prop where
  once : (results.map Prod.fst).Nodup
  descending : results.Pairwise fun left right => right.2 ≤ left.2
  exact : ∀ entity score, (entity, score) ∈ results ↔
    entity ≠ start ∧ ∃ startIdx idx, inner.idMap[start]? = some startIdx ∧
      inner.entityAt startIdx = some start ∧ inner.entityAt idx = some entity ∧
      IsGreatest (walkScores inner asOf startIdx (min maxHops maxTraversalHops) idx) score

omit [IsStrictOrderedRing K] in
theorem answers_empty {start : EntityId}
    (nothing : ∀ startIdx, inner.idMap[start]? = some startIdx →
      inner.entityAt startIdx ≠ some start) : Answers inner asOf start maxHops [] where
  once := nodup_nil
  descending := .nil
  exact := by
    intro entity score
    constructor
    · exact fun impossible => absurd impossible not_mem_nil
    · rintro ⟨-, startIdx, idx, found, isStart, -⟩
      exact absurd isStart (nothing startIdx found)

omit [IsStrictOrderedRing K] in
theorem reverseMap_of_entity (wellFormed : inner.WellFormed) {idx : Nat}
    (isEntity : inner.entityAt idx = some entity) : inner.reverseMap[idx]? = some entity :=
  wellFormed.indexed _ _ (wellFormed.entity _ _ isEntity)

omit [IsStrictOrderedRing K] in
theorem entity_unique (wellFormed : inner.WellFormed) {first second : Nat}
    (isFirst : inner.entityAt first = some entity)
    (isSecond : inner.entityAt second = some entity) : first = second := by
  have same := wellFormed.entity _ _ isFirst
  rw [wellFormed.entity _ _ isSecond] at same
  exact (Option.some.inj same).symm

theorem answers_visited (wellFormed : inner.WellFormed) {start : EntityId}
    (isLive : inner.entityAt startIdx = some start) {popped : List (Queued K)}
    {visited : SortedMap Nat K} {iterated : List (Nat × K)}
    (everyEntry : iterated.Perm visited.entries)
    (searched : Searched inner asOf startIdx (min maxHops maxTraversalHops) popped ⟨visited, []⟩) :
    Answers inner asOf start maxHops (collectAndSortTraversalResults inner startIdx iterated) := by
  have found := wellFormed.entity _ _ isLive
  have reached (idx : Nat) (score : K) : (idx, score) ∈ iterated ↔
      IsGreatest (walkScores inner asOf startIdx (min maxHops maxTraversalHops) idx) score := by
    rw [everyEntry.mem_iff, ← lookup_eq_some]
    exact searched.visited_iff wellFormed
  -- the name of a visited node is the entity that stands there
  have visitedLive {idx : Nat} {score : K} {name : EntityId} (inside : (idx, score) ∈ iterated)
      (isName : inner.reverseMap[idx]? = some name) : inner.entityAt idx = some name := by
    obtain ⟨⟨hops, -, walk⟩, -⟩ := (reached idx score).mp inside
    obtain ⟨entity, isEntity⟩ := Option.isSome_iff_exists.mp (walk.live (by rw [isLive]; rfl))
    rw [reverseMap_of_entity wellFormed isEntity] at isName
    rw [isEntity, isName]
  refine ⟨nodup_collect ?_ ?_, sorted_collect _, fun entity score => ?_⟩
  · rw [(everyEntry.map Prod.fst).nodup_iff]
    exact visited.nodup_keys
  · rintro ⟨first, left⟩ isFirst ⟨second, right⟩ isSecond name isName isName'
    exact entity_unique wellFormed (visitedLive isFirst isName) (visitedLive isSecond isName')
  · rw [mem_collect]
    constructor
    · rintro ⟨idx, different, inside, isName⟩
      have isEntity := visitedLive inside isName
      refine ⟨?_, startIdx, idx, found, isLive, isEntity, (reached idx score).mp inside⟩
      rintro rfl
      exact different (entity_unique wellFormed isEntity isLive)
    · rintro ⟨different, other, idx, isOther, -, isEntity, isGreatest⟩
      rw [found] at isOther
      obtain rfl := Option.some.inj isOther
      refine ⟨idx, ?_, (reached idx score).mpr isGreatest, reverseMap_of_entity wellFormed isEntity⟩
      rintro rfl
      rw [isLive] at isEntity
      exact different (Option.some.inj isEntity).symm

/-- A traversal of more than a hundred hops is refused; any other returns its answer, whatever the
order in which the visited nodes are iterated. -/
theorem traverse_exact (wellFormed : inner.WellFormed) (asOf : AsOf) (start : EntityId)
    (maxHops : Nat) (iterated : SortedMap Nat K → List (Nat × K))
    (everyEntry : ∀ visited, (iterated visited).Perm visited.entries)
    (roomy : ∀ startIdx, inner.idMap[start]? = some startIdx →
      Roomy inner asOf (Graph.effectiveMax maxHops) (bfsStart startIdx)) :
    (100 < maxHops → ∀ fuel, traverseAtBitemporal inner asOf iterated start maxHops fuel =
      some (.error (.invalidInput
        ("max_hops " ++ toString maxHops ++ " exceeds upper safety limit of 100")))) ∧
    (maxHops ≤ 100 → ∃ enough, ∀ fuel, enough ≤ fuel →
      ∃ results, traverseAtBitemporal inner asOf iterated start maxHops fuel = some (.ok results) ∧
        Answers inner asOf start maxHops results) := by
  constructor
  · intro tooMany fuel
    rw [traverseAtBitemporal, validateTraversalParams, if_pos tooMany]
  · intro allowed
    have passes : validateTraversalParams maxHops = .ok () := if_neg (not_lt.mpr allowed)
    cases found : inner.idMap[start]? with
    | none =>
      refine ⟨0, fun fuel _ => ⟨[], ?_, answers_empty fun startIdx impossible => ?_⟩⟩
      · rw [traverseAtBitemporal, passes]
        simp only [found]
      · rw [found] at impossible
        cases impossible
    | some startIdx =>
      cases isLive : inner.entityAt startIdx with
      | none =>
        refine ⟨0, fun fuel _ => ⟨[], ?_, answers_empty fun other same => ?_⟩⟩
        · rw [traverseAtBitemporal, passes]
          simp only [found, isLive, Option.isNone_none, if_true]
        · rw [found] at same
          obtain rfl := Option.some.inj same
          rw [isLive]
          exact (Option.some_ne_none _).symm
      | some entity =>
        have isStart : entity = start := by
          have named := wellFormed.indexed _ _ found
          rw [reverseMap_of_entity wellFormed isLive] at named
          exact Option.some.inj named
        subst isStart
        obtain ⟨degree, bounded⟩ := exists_degree inner
        let first : BfsState K := bfsStart startIdx
        refine ⟨work degree (Graph.effectiveMax maxHops) first.queue + 1, fun fuel enough => ?_⟩
        obtain ⟨visited, returned⟩ :=
          @executeBfs_returns _ _ _ inner asOf _ _ bounded first fuel (Nat.lt_of_succ_le enough)
        obtain ⟨popped, searched⟩ := executeBfs_searched wellFormed searched_start
          (roomy startIdx found) returned
        rw [effectiveMax_eq allowed] at searched
        refine ⟨_, ?_, answers_visited wellFormed isLive (everyEntry visited) searched⟩
        rw [traverseAtBitemporal, passes]
        simp only [found, isLive, Option.isNone_some, first, returned, Option.map_some]
        rfl

omit [IsStrictOrderedRing K] in
def roomyFor (inner : GraphInner K) (asOf : AsOf) (effectiveMax : Nat) : Nat → BfsState K → Bool
  | 0, _ => false
  | fuel + 1, state =>
    state.visited.entries.length + state.queue.length < maxVisitedNodes &&
      match bfsTurn inner asOf effectiveMax state with
      | .finished _ => true
      | .continued next => roomyFor inner asOf effectiveMax fuel next

omit [IsStrictOrderedRing K] in
theorem roomy_of_roomyFor {fuel : Nat} {state : BfsState K}
    (checked : roomyFor inner asOf effectiveMax fuel state = true) :
    Roomy inner asOf effectiveMax state := by
  intro reached reaches
  induction reaches generalizing fuel with
  | refl state =>
    cases fuel with
    | zero => cases checked
    | succ fuel => exact of_decide_eq_true (Bool.and_eq_true_iff.mp checked).1
  | turn isTurn rest ih =>
    cases fuel with
    | zero => cases checked
    | succ fuel =>
      have later := (Bool.and_eq_true_iff.mp checked).2
      rw [isTurn] at later
      exact ih later

end Answer

/-- Three entities.  The edges from the first to the second and on to the third make a better walk
than the edge from the first to the third. -/
def detour : GraphInner ℚ where
  idMap := .ofList [(11, 0), (12, 1), (13, 2)]
  reverseMap := [11, 12, 13]
  entities := [11, 12, 13]
  offsets := [0, 2, 2, 2]
  edges := [⟨1, 2, 5, 0, i64Min, i64Min, 0⟩, ⟨2, 1, 5, 0, i64Min, i64Min, 0⟩]
  outWeightSums := [3, 2, 0]
  stagedEntities := []
  stagedEdges := []
  stagedRemovals := []
  pendingEdges := (∅ : Std.TreeMap Nat (List (EdgePayload ℚ))).insert 1
    [⟨2, 2, some 6, none, none, none, none⟩]
  tombstonedEdges := ∅
  pendingEdgeCount := 1
  isDirty := true
  tables := .new

theorem detour_wellFormed : detour.WellFormed where
  indexed := by
    intro id index found
    have listed : (id, index) ∈ detour.idMap.toList :=
      Std.TreeMap.mem_toList_iff_getElem?_eq_some.mpr found
    have rows : detour.idMap.toList = [(11, 0), (12, 1), (13, 2)] := by decide +kernel
    rw [rows] at listed
    simp only [mem_cons, Prod.mk.injEq, not_mem_nil, or_false] at listed
    rcases listed with ⟨rfl, rfl⟩ | ⟨rfl, rfl⟩ | ⟨rfl, rfl⟩ <;> decide +kernel
  entity := by
    intro index id isEntity
    have inside : index < 3 := by
      by_contra beyond
      obtain ⟨later, rfl⟩ := Nat.exists_eq_add_of_le (not_lt.mp beyond)
      rw [Nat.add_comm] at isEntity
      cases isEntity
    interval_cases index <;> obtain rfl := Option.some.inj isEntity <;> decide +kernel
  rows := by decide +kernel
  weights := by decide +kernel
  pendingWeights := by
    intro node edges found
    have listed : (node, edges) ∈ detour.pendingEdges.toList :=
      Std.TreeMap.mem_toList_iff_getElem?_eq_some.mpr found
    have rows : detour.pendingEdges.toList = [(1, [⟨2, 2, some 6, none, none, none, none⟩])] := by
      decide +kernel
    rw [rows] at listed
    obtain ⟨rfl, rfl⟩ := Prod.mk.inj (mem_singleton.mp listed)
    decide +kernel

theorem traverse_exact_detour :
    traverseAtBitemporal detour ⟨6, none⟩ SortedMap.entries 11 2 10 =
        some (.ok [(13, 49 / 25), (12, 7 / 5)]) ∧
      ∃ enough, ∀ fuel, enough ≤ fuel → ∃ results,
        traverseAtBitemporal detour ⟨6, none⟩ SortedMap.entries 11 2 fuel = some (.ok results) ∧
          Answers detour ⟨6, none⟩ 11 2 results := by
  refine ⟨by decide +kernel, (traverse_exact detour_wellFormed ⟨6, none⟩ 11 2 SortedMap.entries
    (fun _ => List.Perm.refl _) fun startIdx found => ?_).2 (by decide)⟩
  have isFirst : detour.idMap[11]? = some 0 := by decide +kernel
  rw [isFirst] at found
  obtain rfl := Option.some.inj found
  have checked : roomyFor detour ⟨6, none⟩ (effectiveMax 2) 10 (bfsStart 0) = true := by
    decide +kernel
  exact roomy_of_roomyFor checked

/-- A hop limit above a hundred is refused although an edge leads to a live entity. -/
theorem hopLimit_refused :
    (detour.entityAt 1 = some 12 ∧
        (7 / 5 : ℚ) ∈ walkScores detour ⟨6, none⟩ 0 (min 101 maxTraversalHops) 1) ∧
      ¬ ∃ fuel results, traverseAtBitemporal detour ⟨6, none⟩ SortedMap.entries 11 101 fuel =
        some (.ok results) := by
  refine ⟨⟨by decide +kernel, 1, by decide, ?_⟩, ?_⟩
  · let edge : EdgePayload ℚ := ⟨1, 2, some 5, none, none, none, none⟩
    have isEdge : edge ∈ detour.edgesOf 0 := by decide +kernel
    have walk : Walk detour ⟨6, none⟩ 0 1 1 (1 * scoreDecay * edge.weight) :=
      Walk.extend .start isEdge (by decide +kernel) (by decide +kernel)
    have score : (1 : ℚ) * scoreDecay * 2 = 7 / 5 := by decide +kernel
    rw [← score]
    exact walk
  · rintro ⟨fuel, results, returned⟩
    rw [traverseAtBitemporal, validateTraversalParams, if_pos (by decide)] at returned
    cases Option.some.inj returned

end Contextra.Graph
