import Contextra.Graph.KPath

/-!
# What the search for k paths finds

The invariant of the two directions: what is kept is a path, what is found joins two of them, and a
partial path that has left its heap has been offered to all its neighbours.
-/

namespace Contextra.Graph

open Library List Function

section Combine

variable {config : KPathConfig} {fullPaths found : List (List EntityId)} {path : List EntityId}

theorem mem_of_mem_combine (inside : path ∈ combine config fullPaths found) :
    path ∈ found ∨ (path ∈ fullPaths ∧ path.length - 1 ≤ config.maxHops ∧ path.Nodup) := by
  induction fullPaths generalizing found with
  | nil => exact .inl inside
  | cons first rest ih =>
    have later (isLater : path ∈ combine config rest found) : path ∈ found ∨
        (path ∈ first :: rest ∧ path.length - 1 ≤ config.maxHops ∧ path.Nodup) :=
      (ih isLater).imp_right fun ⟨inRest, holds⟩ =>
        ⟨mem_cons_of_mem _ inRest, holds⟩
    rw [combine] at inside
    split_ifs at inside with fits full
    · rcases mem_append.mp inside with old | new
      · exact .inl old
      · cases mem_singleton.mp new
        exact .inr ⟨mem_cons_self, fits.1, fits.2.1⟩
    · rcases ih inside with old | ⟨inRest, holds⟩
      · rcases mem_append.mp old with old | new
        · exact .inl old
        · cases mem_singleton.mp new
          exact .inr ⟨mem_cons_self, fits.1, fits.2.1⟩
      · exact .inr ⟨mem_cons_of_mem _ inRest, holds⟩
    · exact later inside

theorem subset_combine (fullPaths found : List (List EntityId)) :
    found ⊆ combine config fullPaths found := by
  induction fullPaths generalizing found with
  | nil => exact List.Subset.refl _
  | cons first rest ih =>
    rw [combine]
    split_ifs
    · exact subset_append_left _ _
    · exact List.Subset.trans (subset_append_left _ _) (ih _)
    · exact ih _

theorem nodup_snoc {α : Type} {list : List α} {a : α} (distinct : list.Nodup) (isNew : a ∉ list) :
    (list ++ [a]).Nodup := by
  rw [← concat_eq_append]
  exact distinct.concat isNew

theorem nodup_combine (distinct : found.Nodup) : (combine config fullPaths found).Nodup := by
  induction fullPaths generalizing found with
  | nil => exact distinct
  | cons first rest ih =>
    rw [combine]
    split_ifs with fits full
    · exact nodup_snoc distinct fits.2.2
    · exact ih (nodup_snoc distinct fits.2.2)
    · exact ih distinct

theorem length_combine_le (room : found.length < config.k) :
    (combine config fullPaths found).length ≤ config.k := by
  induction fullPaths generalizing found with
  | nil => exact room.le
  | cons first rest ih =>
    rw [combine]
    split_ifs with fits full
    · rw [length_append, length_singleton]
      exact room
    · exact ih (not_le.mp full)
    · exact ih room

theorem mem_combine (inside : path ∈ fullPaths) (short : path.length - 1 ≤ config.maxHops)
    (simple : path.Nodup) : path ∈ combine config fullPaths found ∨
      config.k ≤ (combine config fullPaths found).length := by
  induction fullPaths generalizing found with
  | nil => cases inside
  | cons first rest ih =>
    rw [combine]
    rcases mem_cons.mp inside with rfl | inRest
    · split_ifs with fits full
      · exact .inr full
      · exact .inl (subset_combine _ _ (mem_append_right _ mem_cons_self))
      · have known : path ∈ found := by
          by_contra unknown
          exact fits ⟨short, simple, unknown⟩
        exact .inl (subset_combine _ _ known)
    · split_ifs with fits full
      · exact .inr full
      · exact ih inRest
      · exact ih inRest

end Combine

section Direction

variable {K : Type} (config : KPathConfig) (edge : EntityId → EntityId → Prop) (origin : EntityId)
  (whole : List EntityId → Prop)

structure IsPartial (path : List EntityId) : Prop where
  first : path.head? = some origin
  chain : path.IsChain edge
  simple : path.Nodup
  short : path.length - 1 ≤ config.maxHops

/-- What the nodes keep are paths to them, and what is to be extended is kept. -/
structure Keeps (shared : Shared) (side : Side K) : Prop where
  isPartial : ∀ node, ∀ path ∈ side.paths node, IsPartial config edge origin path
  last : ∀ node, ∀ path ∈ side.paths node, path.getLast? = some node
  visited : ∀ node, ∀ path ∈ side.paths node, path ⊆ shared.visited
  heaped : ∀ item ∈ side.heap, ∃ node, item.path ∈ side.paths node
  distinct : ∀ node, (side.paths node).Nodup

structure Counted (shared : Shared) : Prop where
  visitedDistinct : shared.visited.Nodup
  visitedLe : shared.visited.length ≤ config.maxVisitedNodes
  foundDistinct : shared.found.Nodup
  foundLe : shared.found.length ≤ config.k
  foundWhole : ∀ path ∈ shared.found, whole path
  foundSimple : ∀ path ∈ shared.found, path.Nodup ∧ path.length - 1 ≤ config.maxHops
  foundVisited : ∀ path ∈ shared.found, path ⊆ shared.visited

def Shared.Done (shared : Shared) : Prop :=
  config.k ≤ shared.found.length ∨ shared.budgetExhausted = true

def Offered (paths : EntityId → List (List EntityId)) (path : List EntityId) (node : EntityId) :
    Prop :=
  path ∈ paths node ∨ config.k ≤ (paths node).length

structure Grows (before after : Shared × Side K) : Prop where
  visited : before.1.visited ⊆ after.1.visited
  found : before.1.found ⊆ after.1.found
  exhausted : before.1.budgetExhausted = true → after.1.budgetExhausted = true
  paths : ∀ node, before.2.paths node <+: after.2.paths node
  heap : before.2.heap ⊆ after.2.heap

variable {config edge origin whole} {before middle after : Shared × Side K} {shared : Shared}
  {side : Side K} {path : List EntityId} {node : EntityId}

theorem Grows.refl (state : Shared × Side K) : Grows state state :=
  ⟨List.Subset.refl _, List.Subset.refl _, id, fun _ => prefix_refl _, List.Subset.refl _⟩

theorem Grows.trans (first : Grows before middle) (second : Grows middle after) :
    Grows before after :=
  ⟨List.Subset.trans first.visited second.visited, List.Subset.trans first.found second.found,
    fun exhausted => second.exhausted (first.exhausted exhausted),
    fun node => (first.paths node).trans (second.paths node), List.Subset.trans first.heap second.heap⟩

theorem Grows.offered (grows : Grows before after) (offered : Offered config before.2.paths path node) :
    Offered config after.2.paths path node :=
  offered.imp (fun kept => (grows.paths node).subset kept)
    fun enough => enough.trans (grows.paths node).length_le

theorem Keeps.mono {next : Shared} (keeps : Keeps config edge origin shared side)
    (grows : shared.visited ⊆ next.visited) : Keeps config edge origin next side :=
  ⟨keeps.isPartial, keeps.last, fun node path kept => List.Subset.trans (keeps.visited node path kept) grows,
    keeps.heaped, keeps.distinct⟩

variable {next : EntityId}

theorem mem_update_snoc {paths : EntityId → List (List EntityId)} {kept : List EntityId} :
    kept ∈ Function.update paths next (paths next ++ [path]) node ↔
      kept ∈ paths node ∨ (node = next ∧ kept = path) := by
  by_cases same : node = next
  · subst same
    simp
  · simp [same]

theorem prefix_update_snoc {paths : EntityId → List (List EntityId)} (node : EntityId) :
    paths node <+: Function.update paths next (paths next ++ [path]) node := by
  by_cases same : node = next
  · subst same
    rw [update_self]
    exact prefix_append _ _
  · rw [update_of_ne same]

theorem IsPartial.snoc (isPartial : IsPartial config edge origin path)
    (last : path.getLast? = some node) (room : path.length - 1 < config.maxHops)
    (isEdge : edge node next) (isNew : next ∉ path) :
    IsPartial config edge origin (path ++ [next]) := by
  have nonempty : path ≠ [] := by
    rintro rfl
    cases last
  refine ⟨?_, ?_, ?_, ?_⟩
  · rw [head?_append_of_ne_nil _ nonempty]
    exact isPartial.first
  · refine isChain_append.mpr ⟨isPartial.chain, isChain_singleton _, ?_⟩
    intro first isFirst second isSecond
    rw [last] at isFirst
    cases isFirst
    cases isSecond
    exact isEdge
  · exact nodup_snoc isPartial.simple isNew
  · have positive := length_pos_iff.mpr nonempty
    rw [length_append, length_singleton]
    omega

theorem subset_addVisited (visited : List EntityId) (node : EntityId) : visited ⊆ addVisited visited node := by
  rw [addVisited]
  split_ifs
  · exact List.Subset.refl _
  · exact subset_append_left _ _

theorem mem_addVisited (visited : List EntityId) (node : EntityId) : node ∈ addVisited visited node := by
  rw [addVisited]
  split_ifs with known
  · exact known
  · exact mem_append_right _ mem_cons_self

theorem Counted.addVisited (counted : Counted config whole shared)
    (room : ¬ (node ∉ shared.visited ∧ config.maxVisitedNodes ≤ shared.visited.length)) :
    Counted config whole { shared with visited := addVisited shared.visited node } := by
  refine ⟨?_, ?_, counted.foundDistinct, counted.foundLe, counted.foundWhole, counted.foundSimple,
    fun path isFound => List.Subset.trans (counted.foundVisited path isFound) (subset_addVisited _ _)⟩
  · simp only [Graph.addVisited]
    split_ifs with known
    · exact counted.visitedDistinct
    · exact nodup_snoc counted.visitedDistinct known
  · simp only [Graph.addVisited]
    split_ifs with known
    · exact counted.visitedLe
    · rw [length_append, length_singleton]
      exact not_le.mp fun full => room ⟨known, full⟩

section Extend

variable {join : List EntityId → List EntityId → List EntityId}
  {otherPaths : EntityId → List (List EntityId)} {current : HeapItem K} {next : EntityId}

/-- What joining a path of this direction with one of the other yields. -/
structure Joins (config : KPathConfig) (edge : EntityId → EntityId → Prop) (origin : EntityId)
    (whole : List EntityId → Prop) (join : List EntityId → List EntityId → List EntityId)
    (otherPaths : EntityId → List (List EntityId)) (visited : List EntityId) : Prop where
  isWhole : ∀ node own other, IsPartial config edge origin own → own.getLast? = some node →
    other ∈ otherPaths node → whole (join own other)
  subset : ∀ own other, join own other ⊆ own ++ other
  visited : ∀ node, ∀ other ∈ otherPaths node, other ⊆ visited

theorem keep_spec {heap : List (HeapItem K)}
    (joins : Joins config edge origin whole join otherPaths shared.visited)
    (keeps : Keeps config edge origin shared side) (counted : Counted config whole shared)
    (more : shared.found.length < config.k)
    (room : ¬ (next ∉ shared.visited ∧ config.maxVisitedNodes ≤ shared.visited.length))
    (isPartial : IsPartial config edge origin path) (last : path.getLast? = some next)
    (pathVisited : path ⊆ addVisited shared.visited next)
    (heapNew : ∀ item ∈ heap, item ∈ side.heap ∨ item.path = path)
    (isNew : path ∉ side.paths next) :
    let found := combine config ((otherPaths next).map (join path)) shared.found
    let after : Shared × Side K := ({ shared with visited := addVisited shared.visited next, found },
      { paths := Function.update side.paths next (side.paths next ++ [path]), heap })
    Keeps config edge origin after.1 after.2 ∧ Counted config whole after.1 := by
  intro found after
  have keptCases : ∀ node, ∀ kept ∈ after.2.paths node,
      kept ∈ side.paths node ∨ (node = next ∧ kept = path) :=
    fun node kept isKept => mem_update_snoc.mp isKept
  refine ⟨⟨?_, ?_, ?_, ?_, ?_⟩, ?_⟩
  · intro node kept isKept
    rcases keptCases node kept isKept with old | ⟨rfl, rfl⟩
    · exact keeps.isPartial node kept old
    · exact isPartial
  · intro node kept isKept
    rcases keptCases node kept isKept with old | ⟨rfl, rfl⟩
    · exact keeps.last node kept old
    · exact last
  · intro node kept isKept
    rcases keptCases node kept isKept with old | ⟨rfl, rfl⟩
    · exact List.Subset.trans (keeps.visited node kept old) (subset_addVisited _ _)
    · exact pathVisited
  · intro item isItem
    rcases heapNew item isItem with old | isPath
    · obtain ⟨node, kept⟩ := keeps.heaped item old
      exact ⟨node, mem_update_snoc.mpr (.inl kept)⟩
    · exact ⟨next, mem_update_snoc.mpr (.inr ⟨rfl, isPath⟩)⟩
  · intro node
    by_cases same : node = next
    · subst same
      simp only [after, update_self]
      exact nodup_snoc (keeps.distinct node) isNew
    · simp only [after, update_of_ne same]
      exact keeps.distinct node
  · have admitted := counted.addVisited room
    have foundCases : ∀ p ∈ found, p ∈ shared.found ∨ (∃ other ∈ otherPaths next,
        p = join path other ∧ p.length - 1 ≤ config.maxHops ∧ p.Nodup) := by
      intro p isFound
      rcases mem_of_mem_combine isFound with old | ⟨isJoined, fits⟩
      · exact .inl old
      · obtain ⟨other, isOther, rfl⟩ := mem_map.mp isJoined
        exact .inr ⟨other, isOther, rfl, fits⟩
    refine ⟨admitted.visitedDistinct, admitted.visitedLe, nodup_combine counted.foundDistinct,
      length_combine_le more, ?_, ?_, ?_⟩
    · intro p isFound
      rcases foundCases p isFound with old | ⟨other, isOther, rfl, -⟩
      · exact counted.foundWhole p old
      · exact joins.isWhole next path other isPartial last isOther
    · intro p isFound
      rcases foundCases p isFound with old | ⟨other, -, -, short, simple⟩
      · exact counted.foundSimple p old
      · exact ⟨simple, short⟩
    · intro p isFound
      rcases foundCases p isFound with old | ⟨other, isOther, rfl, -⟩
      · exact admitted.foundVisited p old
      · intro inside isInside
        rcases mem_append.mp (joins.subset path other isInside) with own | theirs
        · exact pathVisited own
        · exact subset_addVisited _ _ (joins.visited next other isOther theirs)

theorem Joins.mono {visited visited' : List EntityId}
    (joins : Joins config edge origin whole join otherPaths visited) (grows : visited ⊆ visited') :
    Joins config edge origin whole join otherPaths visited' :=
  ⟨joins.isWhole, joins.subset, fun node other isOther => List.Subset.trans (joins.visited node other isOther) grows⟩

/-- What is kept waits, has as many hops as it may have, or was offered to every neighbour of its
node; and what is kept at the goal is found. -/
structure Tracks (config : KPathConfig) (neighbors : EntityId → List (EntityId × K))
    (join : List EntityId → List EntityId → List EntityId) (goal : EntityId) (shared : Shared)
    (side : Side K) : Prop where
  processed : ∀ node, ∀ path ∈ side.paths node, (∃ item ∈ side.heap, item.path = path) ∨
    config.maxHops ≤ path.length - 1 ∨ ∀ entry ∈ neighbors node, entry.1 ∉ path →
      Offered config side.paths (path ++ [entry.1]) entry.1
  ended : ∀ path ∈ side.paths goal, join path [goal] ∈ shared.found

variable {neighbors : EntityId → List (EntityId × K)} {goal : EntityId}

theorem Tracks.mono {later : Shared} (tracks : Tracks config neighbors join goal shared side)
    (grows : shared.found ⊆ later.found) : Tracks config neighbors join goal later side :=
  ⟨tracks.processed, fun path kept => grows (tracks.ended path kept)⟩

/-- A beginning of the path is not kept by its last node, which has enough others. -/
def TurnedAway (config : KPathConfig) (paths : EntityId → List (List EntityId))
    (path : List EntityId) : Prop :=
  ∃ start node, start <+: path ∧ start.getLast? = some node ∧ start ∉ paths node ∧
    config.k ≤ (paths node).length

theorem Tracks.kept_or_turnedAway (tracks : Tracks config neighbors join goal shared side)
    (nothingWaits : side.heap = []) (startKept : [origin] ∈ side.paths origin)
    (isNeighbor : ∀ u v, edge u v → ∃ weight, (v, weight) ∈ neighbors u)
    (isPartial : IsPartial config edge origin path) (last : path.getLast? = some node) :
    path ∈ side.paths node ∨ TurnedAway config side.paths path := by
  induction path using reverseRecOn generalizing node with
  | nil => cases last
  | append_singleton start next ih =>
    rw [getLast?_concat] at last
    cases last
    rcases eq_nil_or_concat start with rfl | ⟨before, previous, rfl⟩
    · have isOrigin := isPartial.first
      cases isOrigin
      exact .inl startKept
    · rw [concat_eq_append] at *
      have startPartial : IsPartial config edge origin (before ++ [previous]) := by
        refine ⟨?_, (isChain_append.mp isPartial.chain).1,
          (nodup_append.mp isPartial.simple).1, ?_⟩
        · have first := isPartial.first
          rwa [head?_append_of_ne_nil _ (by simp)] at first
        · have short := isPartial.short
          rw [length_append] at short
          omega
      rcases ih startPartial getLast?_concat with kept | away
      · rcases tracks.processed previous _ kept with ⟨item, waits, -⟩ | long | offered
        · rw [nothingWaits] at waits
          cases waits
        · have short := isPartial.short
          simp only [length_append, length_singleton] at short long
          omega
        · obtain ⟨weight, isEntry⟩ := isNeighbor previous next
            ((isChain_append.mp isPartial.chain).2.2 previous getLast?_concat next rfl)
          have isNew : next ∉ before ++ [previous] := fun old =>
            (nodup_append.mp isPartial.simple).2.2 next old next mem_cons_self rfl
          by_cases kept : before ++ [previous] ++ [next] ∈ side.paths next
          · exact .inl kept
          · exact .inr ⟨_, next, prefix_refl _, getLast?_concat, kept,
              (offered _ isEntry isNew).resolve_left kept⟩
      · obtain ⟨front, node, isPrefix, rest⟩ := away
        exact .inr ⟨front, node, isPrefix.trans (prefix_append _ _), rest⟩

variable [LinearOrder K] {queue : Heap (HeapItem K) HeapItem.le} {farther : K → K → K}

theorem extend_grows (neighbors : List (EntityId × K)) (state : Shared × Side K) :
    Grows state (extend queue farther config join otherPaths current neighbors state) := by
  induction neighbors generalizing state with
  | nil => exact .refl state
  | cons entry rest ih =>
    obtain ⟨next, weight⟩ := entry
    obtain ⟨shared, side⟩ := state
    have paths : ∀ node, side.paths node <+: Function.update side.paths next
        (side.paths next ++ [current.path ++ [next]]) node := prefix_update_snoc
    simp only [extend]
    split_ifs with onPath full keepsMore enough
    · exact ih _
    · exact ⟨List.Subset.refl _, List.Subset.refl _, fun _ => rfl, fun _ => prefix_refl _,
        List.Subset.refl _⟩
    · exact ⟨subset_addVisited _ _, subset_combine _ _, id, paths, List.Subset.refl _⟩
    · refine Grows.trans ?_ (ih _)
      exact ⟨subset_addVisited _ _, subset_combine _ _, id, paths,
        fun item isItem => Heap.mem_push.mpr (.inr isItem)⟩
    · refine Grows.trans ?_ (ih _)
      exact ⟨subset_addVisited _ _, List.Subset.refl _, id, fun _ => prefix_refl _,
        List.Subset.refl _⟩

section Neighbors

variable {neighbors : List (EntityId × K)}

theorem extend_spec (joins : Joins config edge origin whole join otherPaths shared.visited)
    (keeps : Keeps config edge origin shared side) (counted : Counted config whole shared)
    (more : shared.found.length < config.k)
    (isPartial : IsPartial config edge origin current.path)
    (last : current.path.getLast? = some node)
    (room : current.path.length - 1 < config.maxHops)
    (currentVisited : current.path ⊆ shared.visited)
    (isEdge : ∀ entry ∈ neighbors, edge node entry.1) :
    let after := extend queue farther config join otherPaths current neighbors (shared, side)
    Keeps config edge origin after.1 after.2 ∧ Counted config whole after.1 := by
  induction neighbors generalizing shared side with
  | nil => exact ⟨keeps, counted⟩
  | cons entry rest ih =>
    obtain ⟨next, weight⟩ := entry
    have restEdges : ∀ entry ∈ rest, edge node entry.1 :=
      fun entry inside => isEdge entry (mem_cons_of_mem _ inside)
    have extended (isNew : next ∉ current.path) :=
      isPartial.snoc last room (isEdge _ mem_cons_self) isNew
    have pathVisited : current.path ++ [next] ⊆ addVisited shared.visited next :=
      append_subset.mpr ⟨List.Subset.trans currentVisited (subset_addVisited _ _),
        cons_subset.mpr ⟨mem_addVisited _ _, nil_subset _⟩⟩
    simp only [extend]
    split_ifs with onPath full keepsMore enough
    · exact ih joins keeps counted more currentVisited restEdges
    · exact ⟨keeps.mono (List.Subset.refl _), ⟨counted.visitedDistinct, counted.visitedLe,
        counted.foundDistinct, counted.foundLe, counted.foundWhole, counted.foundSimple,
        counted.foundVisited⟩⟩
    · exact keep_spec joins keeps counted more full (extended onPath) getLast?_concat
        pathVisited (fun item isItem => .inl isItem) keepsMore.2
    · have heapNew : ∀ item ∈ queue.push ⟨farther current.dist weight, current.path ++ [next]⟩
          side.heap, item ∈ side.heap ∨ item.path = current.path ++ [next] :=
        fun item isItem => (Heap.mem_push.mp isItem).symm.imp_right (congrArg HeapItem.path)
      obtain ⟨kept, counts⟩ := keep_spec joins keeps counted more full (extended onPath)
        getLast?_concat pathVisited heapNew keepsMore.2
      exact ih (joins.mono (subset_addVisited _ _)) kept counts (not_le.mp enough)
        (List.Subset.trans currentVisited (subset_addVisited _ _)) restEdges
    · exact ih (joins.mono (subset_addVisited _ _)) (keeps.mono (subset_addVisited _ _))
        (counted.addVisited full) more (List.Subset.trans currentVisited (subset_addVisited _ _)) restEdges

/-- Every neighbour is offered the longer path, what is kept is to be extended, and what reaches the
goal is found; or the search ends. -/
theorem extend_tracks {goal : EntityId} (goalKept : [goal] ∈ otherPaths goal)
    (fits : ∀ own, IsPartial config edge origin own → own.getLast? = some goal →
      (join own [goal]).length - 1 ≤ config.maxHops ∧ (join own [goal]).Nodup)
    (isPartial : IsPartial config edge origin current.path)
    (last : current.path.getLast? = some node)
    (room : current.path.length - 1 < config.maxHops)
    (isEdge : ∀ entry ∈ neighbors, edge node entry.1) :
    let after := extend queue farther config join otherPaths current neighbors (shared, side)
    after.1.Done config ∨
      ((∀ entry ∈ neighbors, entry.1 ∉ current.path →
          Offered config after.2.paths (current.path ++ [entry.1]) entry.1) ∧
        (∀ node, ∀ kept ∈ after.2.paths node,
          kept ∈ side.paths node ∨ ∃ item ∈ after.2.heap, item.path = kept) ∧
        ∀ kept ∈ after.2.paths goal, kept ∈ side.paths goal ∨ join kept [goal] ∈ after.1.found) := by
  induction neighbors generalizing shared side with
  | nil => exact .inr ⟨fun _ inside => absurd inside not_mem_nil, fun _ _ kept => .inl kept,
      fun _ kept => .inl kept⟩
  | cons entry rest ih =>
    obtain ⟨next, weight⟩ := entry
    have restEdges : ∀ entry ∈ rest, edge node entry.1 :=
      fun entry inside => isEdge entry (mem_cons_of_mem _ inside)
    simp only [extend]
    split_ifs with onPath full keepsMore enough
    · refine (ih restEdges).imp_right fun ⟨offers, heaps, goals⟩ =>
        ⟨fun entry inside isNew => ?_, heaps, goals⟩
      rcases mem_cons.mp inside with rfl | inRest
      · exact absurd onPath isNew
      · exact offers entry inRest isNew
    · exact .inl (.inr rfl)
    · exact .inl (.inl enough)
    · have extended := isPartial.snoc last room (isEdge _ mem_cons_self) onPath
      have grows : Grows _ (extend queue farther config join otherPaths current rest
          (⟨addVisited shared.visited next, shared.budgetExhausted,
              combine config ((otherPaths next).map (join (current.path ++ [next])))
                shared.found⟩,
            ⟨Function.update side.paths next (side.paths next ++ [current.path ++ [next]]),
              queue.push ⟨farther current.dist weight, current.path ++ [next]⟩ side.heap⟩)) :=
        extend_grows rest _
      refine (ih restEdges).imp_right fun ⟨offers, heaps, goals⟩ =>
        ⟨fun entry inside isNew => ?_, fun node kept isKept => ?_, fun kept isKept => ?_⟩
      · rcases mem_cons.mp inside with rfl | inRest
        · exact grows.offered (.inl (mem_update_snoc.mpr (.inr ⟨rfl, rfl⟩)))
        · exact offers entry inRest isNew
      · rcases heaps node kept isKept with old | waits
        · rcases mem_update_snoc.mp old with old | ⟨rfl, rfl⟩
          · exact .inl old
          · exact .inr ⟨_, grows.heap (Heap.mem_push.mpr (.inl rfl)), rfl⟩
        · exact .inr waits
      · rcases goals kept isKept with old | isFound
        · rcases mem_update_snoc.mp old with old | ⟨rfl, rfl⟩
          · exact .inl old
          · obtain ⟨short, simple⟩ := fits _ extended getLast?_concat
            rcases mem_combine (mem_map.mpr ⟨_, goalKept, rfl⟩) short simple with
              isFound | isEnough
            · exact .inr (grows.found isFound)
            · exact absurd isEnough enough
        · exact .inr isFound
    · have grows : Grows _ (extend queue farther config join otherPaths current rest
          (⟨addVisited shared.visited next, shared.budgetExhausted, shared.found⟩, side)) :=
        extend_grows rest _
      have offered : Offered config side.paths (current.path ++ [next]) next := by
        by_contra notOffered
        obtain ⟨notKept, few⟩ := not_or.mp notOffered
        exact keepsMore ⟨not_le.mp few, notKept⟩
      refine (ih restEdges).imp_right fun ⟨offers, heaps, goals⟩ =>
        ⟨fun entry inside isNew => ?_, heaps, goals⟩
      rcases mem_cons.mp inside with rfl | inRest
      · exact grows.offered offered
      · exact offers entry inRest isNew

end Neighbors

theorem turn_grows (shared : Shared) (side : Side K) :
    Grows (shared, { side with heap := [] })
      (turn queue farther config join neighbors otherPaths shared side) := by
  have emptied (heap : List (HeapItem K)) :
      Grows (shared, { side with heap := [] }) (shared, { side with heap }) :=
    ⟨List.Subset.refl _, List.Subset.refl _, id, fun _ => prefix_refl _, nil_subset _⟩
  rw [turn]
  split
  · exact emptied _
  · split
    · exact emptied _
    · split_ifs
      · exact (emptied _).trans (extend_grows _ _)
      · exact emptied _

theorem Keeps.of_pop {rest : List (HeapItem K)} (keeps : Keeps config edge origin shared side)
    (popped : queue.pop side.heap = some (current, rest)) :
    Keeps config edge origin shared { side with heap := rest } ∧
      ∃ node, current.path ∈ side.paths node ∧ current.path.getLast? = some node := by
  obtain ⟨node, kept⟩ := keeps.heaped current (Heap.mem_of_pop popped)
  exact ⟨⟨keeps.isPartial, keeps.last, keeps.visited,
    fun item isItem => keeps.heaped item (Heap.subset_of_pop popped isItem), keeps.distinct⟩,
    node, kept, keeps.last node _ kept⟩

theorem turn_spec (joins : Joins config edge origin whole join otherPaths shared.visited)
    (keeps : Keeps config edge origin shared side) (counted : Counted config whole shared)
    (more : shared.found.length < config.k)
    (isEdge : ∀ node, ∀ entry ∈ neighbors node, edge node entry.1) :
    let after := turn queue farther config join neighbors otherPaths shared side
    Keeps config edge origin after.1 after.2 ∧ Counted config whole after.1 := by
  simp only [turn]
  split
  · exact ⟨keeps, counted⟩
  · rename_i current rest popped
    obtain ⟨keepsRest, node, kept, isLast⟩ := keeps.of_pop popped
    rw [isLast]
    simp only
    split_ifs with room
    · exact extend_spec joins keepsRest counted more (keeps.isPartial node _ kept) isLast room
        (keeps.visited node _ kept) (isEdge node)
    · exact ⟨keepsRest, counted⟩

theorem turn_tracks (keeps : Keeps config edge origin shared side)
    (tracks : Tracks config neighbors join goal shared side) (goalKept : [goal] ∈ otherPaths goal)
    (fits : ∀ own, IsPartial config edge origin own → own.getLast? = some goal →
      (join own [goal]).length - 1 ≤ config.maxHops ∧ (join own [goal]).Nodup)
    (isEdge : ∀ node, ∀ entry ∈ neighbors node, edge node entry.1) :
    let after := turn queue farther config join neighbors otherPaths shared side
    after.1.Done config ∨ Tracks config neighbors join goal after.1 after.2 := by
  simp only [turn]
  split
  · exact .inr tracks
  · rename_i current rest popped
    obtain ⟨keepsRest, node, kept, isLast⟩ := keeps.of_pop popped
    have waits {path : List EntityId} (waiting : ∃ item ∈ side.heap, item.path = path) :
        path = current.path ∨ ∃ item ∈ rest, item.path = path := by
      obtain ⟨item, isItem, rfl⟩ := waiting
      rcases mem_cons.mp ((queue.pop_perm _ _ _ popped).mem_iff.mpr isItem) with
        rfl | isRest
      · exact .inl rfl
      · exact .inr ⟨item, isRest, rfl⟩
    rw [isLast]
    simp only
    split_ifs with room
    · have grows : Grows _ (extend queue farther config join otherPaths current (neighbors node)
          (shared, { side with heap := rest })) := extend_grows (neighbors node) _
      refine (extend_tracks goalKept fits (keeps.isPartial node _ kept) isLast room
        (isEdge node)).imp_right fun ⟨offers, heaps, goals⟩ => ⟨fun other path isKept => ?_,
          fun path isKept => ?_⟩
      · rcases heaps other path isKept with old | waiting
        · rcases tracks.processed other path old with waiting | long | offered
          · rcases waits waiting with rfl | ⟨item, isRest, isPath⟩
            · have same : other = node := by
                have := keeps.last other _ old
                rw [isLast] at this
                exact (Option.some.inj this).symm
              subst same
              exact .inr (.inr offers)
            · exact .inl ⟨item, grows.heap isRest, isPath⟩
          · exact .inr (.inl long)
          · exact .inr (.inr fun entry isEntry isNew => grows.offered (offered entry isEntry isNew))
        · exact .inl waiting
      · rcases goals path isKept with old | isFound
        · exact grows.found (tracks.ended path old)
        · exact isFound
    · refine .inr ⟨fun other path isKept => ?_, tracks.ended⟩
      rcases tracks.processed other path isKept with waiting | processed
      · rcases waits waiting with rfl | waiting
        · exact .inr (.inl (not_lt.mp room))
        · exact .inl waiting
      · exact .inr processed

end Extend

end Direction

end Contextra.Graph
