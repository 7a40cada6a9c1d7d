import Contextra.DiskAnn.Graph

/-!
# A build yields a graph

Over vectors of one length, with a finite distance to the entry point, the search comes to its
end within the graph, and every list that a build makes holds nodes of the graph, and no more
than the degree allows.
-/

namespace Contextra.DiskAnn

open Library List

variable {Vector : Type} {config : DiskAnnConfig Vector}
  {access : VectorAccess config.metric} {count : Nat}

/-- The first nodes have vectors of the configured dimension. -/
def VectorAccess.Covers (access : VectorAccess config.metric) (count : Nat) : Prop :=
  ∀ index < count, ∃ vector, access.vectorOf index = some vector ∧
    config.metric.fits vector = true

/-- Every list holds nodes among the first. -/
structure GraphValid (count : Nat) (graph : AdjacencyLists) : Prop where
  length : graph.length = count
  nodes : ∀ list ∈ graph, ∀ node ∈ list, node < count

theorem ok_bind {α β : Type} {first : Except DiskAnnError α} {a : α}
    {rest : α → Except DiskAnnError β} (isOk : first = .ok a) : (first >>= rest) = rest a := by
  rw [isOk]
  rfl

section Access

variable (covers : access.Covers count)

include covers

theorem vectorAt_ok {index : Nat} (bounded : index < count) :
    ∃ vector, vectorAt config access index = .ok vector ∧
      access.vectorOf index = some vector ∧ config.metric.fits vector = true := by
  obtain ⟨vector, isVector, fits⟩ := covers index bounded
  refine ⟨vector, ?_, isVector, fits⟩
  rw [vectorAt, isVector]

omit covers in
theorem computeDistance_ok {v w : Vector} (fitsLeft : config.metric.fits v = true)
    (fitsRight : config.metric.fits w = true) :
    ∃ distance, computeDistance config v w = .ok distance ∧
      config.metric.distance v w = some distance := by
  obtain ⟨distance, isDistance⟩ :=
    Option.isSome_iff_exists.mp (config.metric.distance_isSome v w fitsLeft fitsRight)
  refine ⟨distance, ?_, isDistance⟩
  rw [computeDistance, isDistance]

/-- A beam of nodes that were visited, each of them at most once a candidate. -/
structure Beam.Sound (count : Nat) (beam : Beam config) : Prop where
  visited : ∀ node ∈ beam.visited, node < count
  nodup : beam.visited.Nodup
  candidates : ∀ candidate ∈ beam.candidates, candidate.index < count
  results : ∀ candidate ∈ beam.results, candidate.index < count

/-- How often the loop goes on at most. -/
structure Beam.Within (count fuel : Nat) (beam : Beam config) : Prop extends
    Beam.Sound count beam where
  fuel : beam.candidates.length + count ≤ fuel + beam.visited.length

end Access

theorem Beam.take_candidates (beam : Beam config) (candidate : config.Candidate) :
    (Beam.take config beam candidate).candidates =
      config.nearest.push candidate beam.candidates := by
  simp only [Beam.take]
  split
  · split <;> rfl
  · rfl

theorem Beam.take_visited (beam : Beam config) (candidate : config.Candidate) :
    (Beam.take config beam candidate).visited = beam.visited := by
  simp only [Beam.take]
  split
  · split <;> rfl
  · rfl

variable {beam : Beam config}

theorem Beam.take_results {candidate other : config.Candidate}
    (isResult : other ∈ (Beam.take config beam candidate).results) :
    other = candidate ∨ other ∈ beam.results := by
  simp only [Beam.take] at isResult
  split at isResult
  · split at isResult
    · rename_i popped
      exact Heap.mem_push.mp (Heap.subset_of_pop popped isResult)
    · exact Heap.mem_push.mp isResult
  · exact Heap.mem_push.mp isResult

theorem Beam.Sound.length_visited (sound : Beam.Sound count beam) :
    beam.visited.length ≤ count := by
  have subset : beam.visited.toFinset ⊆ Finset.range count := by
    intro node isVisited
    exact Finset.mem_range.mpr (sound.visited node (mem_toFinset.mp isVisited))
  have card := Finset.card_le_card subset
  rwa [toFinset_card_of_nodup sound.nodup, Finset.card_range] at card

variable {fuel : Nat} {node : Nat}

theorem Beam.Within.visit (within : Beam.Within count fuel beam)
    (bounded : node < count) (isNew : node ∉ beam.visited) :
    Beam.Sound count { beam with visited := node :: beam.visited } ∧
      beam.candidates.length + 1 + count ≤ fuel + (node :: beam.visited).length := by
  constructor
  · refine ⟨?_, nodup_cons.mpr ⟨isNew, within.nodup⟩, within.candidates, within.results⟩
    intro other isVisited
    rcases mem_cons.mp isVisited with rfl | before
    · exact bounded
    · exact within.visited other before
  · have fuel := within.fuel
    rw [length_cons]
    omega

theorem Beam.Sound.take (sound : Beam.Sound count beam)
    {candidate : config.Candidate} (bounded : candidate.index < count) :
    Beam.Sound count (Beam.take config beam candidate) where
  visited := by
    rw [Beam.take_visited]
    exact sound.visited
  nodup := by
    rw [Beam.take_visited]
    exact sound.nodup
  candidates := by
    rw [Beam.take_candidates]
    intro other isCandidate
    rcases Heap.mem_push.mp isCandidate with rfl | before
    · exact bounded
    · exact sound.candidates other before
  results := by
    intro other isResult
    rcases Beam.take_results isResult with rfl | before
    · exact bounded
    · exact sound.results other before

theorem visitNeighbors_ok (covers : access.Covers count) {query : Vector}
    (fits : config.metric.fits query = true) {neighbors : List Nat}
    (bounded : ∀ neighbor ∈ neighbors, neighbor < count) (within : Beam.Within count fuel beam) :
    ∃ after, visitNeighbors config access query neighbors beam = .ok after ∧
      Beam.Within count fuel after := by
  induction neighbors generalizing beam with
  | nil => exact ⟨beam, rfl, within⟩
  | cons neighbor neighbors ih =>
    have boundedRest (other : Nat) (isNeighbor : other ∈ neighbors) : other < count :=
      bounded other (mem_cons_of_mem _ isNeighbor)
    have isBounded : neighbor < count := bounded neighbor mem_cons_self
    rw [visitNeighbors]
    split
    · exact ih boundedRest within
    · rename_i isNew
      obtain ⟨vector, found, _, fitsVector⟩ := vectorAt_ok covers isBounded
      obtain ⟨distance, computed, _⟩ := computeDistance_ok fits fitsVector
      obtain ⟨sound, fuelLeft⟩ := within.visit isBounded isNew
      rw [ok_bind found, ok_bind computed]
      dsimp only
      split
      · apply ih boundedRest
        refine ⟨sound.take isBounded, ?_⟩
        rw [Beam.take_candidates, Heap.length_push, Beam.take_visited]
        exact fuelLeft
      · apply ih boundedRest
        exact ⟨sound, le_trans (by simp) fuelLeft⟩

variable {graph : AdjacencyLists}

theorem beamLoop_ok (covers : access.Covers count) {query : Vector}
    (fits : config.metric.fits query = true)
    (valid : GraphValid count graph) (within : Beam.Within count fuel beam) :
    ∃ after, beamLoop config access query graph fuel beam = .ok after ∧
      Beam.Sound count after := by
  induction fuel generalizing beam with
  | zero =>
    have none : beam.candidates = [] := by
      have fuel := within.fuel
      have visited := within.length_visited
      exact length_eq_zero_iff.mp (by omega)
    rw [beamLoop]
    split
    · exact ⟨beam, rfl, within.toSound⟩
    · rename_i current rest popped
      rw [none] at popped
      have impossible := Heap.mem_of_pop popped
      exact absurd impossible not_mem_nil
  | succ fuel ih =>
    rw [beamLoop]
    split
    · exact ⟨beam, rfl, within.toSound⟩
    · rename_i current rest popped
      have sound : Beam.Sound count { beam with candidates := rest } :=
        { within.toSound with
          candidates := fun candidate isRest =>
            within.candidates candidate (Heap.subset_of_pop popped isRest) }
      have shorter := Heap.length_of_pop popped
      have withinRest : Beam.Within count fuel { beam with candidates := rest } := by
        refine ⟨sound, ?_⟩
        have fuel := within.fuel
        dsimp only
        omega
      have bounded : current.index < graph.length := by
        rw [valid.length]
        exact within.candidates current (Heap.mem_of_pop popped)
      dsimp only
      split
      · exact ⟨_, rfl, sound⟩
      · rw [getElem?_eq_getElem bounded]
        have nodes := valid.nodes _ (getElem_mem bounded)
        obtain ⟨after, visited, withinAfter⟩ := visitNeighbors_ok covers fits nodes withinRest
        dsimp only
        rw [ok_bind visited]
        exact ih withinAfter

theorem beamSearch_ok (covers : access.Covers count) {query entry : Vector}
    (fits : config.metric.fits query = true)
    (valid : GraphValid count graph) {entryPoint : Nat} (bounded : entryPoint < count)
    (isEntry : access.vectorOf entryPoint = some entry)
    (finite : (config.metric.distance query entry).any config.metric.isFinite = true) :
    ∃ candidates, beamSearch config access query graph entryPoint = .ok candidates ∧
      ∀ candidate ∈ candidates, candidate.index < count := by
  obtain ⟨vector, found, isVector, fitsEntry⟩ := vectorAt_ok covers bounded
  rw [isEntry] at isVector
  cases isVector
  obtain ⟨distance, computed, isDistance⟩ := computeDistance_ok fits fitsEntry
  rw [isDistance, Option.any_some] at finite
  have within : Beam.Within count graph.length ⟨[entryPoint],
      config.nearest.push ⟨entryPoint, distance⟩ [],
      config.farthest.push ⟨entryPoint, distance⟩ []⟩ := by
    refine ⟨⟨?_, nodup_singleton _, ?_, ?_⟩, ?_⟩
    · intro node isVisited
      cases mem_singleton.mp isVisited
      exact bounded
    · intro candidate isCandidate
      rcases Heap.mem_push.mp isCandidate with rfl | impossible
      · exact bounded
      · exact absurd impossible not_mem_nil
    · intro candidate isResult
      rcases Heap.mem_push.mp isResult with rfl | impossible
      · exact bounded
      · exact absurd impossible not_mem_nil
    · rw [Heap.length_push, valid.length]
      exact Nat.le_of_eq (Nat.add_comm _ _)
  obtain ⟨beam, ends, sound⟩ := beamLoop_ok covers fits valid within
  refine ⟨beam.results, ?_, sound.results⟩
  rw [beamSearch, ok_bind found, ok_bind computed, if_pos finite]
  dsimp only
  rw [ok_bind ends]
  rfl

theorem keepsCandidate_ok (covers : access.Covers count) (alpha : Alpha)
    (candidate : config.Candidate) {vector : Vector} (fits : config.metric.fits vector = true)
    {kept : List Nat} (bounded : ∀ node ∈ kept, node < count) :
    ∃ keep, keepsCandidate config access alpha candidate vector kept = .ok keep := by
  induction kept with
  | nil => exact ⟨true, rfl⟩
  | cons node kept ih =>
    obtain ⟨other, found, _, fitsOther⟩ := vectorAt_ok covers (bounded node mem_cons_self)
    obtain ⟨between, computed, _⟩ := computeDistance_ok fits fitsOther
    have rest := ih fun node isKept => bounded node (mem_cons_of_mem _ isKept)
    rw [keepsCandidate, ok_bind found, ok_bind computed]
    split
    · exact rest
    · split
      · exact ⟨false, rfl⟩
      · exact rest

/-- The nodes of a list are among the first, and the degree allows so many. -/
structure ListValid (config : DiskAnnConfig Vector) (count : Nat) (list : List Nat) : Prop where
  nodes : ∀ node ∈ list, node < count
  degree : list.length ≤ config.maxDegree

theorem pruneLoop_ok (covers : access.Covers count) (alpha : Alpha)
    {candidates : List config.Candidate}
    (bounded : ∀ candidate ∈ candidates, candidate.index < count) {pruned : List Nat}
    (valid : ListValid config count pruned) :
    ∃ list, pruneLoop config access alpha candidates pruned = .ok list ∧
      ListValid config count list := by
  induction candidates generalizing pruned with
  | nil => exact ⟨pruned, rfl, valid⟩
  | cons candidate candidates ih =>
    have isBounded := bounded candidate mem_cons_self
    have boundedRest (other : config.Candidate) (isCandidate : other ∈ candidates) :
        other.index < count := bounded other (mem_cons_of_mem _ isCandidate)
    rw [pruneLoop]
    split
    · exact ⟨pruned, rfl, valid⟩
    · rename_i room
      obtain ⟨vector, found, _, fits⟩ := vectorAt_ok covers isBounded
      obtain ⟨keep, kept⟩ := keepsCandidate_ok covers alpha candidate fits valid.nodes
      rw [ok_bind found, ok_bind kept]
      split
      · apply ih boundedRest
        constructor
        · intro node isNode
          rcases mem_append.mp isNode with before | new
          · exact valid.nodes node before
          · cases mem_singleton.mp new
            exact isBounded
        · rw [length_append, length_singleton]
          exact not_le.mp room
      · exact ih boundedRest valid

theorem pruneCandidates_ok (covers : access.Covers count) (alpha : Alpha)
    {candidates : List config.Candidate}
    (bounded : ∀ candidate ∈ candidates, candidate.index < count) :
    ∃ list, pruneCandidates config access alpha candidates = .ok list ∧
      ListValid config count list := by
  apply pruneLoop_ok covers alpha
  · intro candidate isCandidate
    exact bounded candidate ((mem_insertionSort _).mp isCandidate)
  · exact ⟨fun node isNode => absurd isNode not_mem_nil, Nat.zero_le _⟩

theorem distanceOr_ok (access : VectorAccess config.metric) {v w : Vector} (fitsLeft : config.metric.fits v = true)
    (fitsRight : config.metric.fits w = true) :
    ∃ distance, distanceOr config access v w = .ok distance := by
  rw [distanceOr]
  split
  · exact ⟨_, rfl⟩
  · obtain ⟨distance, computed, _⟩ := computeDistance_ok fitsLeft fitsRight
    exact ⟨distance, computed⟩

variable {list : List Nat}

theorem rankAround_ok (covers : access.Covers count) {vector : Vector}
    (fits : config.metric.fits vector = true) (bounded : ∀ node ∈ list, node < count) :
    ∃ candidates, rankAround config access vector list = .ok candidates ∧
      ∀ candidate ∈ candidates, candidate.index < count := by
  induction list with
  | nil => exact ⟨[], rfl, fun candidate impossible => absurd impossible not_mem_nil⟩
  | cons node list ih =>
    obtain ⟨other, found, _, fitsOther⟩ := vectorAt_ok covers (bounded node mem_cons_self)
    obtain ⟨distance, computed⟩ := distanceOr_ok access fits fitsOther
    obtain ⟨candidates, ranked, boundedRest⟩ := ih fun node isNode =>
      bounded node (mem_cons_of_mem _ isNode)
    refine ⟨⟨node, distance⟩ :: candidates, ?_, ?_⟩
    · rw [rankAround, ok_bind found, ok_bind computed, ok_bind ranked]
      rfl
    · intro candidate isCandidate
      rcases mem_cons.mp isCandidate with rfl | isRest
      · exact bounded node mem_cons_self
      · exact boundedRest candidate isRest

def Bounded (config : DiskAnnConfig Vector) (graph : AdjacencyLists) (node : Nat) : Prop :=
  ∀ list, graph[node]? = some list → list.length ≤ config.maxDegree

/-- A change of the graph that lets no list that was short enough get too long. -/
structure GraphStep (config : DiskAnnConfig Vector) (count : Nat)
    (before after : AdjacencyLists) : Prop where
  valid : GraphValid count after
  bounded : ∀ node, Bounded config before node → Bounded config after node

theorem GraphValid.set (valid : GraphValid count graph) (nodes : ∀ other ∈ list, other < count) :
    GraphValid count (graph.set node list) where
  length := by rw [length_set, valid.length]
  nodes := by
    intro other isList
    rcases mem_or_eq_of_mem_set isList with before | rfl
    · exact valid.nodes other before
    · exact nodes

theorem Bounded.set {node other : Nat} (bounded : Bounded config graph other)
    (short : other = node → list.length ≤ config.maxDegree) :
    Bounded config (graph.set node list) other := by
  intro found isList
  by_cases same : node = other
  · rw [← same] at isList
    rw [getElem?_set_self'] at isList
    cases isBefore : graph[node]? with
    | none =>
      rw [isBefore] at isList
      cases isList
    | some before =>
      rw [isBefore] at isList
      cases isList
      exact short same.symm
  · rw [getElem?_set_ne same] at isList
    exact bounded found isList

theorem addBackEdge_ok (covers : access.Covers count) (alpha : Alpha)
    (valid : GraphValid count graph) {node neighbor : Nat} (isNode : node < count)
    (isNeighbor : neighbor < count) :
    ∃ after, addBackEdge config access alpha node neighbor graph = .ok after ∧
      GraphStep config count graph after := by
  have bounded : neighbor < graph.length := by rwa [valid.length]
  have nodes : ∀ other ∈ graph[neighbor] ++ [node], other < count := by
    intro other isOther
    rcases mem_append.mp isOther with before | new
    · exact valid.nodes _ (getElem_mem bounded) other before
    · cases mem_singleton.mp new
      exact isNode
  rw [addBackEdge, getElem?_eq_getElem bounded]
  dsimp only
  split
  · exact ⟨graph, rfl, valid, fun _ isBounded => isBounded⟩
  · split
    · obtain ⟨vector, found, _, fits⟩ := vectorAt_ok covers isNeighbor
      obtain ⟨candidates, ranked, boundedCandidates⟩ := rankAround_ok covers fits nodes
      obtain ⟨list, pruned, listValid⟩ := pruneCandidates_ok covers alpha boundedCandidates
      refine ⟨graph.set neighbor list, ?_, valid.set listValid.nodes, ?_⟩
      · rw [ok_bind found, ok_bind ranked, ok_bind pruned]
        rfl
      · exact fun other isBounded => isBounded.set fun _ => listValid.degree
    · rename_i short
      refine ⟨_, rfl, valid.set nodes, ?_⟩
      exact fun other isBounded => isBounded.set fun _ => not_lt.mp short

theorem addBackEdges_ok (covers : access.Covers count) (alpha : Alpha)
    (isNode : node < count) {neighbors : List Nat}
    (bounded : ∀ neighbor ∈ neighbors, neighbor < count) (valid : GraphValid count graph) :
    ∃ after, addBackEdges config access alpha node neighbors graph = .ok after ∧
      GraphStep config count graph after := by
  induction neighbors generalizing graph with
  | nil => exact ⟨graph, rfl, valid, fun _ isBounded => isBounded⟩
  | cons neighbor neighbors ih =>
    obtain ⟨middle, added, step⟩ :=
      addBackEdge_ok covers alpha valid isNode (bounded neighbor mem_cons_self)
    obtain ⟨after, addedRest, rest⟩ := ih
      (fun other isNeighbor => bounded other (mem_cons_of_mem _ isNeighbor)) step.valid
    refine ⟨after, ?_, rest.valid, fun other isBounded => rest.bounded other
      (step.bounded other isBounded)⟩
    rw [addBackEdges, ok_bind added]
    exact addedRest

def VectorAccess.Reaches (access : VectorAccess config.metric) (entryPoint : Nat)
    (nodes : List Nat) : Prop :=
  ∀ node ∈ nodes, ∀ vector entry, access.vectorOf node = some vector →
    access.vectorOf entryPoint = some entry →
    (config.metric.distance vector entry).any config.metric.isFinite = true

theorem linkNode_ok (covers : access.Covers count) (alpha : Alpha) {entryPoint node : Nat}
    (isEntry : entryPoint < count) (isNode : node < count)
    (reaches : access.Reaches entryPoint [node]) (valid : GraphValid count graph) :
    ∃ after, linkNode config access alpha entryPoint node graph = .ok after ∧
      GraphStep config count graph after ∧ Bounded config after node := by
  obtain ⟨query, found, isQuery, fits⟩ := vectorAt_ok covers isNode
  obtain ⟨entry, _, isEntryVector, _⟩ := vectorAt_ok covers isEntry
  obtain ⟨candidates, searched, boundedCandidates⟩ := beamSearch_ok covers fits valid isEntry
    isEntryVector (reaches node mem_cons_self query entry isQuery isEntryVector)
  obtain ⟨list, pruned, listValid⟩ := pruneCandidates_ok covers alpha boundedCandidates
  obtain ⟨linked, added, step⟩ := addBackEdges_ok covers alpha isNode listValid.nodes valid
  refine ⟨linked.set node list, ?_, ⟨step.valid.set listValid.nodes, ?_⟩, ?_⟩
  · rw [linkNode, ok_bind found, ok_bind searched, ok_bind pruned, ok_bind added]
    rfl
  · exact fun other isBounded => (step.bounded other isBounded).set fun _ => listValid.degree
  · intro found isList
    have isSet : node < linked.length := by rwa [step.valid.length]
    rw [getElem?_set_self isSet] at isList
    cases isList
    exact listValid.degree

theorem linkNodes_ok (covers : access.Covers count) (alpha : Alpha) {entryPoint : Nat}
    (isEntry : entryPoint < count) {nodes : List Nat} (bounded : ∀ node ∈ nodes, node < count)
    (reaches : access.Reaches entryPoint nodes) (valid : GraphValid count graph) :
    ∃ after, linkNodes config access alpha entryPoint nodes graph = .ok after ∧
      GraphStep config count graph after ∧ ∀ node ∈ nodes, Bounded config after node := by
  induction nodes generalizing graph with
  | nil =>
    exact ⟨graph, rfl, ⟨valid, fun _ isBounded => isBounded⟩,
      fun _ impossible => absurd impossible not_mem_nil⟩
  | cons node nodes ih =>
    have reachesNode : access.Reaches entryPoint [node] := by
      intro other isNode
      cases mem_singleton.mp isNode
      exact reaches node mem_cons_self
    obtain ⟨middle, linked, step, isBounded⟩ := linkNode_ok covers alpha isEntry
      (bounded node mem_cons_self) reachesNode valid
    obtain ⟨after, linkedRest, rest, boundedRest⟩ := ih
      (fun other isNode => bounded other (mem_cons_of_mem _ isNode))
      (fun other isNode => reaches other (mem_cons_of_mem _ isNode)) step.valid
    refine ⟨after, ?_, ⟨rest.valid, fun other isBefore => rest.bounded other
      (step.bounded other isBefore)⟩, ?_⟩
    · rw [linkNodes, ok_bind linked]
      exact linkedRest
    · intro other isNode
      rcases mem_cons.mp isNode with rfl | isRest
      · exact rest.bounded other isBounded
      · exact boundedRest other isRest

end Contextra.DiskAnn
