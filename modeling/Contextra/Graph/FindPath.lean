import Contextra.Graph.KPath

/-!
# The cheapest path

`find_path` searches from both ends and takes the best node where the two directions meet.  Numbers
are exact.  The distances know nothing of the number of hops, so that a path within `max_hops` may
lose against a cheaper one that is longer.
-/

namespace Contextra.Graph

open Library List Option

/-- The order of `Reverse<(u32, EntityId)>`: the nearest entry is the greatest. -/
def nearest {K : Type} [LinearOrder K] (first second : K × EntityId) : Bool :=
  decide (toLex second ≤ toLex first)

section Model

variable {K : Type} [Field K] [LinearOrder K]

/-- What an edge adds to a distance. -/
def hopLength (weight : K) : K := 1 / max weight (1 / ((10 : Nat) : K) ^ 8)

/-- One direction of the search.  A node without an entry in `dist` is at infinity; of the entries
of `prev` the first one counts. -/
structure PathSide (K : Type) where
  dist : EntityId → WithTop K
  prev : List (EntityId × EntityId × K)
  heap : List (K × EntityId)

structure Meeting (K : Type) where
  bestDist : WithTop K
  meetingNode : Option EntityId

structure PathState (K : Type) where
  best : Meeting K
  fwd : PathSide K
  bwd : PathSide K

structure GraphPath (K : Type) where
  nodes : List EntityId
  edgeWeights : List K
  confidence : K
  totalFlow : WithTop K
  deriving DecidableEq

variable (queue : Heap (K × EntityId) nearest)

def Meeting.offer (best : Meeting K) (total : WithTop K) (node : EntityId) : Meeting K :=
  if total < best.bestDist then ⟨total, some node⟩ else best

/-- The loop over the neighbours of `node`, for one of them. -/
def PathSide.improve (d : K) (node : EntityId) (side : PathSide K) (hop : EntityId × K) :
    PathSide K :=
  let newD := d + hopLength hop.2
  if newD < side.dist hop.1 then
    { dist := Function.update side.dist hop.1 newD
      prev := (hop.1, node, hop.2) :: side.prev
      heap := queue.push (newD, hop.1) side.heap }
  else side

/-- A step of one direction; `others` are the distances of the other one. -/
def PathSide.step (neighbors : EntityId → List (EntityId × K)) (others : EntityId → WithTop K)
    (best : Meeting K) (side : PathSide K) : Meeting K × PathSide K :=
  match queue.pop side.heap with
  | none => (best, side)
  | some ((d, node), heap) =>
    if d ≤ side.dist node then
      let best := best.offer (d + others node) node
      if d ≤ best.bestDist then
        (best, (neighbors node).foldl (PathSide.improve queue d node) { side with heap })
      else (best, { side with heap })
    else (best, { side with heap })

def pathTurn (neighbors predecessors : EntityId → List (EntityId × K)) (state : PathState K) :
    PathState K :=
  let (best, fwd) := state.fwd.step queue neighbors state.bwd.dist state.best
  let (best, bwd) := state.bwd.step queue predecessors fwd.dist best
  ⟨best, fwd, bwd⟩

def pathLoop (neighbors predecessors : EntityId → List (EntityId × K)) :
    Nat → PathState K → PathState K
  | 0, state => state
  | steps + 1, state =>
    if state.fwd.heap.isEmpty && state.bwd.heap.isEmpty then state
    else pathLoop neighbors predecessors steps (pathTurn queue neighbors predecessors state)

def PathSide.start (origin : EntityId) : PathSide K where
  dist := Function.update (fun _ => ⊤) origin 0
  prev := []
  heap := queue.push (0, origin) []

def pathSearch (neighbors predecessors : EntityId → List (EntityId × K)) (maxHops : Nat)
    (source target : EntityId) : PathState K :=
  pathLoop queue neighbors predecessors (maxHops * 1000)
    ⟨⟨⊤, none⟩, PathSide.start queue source, PathSide.start queue target⟩

/-- The links of `prev` from a node to the one where its direction began.  The loop has no counter;
one more than there are entries is enough. -/
def walkBack (prev : List (EntityId × EntityId × K)) (stop : EntityId) :
    Nat → EntityId → Option (List (EntityId × EntityId × K))
  | 0, _ => none
  | steps + 1, cur =>
    if cur = stop then some []
    else (prev.lookup cur).bind fun link =>
      (walkBack prev stop steps link.1).map fun links => (cur, link.1, link.2) :: links

def PathSide.walkBack (side : PathSide K) (stop cur : EntityId) :
    Option (List (EntityId × EntityId × K)) :=
  Graph.walkBack side.prev stop (side.prev.length + 1) cur

/-- `best_dist.recip()`, or infinity. -/
def flowOf : WithTop K → WithTop K
  | ⊤ => (0 : K)
  | (dist : K) => if 0 < dist then (dist⁻¹ : K) else ⊤

def forwardHops (links : List (EntityId × EntityId × K)) : List (EntityId × K) :=
  (links.map fun link => (link.1, link.2.2)).reverse

def backwardHops (links : List (EntityId × EntityId × K)) : List (EntityId × K) :=
  links.map fun link => link.2

def GraphPath.ofHops (source : EntityId) (hops : List (EntityId × K)) (bestDist : WithTop K) :
    GraphPath K where
  nodes := source :: hops.map Prod.fst
  edgeWeights := hops.map Prod.snd
  confidence := (hops.map Prod.snd).prod
  totalFlow := flowOf bestDist

def findPathIn (neighbors predecessors : EntityId → List (EntityId × K)) (maxHops : Nat)
    (source target : EntityId) : Option (GraphPath K) :=
  if source = target then some ⟨[source], [], 1, ⊤⟩
  else
    let state := pathSearch queue neighbors predecessors maxHops source target
    state.best.meetingNode.bind fun meeting =>
      (state.fwd.walkBack source meeting).bind fun front =>
        (state.bwd.walkBack target meeting).map fun back =>
          GraphPath.ofHops source (forwardHops front ++ backwardHops back) state.best.bestDist

def PathRAGEngine.findPath (weightOf : F32 → K) (engine : PathRAGEngine K)
    (source target : EntityId) : Option (GraphPath K) :=
  findPathIn queue (engine.getExpandedNeighbors weightOf) (engine.getExpandedPredecessors weightOf)
    engine.config.maxHops source target

end Model

variable {K : Type} [Field K] [LinearOrder K] [IsStrictOrderedRing K]

theorem hopLength_pos (weight : K) : 0 < hopLength weight :=
  one_div_pos.mpr (lt_max_of_lt_right (by positivity))

section Direction

variable {queue : Heap (K × EntityId) nearest} (neighbors : EntityId → List (EntityId × K))
  (origin : EntityId)

/-- A node whose entry in `dist` has still to be taken from the heap. -/
def PathSide.Pending (side : PathSide K) (node : EntityId) : Prop :=
  ∃ d : K, side.dist node = d ∧ (d, node) ∈ side.heap

/-- The distances are those of the links of `prev`, or larger. -/
structure PathSide.Sound (side : PathSide K) : Prop where
  nonneg : ∀ node, 0 ≤ side.dist node
  atOrigin : side.dist origin = 0
  linked : ∀ node ≠ origin, side.dist node ≠ ⊤ → ∃ before weight,
    side.prev.lookup node = some (before, weight) ∧ (node, weight) ∈ neighbors before ∧
      side.dist before + hopLength weight ≤ side.dist node
  heaped : ∀ entry ∈ side.heap, side.dist entry.2 ≤ entry.1

/-- The distances only get smaller, and what changes is put on the heap. -/
structure PathSide.Improves (before after : PathSide K) : Prop where
  le : ∀ node, after.dist node ≤ before.dist node
  pending : ∀ node, after.dist node = before.dist node ∨ after.Pending node
  heap : before.heap ⊆ after.heap

variable {neighbors origin} {before middle after side : PathSide K} {node : EntityId} {d : K}
  {hop : EntityId × K}

theorem PathSide.Improves.refl (side : PathSide K) : side.Improves side :=
  ⟨fun _ => le_refl _, fun _ => .inl rfl, List.Subset.refl _⟩

theorem PathSide.Improves.pending_mono (improves : before.Improves after)
    (pending : before.Pending node) : after.Pending node := by
  obtain ⟨d, isDist, inHeap⟩ := pending
  rcases improves.pending node with same | pending
  · exact ⟨d, same.trans isDist, improves.heap inHeap⟩
  · exact pending

theorem PathSide.Improves.trans (first : before.Improves middle) (second : middle.Improves after) :
    before.Improves after := by
  refine ⟨fun node => (second.le node).trans (first.le node), fun node => ?_,
    List.Subset.trans first.heap second.heap⟩
  rcases second.pending node with same | pending
  · exact (first.pending node).imp (same.trans ·) second.pending_mono
  · exact .inr pending

theorem PathSide.improves_improve (queue : Heap (K × EntityId) nearest) (d : K) (node : EntityId)
    (side : PathSide K) (hop : EntityId × K) : side.Improves (side.improve queue d node hop) := by
  rw [PathSide.improve]
  split_ifs with nearer
  · refine ⟨fun other => ?_, fun other => ?_, fun entry inHeap => Heap.mem_push.mpr (.inr inHeap)⟩
    · by_cases same : other = hop.1
      · subst same
        simpa using nearer.le
      · simp [same]
    · by_cases same : other = hop.1
      · subst same
        exact .inr ⟨d + hopLength hop.2, by simp, Heap.mem_push.mpr (.inl rfl)⟩
      · simp [same]
  · exact .refl side

theorem PathSide.improve_le (side : PathSide K) :
    (side.improve queue d node hop).dist hop.1 ≤ (d + hopLength hop.2 : K) := by
  rw [PathSide.improve]
  split_ifs with nearer
  · simp
  · simpa using nearer

theorem PathSide.improve_dist_self (queue : Heap (K × EntityId) nearest) (hop : EntityId × K)
    (isDist : side.dist node = d) : (side.improve queue d node hop).dist node = d := by
  rw [PathSide.improve]
  split_ifs with nearer
  · have other : node ≠ hop.1 := by
      rintro rfl
      rw [isDist, WithTop.coe_lt_coe] at nearer
      exact absurd (hopLength_pos hop.2) (by linarith)
    simpa [other] using isDist
  · exact isDist

theorem PathSide.Sound.improve (sound : side.Sound neighbors origin) (isDist : side.dist node = d)
    (isHop : hop ∈ neighbors node) : (side.improve queue d node hop).Sound neighbors origin := by
  have nonneg : 0 ≤ d := by simpa [isDist] using sound.nonneg node
  have smaller := (PathSide.improves_improve queue d node side hop).le
  have self := PathSide.improve_dist_self queue hop isDist
  rw [PathSide.improve] at *
  split_ifs at * with nearer
  · have notOrigin : hop.1 ≠ origin := by
      intro same
      rw [same, sound.atOrigin, ← WithTop.coe_zero, WithTop.coe_lt_coe] at nearer
      exact absurd (hopLength_pos hop.2) (by linarith)
    refine ⟨fun other => ?_, ?_, fun other isOther finite => ?_, fun entry inHeap => ?_⟩
    · by_cases same : other = hop.1
      · have := hopLength_pos hop.2
        subst same
        simp only [Function.update_self]
        exact_mod_cast (by linarith : 0 ≤ d + hopLength hop.2)
      · simpa [same] using sound.nonneg other
    · simpa [notOrigin.symm] using sound.atOrigin
    · by_cases same : other = hop.1
      · subst same
        refine ⟨node, hop.2, lookup_cons_self, isHop, ?_⟩
        rw [self]
        simp
      · obtain ⟨before, weight, isLink, isHop, le⟩ :=
          sound.linked other isOther (by simpa [same] using finite)
        refine ⟨before, weight, ?_, isHop, ?_⟩
        · simpa [lookup_cons, beq_eq_false_iff_ne.mpr same] using isLink
        · exact (add_le_add_left (smaller before) _).trans (by simpa [same] using le)
    · rcases Heap.mem_push.mp inHeap with rfl | old
      · simp
      · exact (smaller _).trans (sound.heaped entry old)
  · exact sound

theorem PathSide.foldl_improve (queue : Heap (K × EntityId) nearest)
    (neighbors : EntityId → List (EntityId × K)) (origin : EntityId) (hops : List (EntityId × K))
    (isDist : side.dist node = d) :
    let after := hops.foldl (PathSide.improve queue d node) side
    side.Improves after ∧ after.dist node = d ∧
      (∀ hop ∈ hops, after.dist hop.1 ≤ (d + hopLength hop.2 : K)) ∧
        (side.Sound neighbors origin → hops ⊆ neighbors node → after.Sound neighbors origin) := by
  induction hops generalizing side with
  | nil => exact ⟨.refl side, isDist, by simp, fun sound _ => sound⟩
  | cons hop rest ih =>
    obtain ⟨improves, self, relaxed, keeps⟩ :=
      ih (PathSide.improve_dist_self queue hop isDist)
    refine ⟨(PathSide.improves_improve queue d node side hop).trans improves, self, ?_, fun sound isHop => ?_⟩
    · rintro other isOther
      rcases mem_cons.mp isOther with rfl | isOther
      · exact (improves.le _).trans (PathSide.improve_le side)
      · exact relaxed other isOther
    · exact keeps (sound.improve isDist (isHop mem_cons_self))
        fun _ isRest => isHop (mem_cons_of_mem _ isRest)

/-- A node that has left the heap was offered to its neighbours, unless it is too far away. -/
def PathSide.Relaxed (neighbors : EntityId → List (EntityId × K)) (best : Meeting K)
    (side : PathSide K) (node : EntityId) : Prop :=
  side.Pending node ∨ best.bestDist < side.dist node ∨
    ∀ hop ∈ neighbors node, side.dist hop.1 ≤ side.dist node + hopLength hop.2

theorem Meeting.offer_le_best (best : Meeting K) (total : WithTop K) (node : EntityId) :
    (best.offer total node).bestDist ≤ best.bestDist := by
  rw [Meeting.offer]
  split_ifs with nearer
  · exact nearer.le
  · exact le_refl _

theorem Meeting.offer_le_total (best : Meeting K) (total : WithTop K) (node : EntityId) :
    (best.offer total node).bestDist ≤ total := by
  rw [Meeting.offer]
  split_ifs with nearer
  · exact le_refl _
  · exact not_lt.mp nearer

theorem PathSide.Improves.relaxed {best best' : Meeting K} (improves : before.Improves after)
    (nearer : best'.bestDist ≤ best.bestDist) (finite : after.dist node ≠ ⊤)
    (relaxed : before.dist node ≠ ⊤ → before.Relaxed neighbors best node) :
    after.Relaxed neighbors best' node := by
  rcases improves.pending node with same | pending
  · rcases relaxed (same ▸ finite) with pending | far | offered
    · exact .inl (improves.pending_mono pending)
    · exact .inr (.inl (same ▸ nearer.trans_lt far))
    · refine .inr (.inr fun hop isHop => ?_)
      rw [same]
      exact (improves.le _).trans (offered hop isHop)
  · exact .inl pending

/-- What holds of a direction between its steps. -/
structure PathSide.Explored (neighbors : EntityId → List (EntityId × K)) (origin : EntityId)
    (best : Meeting K) (side : PathSide K) : Prop extends side.Sound neighbors origin where
  relaxed : ∀ node, side.dist node ≠ ⊤ → side.Relaxed neighbors best node

def Meeting.Chosen (best : Meeting K) (first second : EntityId → WithTop K) : Prop :=
  (best = ⟨⊤, none⟩) ∨ ∃ node, best.meetingNode = some node ∧ best.bestDist ≠ ⊤ ∧
    first node + second node ≤ best.bestDist

/-- A node where both directions have been is known to the best distance. -/
def Met (best : Meeting K) (first second : PathSide K) : Prop :=
  ∀ node, first.Pending node ∨ second.Pending node ∨
    best.bestDist ≤ first.dist node + second.dist node

/-- Without an entry that was taken from it, the heap still has those of the other nodes, and that of
the same node if the entry was an old one. -/
theorem PathSide.pending_of_pop {heap : List (K × EntityId)} {popped : K × EntityId}
    (isPop : queue.pop side.heap = some (popped, heap)) (pending : side.Pending node) :
    ({ side with heap } : PathSide K).Pending node ∨
      (node = popped.2 ∧ side.dist node = popped.1) := by
  obtain ⟨d, isDist, inHeap⟩ := pending
  rcases mem_cons.mp ((queue.pop_perm _ _ _ isPop).mem_iff.mpr inHeap) with rfl | inRest
  · exact .inr ⟨rfl, isDist⟩
  · exact .inl ⟨d, isDist, inRest⟩

variable {best : Meeting K}

theorem Meeting.Chosen.mono {first second first' second' : EntityId → WithTop K}
    (chosen : best.Chosen first second) (le : ∀ node, first' node ≤ first node)
    (le' : ∀ node, second' node ≤ second node) : best.Chosen first' second' :=
  chosen.imp_right fun ⟨node, isNode, finite, le''⟩ =>
    ⟨node, isNode, finite, (add_le_add (le node) (le' node)).trans le''⟩

theorem Meeting.Chosen.offer {first second : EntityId → WithTop K}
    (chosen : best.Chosen first second) (node : EntityId) :
    (best.offer (first node + second node) node).Chosen first second := by
  rw [Meeting.offer]
  split_ifs with nearer
  · exact .inr ⟨node, rfl, nearer.ne_top, le_refl _⟩
  · exact chosen

variable (queue) in
theorem PathSide.step_spec {other : PathSide K}
    (explored : side.Explored neighbors origin best) (chosen : best.Chosen side.dist other.dist)
    (met : Met best side other) :
    let next := side.step queue neighbors other.dist best
    next.2.Explored neighbors origin next.1 ∧ next.1.Chosen next.2.dist other.dist ∧
      Met next.1 next.2 other ∧ next.1.bestDist ≤ best.bestDist ∧
        ∀ node, next.2.dist node ≤ side.dist node := by
  rw [PathSide.step]
  cases isPop : queue.pop side.heap with
  | none => exact ⟨explored, chosen, met, le_refl _, fun _ => le_refl _⟩
  | some popped =>
    obtain ⟨⟨d, node⟩, heap⟩ := popped
    have left {other : EntityId} (pending : side.Pending other) :=
      PathSide.pending_of_pop isPop pending
    have soundRest : ({ side with heap } : PathSide K).Sound neighbors origin :=
      ⟨explored.nonneg, explored.atOrigin, explored.linked,
        fun entry inRest => explored.heaped entry (Heap.subset_of_pop isPop inRest)⟩
    dsimp only
    by_cases live : d ≤ side.dist node
    · have isDist : side.dist node = d := (explored.heaped _ (Heap.mem_of_pop isPop)).antisymm live
      have nearer := best.offer_le_best (d + other.dist node) node
      have chosenRest : (best.offer (d + other.dist node) node).Chosen side.dist other.dist := by
        rw [← isDist]
        exact chosen.offer node
      have relaxedRest (next : EntityId) (different : next ≠ node) (finite : side.dist next ≠ ⊤) :
          ({ side with heap } : PathSide K).Relaxed neighbors
            (best.offer (d + other.dist node) node) next := by
        rcases explored.relaxed next finite with pending | far | offered
        · exact .inl ((left pending).resolve_right fun taken => different taken.1)
        · exact .inr (.inl (nearer.trans_lt far))
        · exact .inr (.inr offered)
      have metRest : Met (best.offer (d + other.dist node) node) { side with heap } other := by
        intro next
        rcases met next with pending | pending | known
        · rcases left pending with still | ⟨rfl, atNode⟩
          · exact .inl still
          · rw [← atNode]
            exact .inr (.inr (best.offer_le_total _ _))
        · exact .inr (.inl pending)
        · exact .inr (.inr (nearer.trans known))
      rw [if_pos live]
      by_cases near : d ≤ (best.offer (d + other.dist node) node).bestDist
      · -- The node is offered to its neighbours.
        obtain ⟨improves, self, relaxed, keeps⟩ := PathSide.foldl_improve queue neighbors origin
          (neighbors node) (show ({ side with heap } : PathSide K).dist node = d from isDist)
        rw [if_pos near]
        refine ⟨⟨keeps soundRest (List.Subset.refl _), fun next finite => ?_⟩,
          chosenRest.mono improves.le fun _ => le_refl _, fun next => ?_, nearer, improves.le⟩
        · by_cases same : next = node
          · subst same
            refine .inr (.inr fun hop isHop => ?_)
            rw [self, ← WithTop.coe_add]
            exact relaxed hop isHop
          · exact improves.relaxed (le_refl _) finite (relaxedRest next same)
        · rcases improves.pending next with same | pending
          · rw [same]
            exact (metRest next).imp_left improves.pending_mono
          · exact .inl pending
      · -- It is farther away than the best meeting.
        rw [if_neg near]
        refine ⟨⟨soundRest, fun next finite => ?_⟩, chosenRest, metRest, nearer, fun _ => le_refl _⟩
        by_cases same : next = node
        · subst same
          refine .inr (.inl ?_)
          rw [isDist]
          exact not_le.mp near
        · exact relaxedRest next same finite
    · -- An old entry: a nearer one was taken before.
      have still {other : EntityId} (pending : side.Pending other) :
          ({ side with heap } : PathSide K).Pending other :=
        (left pending).resolve_right fun ⟨same, isDist⟩ => live (by
          subst same
          exact isDist.ge)
      rw [if_neg live]
      exact ⟨⟨soundRest, fun next finite => (explored.relaxed next finite).imp_left still⟩, chosen,
        fun next => (met next).imp_left still, le_refl _, fun _ => le_refl _⟩

theorem PathSide.Explored.mono {best best' : Meeting K} (explored : side.Explored neighbors origin best)
    (nearer : best'.bestDist ≤ best.bestDist) : side.Explored neighbors origin best' :=
  ⟨explored.toSound, fun node finite => (PathSide.Improves.refl side).relaxed nearer finite
    (explored.relaxed node)⟩

theorem PathSide.start_pending (queue : Heap (K × EntityId) nearest) (origin : EntityId) :
    (PathSide.start queue origin).Pending origin :=
  ⟨0, by simp [PathSide.start], Heap.mem_push.mpr (.inl rfl)⟩

theorem PathSide.start_dist_of_ne (queue : Heap (K × EntityId) nearest) (other : node ≠ origin) :
    (PathSide.start queue origin).dist node = ⊤ := by simp [PathSide.start, other]

theorem PathSide.explored_start (best : Meeting K) :
    (PathSide.start queue origin).Explored neighbors origin best := by
  have atOrigin : (PathSide.start queue origin).dist origin = 0 := by simp [PathSide.start]
  have elsewhere {node : EntityId} (other : node ≠ origin) :=
    PathSide.start_dist_of_ne queue other
  refine ⟨⟨fun node => ?_, atOrigin, fun node other finite => absurd (elsewhere other) finite,
    fun entry inHeap => ?_⟩, fun node finite => ?_⟩
  · by_cases same : node = origin
    · rw [same, atOrigin]
    · rw [elsewhere same]
      exact le_top
  · rcases Heap.mem_push.mp inHeap with rfl | impossible
    · exact atOrigin.le
    · cases impossible
  · obtain rfl : node = origin := by
      by_contra other
      exact finite (elsewhere other)
    exact .inl (PathSide.start_pending queue node)

/-- Links from a node to the origin, each along an edge that its distance accounts for. -/
def Linked (neighbors : EntityId → List (EntityId × K)) (origin : EntityId)
    (dist : EntityId → WithTop K) : EntityId → List (EntityId × EntityId × K) → Prop
  | cur, [] => cur = origin
  | cur, (node, before, weight) :: rest =>
    node = cur ∧ (cur, weight) ∈ neighbors before ∧ dist before + hopLength weight ≤ dist cur ∧
      Linked neighbors origin dist before rest

theorem dist_lt {first second : WithTop K} {weight : K} (finite : second ≠ ⊤)
    (le : first + hopLength weight ≤ second) : first < second := by
  have firstFinite : first ≠ ⊤ := by
    rintro rfl
    exact finite (top_le_iff.mp (by simpa using le))
  obtain ⟨a, rfl⟩ := WithTop.ne_top_iff_exists.mp firstFinite
  obtain ⟨b, rfl⟩ := WithTop.ne_top_iff_exists.mp finite
  have := hopLength_pos weight
  rw [← WithTop.coe_add, WithTop.coe_le_coe] at le
  exact WithTop.coe_lt_coe.mpr (by linarith)

/-- The links of a reached node lead back to the origin before the counter ends: distances fall on
the way, so that every link has an entry of its own. -/
theorem PathSide.Sound.walkBack (sound : side.Sound neighbors origin) (steps : Nat) (cur : EntityId)
    (seen : List EntityId) (finite : side.dist cur ≠ ⊤) (distinct : seen.Nodup)
    (known : ∀ node ∈ seen, node ∈ side.prev.map Prod.fst ∧ side.dist cur < side.dist node)
    (enough : side.prev.length < steps + seen.length) :
    ∃ links, Graph.walkBack side.prev origin steps cur = some links ∧
      Linked neighbors origin side.dist cur links := by
  induction steps generalizing cur seen with
  | zero =>
    have few := (subperm_of_subset distinct fun node isSeen => (known node isSeen).1).length_le
    rw [length_map] at few
    omega
  | succ steps ih =>
    rw [Graph.walkBack]
    by_cases same : cur = origin
    · exact ⟨[], if_pos same, same⟩
    · obtain ⟨before, weight, isLink, isHop, le⟩ := sound.linked cur same finite
      have less := dist_lt finite le
      have isKey : cur ∈ side.prev.map Prod.fst := by
        obtain ⟨first, last, isEntry, -⟩ := lookup_eq_some_iff.mp isLink
        rw [isEntry]
        simp
      have unseen : cur ∉ seen := fun isSeen => lt_irrefl _ (known cur isSeen).2
      obtain ⟨links, isWalk, linked⟩ := ih before (cur :: seen) less.ne_top
        (nodup_cons.mpr ⟨unseen, distinct⟩) (by
          intro node isSeen
          rcases mem_cons.mp isSeen with rfl | isSeen
          · exact ⟨isKey, less⟩
          · exact ⟨(known node isSeen).1, less.trans (known node isSeen).2⟩)
        (by rw [length_cons]; omega)
      refine ⟨(cur, before, weight) :: links, ?_, rfl, isHop, le, linked⟩
      rw [if_neg same, isLink, bind_some, isWalk]
      rfl

section Links

variable {dist : EntityId → WithTop K} {cur : EntityId} {links : List (EntityId × EntityId × K)}

def lengthOf (hops : List (EntityId × K)) : K := (hops.map fun hop => hopLength hop.2).sum

theorem Linked.lengthOf_le (linked : Linked neighbors origin dist cur links) (nonneg : 0 ≤ dist origin) :
    lengthOf (backwardHops links) ≤ dist cur := by
  induction links generalizing cur with
  | nil =>
    rw [show cur = origin from linked]
    exact nonneg
  | cons link rest ih =>
    obtain ⟨node, before, weight⟩ := link
    obtain ⟨rfl, -, le, linked⟩ := linked
    refine le_trans ?_ le
    have : lengthOf (backwardHops ((node, before, weight) :: rest)) =
        lengthOf (backwardHops rest) + hopLength weight := by
      rw [add_comm]
      rfl
    rw [this, WithTop.coe_add]
    exact add_le_add_left (ih linked) _

theorem Linked.lt_of_mem (linked : Linked neighbors origin dist cur links) (finite : dist cur ≠ ⊤)
    {node : EntityId} (later : node ∈ (backwardHops links).map Prod.fst) : dist node < dist cur := by
  induction links generalizing cur with
  | nil => cases later
  | cons link rest ih =>
    obtain ⟨node', before, weight⟩ := link
    obtain ⟨rfl, -, le, linked⟩ := linked
    have less := dist_lt finite le
    rcases mem_cons.mp later with rfl | later
    · exact less
    · exact (ih linked less.ne_top later).trans less

theorem Linked.nodup (linked : Linked neighbors origin dist cur links) (finite : dist cur ≠ ⊤) :
    (cur :: (backwardHops links).map Prod.fst).Nodup := by
  induction links generalizing cur with
  | nil => exact nodup_singleton _
  | cons link rest ih =>
    refine nodup_cons.mpr ⟨fun again => lt_irrefl _ (linked.lt_of_mem finite again), ?_⟩
    obtain ⟨node', before, weight⟩ := link
    obtain ⟨rfl, -, le, linked⟩ := linked
    exact ih linked (dist_lt finite le).ne_top

end Links

end Direction

/-- The hops of a path along the edges of a graph. -/
def Route (neighbors : EntityId → List (EntityId × K)) :
    EntityId → EntityId → List (EntityId × K) → Prop
  | first, last, [] => first = last
  | first, last, hop :: rest => hop ∈ neighbors first ∧ Route neighbors hop.1 last rest

section Routes

variable {neighbors predecessors : EntityId → List (EntityId × K)} {first middle last : EntityId}
  {dist : EntityId → WithTop K} {links : List (EntityId × EntityId × K)}

theorem Route.append {hops more : List (EntityId × K)} (route : Route neighbors first middle hops)
    (further : Route neighbors middle last more) : Route neighbors first last (hops ++ more) := by
  induction hops generalizing first with
  | nil =>
    rw [show first = middle from route]
    exact further
  | cons hop rest ih => exact ⟨route.1, ih route.2⟩

theorem forwardHops_cons (cur before : EntityId) (weight : K) :
    forwardHops ((cur, before, weight) :: links) = forwardHops links ++ [(cur, weight)] := by
  simp [forwardHops]

theorem Linked.route_forward (linked : Linked neighbors first dist last links) :
    Route neighbors first last (forwardHops links) := by
  induction links generalizing last with
  | nil => exact Eq.symm linked
  | cons link rest ih =>
    obtain ⟨node, before, weight⟩ := link
    obtain ⟨rfl, isHop, -, linked⟩ := linked
    rw [forwardHops_cons]
    exact (ih linked).append ⟨isHop, rfl⟩

theorem Linked.nodes_forward (linked : Linked neighbors first dist last links) :
    first :: (forwardHops links).map Prod.fst =
      (last :: (backwardHops links).map Prod.fst).reverse := by
  induction links generalizing last with
  | nil =>
    rw [show last = first from linked]
    rfl
  | cons link rest ih =>
    obtain ⟨node, before, weight⟩ := link
    obtain ⟨rfl, -, -, linked⟩ := linked
    rw [forwardHops_cons, map_append, ← cons_append, ih linked]
    simp [backwardHops]

theorem Linked.route_backward (mirror : ∀ u v weight, (u, weight) ∈ predecessors v →
    (v, weight) ∈ neighbors u) (linked : Linked predecessors last dist first links) :
    Route neighbors first last (backwardHops links) := by
  induction links generalizing first with
  | nil => exact linked
  | cons link rest ih =>
    obtain ⟨node, before, weight⟩ := link
    obtain ⟨rfl, isHop, -, linked⟩ := linked
    exact ⟨mirror _ _ _ isHop, ih linked⟩

theorem lengthOf_nonneg (hops : List (EntityId × K)) : 0 ≤ lengthOf hops := by
  refine sum_nonneg fun length isLength => ?_
  obtain ⟨hop, -, rfl⟩ := List.mem_map.mp isLength
  exact (hopLength_pos hop.2).le

theorem lengthOf_append (hops more : List (EntityId × K)) :
    lengthOf (hops ++ more) = lengthOf hops + lengthOf more := by
  rw [lengthOf, map_append, sum_append]
  rfl

theorem lengthOf_forwardHops (links : List (EntityId × EntityId × K)) :
    lengthOf (forwardHops links) = lengthOf (backwardHops links) := by
  rw [lengthOf, lengthOf, forwardHops, backwardHops, map_reverse, sum_reverse,
    List.map_map, List.map_map]
  rfl

end Routes

section Search

variable (neighbors predecessors : EntityId → List (EntityId × K)) (source target : EntityId)

structure PathState.Explored (state : PathState K) : Prop where
  fwd : state.fwd.Explored neighbors source state.best
  bwd : state.bwd.Explored predecessors target state.best
  chosen : state.best.Chosen state.fwd.dist state.bwd.dist
  met : Met state.best state.fwd state.bwd

variable {queue : Heap (K × EntityId) nearest} {neighbors predecessors source target}
  {state : PathState K} {hops : List (EntityId × K)}

theorem Meeting.Chosen.symm {best : Meeting K} {first second : EntityId → WithTop K}
    (chosen : best.Chosen first second) : best.Chosen second first :=
  chosen.imp_right fun ⟨node, isNode, finite, le⟩ => ⟨node, isNode, finite, add_comm (first node) _ ▸ le⟩

theorem Met.symm {best : Meeting K} {first second : PathSide K} (met : Met best first second) :
    Met best second first := fun node => by
  rcases met node with pending | pending | known
  · exact .inr (.inl pending)
  · exact .inl pending
  · exact .inr (.inr (add_comm (first.dist node) _ ▸ known))

theorem PathState.Explored.turn (explored : state.Explored neighbors predecessors source target) :
    (pathTurn queue neighbors predecessors state).Explored neighbors predecessors source target := by
  obtain ⟨fwd, chosen, met, nearer, -⟩ :=
    PathSide.step_spec queue explored.fwd explored.chosen explored.met
  obtain ⟨bwd, chosen, met, nearer', -⟩ :=
    PathSide.step_spec queue (explored.bwd.mono nearer) chosen.symm met.symm
  exact ⟨fwd.mono nearer', bwd, chosen.symm, met.symm⟩

theorem PathState.Explored.loop (explored : state.Explored neighbors predecessors source target)
    (steps : Nat) : (pathLoop queue neighbors predecessors steps state).Explored neighbors predecessors
      source target := by
  induction steps generalizing state with
  | zero => exact explored
  | succ steps ih =>
    rw [pathLoop]
    split_ifs
    · exact explored
    · exact ih explored.turn

theorem explored_pathSearch (maxHops : Nat) :
    (pathSearch queue neighbors predecessors maxHops source target).Explored neighbors predecessors
      source target := by
  refine PathState.Explored.loop ⟨PathSide.explored_start _, PathSide.explored_start _, .inl rfl,
    fun node => ?_⟩ _
  by_cases same : node = source
  · rw [same]
    exact .inl (PathSide.start_pending queue source)
  · rw [PathSide.start_dist_of_ne queue same, top_add]
    exact .inr (.inr le_top)

def PathState.Ended (state : PathState K) : Prop := state.fwd.heap = [] ∧ state.bwd.heap = []

instance (state : PathState K) : Decidable state.Ended := inferInstanceAs (Decidable (_ ∧ _))

theorem PathSide.not_pending {side : PathSide K} (ended : side.heap = []) (node : EntityId) :
    ¬ side.Pending node := by
  rintro ⟨d, -, inHeap⟩
  rw [ended] at inHeap
  cases inHeap

theorem PathState.Explored.le_along (explored : state.Explored neighbors predecessors source target)
    (ended : state.Ended) {node : EntityId} {d : K} (le : state.fwd.dist node ≤ d)
    (route : Route neighbors node target hops) :
    state.fwd.dist target ≤ (d + lengthOf hops : K) ∨
      state.best.bestDist ≤ (d + lengthOf hops : K) := by
  induction hops generalizing node d with
  | nil =>
    rw [← show node = target from route]
    left
    simpa [lengthOf] using le
  | cons hop rest ih =>
    have length : d + lengthOf (hop :: rest) = d + hopLength hop.2 + lengthOf rest :=
      (add_assoc d _ _).symm
    have longer := le_add_of_nonneg_right (a := d) (lengthOf_nonneg (hop :: rest))
    rcases explored.fwd.relaxed node (ne_top_of_le_ne_top (WithTop.coe_ne_top) le) with
      pending | far | offered
    · exact absurd pending (PathSide.not_pending ended.1 node)
    · exact .inr ((far.le.trans le).trans (WithTop.coe_le_coe.mpr longer))
    · rw [length]
      refine ih ?_ route.2
      rw [WithTop.coe_add]
      exact (offered hop route.1).trans (add_le_add_left le _)

theorem PathState.Explored.best_le (explored : state.Explored neighbors predecessors source target)
    (ended : state.Ended) (route : Route neighbors source target hops) :
    state.best.bestDist ≤ lengthOf hops := by
  have atSource : state.fwd.dist source ≤ (0 : K) := explored.fwd.atOrigin.le
  rcases explored.le_along ended atSource route with le | le
  · rcases explored.met target with pending | pending | known
    · exact absurd pending (PathSide.not_pending ended.1 target)
    · exact absurd pending (PathSide.not_pending ended.2 target)
    · rw [explored.bwd.atOrigin, add_zero] at known
      simpa using known.trans le
  · simpa using le

variable (neighbors source target) in
/-- A path with the smallest sum of hop lengths. -/
def IsCheapest (hops : List (EntityId × K)) : Prop :=
  Route neighbors source target hops ∧
    ∀ other, Route neighbors source target other → lengthOf hops ≤ lengthOf other

theorem PathState.Explored.meet (explored : state.Explored neighbors predecessors source target)
    (mirror : ∀ u v weight, (u, weight) ∈ predecessors v → (v, weight) ∈ neighbors u)
    (ended : state.Ended) {meeting : EntityId} (isMeeting : state.best.meetingNode = some meeting) :
    ∃ front back, state.fwd.walkBack source meeting = some front ∧
      state.bwd.walkBack target meeting = some back ∧
      let hops := forwardHops front ++ backwardHops back
      IsCheapest neighbors source target hops ∧ (source :: hops.map Prod.fst).Nodup ∧
        state.best.bestDist = lengthOf hops := by
  obtain ⟨bestFinite, le⟩ : state.best.bestDist ≠ ⊤ ∧
      state.fwd.dist meeting + state.bwd.dist meeting ≤ state.best.bestDist := by
    rcases explored.chosen with none | ⟨node, isNode, finite, le⟩
    · rw [none] at isMeeting
      cases isMeeting
    · rw [isMeeting] at isNode
      cases isNode
      exact ⟨finite, le⟩
  have finite := ne_top_of_le_ne_top bestFinite le
  obtain ⟨fwdFinite, bwdFinite⟩ := WithTop.add_ne_top.mp finite
  obtain ⟨front, isFront, linked⟩ := explored.fwd.toSound.walkBack (state.fwd.prev.length + 1) meeting
    [] fwdFinite nodup_nil (by simp) (Nat.lt_succ_self _)
  obtain ⟨back, isBack, linked'⟩ := explored.bwd.toSound.walkBack (state.bwd.prev.length + 1) meeting
    [] bwdFinite nodup_nil (by simp) (Nat.lt_succ_self _)
  have route : Route neighbors source target (forwardHops front ++ backwardHops back) :=
    linked.route_forward.append (linked'.route_backward mirror)
  have short : (lengthOf (forwardHops front ++ backwardHops back) : K) ≤ state.best.bestDist := by
    rw [lengthOf_append, lengthOf_forwardHops, WithTop.coe_add]
    exact (add_le_add (linked.lengthOf_le explored.fwd.atOrigin.ge)
      (linked'.lengthOf_le explored.bwd.atOrigin.ge)).trans le
  have apart : ∀ node ∈ (backwardHops back).map Prod.fst,
      node ∉ meeting :: (backwardHops front).map Prod.fst := by
    intro node inBack inFront
    have nearer' := linked'.lt_of_mem bwdFinite inBack
    rcases mem_cons.mp inFront with rfl | inFront
    · exact lt_irrefl _ nearer'
    · -- The sum of both distances would be smaller than at the meeting.
      have nearer := linked.lt_of_mem fwdFinite inFront
      rcases explored.met node with pending | pending | known
      · exact PathSide.not_pending ended.1 node pending
      · exact PathSide.not_pending ended.2 node pending
      · exact absurd ((WithTop.add_lt_add nearer nearer').trans_le le) (not_lt.mpr known)
  refine ⟨front, back, isFront, isBack, ⟨route, fun other isOther => ?_⟩, ?_,
    (explored.best_le ended route).antisymm short⟩
  · exact WithTop.coe_le_coe.mp (short.trans (explored.best_le ended isOther))
  · rw [map_append, ← cons_append, linked.nodes_forward, nodup_append]
    refine ⟨nodup_reverse.mpr (linked.nodup fwdFinite),
      (nodup_cons.mp (linked'.nodup bwdFinite)).2, ?_⟩
    intro node inFront other inBack same
    exact apart other inBack (mem_reverse.mp (same ▸ inFront))

theorem findPathIn_spec {maxHops : Nat}
    (mirror : ∀ u v weight, (u, weight) ∈ predecessors v → (v, weight) ∈ neighbors u)
    (ended : source ≠ target →
      (pathSearch queue neighbors predecessors maxHops source target).Ended) :
    (findPathIn queue neighbors predecessors maxHops source target = none ∧
        ∀ hops, ¬ Route neighbors source target hops) ∨
      ∃ hops, findPathIn queue neighbors predecessors maxHops source target =
          some (GraphPath.ofHops source hops (lengthOf hops : K)) ∧
        IsCheapest neighbors source target hops ∧ (source :: hops.map Prod.fst).Nodup := by
  rw [findPathIn]
  by_cases same : source = target
  · rw [if_pos same]
    refine .inr ⟨[], ?_, ⟨same, fun other _ => lengthOf_nonneg other⟩, nodup_singleton _⟩
    simp [GraphPath.ofHops, lengthOf, flowOf]
  · rw [if_neg same]
    have explored : (pathSearch queue neighbors predecessors maxHops source target).Explored neighbors
        predecessors source target := explored_pathSearch maxHops
    dsimp only
    cases isMeeting : (pathSearch queue neighbors predecessors maxHops source target).best.meetingNode with
    | none =>
      refine .inl ⟨rfl, fun hops route => ?_⟩
      rcases explored.chosen with none | ⟨node, isNode, -⟩
      · have le := explored.best_le (ended same) route
        rw [none] at le
        exact absurd (top_le_iff.mp le) (WithTop.coe_ne_top)
      · rw [isMeeting] at isNode
        cases isNode
    | some meeting =>
      obtain ⟨front, back, isFront, isBack, cheapest, distinct, isBest⟩ :=
        explored.meet mirror (ended same) isMeeting
      refine .inr ⟨_, ?_, cheapest, distinct⟩
      rw [bind_some, isFront, bind_some, isBack, map_some, isBest]

end Search

/-- `1 / sum`, infinite for zero. -/
def reciprocal (sum : K) : WithTop K := if sum = 0 then ⊤ else (sum⁻¹ : K)

/-- A path is found if one is within the limit, and what is found is a path within the limit whose
flow is the reciprocal of the sum of `1 / weight`. -/
structure FindsPath (neighbors : EntityId → List (EntityId × K)) (maxHops : Nat)
    (source target : EntityId) (found : Option (GraphPath K)) : Prop where
  complete : (∃ hops, Route neighbors source target hops ∧ hops.length ≤ maxHops) → found.isSome
  sound : ∀ path ∈ found, ∃ hops, path.nodes = source :: hops.map Prod.fst ∧
    path.edgeWeights = hops.map Prod.snd ∧ Route neighbors source target hops ∧ path.nodes.Nodup ∧
      hops.length ≤ maxHops ∧ path.totalFlow = reciprocal (hops.map fun hop => 1 / hop.2).sum

/-- A path within the limit on which the lower bound of the weights changes nothing. -/
def Fits (maxHops : Nat) (hops : List (EntityId × K)) : Prop :=
  hops.length ≤ maxHops ∧ (hops.map fun hop => 1 / hop.2).sum = lengthOf hops

theorem flowOf_lengthOf {sum : K} (hops : List (EntityId × K)) :
    flowOf (lengthOf hops : K) = reciprocal sum ↔ sum = lengthOf hops := by
  have nonneg := lengthOf_nonneg hops
  change (if 0 < lengthOf hops then (((lengthOf hops)⁻¹ : K) : WithTop K) else ⊤) = _ ↔ _
  rw [reciprocal]
  split_ifs with positive isZero isZero
  · simp [isZero, positive.ne]
  · rw [WithTop.coe_inj, inv_inj, eq_comm]
  · simp [isZero, le_antisymm (not_lt.mp positive) nonneg]
  · have : lengthOf hops = 0 := le_antisymm (not_lt.mp positive) nonneg
    simp [this, isZero]

namespace PathRAGEngine

variable (queue : Heap (K × EntityId) nearest) (weightOf : F32 → K) (engine : PathRAGEngine K)
  (source target : EntityId)

def MirroredWeights : Prop :=
  ∀ u v weight, (v, weight) ∈ engine.getExpandedNeighbors weightOf u ↔
    (u, weight) ∈ engine.getExpandedPredecessors weightOf v

/-- The search ends before its limit of steps, or there is nothing to search. -/
def EndsByItself : Prop :=
  source ≠ target → (pathSearch queue (engine.getExpandedNeighbors weightOf)
    (engine.getExpandedPredecessors weightOf) engine.config.maxHops source target).Ended

/-- `find_path` does as promised if every cheapest path is within the limit of hops, and only if one
of them is. -/
theorem findPath_findsPath (mirrored : engine.MirroredWeights weightOf)
    (ends : engine.EndsByItself queue weightOf source target) :
    let neighbors := engine.getExpandedNeighbors weightOf
    let found := engine.findPath queue weightOf source target
    ((∀ hops, IsCheapest neighbors source target hops → Fits engine.config.maxHops hops) →
        FindsPath neighbors engine.config.maxHops source target found) ∧
      (FindsPath neighbors engine.config.maxHops source target found →
        ∀ way, Route neighbors source target way →
          ∃ hops, IsCheapest neighbors source target hops ∧ Fits engine.config.maxHops hops) := by
  have spec := findPathIn_spec (fun u v weight => (mirrored u v weight).mpr) ends
  dsimp only
  rw [findPath]
  rcases spec with ⟨isNone, noRoute⟩ | ⟨hops, isSome, cheapest, distinct⟩
  · rw [isNone]
    exact ⟨fun _ => ⟨fun ⟨hops, route, _⟩ => absurd route (noRoute hops), fun path none => by cases none⟩,
      fun _ way route => absurd route (noRoute way)⟩
  · rw [isSome]
    refine ⟨fun fits => ⟨fun _ => rfl, ?_⟩, fun finds way _ => ?_⟩
    · rintro path isPath
      obtain rfl := some.inj isPath
      obtain ⟨short, sum⟩ := fits hops cheapest
      exact ⟨hops, rfl, rfl, cheapest.1, distinct, short, (flowOf_lengthOf hops).mpr sum⟩
    · obtain ⟨hops', nodes, weights, -, -, short, flow⟩ := finds.sound _ rfl
      have same : hops = hops' :=
        (zip_of_prod (List.cons.inj nodes).2 weights).trans (zip_of_prod rfl rfl).symm
      subst same
      exact ⟨hops, cheapest, short, (flowOf_lengthOf hops).mp flow⟩

theorem nearest_total (first second : ℚ × EntityId) :
    nearest first second = true ∨ nearest second first = true :=
  (le_total (toLex second) (toLex first)).imp decide_eq_true decide_eq_true

theorem nearest_trans (first second third : ℚ × EntityId) (below : nearest first second = true)
    (above : nearest second third = true) : nearest first third = true :=
  decide_eq_true ((of_decide_eq_true above).trans (of_decide_eq_true below))

def nearestFirst : Heap (ℚ × EntityId) nearest := .searched nearest nearest_total nearest_trans

def oneHop (edges : List (EntityId × EntityId × ℚ)) : PathRAGEngine ℚ :=
  ⟨.ofEdges edges, ⟨1, false, 17 / 20⟩⟩

theorem oneHop_mirroredWeights (edges : List (EntityId × EntityId × ℚ)) :
    (oneHop edges).MirroredWeights fun _ => 1 := by
  intro u v weight
  simp [oneHop, getExpandedNeighbors, getExpandedPredecessors, PathGraph.ofEdges]

theorem oneHop_findsPath :
    FindsPath ((oneHop [(0, 1, 1)]).getExpandedNeighbors fun _ => 1) 1 0 1
      ((oneHop [(0, 1, 1)]).findPath nearestFirst (fun _ => 1) 0 1) := by
  refine (findPath_findsPath nearestFirst (fun _ => 1) (oneHop [(0, 1, 1)]) 0 1
    (oneHop_mirroredWeights _) (fun _ => by decide +kernel)).1 fun hops cheapest => ?_
  have fromSource : (oneHop [(0, 1, 1)]).getExpandedNeighbors (fun _ => 1) 0 = [(1, 1)] := rfl
  have fromTarget : (oneHop [(0, 1, 1)]).getExpandedNeighbors (fun _ => 1) 1 = [] := rfl
  obtain ⟨route, -⟩ := cheapest
  cases hops with
  | nil => exact absurd (show (0 : Nat) = 1 from route) (by decide)
  | cons hop rest =>
    obtain ⟨isHop, further⟩ := route
    rw [fromSource, mem_singleton] at isHop
    subst isHop
    cases rest with
    | nil => exact ⟨le_refl _, by decide +kernel⟩
    | cons hop rest =>
      have isHop := further.1
      rw [fromTarget] at isHop
      cases isHop

/-- A direct edge of weight `1 / 10` and a detour of two better ones: with one hop allowed, the
detour is returned. -/
theorem detour_not_findsPath :
    let engine := oneHop [(0, 1, 1 / 10), (0, 2, 1), (2, 1, 1)]
    engine.MirroredWeights (fun _ => 1) ∧ engine.EndsByItself nearestFirst (fun _ => 1) 0 1 ∧
      ¬ FindsPath (engine.getExpandedNeighbors fun _ => 1) engine.config.maxHops 0 1
        (engine.findPath nearestFirst (fun _ => 1) 0 1) := by
  refine ⟨oneHop_mirroredWeights _, fun _ => by decide +kernel, fun finds => ?_⟩
  have isFound : (oneHop [(0, 1, 1 / 10), (0, 2, 1), (2, 1, 1)]).findPath nearestFirst (fun _ => 1)
      0 1 = some ⟨[0, 2, 1], [1, 1], 1, (1 / 2 : ℚ)⟩ := by decide +kernel
  obtain ⟨hops, nodes, -, -, -, short, -⟩ := finds.sound _ isFound
  have lengths : 3 = hops.length + 1 := by simpa using congrArg List.length nodes
  have short : hops.length ≤ 1 := short
  omega

end PathRAGEngine

end Contextra.Graph
