import Contextra.Graph.KPathRuns

/-!
# Which paths the search finds

Partial paths of the two directions are joined to whole ones.  When the search ends by itself, a path
that it has not found was turned away in both directions.
-/

namespace Contextra.Graph

open Library List

section Paths

variable {K : Type} (config : KPathConfig) (edge : EntityId → EntityId → Prop)
  (source target : EntityId)

structure IsSimplePath (path : List EntityId) : Prop extends IsPartial config edge source path where
  last : path.getLast? = some target

structure IsWhole (path : List EntityId) : Prop where
  first : path.head? = some source
  last : path.getLast? = some target
  chain : path.IsChain edge

variable {config edge source target} {backEdge : EntityId → EntityId → Prop}
  {front back path : List EntityId} {node : EntityId}

theorem isWhole_joinForward (mirror : ∀ u v, backEdge v u → edge u v)
    (isFront : IsPartial config edge source front) (frontLast : front.getLast? = some node)
    (isBack : IsPartial config backEdge target back) (backLast : back.getLast? = some node) :
    IsWhole edge source target (joinForward front back) := by
  obtain ⟨frontInit, rfl⟩ := getLast?_eq_some_iff.mp frontLast
  obtain ⟨backInit, rfl⟩ := getLast?_eq_some_iff.mp backLast
  have joined : joinForward (frontInit ++ [node]) (backInit ++ [node]) =
      frontInit ++ node :: backInit.reverse := by
    simp [joinForward]
  have reversed : (node :: backInit.reverse).IsChain edge := by
    have := isChain_reverse.mpr isBack.chain
    rw [reverse_append] at this
    exact this.imp fun u v => mirror u v
  rw [joined]
  refine ⟨?_, ?_, isChain_split.mpr ⟨isFront.chain, reversed⟩⟩
  · rw [← isFront.first]
    cases frontInit <;> rfl
  · rw [getLast?_append_of_ne_nil _ (cons_ne_nil _ _), ← isBack.first,
      ← getLast?_reverse, reverse_append]
    rfl

theorem joinBackward_source (last : back.getLast? = some source) :
    joinBackward back [source] = back.reverse := by
  obtain ⟨init, rfl⟩ := getLast?_eq_some_iff.mp last
  rw [joinBackward, reverse_append]
  rfl

theorem IsSimplePath.eq_singleton (isPath : IsSimplePath config edge source source path) :
    path = [source] := by
  obtain ⟨init, rfl⟩ := getLast?_eq_some_iff.mp isPath.last
  cases init with
  | nil => rfl
  | cons first rest =>
    have isFirst : first = source := Option.some.inj isPath.first
    have simple := isPath.simple
    rw [cons_append, nodup_cons] at simple
    exact absurd (mem_append_right rest (by rw [isFirst]; exact mem_cons_self)) simple.1

end Paths

section Search

variable {K : Type} {config : KPathConfig} {neighbors predecessors : EntityId → List (EntityId × K)} {source target : EntityId}

variable (config neighbors predecessors source target) in
structure KPathState.Sound (state : KPathState K) : Prop where
  fwd : Keeps config (Follows neighbors) source state.shared state.fwd
  bwd : Keeps config (Follows predecessors) target state.shared state.bwd
  counted : Counted config (IsWhole (Follows neighbors) source target) state.shared
  fwdStart : [source] ∈ state.fwd.paths source
  bwdStart : [target] ∈ state.bwd.paths target
  tracks : state.shared.Done config ∨
    (Tracks config neighbors joinForward target state.shared state.fwd ∧
      Tracks config predecessors joinBackward source state.shared state.bwd)

variable {state : KPathState K} {shared : Shared} {fwd bwd : Side K}

section Mirrored

variable (mirror : ∀ u v, Follows neighbors u v ↔ Follows predecessors v u)

include mirror

theorem joins_forward (keeps : Keeps config (Follows predecessors) target shared bwd) :
    Joins config (Follows neighbors) source (IsWhole (Follows neighbors) source target) joinForward
      bwd.paths shared.visited where
  isWhole node own other isPartial last kept :=
    isWhole_joinForward (fun u v => (mirror u v).mpr) isPartial last
      (keeps.isPartial node other kept) (keeps.last node other kept)
  subset own other node inside := by
    rcases mem_append.mp inside with isOwn | isOther
    · exact mem_append_left _ isOwn
    · exact mem_append_right _ (mem_reverse.mp (mem_of_mem_drop isOther))
  visited := keeps.visited

theorem joins_backward (keeps : Keeps config (Follows neighbors) source shared fwd) :
    Joins config (Follows predecessors) target (IsWhole (Follows neighbors) source target)
      joinBackward fwd.paths shared.visited where
  isWhole node own other isPartial last kept :=
    isWhole_joinForward (fun u v => (mirror u v).mpr) (keeps.isPartial node other kept)
      (keeps.last node other kept) isPartial last
  subset own other node inside := by
    rcases mem_append.mp inside with isOther | isOwn
    · exact mem_append_right _ isOther
    · exact mem_append_left _ (mem_reverse.mp (mem_of_mem_drop isOwn))
  visited := keeps.visited

section Turns

variable [LinearOrder K] {queue : Heap (HeapItem K) HeapItem.le} {farther : K → K → K}

variable (queue farther) in
theorem forwardTurn_sound (sound : state.Sound config neighbors predecessors source target)
    (more : state.shared.found.length < config.k) :
    let after := turn queue farther config joinForward neighbors state.bwd.paths state.shared
      state.fwd
    (⟨after.1, after.2, state.bwd⟩ : KPathState K).Sound config neighbors predecessors source
      target := by
  intro after
  have isNeighbor : ∀ node, ∀ entry ∈ neighbors node, Follows neighbors node entry.1 :=
    fun node entry isEntry => ⟨entry.2, isEntry⟩
  have grows : Grows (state.shared, { state.fwd with heap := [] }) after := turn_grows _ _
  obtain ⟨keeps, counted⟩ : Keeps config (Follows neighbors) source after.1 after.2 ∧
      Counted config (IsWhole (Follows neighbors) source target) after.1 :=
    turn_spec (joins_forward mirror sound.bwd) sound.fwd sound.counted more isNeighbor
  refine ⟨keeps, sound.bwd.mono grows.visited, counted, (grows.paths source).subset sound.fwdStart,
    sound.bwdStart, ?_⟩
  have fits : ∀ own, IsPartial config (Follows neighbors) source own →
      own.getLast? = some target →
        (joinForward own [target]).length - 1 ≤ config.maxHops ∧ (joinForward own [target]).Nodup :=
    fun own isPartial _ => by
      have whole : joinForward own [target] = own := append_nil own
      rw [whole]
      exact ⟨isPartial.short, isPartial.simple⟩
  rcases sound.tracks with done | ⟨fwdTracks, bwdTracks⟩
  · exact .inl (done.elim (fun enough => absurd enough (not_le.mpr more))
      fun exhausted => .inr (grows.exhausted exhausted))
  · exact (turn_tracks sound.fwd fwdTracks sound.bwdStart fits isNeighbor).imp_right fun tracks =>
      ⟨tracks, bwdTracks.mono grows.found⟩

variable (queue farther) in
theorem backwardTurn_sound (sound : state.Sound config neighbors predecessors source target)
    (more : state.shared.found.length < config.k) :
    let after := turn queue farther config joinBackward predecessors state.fwd.paths state.shared
      state.bwd
    (⟨after.1, state.fwd, after.2⟩ : KPathState K).Sound config neighbors predecessors source
      target := by
  intro after
  have isPredecessor : ∀ node, ∀ entry ∈ predecessors node, Follows predecessors node entry.1 :=
    fun node entry isEntry => ⟨entry.2, isEntry⟩
  have grows : Grows (state.shared, { state.bwd with heap := [] }) after := turn_grows _ _
  obtain ⟨keeps, counted⟩ : Keeps config (Follows predecessors) target after.1 after.2 ∧
      Counted config (IsWhole (Follows neighbors) source target) after.1 :=
    turn_spec (joins_backward mirror sound.fwd) sound.bwd sound.counted more isPredecessor
  refine ⟨sound.fwd.mono grows.visited, keeps, counted, sound.fwdStart,
    (grows.paths target).subset sound.bwdStart, ?_⟩
  have fits : ∀ own, IsPartial config (Follows predecessors) target own →
      own.getLast? = some source →
        (joinBackward own [source]).length - 1 ≤ config.maxHops ∧
          (joinBackward own [source]).Nodup :=
    fun own isPartial last => by
      rw [joinBackward_source last, length_reverse, nodup_reverse]
      exact ⟨isPartial.short, isPartial.simple⟩
  rcases sound.tracks with done | ⟨fwdTracks, bwdTracks⟩
  · exact .inl (done.elim (fun enough => absurd enough (not_le.mpr more))
      fun exhausted => .inr (grows.exhausted exhausted))
  · exact (turn_tracks sound.bwd bwdTracks sound.fwdStart fits isPredecessor).imp_right
      fun tracks => ⟨fwdTracks.mono grows.found, tracks⟩

omit mirror in
theorem kPathTurn_eq : kPathTurn queue farther config neighbors predecessors state =
    let forward := turn queue farther config joinForward neighbors state.bwd.paths state.shared
      state.fwd
    let backward := turn queue farther config joinBackward predecessors forward.2.paths forward.1
      state.bwd
    if config.k ≤ forward.1.found.length ∨ forward.1.budgetExhausted = true then
      (⟨forward.1, forward.2, state.bwd⟩, false)
    else (⟨backward.1, forward.2, backward.2⟩, true) := rfl

variable (queue farther) in
theorem kPathTurn_sound (sound : state.Sound config neighbors predecessors source target)
    (more : state.shared.found.length < config.k) :
    let after := kPathTurn queue farther config neighbors predecessors state
    after.1.Sound config neighbors predecessors source target ∧
      (after.2 = false → after.1.shared.Done config) := by
  have forward := forwardTurn_sound mirror queue farther sound more
  simp only [kPathTurn_eq]
  split_ifs with done
  · exact ⟨forward, fun _ => done⟩
  · exact ⟨backwardTurn_sound mirror queue farther forward (not_le.mp (not_or.mp done).1),
      fun goesOn => absurd goesOn id⟩

omit mirror [LinearOrder K] in
theorem KPathState.bothEmpty (empty : (state.fwd.heap.isEmpty && state.bwd.heap.isEmpty) = true) :
    state.fwd.heap = [] ∧ state.bwd.heap = [] := by
  rw [Bool.and_eq_true, List.isEmpty_iff, List.isEmpty_iff] at empty
  exact empty

variable (queue farther) in
/-- The loop leaves everything as it should be; below its limit it ends when it is done or when
nothing is left to be extended. -/
theorem kPathLoop_sound (steps : Nat)
    (sound : state.Sound config neighbors predecessors source target) :
    let after := kPathLoop queue farther config neighbors predecessors steps state
    after.1.Sound config neighbors predecessors source target ∧
      (after.2 = false → after.1.shared.Done config ∨
        (after.1.fwd.heap = [] ∧ after.1.bwd.heap = [])) := by
  induction steps generalizing state with
  | zero =>
    refine ⟨sound, fun limit => .inr (KPathState.bothEmpty ?_)⟩
    rwa [kPathLoop, Bool.not_eq_false'] at limit
  | succ steps ih =>
    rw [kPathLoop]
    split_ifs with empty enough
    · exact ⟨sound, fun _ => .inr (KPathState.bothEmpty empty)⟩
    · exact ⟨sound, fun _ => .inl (.inl enough)⟩
    · obtain ⟨turned, ends⟩ := kPathTurn_sound mirror queue farther sound (not_le.mp enough)
      generalize kPathTurn queue farther config neighbors predecessors state = turn at turned ends
      obtain ⟨next, goesOn⟩ := turn
      cases goesOn with
      | true => exact ih turned
      | false => exact ⟨turned, fun _ => .inl (ends rfl)⟩

end Turns

end Mirrored

section Start

variable [Zero K] [LinearOrder K] {queue : Heap (HeapItem K) HeapItem.le} {farther : K → K → K}
  {edge : EntityId → EntityId → Prop} {origin goal : EntityId}

omit [Zero K] [LinearOrder K] in
theorem mem_startPaths {kept : List EntityId} {node : EntityId} :
    kept ∈ Function.update (fun _ => []) origin [[origin]] node ↔ node = origin ∧ kept = [origin] := by
  by_cases same : node = origin
  · subst same
    simp
  · simp [same]

theorem keeps_start (visited : origin ∈ shared.visited) :
    Keeps config edge origin shared
      ⟨Function.update (fun _ => []) origin [[origin]], queue.push ⟨0, [origin]⟩ []⟩ := by
  refine ⟨fun node path kept => ?_, fun node path kept => ?_, fun node path kept => ?_,
    fun item isItem => ⟨origin, mem_startPaths.mpr ⟨rfl, ?_⟩⟩, fun node => ?_⟩
  · obtain ⟨rfl, rfl⟩ := mem_startPaths.mp kept
    exact ⟨rfl, isChain_singleton _, nodup_singleton _, Nat.zero_le _⟩
  · obtain ⟨rfl, rfl⟩ := mem_startPaths.mp kept
    rfl
  · obtain ⟨rfl, rfl⟩ := mem_startPaths.mp kept
    exact cons_subset.mpr ⟨visited, nil_subset _⟩
  · rcases Heap.mem_push.mp isItem with rfl | isOld
    · rfl
    · cases isOld
  · by_cases same : node = origin
    · subst same
      simp
    · simp [same]

theorem tracks_start {join : List EntityId → List EntityId → List EntityId}
    (distinct : goal ≠ origin) :
    Tracks config neighbors join goal shared
      ⟨Function.update (fun _ => []) origin [[origin]], queue.push ⟨0, [origin]⟩ []⟩ := by
  refine ⟨fun node path kept => .inl ?_, fun path kept => ?_⟩
  · obtain ⟨rfl, rfl⟩ := mem_startPaths.mp kept
    exact ⟨_, Heap.mem_push.mpr (.inl rfl), rfl⟩
  · exact absurd (mem_startPaths.mp kept).1 distinct

theorem kPathStart_sound (distinct : source ≠ target) (room : 2 ≤ config.maxVisitedNodes) :
    (kPathStart queue source target).Sound config neighbors predecessors source target where
  fwd := keeps_start mem_cons_self
  bwd := keeps_start (mem_cons_of_mem _ mem_cons_self)
  counted := by
    refine ⟨?_, room, nodup_nil, Nat.zero_le _, ?_, ?_, ?_⟩
    · exact nodup_cons.mpr ⟨fun isTarget => distinct (mem_singleton.mp isTarget),
        nodup_singleton _⟩
    all_goals exact fun path isFound => absurd isFound not_mem_nil
  fwdStart := mem_startPaths.mpr ⟨rfl, rfl⟩
  bwdStart := mem_startPaths.mpr ⟨rfl, rfl⟩
  tracks := .inr ⟨tracks_start distinct.symm, tracks_start distinct⟩

end Start

section Runs

theorem KPathState.Sound.found_or_turnedAway
    (sound : state.Sound config neighbors predecessors source target)
    (mirror : ∀ u v, Follows neighbors u v ↔ Follows predecessors v u)
    (tracks : Tracks config neighbors joinForward target state.shared state.fwd ∧
      Tracks config predecessors joinBackward source state.shared state.bwd)
    (nothingWaits : state.fwd.heap = [] ∧ state.bwd.heap = []) {path : List EntityId}
    (isPath : IsSimplePath config (Follows neighbors) source target path) :
    path ∈ state.shared.found ∨ (TurnedAway config state.fwd.paths path ∧
      TurnedAway config state.bwd.paths path.reverse) := by
  have backPartial : IsPartial config (Follows predecessors) target path.reverse := by
    refine ⟨?_, ?_, nodup_reverse.mpr isPath.simple, ?_⟩
    · rw [head?_reverse]
      exact isPath.last
    · exact (isChain_reverse.mpr isPath.chain).imp fun u v => (mirror v u).mp
    · rw [length_reverse]
      exact isPath.short
  have backLast : path.reverse.getLast? = some source := by
    rw [getLast?_reverse]
    exact isPath.first
  rcases tracks.1.kept_or_turnedAway nothingWaits.1 sound.fwdStart (fun _ _ follows => follows)
    isPath.toIsPartial isPath.last with kept | fwdAway
  · have joined : joinForward path [target] = path := append_nil path
    rw [← joined]
    exact .inl (tracks.1.ended path kept)
  · rcases tracks.2.kept_or_turnedAway nothingWaits.2 sound.bwdStart (fun _ _ follows => follows)
      backPartial backLast with kept | bwdAway
    · have joined := joinBackward_source backLast
      rw [reverse_reverse] at joined
      rw [← joined]
      exact .inl (tracks.2.ended _ kept)
    · exact .inr ⟨fwdAway, bwdAway⟩

variable (config neighbors predecessors source target) in
structure KPathRun.Correct (run : KPathRun) : Prop where
  distinct : run.paths.Nodup
  few : run.paths.length ≤ config.k
  isPath : ∀ path ∈ run.paths, IsSimplePath config (Follows neighbors) source target path
  visitedDistinct : run.visited.Nodup
  visitedFew : run.visited.length ≤ config.maxVisitedNodes
  admitted : source ≠ target → ∀ path ∈ run.paths, path ⊆ run.visited
  keptForward : ∀ node, (run.fwdPaths node).Nodup ∧ ∀ path ∈ run.fwdPaths node,
    IsSimplePath config (Follows neighbors) source node path
  keptBackward : ∀ node, (run.bwdPaths node).Nodup ∧ ∀ path ∈ run.bwdPaths node,
    IsSimplePath config (Follows predecessors) target node path
  found : run.budgetExhausted = false → run.limitReached = false → run.paths.length < config.k →
    ∀ path, IsSimplePath config (Follows neighbors) source target path →
      path ∈ run.paths ∨
        (TurnedAway config run.fwdPaths path ∧ TurnedAway config run.bwdPaths path.reverse)

theorem correct_endedEarly {budgetExhausted : Bool} {visited : List EntityId}
    (excused : config.k = 0 ∨ budgetExhausted = true) (distinct : visited.Nodup)
    (few : visited.length ≤ config.maxVisitedNodes) :
    (endedEarly [] budgetExhausted visited).Correct config neighbors predecessors source target where
  distinct := nodup_nil
  few := Nat.zero_le _
  isPath _ isFound := absurd isFound not_mem_nil
  visitedDistinct := distinct
  visitedFew := few
  admitted _ _ isFound := absurd isFound not_mem_nil
  keptForward _ := ⟨nodup_nil, fun _ kept => absurd kept not_mem_nil⟩
  keptBackward _ := ⟨nodup_nil, fun _ kept => absurd kept not_mem_nil⟩
  found inBudget _ fewer := by
    rcases excused with none | exhausted
    · rw [none] at fewer
      exact absurd fewer (Nat.not_lt_zero _)
    · exact absurd (exhausted.symm.trans inBudget) Bool.noConfusion

theorem correct_same (positive : 0 < config.k) :
    (endedEarly [[source]] false []).Correct config neighbors predecessors source source where
  distinct := nodup_singleton _
  few := positive
  isPath path isFound := by
    cases mem_singleton.mp isFound
    exact ⟨⟨rfl, isChain_singleton _, nodup_singleton _, Nat.zero_le _⟩, rfl⟩
  visitedDistinct := nodup_nil
  visitedFew := Nat.zero_le _
  admitted different := absurd rfl different
  keptForward _ := ⟨nodup_nil, fun _ kept => absurd kept not_mem_nil⟩
  keptBackward _ := ⟨nodup_nil, fun _ kept => absurd kept not_mem_nil⟩
  found _ _ _ path isPath := by
    rw [isPath.eq_singleton]
    exact .inl mem_cons_self

theorem KPathState.Sound.correct {limitReached : Bool}
    (sound : state.Sound config neighbors predecessors source target)
    (mirror : ∀ u v, Follows neighbors u v ↔ Follows predecessors v u)
    (ends : limitReached = false → state.shared.Done config ∨
      (state.fwd.heap = [] ∧ state.bwd.heap = [])) :
    KPathRun.Correct config neighbors predecessors source target
      ⟨state.shared.found, state.shared.budgetExhausted, state.shared.visited, state.fwd.paths,
        state.bwd.paths, limitReached⟩ where
  distinct := sound.counted.foundDistinct
  few := sound.counted.foundLe
  isPath path isFound := by
    obtain ⟨first, last, chain⟩ := sound.counted.foundWhole path isFound
    obtain ⟨simple, short⟩ := sound.counted.foundSimple path isFound
    exact ⟨⟨first, chain, simple, short⟩, last⟩
  visitedDistinct := sound.counted.visitedDistinct
  visitedFew := sound.counted.visitedLe
  admitted _ := sound.counted.foundVisited
  keptForward node := ⟨sound.fwd.distinct node, fun path kept =>
    ⟨sound.fwd.isPartial node path kept, sound.fwd.last node path kept⟩⟩
  keptBackward node := ⟨sound.bwd.distinct node, fun path kept =>
    ⟨sound.bwd.isPartial node path kept, sound.bwd.last node path kept⟩⟩
  found inBudget noLimit fewer path isPath := by
    have notDone : ¬ state.shared.Done config := fun done => done.elim
      (fun enough => absurd fewer (not_lt.mpr enough))
      fun exhausted => Bool.noConfusion (exhausted.symm.trans inBudget)
    exact sound.found_or_turnedAway mirror (sound.tracks.resolve_left notDone)
      ((ends noLimit).resolve_left notDone) isPath

theorem kPathRun_correct [Zero K] [LinearOrder K] (queue : Heap (HeapItem K) HeapItem.le) (farther : K → K → K)
    (mirror : ∀ u v, Follows neighbors u v ↔ Follows predecessors v u) :
    (kPathRun queue farther config neighbors predecessors source target).Correct config neighbors
      predecessors source target := by
  rw [kPathRun]
  split_ifs with none same noRoom oneRoom
  · exact correct_endedEarly (.inl none) nodup_nil (Nat.zero_le _)
  · subst same
    exact correct_same (Nat.pos_of_ne_zero none)
  · exact correct_endedEarly (.inr rfl) nodup_nil (Nat.zero_le _)
  · exact correct_endedEarly (.inr rfl) (nodup_singleton _) (Nat.pos_of_ne_zero noRoom)
  · obtain ⟨sound, ends⟩ := kPathLoop_sound mirror queue farther (config.maxHops * 1000 + 100)
      (kPathStart_sound same (not_le.mp oneRoom))
    exact sound.correct mirror ends

end Runs


end Search

namespace PathRAGEngine

variable {K : Type} [Zero K] [Mul K] [LinearOrder K]

theorem kPaths_correct (queue : Heap (HeapItem K) HeapItem.le) (farther : K → K → K)
    (weightOf : F32 → K) (engine : PathRAGEngine K) (source target : EntityId)
    (config : KPathConfig) (mirrored : engine.Mirrored weightOf) :
    (engine.kPaths queue farther weightOf source target config).Correct config
      (engine.getExpandedNeighbors weightOf) (engine.getExpandedPredecessors weightOf) source
      target :=
  kPathRun_correct queue farther mirrored

/-- A short walk with a long last edge, and two detours that come first at its nodes. -/
def detours : PathRAGEngine ℚ where
  graph := .ofEdges [(0, 2, 1), (2, 4, 1), (4, 5, 1), (0, 3, 1 / 10), (3, 5, 1), (3, 6, 1),
    (6, 7, 1), (7, 1, 1), (5, 1, 1 / 10)]
  config := ⟨3, false, 1⟩

theorem detours_mirrored : detours.Mirrored fun _ => 1 :=
  mirrored_of_graph (PathGraph.mirrored_ofEdges _) fun expands => Bool.noConfusion expands

theorem detours_correct :
    (detours.kPaths (Heap.searched HeapItem.le HeapItem.le_total HeapItem.le_trans) exactHop
      (fun _ => 1) 0 1 ⟨1, 8, 3⟩).Correct ⟨1, 8, 3⟩ (detours.getExpandedNeighbors fun _ => 1)
      (detours.getExpandedPredecessors fun _ => 1) 0 1 :=
  kPaths_correct _ _ _ _ _ _ _ detours_mirrored

/-- The only path is not found: both detours come first. -/
theorem detours_miss_path :
    let run := detours.kPaths (Heap.searched HeapItem.le HeapItem.le_total HeapItem.le_trans)
      exactHop (fun _ => 1) 0 1 ⟨1, 8, 3⟩
    detours.Mirrored (fun _ => 1) ∧ run.budgetExhausted = false ∧ run.limitReached = false ∧
      run.paths = [] ∧
      IsSimplePath ⟨1, 8, 3⟩ (Follows (detours.getExpandedNeighbors fun _ => 1)) 0 1 [0, 3, 5, 1] := by
  refine ⟨detours_mirrored, by decide +kernel, by decide +kernel, by decide +kernel, ?_⟩
  refine ⟨⟨rfl, ?_, by decide, by decide⟩, rfl⟩
  exact .cons_cons ⟨1 / 10, by decide +kernel⟩ (.cons_cons ⟨1, by decide⟩
    (.cons_cons ⟨1 / 10, by decide +kernel⟩ (.singleton _)))

end PathRAGEngine

end Contextra.Graph
