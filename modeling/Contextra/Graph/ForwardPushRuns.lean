import Contextra.Graph.CsrMutations
import Contextra.Graph.TraversalScores

/-!
# The identity of forward push

Rank and residual are the settled part and the residual of a diffusion, in which the column of a
node is its share of the weight of every neighbour, and uniform on the seeds for a node without
neighbours.
-/

namespace Contextra.Graph

open Library List Option
open Library.SortedMap

section Runs

variable {K : Type} [Field K] [LinearOrder K] [IsStrictOrderedRing K]
  {exact : F32 → K} {inner : GraphInner K} {deletedNodes : DeletedView}

/-- Seeds as `collect_valid_seeds` leaves them. -/
structure ValidSeeds (inner : GraphInner K) (deletedNodes : DeletedView) (seeds : List Nat) :
    Prop where
  nonempty : seeds ≠ []
  distinct : seeds.Nodup
  live : ∀ seed ∈ seeds, isLive inner deletedNodes seed = true

omit [Field K] [LinearOrder K] [IsStrictOrderedRing K] in
theorem validSeeds_collected {seedNodes : List EntityId}
    (nonempty : collectValidSeeds inner deletedNodes seedNodes ≠ []) :
    ValidSeeds inner deletedNodes (collectValidSeeds inner deletedNodes seedNodes) where
  nonempty := nonempty
  distinct := nodup_reverse.mpr (nodup_dedup _)
  live := by
    intro seed isSeed
    rw [collectValidSeeds, mem_reverse, mem_dedup, mem_reverse,
      mem_filterMap] at isSeed
    obtain ⟨entity, -, found⟩ := isSeed
    obtain ⟨-, checked⟩ := filter_eq_some_iff.mp found
    exact (Bool.and_eq_true _ _ ▸ checked).2

noncomputable def uniform (seeds : List Nat) : Nat →₀ K :=
  massesOf (seeds.map fun seed => (seed, (1 : K) / seeds.length))

/-- Where the mass of a node goes. -/
noncomputable def column (exact : F32 → K) (inner : GraphInner K) (deletedNodes : DeletedView)
    (seeds : List Nat) (node : Nat) : Nat →₀ K :=
  let weight := computeNodeOutWeightSum exact inner deletedNodes node
  if 0 < weight then
    massesOf ((neighbors exact inner deletedNodes node).map fun neighbor =>
      (neighbor.1, neighbor.2 / weight))
  else uniform seeds

omit [LinearOrder K] [IsStrictOrderedRing K] in
theorem totalMass_massesOf (entries : List (Nat × K)) :
    totalMass (massesOf entries) = (entries.map Prod.snd).sum := by
  induction entries with
  | nil => exact map_zero _
  | cons entry entries ih =>
    rw [massesOf_cons, map_add, totalMass_single, ih, map_cons,
      sum_cons]

omit [LinearOrder K] [IsStrictOrderedRing K] in
theorem massesOf_scaled {α : Type} (scale : K) (key : α → Nat) (mass : α → K) (entries : List α) :
    massesOf (entries.map fun entry => (key entry, scale * mass entry)) =
      scale • massesOf (entries.map fun entry => (key entry, mass entry)) := by
  induction entries with
  | nil => exact (smul_zero _).symm
  | cons entry entries ih =>
    rw [map_cons, map_cons, massesOf_cons, massesOf_cons, ih, smul_add,
      Finsupp.smul_single, smul_eq_mul]

theorem totalMass_uniform {seeds : List Nat} (nonempty : seeds ≠ []) :
    totalMass (uniform (K := K) seeds) = 1 := by
  have count : (seeds.length : K) ≠ 0 :=
    Nat.cast_ne_zero.mpr (length_pos_iff.mpr nonempty).ne'
  rw [uniform, totalMass_massesOf, List.map_map]
  calc (seeds.map (Prod.snd ∘ fun seed => (seed, (1 : K) / seeds.length))).sum
      = (seeds.map fun _ => (1 : K) / seeds.length).sum := rfl
    _ = seeds.length * (1 / seeds.length) := by
        rw [map_const', sum_replicate, nsmul_eq_mul]
    _ = 1 := mul_one_div_cancel count

theorem totalMass_column {seeds : List Nat} (nonempty : seeds ≠ []) (node : Nat) :
    totalMass (column exact inner deletedNodes seeds node) = 1 := by
  unfold column
  simp only
  split_ifs with positive
  · rw [totalMass_massesOf, List.map_map]
    calc ((neighbors exact inner deletedNodes node).map (Prod.snd ∘ fun neighbor =>
          (neighbor.1, neighbor.2 / computeNodeOutWeightSum exact inner deletedNodes node))).sum
        = ((neighbors exact inner deletedNodes node).map fun neighbor =>
            neighbor.2 / computeNodeOutWeightSum exact inner deletedNodes node).sum := rfl
      _ = computeNodeOutWeightSum exact inner deletedNodes node /
            computeNodeOutWeightSum exact inner deletedNodes node := by
          simp only [div_eq_mul_inv]
          rw [sum_map_mul_right]
          rfl
      _ = 1 := div_self positive.ne'
  · exact totalMass_uniform nonempty

omit [IsStrictOrderedRing K] in
theorem neighbors_live {node : Nat} {neighbor : Nat × K}
    (isNeighbor : neighbor ∈ neighbors exact inner deletedNodes node) :
    isLive inner deletedNodes neighbor.1 = true ∧ 0 < neighbor.2 := by
  rcases mem_append.mp isNeighbor with isEdge | isStar
  · obtain ⟨edge, kept, rfl⟩ := List.mem_map.mp isEdge
    obtain ⟨live, positive⟩ := Bool.and_eq_true_iff.mp (mem_filter.mp kept).2
    exact ⟨live, of_decide_eq_true positive⟩
  · cases isSource : inner.reverseMap[node]? with
    | none =>
      rw [isSource] at isStar
      cases isStar
    | some source =>
      simp only [isSource] at isStar
      obtain ⟨id, -, isStar⟩ := mem_flatMap.mp isStar
      cases isHedge : inner.tables.hyperedges[id]? with
      | none =>
        rw [isHedge] at isStar
        cases isStar
      | some hedge =>
        simp only [isHedge, starNeighbors] at isStar
        split_ifs at isStar with open' positive
        · obtain ⟨participant, -, found⟩ := mem_filterMap.mp isStar
          split_ifs at found
          obtain ⟨target, isTarget, rfl⟩ := map_eq_some_iff.mp found
          obtain ⟨-, checked⟩ := filter_eq_some_iff.mp isTarget
          exact ⟨(Bool.and_eq_true_iff.mp checked).2, positive⟩
        · cases isStar
        · cases isStar

omit [IsStrictOrderedRing K] in
theorem foldl_considerCandidate {sums : List K} {epsilon : K} {entries : List (Nat × K)}
    {best : Option (Candidate K)} :
    (∀ candidate, entries.foldl (considerCandidate sums epsilon) best = some candidate →
      best = some candidate ∨ ∃ entry ∈ entries, candidate = candidateOf sums entry ∧ 0 < entry.2) ∧
    (entries.foldl (considerCandidate sums epsilon) best = none → best = none ∧
      ∀ entry ∈ entries, entry.2 ≤ 0 ∨ (candidateOf sums entry).ratio ≤ epsilon) := by
  induction entries generalizing best with
  | nil =>
    exact ⟨fun candidate same => Or.inl same,
      fun none => ⟨none, fun entry inside => absurd inside not_mem_nil⟩⟩
  | cons entry entries ih =>
    rw [foldl_cons]
    obtain ⟨found, notFound⟩ := @ih (considerCandidate sums epsilon best entry)
    constructor
    · intro candidate same
      rcases found candidate same with isBest | ⟨other, inside, rest⟩
      · unfold considerCandidate at isBest
        by_cases spent : entry.2 ≤ 0
        · rw [if_pos spent] at isBest
          exact Or.inl isBest
        · rw [if_neg spent] at isBest
          have isEntry : some (candidateOf sums entry) = some candidate →
              ∃ other ∈ entry :: entries, candidate = candidateOf sums other ∧ 0 < other.2 :=
            fun same => ⟨entry, mem_cons_self, (some.inj same).symm, lt_of_not_ge spent⟩
          split_ifs at isBest with above
          · cases best with
            | none => exact Or.inr (isEntry isBest)
            | some before =>
              simp only at isBest
              split_ifs at isBest with better
              · exact Or.inr (isEntry isBest)
              · exact Or.inl isBest
          · exact Or.inl isBest
      · exact Or.inr ⟨other, mem_cons_of_mem _ inside, rest⟩
    · intro none
      obtain ⟨isNone, rest⟩ := notFound none
      have isEntry : best = Option.none ∧
          (entry.2 ≤ 0 ∨ (candidateOf sums entry).ratio ≤ epsilon) := by
        unfold considerCandidate at isNone
        by_cases spent : entry.2 ≤ 0
        · rw [if_pos spent] at isNone
          exact ⟨isNone, Or.inl spent⟩
        · rw [if_neg spent] at isNone
          split_ifs at isNone with above
          · cases best with
            | none => cases isNone
            | some before =>
              simp only at isNone
              split_ifs at isNone
          · exact ⟨isNone, Or.inr (le_of_not_gt above)⟩
      refine ⟨isEntry.1, fun other inside => ?_⟩
      rcases mem_cons.mp inside with rfl | inside
      · exact isEntry.2
      · exact rest other inside

/-- What holds of rank and residual after any number of pushes. -/
structure Pushed (exact : F32 → K) (inner : GraphInner K) (deletedNodes : DeletedView)
    (args : PushArgs K) (state : PushState K) : Prop where
  rank : ∀ entry ∈ state.rank.entries, 0 ≤ entry.2
  residual : ∀ entry ∈ state.residual.entries, isLive inner deletedNodes entry.1 = true ∧ 0 < entry.2
  balanced : Balanced args.alpha (uniform args.validSeeds)
    (column exact inner deletedNodes args.validSeeds) state.rank.masses state.residual.masses
  total : totalMass state.rank.masses + totalMass state.residual.masses = 1

/-- The cached sums are the sums of the weights that a push distributes. -/
def Cached (exact : F32 → K) (inner : GraphInner K) (deletedNodes : DeletedView)
    (outWeightSums : List K) : Prop :=
  ∀ node, isLive inner deletedNodes node = true →
    outWeight outWeightSums node = computeNodeOutWeightSum exact inner deletedNodes node

omit [IsStrictOrderedRing K] in
theorem foldl_add_live {α : Type} {target : α → Nat} {mass : α → K} {elements : List α}
    {residual : SortedMap Nat K}
    (before : ∀ entry ∈ residual.entries, isLive inner deletedNodes entry.1 = true ∧ 0 < entry.2)
    (added : ∀ element ∈ elements, isLive inner deletedNodes (target element) = true ∧
      0 < mass element) [IsOrderedAddMonoid K] :
    ∀ entry ∈ (elements.foldl
        (fun residual element => residual.add (target element) (mass element)) residual).entries,
      isLive inner deletedNodes entry.1 = true ∧ 0 < entry.2 := by
  induction elements generalizing residual with
  | nil => exact before
  | cons element elements ih =>
    obtain ⟨live, positive⟩ := added element mem_cons_self
    rw [foldl_cons]
    refine ih ?_ fun other inside => added other (mem_cons_of_mem _ inside)
    refine @add_forall _ _ _ _ _ (fun node mass => isLive inner deletedNodes node = true ∧ 0 < mass)
      _ _ before ⟨live, ?_⟩ fun amount => ?_
    · rw [zero_add]
      exact positive
    · rintro ⟨-, some⟩
      exact ⟨live, add_pos some positive⟩

omit [IsStrictOrderedRing K] in
theorem cached_computed
    (inside : ∀ node, isLive inner deletedNodes node = true → node < inner.reverseMap.length) :
    Cached exact inner deletedNodes (computeOutWeightSums exact inner deletedNodes) := by
  intro node live
  rw [outWeight, computeOutWeightSums, getElem?_map, getElem?_range (inside node live)]
  simp only [map_some, getD_some, live, if_true]

theorem restartProbability_inside (dampingFactor : K) :
    0 < restartProbability dampingFactor ∧ restartProbability dampingFactor < 1 := by
  unfold restartProbability
  split_ifs with senseless
  · constructor <;> norm_num
  · obtain ⟨positive, below⟩ := not_or.mp senseless
    constructor <;> linarith

variable {args : PushArgs K}

theorem pushed_start (seeds : ValidSeeds inner deletedNodes args.validSeeds) :
    Pushed exact inner deletedNodes args (startState args) := by
  have share : (0 : K) < 1 / args.validSeeds.length :=
    one_div_pos.mpr (Nat.cast_pos.mpr (length_pos_iff.mpr seeds.nonempty))
  -- no seed is inserted twice
  have inserted (remaining : List Nat) (residual : SortedMap Nat K) (distinct : remaining.Nodup)
      (absent : ∀ seed ∈ remaining, residual.lookup seed = none) :
      remaining.foldl (fun residual seed => residual.insert seed (1 / args.validSeeds.length))
          residual =
        remaining.foldl (fun residual seed => residual.add seed (1 / args.validSeeds.length))
          residual := by
    induction remaining generalizing residual with
    | nil => rfl
    | cons seed remaining ih =>
      obtain ⟨fresh, distinct⟩ := nodup_cons.mp distinct
      have same : residual.add seed (1 / (args.validSeeds.length : K)) =
          residual.insert seed (1 / args.validSeeds.length) := by
        rw [add, absent seed mem_cons_self, getD_none, zero_add]
      rw [foldl_cons, foldl_cons, same]
      refine ih _ distinct fun other inside => ?_
      rw [lookup_insert_ne]
      · exact absent other (mem_cons_of_mem _ inside)
      · rintro rfl
        exact fresh inside
  have started : (startState args).residual = shareAmongSeeds args (1 / args.validSeeds.length)
      .empty := inserted _ _ seeds.distinct fun seed _ => lookup_empty seed
  have residualMasses : (startState args).residual.masses = uniform args.validSeeds := by
    rw [started, shareAmongSeeds]
    exact (foldl_add_masses id _ _).trans (zero_add _)
  refine ⟨fun entry inside => absurd inside not_mem_nil, ?_, ?_, ?_⟩
  · rw [started]
    exact foldl_add_live (fun entry inside => absurd inside not_mem_nil)
      fun seed isSeed => ⟨seeds.live seed isSeed, share⟩
  · rw [residualMasses]
    exact balanced_start
  · rw [residualMasses, totalMass_uniform seeds.nonempty]
    exact (congrArg (· + (1 : K)) (map_zero _)).trans (zero_add _)

theorem Pushed.push {state : PushState K} {candidate : Candidate K}
    (pushed : Pushed exact inner deletedNodes args state)
    (seeds : ValidSeeds inner deletedNodes args.validSeeds)
    (cached : Cached exact inner deletedNodes args.outWeightSums)
    (restarts : 0 < args.alpha) (walks : args.alpha < 1)
    (selected : selectBestPushCandidate state.residual args.outWeightSums args.epsilon =
      some candidate) :
    Pushed exact inner deletedNodes args
      (pushCandidate exact inner deletedNodes args state candidate) := by
  obtain ⟨⟨node, mass⟩, isEntry, rfl, positive⟩ :=
    (foldl_considerCandidate.1 candidate selected).resolve_left (some_ne_none candidate).symm
  obtain ⟨live, -⟩ := pushed.residual _ isEntry
  have found : state.residual.lookup node = some mass := lookup_eq_some.mpr isEntry
  have pushMass : 0 < (1 - args.alpha) * mass := mul_pos (sub_pos.mpr walks) positive
  have rankMasses : (state.rank.add node (args.alpha * mass)).masses =
      state.rank.masses + Finsupp.single node (args.alpha * mass) := masses_add ..
  have rank : ∀ entry ∈ (state.rank.add node (args.alpha * mass)).entries, 0 ≤ entry.2 := by
    have share : 0 ≤ args.alpha * mass := (mul_pos restarts positive).le
    refine @add_forall _ _ _ _ _ (fun _ mass => 0 ≤ mass) _ _ pushed.rank ?_
      fun before nonneg => ?_
    · rw [zero_add]
      exact share
    · exact add_nonneg nonneg share
  have rest : ∀ entry ∈ (state.residual.erase node).entries,
      isLive inner deletedNodes entry.1 = true ∧ 0 < entry.2 :=
    fun entry inside => pushed.residual entry (mem_erase.mp inside).1
  -- what is left of the residual, with the column of the node
  have handedOn (residual : SortedMap Nat K)
      (isLiveResidual : ∀ entry ∈ residual.entries,
        isLive inner deletedNodes entry.1 = true ∧ 0 < entry.2)
      (masses : residual.masses = (state.residual.erase node).masses +
        ((1 - args.alpha) * mass) • column exact inner deletedNodes args.validSeeds node) :
      Pushed exact inner deletedNodes args
        ⟨state.rank.add node (args.alpha * mass), residual⟩ := by
    have balanced := pushed.balanced
    have total := pushed.total
    rw [masses_erase found] at balanced total
    refine ⟨rank, isLiveResidual, ?_, ?_⟩
    · rw [rankMasses, masses]
      exact balanced.push
    · rw [rankMasses, masses, totalMass_push (totalMass_column seeds.nonempty node)]
      exact total
  have weight := cached node live
  simp only [pushCandidate, candidateOf]
  rw [if_neg (not_le.mpr pushMass)]
  by_cases weighted : 0 < outWeight args.outWeightSums node
  · rw [if_pos weighted]
    refine handedOn _ ?_ ?_
    · refine foldl_add_live rest fun neighbor isNeighbor => ?_
      obtain ⟨liveNeighbor, positiveWeight⟩ := neighbors_live isNeighbor
      exact ⟨liveNeighbor, mul_pos pushMass (div_pos positiveWeight weighted)⟩
    · rw [pushMassToNeighbors, foldl_add_masses, massesOf_scaled, column, weight]
      rw [weight] at weighted
      simp only [weighted, if_true]
  · rw [if_neg weighted]
    refine handedOn _ ?_ ?_
    · refine foldl_add_live rest fun seed isSeed => ⟨seeds.live seed isSeed, ?_⟩
      exact div_pos pushMass (Nat.cast_pos.mpr (length_pos_iff.mpr seeds.nonempty))
    · have shares : shareAmongSeeds args ((1 - args.alpha) * mass / args.validSeeds.length)
          (state.residual.erase node) = args.validSeeds.foldl (fun residual seed =>
            residual.add (id seed) ((1 - args.alpha) * mass * (1 / args.validSeeds.length)))
          (state.residual.erase node) := by
        rw [shareAmongSeeds, mul_one_div]
        rfl
      rw [shares, foldl_add_masses, massesOf_scaled, column, ← weight]
      simp only [weighted, if_false]
      rfl

theorem Pushed.run {state : PushState K} (pushed : Pushed exact inner deletedNodes args state)
    (seeds : ValidSeeds inner deletedNodes args.validSeeds)
    (cached : Cached exact inner deletedNodes args.outWeightSums)
    (restarts : 0 < args.alpha) (walks : args.alpha < 1) (steps : Nat) :
    Pushed exact inner deletedNodes args
        (runForwardPushLoop exact inner deletedNodes args steps state).2 ∧
      ((runForwardPushLoop exact inner deletedNodes args steps state).1 = false →
        selectBestPushCandidate
          (runForwardPushLoop exact inner deletedNodes args steps state).2.residual
          args.outWeightSums args.epsilon = none) := by
  induction steps generalizing state with
  | zero => exact ⟨pushed, fun impossible => by cases impossible⟩
  | succ steps ih =>
    rw [runForwardPushLoop]
    cases selected : selectBestPushCandidate state.residual args.outWeightSums args.epsilon with
    | none => exact ⟨pushed, fun _ => selected⟩
    | some candidate =>
      exact ih (pushed.push seeds cached restarts walks selected)

/-- After any number of pushes rank and residual are not negative, add up to one and keep the
identity of the random walk with restarts; when the loop ends before its limit, no residual
exceeds the threshold of its node. -/
theorem forwardPush_identity (seeds : ValidSeeds inner deletedNodes args.validSeeds)
    (cached : Cached exact inner deletedNodes args.outWeightSums)
    (restarts : 0 < args.alpha) (walks : args.alpha < 1) (steps : Nat) :
    let (usedUp, state) :=
      runForwardPushLoop exact inner deletedNodes args steps (startState args)
    (∀ entry ∈ state.rank.entries, 0 ≤ entry.2) ∧ (∀ entry ∈ state.residual.entries, 0 ≤ entry.2) ∧
      (state.rank.entries.map Prod.snd).sum + (state.residual.entries.map Prod.snd).sum = 1 ∧
      args.alpha • state.residual.masses + state.rank.masses =
        args.alpha • uniform args.validSeeds + (1 - args.alpha) •
          handOn (column exact inner deletedNodes args.validSeeds) state.rank.masses ∧
      (usedUp = false → ∀ entry ∈ state.residual.entries,
        entry.2 ≤ args.epsilon * (if 0 < outWeight args.outWeightSums entry.1 then
          outWeight args.outWeightSums entry.1 else 1)) := by
  have started : Pushed exact inner deletedNodes args (startState args) := pushed_start seeds
  obtain ⟨pushed, ended⟩ := started.run seeds cached restarts walks steps
  refine ⟨pushed.rank, fun entry inside => (pushed.residual entry inside).2.le, ?_,
    pushed.balanced, fun early entry inside => ?_⟩
  · have total := pushed.total
    rw [masses, masses, totalMass_massesOf, totalMass_massesOf] at total
    exact total
  · obtain ⟨-, small⟩ := foldl_considerCandidate.2 (ended early)
    have below := (small entry inside).resolve_left (not_le.mpr (pushed.residual entry inside).2)
    simp only [candidateOf] at below
    split_ifs at below ⊢ with weighted
    · exact (div_le_iff₀ weighted).mp below
    · rw [mul_one]
      exact below

end Runs

/-- Three entities, an edge from the first to the second, and a hyperedge of the first and the
third. -/
def smallGraph : GraphInner ℚ where
  idMap := .ofList [(11, 0), (12, 1), (13, 2)]
  reverseMap := [11, 12, 13]
  entities := [11, 12, 13]
  offsets := [0, 1, 1, 1]
  edges := [⟨1, 3, 0, 0, i64Min, i64Min, 0⟩]
  outWeightSums := [3, 0, 0]
  stagedEntities := []
  stagedEdges := []
  stagedRemovals := []
  pendingEdges := (∅ : Std.TreeMap Nat (List (EdgePayload ℚ))).insert 1
    [⟨2, 5, none, none, none, none, none⟩]
  tombstonedEdges := ∅
  pendingEdgeCount := 1
  isDirty := true
  tables := HyperedgeTables.new.insertHyperedgeDirect (.new 1 .default [⟨0, 11⟩, ⟨1, 13⟩] .one)

def smallArgs : PushArgs ℚ where
  alpha := 1 / 4
  epsilon := 1 / 100
  validSeeds := [0]
  outWeightSums := [5, 5, 2]

theorem forwardPush_identity_three :
    let (_, state) := runForwardPushLoop (fun _ => 1) smallGraph ∅ smallArgs 3 (startState smallArgs)
    (state.rank.entries = [(0, 1 / 4), (1, 9 / 80), (2, 3 / 40)] ∧
      (state.rank.entries.map Prod.snd).sum + (state.residual.entries.map Prod.snd).sum = 1) := by
  have live (node : Nat) (isLive : isLive smallGraph ∅ node = true) : node < 3 := by
    by_contra beyond
    obtain ⟨later, rfl⟩ := Nat.exists_eq_add_of_le (not_lt.mp beyond)
    rw [Nat.add_comm] at isLive
    cases isLive
  have seeds : ValidSeeds smallGraph ∅ smallArgs.validSeeds :=
    ⟨by decide +kernel, by decide +kernel, by decide +kernel⟩
  have cached : Cached (fun _ => 1) smallGraph ∅ smallArgs.outWeightSums := by
    intro node isLive
    have below := live node isLive
    interval_cases node <;> decide +kernel
  have identity := forwardPush_identity seeds cached (by decide +kernel) (by decide +kernel) 3
  exact ⟨by decide +kernel, identity.2.2.1⟩

section Results

variable {K : Type} [Field K] [LinearOrder K] [IsStrictOrderedRing K] {exact : F32 → K}
  {inner : GraphInner K} {deletedNodes : DeletedView} {args : PushArgs K}

/-- Rank only ever goes to live nodes, be the sums right or not. -/
theorem rank_live {state : PushState K} (seeds : ValidSeeds inner deletedNodes args.validSeeds)
    (restarts : 0 < args.alpha) (walks : args.alpha < 1)
    (rank : ∀ entry ∈ state.rank.entries, isLive inner deletedNodes entry.1 = true ∧ 0 < entry.2)
    (residual : ∀ entry ∈ state.residual.entries,
      isLive inner deletedNodes entry.1 = true ∧ 0 < entry.2) (steps : Nat) :
    ∀ entry ∈ (runForwardPushLoop exact inner deletedNodes args steps state).2.rank.entries,
      isLive inner deletedNodes entry.1 = true ∧ 0 < entry.2 := by
  induction steps generalizing state with
  | zero => exact rank
  | succ steps ih =>
    rw [runForwardPushLoop]
    cases selected : selectBestPushCandidate state.residual args.outWeightSums args.epsilon with
    | none => exact rank
    | some candidate =>
      obtain ⟨⟨node, mass⟩, isEntry, rfl, positive⟩ :=
        (foldl_considerCandidate.1 candidate selected).resolve_left (some_ne_none candidate).symm
      have added : ∀ entry ∈ (state.rank.add node (args.alpha * mass)).entries,
          isLive inner deletedNodes entry.1 = true ∧ 0 < entry.2 :=
        @foldl_add_live K _ _ inner deletedNodes Unit (fun _ => node) (fun _ => args.alpha * mass)
          [()] _ rank (fun _ _ => ⟨(residual _ isEntry).1, mul_pos restarts positive⟩) _
      have rest : ∀ entry ∈ (state.residual.erase node).entries,
          isLive inner deletedNodes entry.1 = true ∧ 0 < entry.2 :=
        fun entry inside => residual entry (mem_erase.mp inside).1
      have pushMass : 0 < (1 - args.alpha) * mass := mul_pos (sub_pos.mpr walks) positive
      simp only [pushCandidate, candidateOf, if_neg (not_le.mpr pushMass)]
      split_ifs with weighted
      · refine ih added (foldl_add_live rest fun neighbor isNeighbor => ?_)
        obtain ⟨live, positiveWeight⟩ := neighbors_live isNeighbor
        exact ⟨live, mul_pos pushMass (div_pos positiveWeight weighted)⟩
      · exact ih added (foldl_add_live rest fun seed isSeed => ⟨seeds.live seed isSeed,
          div_pos pushMass (Nat.cast_pos.mpr (length_pos_iff.mpr seeds.nonempty))⟩)

omit [IsStrictOrderedRing K] in
theorem GraphInner.WellFormed.indexOf_live (wellFormed : inner.WellFormed) {node : Nat}
    (live : isLive inner deletedNodes node = true) :
    ∃ id, inner.reverseMap[node]? = some id ∧ inner.idMap[id]? = some node := by
  obtain ⟨id, isEntity⟩ := Option.isSome_iff_exists.mp (Bool.and_eq_true_iff.mp live).2
  have indexed := wellFormed.entity node id isEntity
  exact ⟨id, wellFormed.indexed id node indexed, indexed⟩

omit [Field K] [IsStrictOrderedRing K] in
theorem resultBefore_sorted (results : List (EntityId × K)) :
    (results.insertionSort resultBefore).Pairwise resultBefore := by
  have total : Std.Total (resultBefore (K := K)) := ⟨fun a b => by unfold resultBefore; grind⟩
  have trans : IsTrans (EntityId × K) resultBefore := ⟨fun a b c => by unfold resultBefore; grind⟩
  exact pairwise_insertionSort _ _

/-- A distribution over live entities, each once, by falling rank. -/
structure Distribution (inner : GraphInner K) (deletedNodes : DeletedView)
    (results : List (EntityId × K)) : Prop where
  total : results = [] ∨ (results.map Prod.snd).sum = 1
  live : ∀ result ∈ results, 0 < result.2 ∧
    ∃ node : Nat, inner.idMap[result.1]? = some node ∧ isLive inner deletedNodes node = true
  sorted : results.Pairwise fun a b => b.2 < a.2 ∨ a.2 = b.2 ∧ a.1 < b.1

theorem extractPushResults_distribution (wellFormed : inner.WellFormed) {rank : SortedMap Nat K}
    (live : ∀ entry ∈ rank.entries, isLive inner deletedNodes entry.1 = true ∧ 0 < entry.2) :
    Distribution inner deletedNodes (extractPushResults inner deletedNodes rank) := by
  let totalSum := (rank.entries.map Prod.snd).sum
  let result (entry : Nat × K) : EntityId × K :=
    ((inner.reverseMap[entry.1]?).getD 0, entry.2 / totalSum)
  rcases eq_or_ne rank.entries [] with none | some
  · have isEmpty : extractPushResults inner deletedNodes rank = [] := by
      simp [extractPushResults, none]
    rw [isEmpty]
    exact ⟨.inl rfl, fun _ impossible => absurd impossible not_mem_nil, Pairwise.nil⟩
  · have positive : 0 < totalSum := sum_pos _
      (forall_mem_map.mpr fun entry isEntry => (live entry isEntry).2) (by simpa using some)
    have ranked : rank.entries.filterMap (resultOf inner deletedNodes totalSum) =
        rank.entries.map result := by
      rw [← filterMap_eq_map]
      refine filterMap_congr fun entry isEntry => ?_
      obtain ⟨isLive, mass⟩ := live entry isEntry
      obtain ⟨id, isId, -⟩ := wellFormed.indexOf_live isLive
      simp [resultOf, result, isLive, isId, positive, div_pos mass positive]
    have perm : (extractPushResults inner deletedNodes rank).Perm (rank.entries.map result) :=
      (perm_insertionSort _ _).trans (.of_eq ranked)
    have distinct : (rank.entries.map result).Pairwise fun a b => a.1 ≠ b.1 := by
      refine pairwise_map.mpr (rank.sorted.imp_of_mem fun isA isB less same => ?_)
      obtain ⟨id, isId, indexed⟩ := wellFormed.indexOf_live (live _ isA).1
      obtain ⟨id', isId', indexed'⟩ := wellFormed.indexOf_live (live _ isB).1
      simp only [result, isId, isId', getD_some] at same
      rw [same, indexed'] at indexed
      exact less.ne' (Option.some.inj indexed)
    refine ⟨.inr ?_, fun found isResult => ?_, ?_⟩
    · rw [(perm.map Prod.snd).sum_eq, List.map_map]
      simp only [Function.comp_def, result, div_eq_mul_inv]
      rw [sum_map_mul_right]
      exact mul_inv_cancel₀ positive.ne'
    · obtain ⟨entry, isEntry, rfl⟩ := mem_map.mp (perm.mem_iff.mp isResult)
      obtain ⟨isLive, mass⟩ := live entry isEntry
      obtain ⟨id, isId, indexed⟩ := wellFormed.indexOf_live isLive
      refine ⟨div_pos mass positive, entry.1, ?_, isLive⟩
      simpa only [result, isId, getD_some] using indexed
    · have apart := (perm.symm.pairwise_iff Ne.symm).mp distinct
      refine ((resultBefore_sorted _).and apart).imp fun ⟨before, different⟩ => ?_
      exact before.imp_right fun ⟨same, le⟩ => ⟨same, lt_of_le_of_ne le different⟩

end Results

end Contextra.Graph
