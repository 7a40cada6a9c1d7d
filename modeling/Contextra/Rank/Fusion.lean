import Contextra.Library.Ranking
import Contextra.Library.StableSort

/-!
# Weighted reciprocal rank fusion

What every signal adds to the score of its documents, the bounded heap that keeps the best of them,
and the bonus for documents that several signals have found.  Scores are exact, from any ordered
field; a number that is not finite is `none`.  The metadata and the provenance that results carry
along are left out.
-/

namespace Contextra.Rank

open Library
open List hiding set

/-- Ids of results and names of signals are texts. -/
abbrev Name := List Char

def maxSearchK : Nat := 1000

def eqIgnoreAsciiCase (first second : Name) : Bool :=
  decide (first.map Char.toLower = second.map Char.toLower)

inductive SignalKind where
  | vector
  | text
  | graph
  | edgeReinforcement
  deriving DecidableEq, Repr

namespace SignalKind

def fromName (name : Name) : Option SignalKind :=
  let isOneOf (names : List String) : Bool := names.any fun other =>
    eqIgnoreAsciiCase name other.toList
  if isOneOf ["vector", "vec"] then some .vector
  else if isOneOf ["text", "bm25", "keyword"] then some .text
  else if isOneOf ["graph"] then some .graph
  else if isOneOf ["edge-reinforcement", "cooccurrence", "traversal-reinforcement", "synaptic",
      "hebbian", "recency", "bandit", "rerank"] then some .edgeReinforcement
  else none

def asStr : SignalKind → Name
  | .vector => "vector".toList
  | .text => "text".toList
  | .graph => "graph".toList
  | .edgeReinforcement => "edge-reinforcement".toList

end SignalKind

inductive SignalKey where
  | known (kind : SignalKind)
  | custom (name : Name)
  deriving DecidableEq, Repr

namespace SignalKey

def fromName (name : Name) : Option SignalKey :=
  if name = [] ∨ eqIgnoreAsciiCase name "unnamed".toList = true then none
  else
    match SignalKind.fromName name with
    | some kind => some (.known kind)
    | none => some (.custom name)

def asStr : SignalKey → Name
  | .known kind => kind.asStr
  | .custom name => name

end SignalKey

inductive MetadataMergePriority where
  | vectorFirst
  | textFirst
  | graphFirst
  | custom (order : List SignalKind)
  deriving DecidableEq, Repr

namespace MetadataMergePriority

def order : MetadataMergePriority → List SignalKind
  | .vectorFirst => [.vector, .text, .graph]
  | .textFirst => [.text, .vector, .graph]
  | .graphFirst => [.graph, .vector, .text]
  | .custom order => order

def signalRank (priority : MetadataMergePriority) (signalName : Name) : Nat :=
  ((SignalKind.fromName signalName).bind fun kind =>
    priority.order.findIdx? fun other => decide (other = kind)).getD (2 ^ 64 - 1)

end MetadataMergePriority

structure SearchResult (K : Type) where
  id : Name
  score : K
  matchedSignals : List Name
  deriving DecidableEq, Repr

/-- What one signal returned, the best first, and its weight. -/
structure ResultSet (K : Type) where
  signalName : Name
  results : List (SearchResult K)
  weight : Option K

structure ResonanceConfig (K : Type) where
  beta : Option K
  gamma : Option K

inductive DriftStatus (K : Type) where
  | stable (meanShift : K)
  | driftDetected (meanShift threshold : K)
  | insufficientData

structure SignalCalibrationContext (K : Type) where
  signalName : Name
  isCalibrated : Bool
  driftStatus : DriftStatus K

def SignalCalibrationContext.shouldUseCalibratedScores {K : Type}
    (context : SignalCalibrationContext K) : Bool :=
  context.isCalibrated &&
    match context.driftStatus with
    | .stable _ => true
    | _ => false

structure FusedEntry (K : Type) where
  id : Name
  score : K
  matchedSignals : List SignalKey
  deriving DecidableEq, Repr

/-- What a document of a result set adds to its entry. -/
structure Contribution (K : Type) where
  docId : Name
  score : K
  signal : Option SignalKey
  deriving DecidableEq, Repr

section Fusion

variable {K : Type} [Field K] [LinearOrder K]

def g (x : K) : K := x / (1 + |x|)

def margin (contexts : Option (List (SignalCalibrationContext K))) (set : ResultSet K) : K :=
  let context := contexts.bind fun contexts =>
    contexts.find? fun context => eqIgnoreAsciiCase context.signalName set.signalName
  if (context.any fun context => context.shouldUseCalibratedScores) = true then
    match set.results with
    | first :: second :: _ => max (first.score - second.score) 0
    | _ => 0
  else 0

def positiveWeight (weight : Option K) : Option K := weight.filter fun w => decide (0 < w)

def modulatedWeight (contexts : Option (List (SignalCalibrationContext K))) (beta : K)
    (set : ResultSet K) : Option K :=
  match positiveWeight set.weight with
  | some w =>
    let modulated := w * (1 + g (beta * margin contexts set))
    some (if 0 < modulated then modulated else w)
  | none => set.weight

def modulateAndRenormalizeWeights (sets : List (ResultSet K))
    (contexts : Option (List (SignalCalibrationContext K))) (beta : Option K) : List (Option K) :=
  match beta with
  | none => sets.map (·.weight)
  | some beta =>
    if beta = 0 then sets.map (·.weight)
    else
      let modulated := sets.map (modulatedWeight contexts beta)
      let totalOrig := (sets.filterMap fun set => positiveWeight set.weight).sum
      let totalMod := (modulated.filterMap positiveWeight).sum
      if 0 < totalOrig ∧ 0 < totalMod then
        modulated.map fun weight =>
          match positiveWeight weight with
          | some w => some (w * (totalOrig / totalMod))
          | none => weight
      else modulated

def rrfConstant : K := ((60 : Nat) : K)

/-- The largest number of 32 bits: ranks stop there. -/
def maxU32 : Nat := 2 ^ 32 - 1

def ResultSet.contributions (set : ResultSet K) (weight : K) : List (Contribution K) :=
  set.results.zipIdx.map fun (doc, rankIdx) =>
    { docId := doc.id
      score := weight / (rrfConstant + (min (rankIdx + 1) maxU32 : Nat))
      signal := SignalKey.fromName set.signalName }

def FusedEntry.default (docId : Name) : FusedEntry K := ⟨docId, 0, []⟩

def FusedEntry.update (entry : FusedEntry K) (contribution : Contribution K) : FusedEntry K :=
  { entry with
    score := entry.score + contribution.score
    matchedSignals :=
      match contribution.signal with
      | some key =>
        if entry.matchedSignals.contains key then entry.matchedSignals
        else entry.matchedSignals ++ [key]
      | none => entry.matchedSignals }

/-- `id_to_idx` knows the entries whose index fits into 32 bits, the first `known` ones; a document
without one gets a new entry at the end. -/
def addContribution (contribution : Contribution K) : Nat → List (FusedEntry K) → List (FusedEntry K)
  | known + 1, entry :: entries =>
    if entry.id = contribution.docId then entry.update contribution :: entries
    else entry :: addContribution contribution known entries
  | _, [] => [(FusedEntry.default contribution.docId).update contribution]
  | 0, entries => entries ++ [(FusedEntry.default contribution.docId).update contribution]

/-- The entries and the number of signals that count, after one more result set. -/
def addResultSet (state : List (FusedEntry K) × Nat) (weighted : ResultSet K × Option K) :
    List (FusedEntry K) × Nat :=
  match positiveWeight weighted.2 with
  | some w =>
    ((weighted.1.contributions w).foldl
      (fun entries contribution => addContribution contribution (maxU32 + 1) entries) state.1,
      state.2 + 1)
  | none => state

def accumulateMrrfScores (sets : List (ResultSet K)) (modulatedWeights : List (Option K)) :
    List (FusedEntry K) × Nat :=
  (sets.zip modulatedWeights).foldl addResultSet ([], 0)

def FusedEntry.Before (first second : FusedEntry K) : Prop :=
  ScoredBefore (first.id, first.score) (second.id, second.score)

instance : DecidableRel (FusedEntry.Before (K := K)) := fun first second =>
  inferInstanceAs (Decidable (ScoredBefore (first.id, first.score) (second.id, second.score)))

def FusedEntry.result (entry : FusedEntry K) : SearchResult K :=
  ⟨entry.id, entry.score, entry.matchedSignals.map SignalKey.asStr⟩

def formatFusedResultsFromTopK (entries : List (FusedEntry K)) (maxResults : Nat) :
    List (SearchResult K) :=
  ((entries.take maxU32).foldl (pushBounded FusedEntry.Before (min maxResults maxSearchK))
    []).map FusedEntry.result

def SearchResult.Before (first second : SearchResult K) : Prop :=
  ScoredBefore (first.id, first.score) (second.id, second.score)

instance : DecidableRel (SearchResult.Before (K := K)) := fun first second =>
  inferInstanceAs (Decidable (ScoredBefore (first.id, first.score) (second.id, second.score)))

def clamp (low high x : K) : K := max low (min x high)

section Resonance

-- `f32::powf`
variable (powf : K → K → K)

/-- The bonus of a document that `signalCount` of the signals have found. -/
def coherenceBonus (beta gamma : K) (validSignalCount signalCount : Nat) : K :=
  clamp 0 1 gamma *
    powf (signalCount / validSignalCount) (clamp ((10 : Nat) : K)⁻¹ ((2 : Nat) : K) beta)

def applyResonanceBonus (results : List (SearchResult K)) (validSignalCount : Nat)
    (config : ResonanceConfig K) : List (SearchResult K) :=
  match config.beta, config.gamma with
  | some beta, some gamma =>
    if validSignalCount = 0 then results
    else
      (results.map fun r =>
        { r with
          score := r.score *
            (1 + coherenceBonus powf beta gamma validSignalCount r.matchedSignals.length)
        }).insertionSort SearchResult.Before
  | _, _ => results

def weightedReciprocalRankFusionMrrf (resultSets : List (ResultSet K)) (maxResults : Nat)
    (priority : MetadataMergePriority) (resonanceConfig : Option (ResonanceConfig K))
    (calibrationContexts : Option (List (SignalCalibrationContext K))) (beta : Option K) :
    List (SearchResult K) :=
  if maxResults = 0 then []
  else
    let resultSets := sortByKey (fun set => priority.signalRank set.signalName) resultSets
    let modulatedWeights := modulateAndRenormalizeWeights resultSets calibrationContexts beta
    let (entries, validSignalCount) := accumulateMrrfScores resultSets modulatedWeights
    let results := formatFusedResultsFromTopK entries maxResults
    match resonanceConfig with
    | some config => applyResonanceBonus powf results validSignalCount config
    | none => results

def weightedReciprocalRankFusionWithOptions (resultSets : List (ResultSet K)) (maxResults : Nat)
    (priority : MetadataMergePriority) (resonanceConfig : Option (ResonanceConfig K)) :
    List (SearchResult K) :=
  weightedReciprocalRankFusionMrrf powf resultSets maxResults priority resonanceConfig none (some 0)

end Resonance

def fusedScore (contributions : List (Contribution K)) (docId : Name) : K :=
  ((contributions.filter fun c => decide (c.docId = docId)).map (·.score)).sum

def signalsOf (contributions : List (Contribution K)) (docId : Name) : List SignalKey :=
  ((contributions.filter fun c => decide (c.docId = docId)).filterMap (·.signal)).eraseDups

def appeared (contributions : List (Contribution K)) : List Name :=
  (contributions.map (·.docId)).eraseDups

def FusedEntry.of (contributions : List (Contribution K)) (docId : Name) : FusedEntry K :=
  ⟨docId, fusedScore contributions docId, signalsOf contributions docId⟩

section Table

variable {contributions : List (Contribution K)} {contribution : Contribution K} {docId : Name}

omit [Field K] [LinearOrder K] in
theorem appeared_concat : appeared (contributions ++ [contribution]) =
    if contribution.docId ∈ appeared contributions then appeared contributions
    else appeared contributions ++ [contribution.docId] := by
  rw [appeared, map_append, map_singleton, eraseDups_concat]
  simp only [contains_iff_mem, appeared, mem_eraseDups]

omit [Field K] [LinearOrder K] in
theorem appeared_nodup : (appeared contributions).Nodup := nodup_eraseDups _

omit [LinearOrder K] in
theorem FusedEntry.of_concat_other (other : contribution.docId ≠ docId) :
    FusedEntry.of (contributions ++ [contribution]) docId = .of contributions docId := by
  simp [FusedEntry.of, fusedScore, signalsOf, other]

omit [LinearOrder K] in
theorem FusedEntry.of_concat_self :
    FusedEntry.of (contributions ++ [contribution]) contribution.docId =
      (FusedEntry.of contributions contribution.docId).update contribution := by
  have scores : fusedScore (contributions ++ [contribution]) contribution.docId =
      fusedScore contributions contribution.docId + contribution.score := by
    simp [fusedScore]
  cases isSignal : contribution.signal with
  | none => simp [FusedEntry.of, FusedEntry.update, scores, signalsOf, isSignal]
  | some key =>
    have signals : signalsOf (contributions ++ [contribution]) contribution.docId =
        if (signalsOf contributions contribution.docId).contains key then
          signalsOf contributions contribution.docId
        else signalsOf contributions contribution.docId ++ [key] := by
      have last : ([contribution].filter fun c => decide (c.docId = contribution.docId)).filterMap
          (·.signal) = [key] := by
        simp [isSignal]
      rw [signalsOf, filter_append, filterMap_append, last, eraseDups_concat]
      simp only [signalsOf, contains_eraseDups]
    rw [FusedEntry.of, scores, signals]
    simp only [FusedEntry.update, isSignal]
    rfl

omit [LinearOrder K] in
theorem FusedEntry.of_unseen (unseen : docId ∉ appeared contributions) :
    FusedEntry.of contributions docId = .default docId := by
  have noneLeft : (contributions.filter fun c => decide (c.docId = docId)) = [] := by
    refine filter_eq_nil_iff.mpr fun c isIn same => unseen ?_
    rw [appeared, mem_eraseDups, ← of_decide_eq_true same]
    exact mem_map_of_mem isIn
  simp [FusedEntry.of, fusedScore, signalsOf, noneLeft, FusedEntry.default]

omit [LinearOrder K] in
theorem addContribution_take {entries : List (FusedEntry K)} {ids : List Name}
    {before after : Name → FusedEntry K} {known : Nat} (different : ids.Nodup)
    (isTable : entries.take known = (ids.take known).map before)
    (named : ∀ docId, (before docId).id = docId)
    (others : ∀ docId, contribution.docId ≠ docId → after docId = before docId)
    (updated : after contribution.docId = (before contribution.docId).update contribution)
    (fresh : contribution.docId ∉ ids → before contribution.docId = .default contribution.docId) :
    (addContribution contribution known entries).take known =
      ((if contribution.docId ∈ ids then ids else ids ++ [contribution.docId]).take known).map
        after := by
  induction known generalizing entries ids with
  | zero => simp
  | succ known ih =>
    cases ids with
    | nil =>
      cases entries with
      | nil => simp [addContribution, updated, fresh]
      | cons entry entries => simp at isTable
    | cons first ids =>
      cases entries with
      | nil => simp at isTable
      | cons entry entries =>
        obtain ⟨notLater, differentRest⟩ := nodup_cons.mp different
        simp only [take_succ_cons, map_cons, List.cons.injEq] at isTable
        obtain ⟨isEntry, isRest⟩ := isTable
        by_cases same : first = contribution.docId
        · subst same
          have unchanged : (ids.take known).map after = (ids.take known).map before :=
            map_congr_left fun docId isIn => others docId fun same =>
              notLater (same ▸ mem_of_mem_take isIn)
          simp [addContribution, isEntry, named, updated, unchanged, isRest]
        · have remaining := ih differentRest isRest fun notIn =>
            fresh (not_mem_cons_of_ne_of_not_mem (fun same' => same same'.symm) notIn)
          have notFirst : contribution.docId ≠ first := fun same' => same same'.symm
          have kept : after first = before first := others first notFirst
          by_cases inside : contribution.docId ∈ ids
          · simp only [if_pos inside] at remaining
            simp [addContribution, isEntry, named, same, inside, remaining, kept]
          · simp only [if_neg inside] at remaining
            simp [addContribution, isEntry, named, same, notFirst, inside, remaining, kept]

omit [LinearOrder K] in
theorem foldl_addContribution_take (known : Nat) (contributions : List (Contribution K)) :
    (contributions.foldl (fun entries contribution => addContribution contribution known entries)
      []).take known = ((appeared contributions).take known).map (.of contributions) := by
  induction contributions using reverseRecOn with
  | nil => simp [appeared]
  | append_singleton contributions contribution ih =>
    rw [foldl_concat, appeared_concat]
    exact addContribution_take appeared_nodup ih (fun _ => rfl)
      (fun docId other => FusedEntry.of_concat_other other) FusedEntry.of_concat_self
      FusedEntry.of_unseen

end Table

def contributionsOf (sets : List (ResultSet K × Option K)) : List (Contribution K) :=
  sets.flatMap fun (set, weight) => ((positiveWeight weight).map set.contributions).getD []

def validSignals (sets : List (ResultSet K × Option K)) : Nat :=
  (sets.filterMap fun (_, weight) => positiveWeight weight).length

theorem foldl_addResultSet (weighted : List (ResultSet K × Option K))
    (entries : List (FusedEntry K)) (count : Nat) :
    weighted.foldl addResultSet (entries, count) =
      ((contributionsOf weighted).foldl
        (fun entries contribution => addContribution contribution (maxU32 + 1) entries) entries,
        count + validSignals weighted) := by
  induction weighted generalizing entries count with
  | nil => rfl
  | cons pair weighted ih =>
    obtain ⟨set, weight⟩ := pair
    cases isWeight : positiveWeight weight with
    | none =>
      simp [addResultSet, isWeight, ih, contributionsOf, validSignals]
    | some w =>
      simp [addResultSet, isWeight, ih, contributionsOf, validSignals,
        Nat.add_assoc, Nat.add_comm 1]

instance : Std.Total (FusedEntry.Before (K := K)) where
  total first second := Std.Total.total (r := ScoredBefore) (first.id, first.score)
    (second.id, second.score)

instance : IsTrans (FusedEntry K) FusedEntry.Before where
  trans a b c := IsTrans.trans (r := ScoredBefore) (a.id, a.score) (b.id, b.score) (c.id, c.score)

instance : Std.Total (SearchResult.Before (K := K)) where
  total first second := Std.Total.total (r := ScoredBefore) (first.id, first.score)
    (second.id, second.score)

instance : IsTrans (SearchResult K) SearchResult.Before where
  trans a b c := IsTrans.trans (r := ScoredBefore) (a.id, a.score) (b.id, b.score) (c.id, c.score)

theorem formatFusedResultsFromTopK_eq {contributions : List (Contribution K)} {ids : List Name}
    {entries : List (FusedEntry K)} (different : ids.Nodup)
    (isTable : entries.take maxU32 = ids.map (.of contributions)) (maxResults : Nat) :
    formatFusedResultsFromTopK entries maxResults =
      ((ranking (fusedScore contributions) ids).take (min maxResults maxSearchK)).map
        fun docId => (FusedEntry.of contributions docId).result := by
  have apart : (ids.map (FusedEntry.of contributions)).Pairwise fun a b =>
      FusedEntry.Before b a → ¬FusedEntry.Before a b := by
    rw [pairwise_map]
    refine different.imp fun {a b} distinct second first => distinct ?_
    exact congrArg Prod.fst (Std.Antisymm.antisymm (r := ScoredBefore)
      (a, fusedScore contributions a) (b, fusedScore contributions b) first second)
  have ranked : (ids.map (FusedEntry.of contributions)).reverse.insertionSort FusedEntry.Before =
      (ranking (fusedScore contributions) ids).map (.of contributions) := by
    refine eq_map_ranking FusedEntry.id (fun _ => rfl) (fun _ _ isBefore => isBefore)
      different ?_ (pairwise_insertionSort _ _)
    exact (perm_insertionSort _ _).trans (reverse_perm _)
  rw [formatFusedResultsFromTopK, isTable, foldl_pushBounded apart, ranked, ← map_take,
    map_map]
  rfl

section Exact

variable (powf : K → K → K) (resultSets : List (ResultSet K)) (priority : MetadataMergePriority)
  (config : Option (ResonanceConfig K))

def weightedSets : List (ResultSet K × Option K) :=
  let sorted := sortByKey (fun set => priority.signalRank set.signalName) resultSets
  sorted.zip (sorted.map (·.weight))

def fusionContributions : List (Contribution K) :=
  contributionsOf (weightedSets resultSets priority)

def documents : List Name := (appeared (fusionContributions resultSets priority)).take maxU32

/-- One plus the bonus is what a configured bonus multiplies a score with. -/
def resonanceBonus (docId : Name) : K :=
  match config.bind (·.beta), config.bind (·.gamma) with
  | some beta, some gamma =>
    coherenceBonus powf beta gamma (validSignals (weightedSets resultSets priority))
      (signalsOf (fusionContributions resultSets priority) docId).length
  | _, _ => 0

def boostedScore (docId : Name) : K :=
  fusedScore (fusionContributions resultSets priority) docId *
    (1 + resonanceBonus powf resultSets priority config docId)

/-- The documents that the heap keeps, in the order of their unboosted scores. -/
def keptDocuments (maxResults : Nat) : List Name :=
  (ranking (fusedScore (fusionContributions resultSets priority))
    (documents resultSets priority)).take (min maxResults maxSearchK)

def boostedResult (docId : Name) : SearchResult K :=
  { (FusedEntry.of (fusionContributions resultSets priority) docId).result with
    score := boostedScore powf resultSets priority config docId }

variable {powf resultSets priority config}

theorem documents_nodup : (documents resultSets priority).Nodup :=
  appeared_nodup.sublist (take_sublist _ _)

variable {maxResults : Nat}

theorem keptDocuments_nodup : (keptDocuments resultSets priority maxResults).Nodup :=
  ranking_nodup.sublist (take_sublist _ _)

theorem keptDocuments_sorted :
    (keptDocuments resultSets priority maxResults).Pairwise
      (RanksBefore (fusedScore (fusionContributions resultSets priority))) :=
  ranking_pairwise.sublist (take_sublist _ _)

theorem keptDocuments_of_noSignals
    (noSignals : validSignals (weightedSets resultSets priority) = 0) :
    keptDocuments resultSets priority maxResults = [] := by
  have noContributions : fusionContributions resultSets priority = [] := by
    rw [validSignals, length_eq_zero_iff, filterMap_eq_nil_iff] at noSignals
    refine flatMap_eq_nil_iff.mpr fun weighted isIn => ?_
    simp [noSignals weighted isIn]
  simp [keptDocuments, documents, noContributions, appeared, ranking]

theorem map_result_of_noBonus (maxResults : Nat)
    (noBonus : ∀ docId, resonanceBonus powf resultSets priority config docId = 0) :
    (keptDocuments resultSets priority maxResults).map
        (fun docId => (FusedEntry.of (fusionContributions resultSets priority) docId).result) =
      (ranking (boostedScore powf resultSets priority config)
        (keptDocuments resultSets priority maxResults)).map
          (boostedResult powf resultSets priority config) := by
  have unboosted : boostedScore powf resultSets priority config =
      fusedScore (fusionContributions resultSets priority) := by
    funext docId
    rw [boostedScore, noBonus, add_zero, mul_one]
  rw [unboosted, ranking_of_sorted keptDocuments_nodup keptDocuments_sorted]
  refine map_congr_left fun docId _ => ?_
  rw [boostedResult, unboosted]
  rfl

theorem accumulated_eq :
    let sorted := sortByKey (fun set => priority.signalRank set.signalName) resultSets
    accumulateMrrfScores sorted (modulateAndRenormalizeWeights sorted none (some 0)) =
      ((fusionContributions resultSets priority).foldl
        (fun entries contribution => addContribution contribution (maxU32 + 1) entries) [],
        validSignals (weightedSets resultSets priority)) := by
  intro sorted
  have unmodulated : modulateAndRenormalizeWeights sorted none (some 0) =
      sorted.map (·.weight) := if_pos rfl
  rw [unmodulated, accumulateMrrfScores, foldl_addResultSet, Nat.zero_add]
  rfl

theorem formatted_eq (maxResults : Nat) :
    formatFusedResultsFromTopK ((fusionContributions resultSets priority).foldl
        (fun entries contribution => addContribution contribution (maxU32 + 1) entries) [])
        maxResults =
      (keptDocuments resultSets priority maxResults).map fun docId =>
        (FusedEntry.of (fusionContributions resultSets priority) docId).result := by
  refine formatFusedResultsFromTopK_eq documents_nodup ?_ maxResults
  have table := congrArg (List.take maxU32)
    (foldl_addContribution_take (maxU32 + 1) (fusionContributions resultSets priority))
  rw [take_take, ← map_take, take_take, min_eq_left (Nat.le_succ _)] at table
  exact table

theorem applyResonanceBonus_eq (cfg : ResonanceConfig K) (maxResults : Nat) :
    applyResonanceBonus powf
        ((keptDocuments resultSets priority maxResults).map fun docId =>
          (FusedEntry.of (fusionContributions resultSets priority) docId).result)
        (validSignals (weightedSets resultSets priority)) cfg =
      (ranking (boostedScore powf resultSets priority (some cfg))
        (keptDocuments resultSets priority maxResults)).map
          (boostedResult powf resultSets priority (some cfg)) := by
  obtain ⟨beta, gamma⟩ := cfg
  cases beta with
  | none => exact map_result_of_noBonus maxResults fun _ => rfl
  | some beta =>
    cases gamma with
    | none => exact map_result_of_noBonus maxResults fun _ => rfl
    | some gamma =>
      by_cases noSignals : validSignals (weightedSets resultSets priority) = 0
      · rw [keptDocuments_of_noSignals noSignals]
        simp [applyResonanceBonus, noSignals, ranking]
      · simp only [applyResonanceBonus, if_neg noSignals, map_map]
        refine eq_map_ranking SearchResult.id (fun _ => rfl)
          (fun _ _ isBefore => isBefore) keptDocuments_nodup ?_
          (pairwise_insertionSort _ _)
        refine (perm_insertionSort _ _).trans (List.Perm.of_eq ?_)
        refine map_congr_left fun docId _ => ?_
        simp [boostedResult, boostedScore, resonanceBonus, FusedEntry.result, FusedEntry.of]

theorem weightedReciprocalRankFusionWithOptions_eq (maxResults : Nat) :
    weightedReciprocalRankFusionWithOptions powf resultSets maxResults priority config =
      (ranking (boostedScore powf resultSets priority config)
        (keptDocuments resultSets priority maxResults)).map
          (boostedResult powf resultSets priority config) := by
  rw [weightedReciprocalRankFusionWithOptions, weightedReciprocalRankFusionMrrf]
  by_cases noResults : maxResults = 0
  · simp [noResults, keptDocuments, ranking]
  · rw [if_neg noResults]
    simp only [accumulated_eq, formatted_eq]
    cases config with
    | none => exact map_result_of_noBonus maxResults fun _ => rfl
    | some cfg => exact applyResonanceBonus_eq cfg maxResults

end Exact

/-- The heap cuts by unboosted scores, and the bonus orders what is left.  A larger limit keeps the
documents, though not their places; when nothing is cut the results are the boosted ranking. -/
theorem fusion_cuts_before_bonus (powf : K → K → K) (resultSets : List (ResultSet K))
    (priority : MetadataMergePriority) (config : Option (ResonanceConfig K)) (maxResults : Nat) :
    (weightedReciprocalRankFusionWithOptions powf resultSets maxResults priority config).map
        (fun r => (r.id, r.score)) =
      (ranking (boostedScore powf resultSets priority config)
        (keptDocuments resultSets priority maxResults)).map
          (fun docId => (docId, boostedScore powf resultSets priority config docId)) ∧
    (∀ larger, maxResults ≤ larger → keptDocuments resultSets priority maxResults <+:
      keptDocuments resultSets priority larger) ∧
    ((documents resultSets priority).length ≤ min maxResults maxSearchK →
      (weightedReciprocalRankFusionWithOptions powf resultSets maxResults priority config).map
          SearchResult.id =
        ranking (boostedScore powf resultSets priority config)
          (documents resultSets priority)) := by
  refine ⟨?_, ?_, ?_⟩
  · rw [weightedReciprocalRankFusionWithOptions_eq, map_map]
    rfl
  · intro larger atMost
    exact take_prefix_take_left (min_le_min_right _ atMost)
  · intro nothingCut
    have whole : ∀ docId, docId ∈ keptDocuments resultSets priority maxResults ↔
        docId ∈ documents resultSets priority := by
      intro docId
      have fits : (ranking (fusedScore (fusionContributions resultSets priority))
          (documents resultSets priority)).length ≤ min maxResults maxSearchK :=
        length_ranking_le.trans nothingCut
      rw [keptDocuments, take_of_length_le fits, mem_ranking]
    rw [weightedReciprocalRankFusionWithOptions_eq, map_map, ranking_eq_of_mem_iff whole]
    exact map_id _

/-- One signal of weight two and two signals that weigh less together. -/
def oneAgainstTwo : List (ResultSet ℚ) :=
  [⟨"vector".toList, [⟨['a'], 1, []⟩], some 2⟩,
    ⟨"text".toList, [⟨['b'], 1, []⟩], some (9 / 10)⟩,
    ⟨"graph".toList, [⟨['b'], 1, []⟩], some (9 / 10)⟩]

/-- The document that the bonus would put first is cut before.  The exponent is one. -/
theorem best_boosted_is_cut :
    (weightedReciprocalRankFusionWithOptions (fun x _ => x) oneAgainstTwo 1 .vectorFirst
        (some ⟨some 1, some 1⟩)).map SearchResult.id ≠
      (ranking (boostedScore (fun x _ => x) oneAgainstTwo .vectorFirst (some ⟨some 1, some 1⟩))
        (documents oneAgainstTwo .vectorFirst)).take 1 := by
  decide +kernel

end Fusion

end Contextra.Rank
