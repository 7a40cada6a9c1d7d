import Contextra.Library.Heap
import Contextra.Types

/-!
# The graph of a DiskANN index

The search and the pruning that a build uses, `search.rs` and `build.rs`.  Both exist twice in the
source, over vectors in memory and over those of the index file followed by new ones; here they
get the vectors as a function of the index.  The arithmetic of `f32` and the order in which a
heap keeps equal distances are left open.
-/

namespace Contextra.DiskAnn

open Contextra.Library

inductive DiskAnnError where
  | index (message : String)
  | invalidInput (message : String)
  | notFound (message : String)
  | io (message : String)
  /-- An index beyond the end of a list. -/
  | panicked
  /-- The search has not come to its end. -/
  | unfinished
  deriving DecidableEq

structure SearchCandidate (Dist : Type) where
  index : Nat
  distance : Dist

/-- The factors of the two passes of a build. -/
inductive Alpha where
  | one
  | relaxed

/-- `compute_distance_trusted` and the comparisons of distances. -/
structure Metric (Vector : Type) where
  Dist : Type
  /-- `validate_vector` -/
  allFinite : Vector → Bool
  /-- The vector has the configured dimension. -/
  fits : Vector → Bool
  distance : Vector → Vector → Option Dist
  isFinite : Dist → Bool
  /-- `f32::MAX` -/
  maxDist : Dist
  lt : Dist → Dist → Bool
  /-- `total_cmp` -/
  totalLe : Dist → Dist → Bool
  /-- `alpha * d < e` -/
  scaledLt : Alpha → Dist → Dist → Bool
  /-- Vectors of one length have a distance. -/
  distance_isSome : ∀ v w, fits v = true → fits w = true → (distance v w).isSome = true

namespace Metric

variable {Vector : Type} (metric : Metric Vector)

abbrev Candidate := SearchCandidate metric.Dist

def Candidate.le (a b : metric.Candidate) : Bool := metric.totalLe a.distance b.distance

end Metric

structure DiskAnnConfig (Vector : Type) where
  indexPath : String
  metric : Metric Vector
  maxDegree : Nat
  beamWidth : Nat
  /-- The heap of `Reverse<SearchCandidate>`. -/
  nearest : Heap metric.Candidate fun a b => Metric.Candidate.le metric b a
  farthest : Heap metric.Candidate (Metric.Candidate.le metric)

abbrev AdjacencyLists := List (List Nat)

structure VectorAccess {Vector : Type} (metric : Metric Vector) where
  vectorOf : Nat → Option Vector
  searchName : String
  /-- The distance that stands for an error while a list is shortened. -/
  fallback : Option metric.Dist

section Build

variable {Vector : Type} (config : DiskAnnConfig Vector)

abbrev DiskAnnConfig.Candidate := config.metric.Candidate

def computeDistance (v w : Vector) : Except DiskAnnError config.metric.Dist :=
  match config.metric.distance v w with
  | some distance => .ok distance
  | none => .error (.invalidInput "Vector dimension mismatch")

variable (access : VectorAccess config.metric)

def vectorAt (index : Nat) : Except DiskAnnError Vector :=
  match access.vectorOf index with
  | some vector => .ok vector
  | none => .error .panicked

structure Beam where
  visited : List Nat
  candidates : List config.Candidate
  results : List config.Candidate

def Beam.take (beam : Beam config) (candidate : config.Candidate) : Beam config :=
  let candidates := config.nearest.push candidate beam.candidates
  let results := config.farthest.push candidate beam.results
  if config.beamWidth < results.length then
    match config.farthest.pop results with
    | some (_, rest) => ⟨beam.visited, candidates, rest⟩
    | none => ⟨beam.visited, candidates, results⟩
  else ⟨beam.visited, candidates, results⟩

/-- Whether the beam has room, or the distance is nearer than its farthest one. -/
def Beam.improves (beam : Beam config) (distance : config.metric.Dist) : Bool :=
  decide (beam.results.length < config.beamWidth) ||
    match config.farthest.peek beam.results with
    | some worst => config.metric.lt distance worst.distance
    | none => true

def visitNeighbors (query : Vector) : List Nat → Beam config → Except DiskAnnError (Beam config)
  | [], beam => .ok beam
  | neighbor :: neighbors, beam =>
    if neighbor ∈ beam.visited then visitNeighbors query neighbors beam
    else do
      let vector ← vectorAt config access neighbor
      let distance ← computeDistance config query vector
      let beam : Beam config := { beam with visited := neighbor :: beam.visited }
      if config.metric.isFinite distance && Beam.improves config beam distance then
        visitNeighbors query neighbors (Beam.take config beam ⟨neighbor, distance⟩)
      else visitNeighbors query neighbors beam

def Beam.isDone (beam : Beam config) (current : config.Candidate) : Bool :=
  match config.farthest.peek beam.results with
  | some worst =>
    config.metric.lt worst.distance current.distance &&
      decide (config.beamWidth ≤ beam.results.length)
  | none => false

def beamLoop (query : Vector) (graph : AdjacencyLists) : Nat → Beam config →
    Except DiskAnnError (Beam config)
  | fuel, beam =>
    match config.nearest.pop beam.candidates with
    | none => .ok beam
    | some (current, rest) =>
      let beam : Beam config := { beam with candidates := rest }
      if Beam.isDone config beam current then .ok beam
      else
        match fuel with
        | 0 => .error .unfinished
        | fuel + 1 =>
          match graph[current.index]? with
          | none => .error .panicked
          | some neighbors => do
              let beam ← visitNeighbors config access query neighbors beam
              beamLoop query graph fuel beam

/-- `search_in_memory` and `search_streaming`. -/
def beamSearch (query : Vector) (graph : AdjacencyLists) (entryPoint : Nat) :
    Except DiskAnnError (List config.Candidate) := do
  let entry ← vectorAt config access entryPoint
  let distance ← computeDistance config query entry
  if config.metric.isFinite distance then
    let initial : config.Candidate := ⟨entryPoint, distance⟩
    let beam ← beamLoop config access query graph graph.length
      ⟨[entryPoint], config.nearest.push initial [], config.farthest.push initial []⟩
    return beam.results
  else
    .error (.index ("Non-finite distance encountered for entry point in " ++ access.searchName))

def keepsCandidate (alpha : Alpha) (candidate : config.Candidate) (vector : Vector) :
    List Nat → Except DiskAnnError Bool
  | [] => .ok true
  | kept :: others => do
      let keptVector ← vectorAt config access kept
      let between ← computeDistance config vector keptVector
      if ¬ config.metric.isFinite between || ¬ config.metric.isFinite candidate.distance then
        keepsCandidate alpha candidate vector others
      else if config.metric.scaledLt alpha between candidate.distance then .ok false
      else keepsCandidate alpha candidate vector others

def pruneLoop (alpha : Alpha) : List config.Candidate → List Nat → Except DiskAnnError (List Nat)
  | [], pruned => .ok pruned
  | candidate :: candidates, pruned =>
    if config.maxDegree ≤ pruned.length then .ok pruned
    else do
      let vector ← vectorAt config access candidate.index
      let keep ← keepsCandidate config access alpha candidate vector pruned
      if keep then pruneLoop alpha candidates (pruned ++ [candidate.index])
      else pruneLoop alpha candidates pruned

/-- `prune_in_memory` and `prune_streaming`. -/
def pruneCandidates (alpha : Alpha) (candidates : List config.Candidate) :
    Except DiskAnnError (List Nat) :=
  pruneLoop config access alpha
    (candidates.insertionSort fun a b => Metric.Candidate.le config.metric a b = true) []

def distanceOr (v w : Vector) : Except DiskAnnError config.metric.Dist :=
  match access.fallback with
  | some fallback => .ok ((config.metric.distance v w).getD fallback)
  | none => computeDistance config v w

def rankAround (vector : Vector) : List Nat → Except DiskAnnError (List config.Candidate)
  | [] => .ok []
  | index :: indices => do
      let other ← vectorAt config access index
      let distance ← distanceOr config access vector other
      let candidates ← rankAround vector indices
      return ⟨index, distance⟩ :: candidates

/-- The edge from a neighbor back to a node, and the pruning of a list that gets too long. -/
def addBackEdge (alpha : Alpha) (node neighbor : Nat) (graph : AdjacencyLists) :
    Except DiskAnnError AdjacencyLists :=
  match graph[neighbor]? with
  | none => .error .panicked
  | some list =>
    if node ∈ list then .ok graph
    else if config.maxDegree < (list ++ [node]).length then do
      let vector ← vectorAt config access neighbor
      let candidates ← rankAround config access vector (list ++ [node])
      let pruned ← pruneCandidates config access alpha candidates
      return graph.set neighbor pruned
    else .ok (graph.set neighbor (list ++ [node]))

def addBackEdges (alpha : Alpha) (node : Nat) : List Nat → AdjacencyLists →
    Except DiskAnnError AdjacencyLists
  | [], graph => .ok graph
  | neighbor :: neighbors, graph => do
      let graph ← addBackEdge config access alpha node neighbor graph
      addBackEdges alpha node neighbors graph

/-- One node is searched for, pruned and linked both ways. -/
def linkNode (alpha : Alpha) (entryPoint node : Nat) (graph : AdjacencyLists) :
    Except DiskAnnError AdjacencyLists := do
  let query ← vectorAt config access node
  let candidates ← beamSearch config access query graph entryPoint
  let pruned ← pruneCandidates config access alpha candidates
  let graph ← addBackEdges config access alpha node pruned graph
  return graph.set node pruned

def linkNodes (alpha : Alpha) (entryPoint : Nat) : List Nat → AdjacencyLists →
    Except DiskAnnError AdjacencyLists
  | [], graph => .ok graph
  | node :: nodes, graph => do
      let graph ← linkNode config access alpha entryPoint node graph
      linkNodes alpha entryPoint nodes graph

end Build

end Contextra.DiskAnn
