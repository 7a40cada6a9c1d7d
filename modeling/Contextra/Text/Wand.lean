import Contextra.Library.Ranking
import Contextra.Text.PostingCodec

/-!
# Block-Max WAND

The search over the posting lists of the terms of a query.  A cursor stands in each list; all
documents that the cursors have passed are scored, or cannot be among the best.
-/

/-!
## BM25 scores

The score of a term in a document over exact numbers.  The logarithm is a parameter.
-/

namespace Contextra.Text

section Scores

variable {K : Type} [Field K] [LinearOrder K]

def scoreTermWithParams (ln : K → K) (tf docLen : U32) (avgDocLen : K) (df n : U32) (k1 b : K) : K :=
  if n = 0 ∨ df = 0 ∨ tf = 0 then 0
  else
    let df : K := (min df n).val
    let n : K := n.val
    let idf := ln (1 + (n - df + 1 / 2) / (df + 1 / 2))
    let avgDoc := max avgDocLen 1
    let normDocLen := docLen.val / avgDoc
    let tfNumerator := tf.val * (k1 + 1)
    let tfDenominator := tf.val + k1 * (1 - b + b * normDocLen)
    idf * (tfNumerator / tfDenominator)

/-- `score_term`, with `BM25_K1` and `BM25_B`. -/
def scoreTerm (ln : K → K) (tf docLen : U32) (avgDocLen : K) (df n : U32) : K :=
  scoreTermWithParams ln tf docLen avgDocLen df n (3 / 2) (3 / 4)

variable [IsStrictOrderedRing K] {ln : K → K} (positive : ∀ x, 1 ≤ x → 0 ≤ ln x)
include positive

theorem idf_nonneg (df n : U32) :
    0 ≤ ln (1 + ((n.val : K) - (min df n).val + 1 / 2) / ((min df n).val + 1 / 2)) := by
  apply positive
  have below : ((min df n).val : K) ≤ n.val := by exact_mod_cast min_le_right df n
  have nonneg : (0 : K) ≤ (min df n).val := Nat.cast_nonneg _
  have quotient : (0 : K) ≤ ((n.val : K) - (min df n).val + 1 / 2) / ((min df n).val + 1 / 2) :=
    div_nonneg (by linarith) (by linarith)
  linarith

theorem scoreTerm_mono {tf tf' docLen docLen' : U32} (more : tf ≤ tf') (shorter : docLen' ≤ docLen)
    (avgDocLen : K) (df n : U32) :
    scoreTerm ln tf docLen avgDocLen df n ≤ scoreTerm ln tf' docLen' avgDocLen df n := by
  have idf := idf_nonneg positive df n
  unfold scoreTerm scoreTermWithParams
  have avgPos : (0 : K) < max avgDocLen 1 := lt_max_of_lt_right one_pos
  have norm : (docLen'.val : K) / max avgDocLen 1 ≤ docLen.val / max avgDocLen 1 := by
    gcongr
    exact shorter
  have normNonneg : (0 : K) ≤ docLen'.val / max avgDocLen 1 :=
    div_nonneg (Nat.cast_nonneg _) avgPos.le
  have tfLe : (tf.val : K) ≤ tf'.val := by exact_mod_cast more
  have tfNonneg : (0 : K) ≤ tf.val := Nat.cast_nonneg _
  by_cases none : n = 0 ∨ df = 0 ∨ tf = 0
  · rw [if_pos none]
    by_cases none' : n = 0 ∨ df = 0 ∨ tf' = 0
    · rw [if_pos none']
    · rw [if_neg none']
      apply mul_nonneg idf
      apply div_nonneg
      · linarith
      · linarith
  · have none' : ¬ (n = 0 ∨ df = 0 ∨ tf' = 0) := by
      rintro (isZero | isZero | isZero)
      · exact none (Or.inl isZero)
      · exact none (Or.inr (Or.inl isZero))
      · rw [isZero] at more
        exact none (Or.inr (Or.inr (le_antisymm more (Fin.zero_le _))))
    rw [if_neg none, if_neg none']
    apply mul_le_mul_of_nonneg_left _ idf
    rw [div_le_div_iff₀ (by linarith) (by linarith)]
    have cross : (tf.val : K) * (docLen'.val / max avgDocLen 1) ≤
        tf'.val * (docLen.val / max avgDocLen 1) :=
      mul_le_mul tfLe norm normNonneg (tfNonneg.trans tfLe)
    linarith

theorem scoreTerm_nonneg (tf docLen : U32) (avgDocLen : K) (df n : U32) :
    0 ≤ scoreTerm ln tf docLen avgDocLen df n := by
  have least := scoreTerm_mono positive (Fin.zero_le tf) (le_refl docLen) avgDocLen df n
  have zero : scoreTerm ln 0 docLen avgDocLen df n = 0 := by
    rw [scoreTerm, scoreTermWithParams, if_pos (Or.inr (Or.inr rfl))]
  rwa [zero] at least

end Scores

end Contextra.Text

namespace Contextra.Text

open Contextra.Library

def maxSearchK : Nat := 1000

section TopK

variable (K : Type)

/-- `BoundedTopK`: the heap as the list of its candidates, the best first.  Of candidates with
one score the one with the smaller id is better. -/
structure BoundedTopK where
  heap : List (DocIdRaw × K)
  capacity : Nat
  deriving DecidableEq

variable {K} [LinearOrder K]

namespace BoundedTopK

def new (capacity : Nat) : BoundedTopK K := ⟨[], min capacity maxSearchK⟩

/-- `candidate < *worst` in the order of `Bm25Candidate`. -/
def isBetter (candidate worst : DocIdRaw × K) : Bool :=
  worst.2 < candidate.2 || (candidate.2 = worst.2 && candidate.1 < worst.1)

def push (topK : BoundedTopK K) (docId : DocIdRaw) (score : K) : BoundedTopK K :=
  if topK.capacity = 0 then topK
  else if topK.heap.length < topK.capacity then
    { topK with heap := topK.heap.orderedInsert ScoredBefore (docId, score) }
  else
    match topK.heap.getLast? with
    | some worst =>
      if isBetter (docId, score) worst then
        { topK with heap := topK.heap.dropLast.orderedInsert ScoredBefore (docId, score) }
      else topK
    | none => topK

def minThreshold [Zero K] (topK : BoundedTopK K) : K :=
  if topK.heap.length < topK.capacity then 0
  else (topK.heap.getLast?.map Prod.snd).getD 0

def intoSortedVec (topK : BoundedTopK K) : List (DocIdRaw × K) := topK.heap

end BoundedTopK

end TopK

structure Scoring (K : Type) where
  ln : K → K
  avgDocLen : K
  totalDocs : U32

structure TermCursor (K : Type) where
  term : Key
  postingList : PostingList
  df : U32
  cursor : Nat
  termMaxScore : K
  blockMaxScores : List K
  deriving DecidableEq

section Cursors

variable {K : Type} [Field K] [LinearOrder K]

def Scoring.score (scoring : Scoring K) (df tf docLen : U32) : K :=
  scoreTerm scoring.ln tf docLen scoring.avgDocLen df scoring.totalDocs

namespace TermCursor

def new (scoring : Scoring K) (term : Key) (postingList : PostingList) (df : U32) : TermCursor K :=
  let blockMaxScores := postingList.blocks.map fun block =>
    scoring.score df block.maxTf block.minDocLen
  { term, postingList, df
    cursor := 0
    termMaxScore := blockMaxScores.foldl
      (fun greatest score => if greatest < score then score else greatest) 0
    blockMaxScores }

variable (cursor : TermCursor K)

def currentPosting : Option Posting := cursor.postingList.postings[cursor.cursor]?

def currentDocId : Option DocIdRaw := cursor.currentPosting.map Posting.docId

def blockMaxScoreAtDocId (docId : DocIdRaw) : K :=
  let blockMaxScore (index : Nat) : K := cursor.blockMaxScores[index]?.getD cursor.termMaxScore
  if cursor.postingList.postings.length ≤ cursor.cursor then 0
  else if cursor.currentDocId = some docId then blockMaxScore (cursor.cursor / blockSize)
  else
    match searchKeys (cursor.postingList.blocks.map PostingBlockInfo.maxDocId) docId with
    | .found index => blockMaxScore index
    | .missing index =>
      if index < cursor.postingList.blocks.length then blockMaxScore index else 0

/-- The loop of `advance_to` over the blocks that end before the target. -/
def skipBlocks (blocks : List PostingBlockInfo) (target : DocIdRaw) (index : Nat) : Nat :=
  index + ((blocks.drop index).takeWhile (·.maxDocId < target)).length

def advanceTo (target : DocIdRaw) : TermCursor K :=
  let postings := cursor.postingList.postings
  if postings.length ≤ cursor.cursor then cursor
  else
    let start := skipBlocks cursor.postingList.blocks target (cursor.cursor / blockSize) * blockSize
    if postings.length ≤ start then { cursor with cursor := postings.length }
    else
      let position := max start cursor.cursor
      { cursor with
        cursor := position + (PostingList.search (postings.drop position) target).position }

def sortsBefore (first second : TermCursor K) : Bool :=
  let firstDocId := first.currentDocId.getD (Fin.last _)
  let secondDocId := second.currentDocId.getD (Fin.last _)
  firstDocId < secondDocId || (firstDocId = secondDocId && first.term ≤ second.term)

end TermCursor

structure Snapshot where
  root : Key
  isLatest : Bool
  /-- `get_at_seq` of a key returns a value. -/
  holds : Key → Bool
  /-- The keys of the scan for tombstones. -/
  activeTbs : List Key

namespace Snapshot

variable (snapshot : Snapshot)

def isActive (docId : DocIdRaw) : Bool := snapshot.holds (keyWithId snapshot.root "dl:" docId)

def isTombstone (docId : DocIdRaw) (term : Key) : Bool :=
  let key := keyTombstone snapshot.root docId term
  snapshot.activeTbs.contains key || snapshot.holds key

def isPostingValid (docId : DocIdRaw) (term : Key) : Bool :=
  snapshot.isLatest || snapshot.holds (keyWithTermDoc snapshot.root term docId)

end Snapshot

structure SearchState (K : Type) where
  cursors : List (TermCursor K)
  topK : BoundedTopK K
  evaluatedDocsCount : Nat
  deriving DecidableEq

/-- How an iteration of the loop ends; the successor of the largest id overflows. -/
inductive Turn (σ : Type) where
  | finished
  | continued (state : σ)
  | overflow

/-- The first cursor up to which the largest scores of the terms add up to more than the
threshold. -/
def pivotCursor (threshold : K) : K → List (TermCursor K) → Option (TermCursor K)
  | _, [] => none
  | accumMaxScore, cursor :: cursors =>
    if threshold < accumMaxScore + cursor.termMaxScore then some cursor
    else pivotCursor threshold (accumMaxScore + cursor.termMaxScore) cursors

def passDocument (docId : DocIdRaw) (cursors : List (TermCursor K)) :
    Option (List (TermCursor K)) :=
  if fits : docId.val + 1 < 2 ^ 64 then
    some (cursors.map fun cursor =>
      if cursor.currentDocId = some docId then cursor.advanceTo ⟨docId.val + 1, fits⟩ else cursor)
  else none

def advanceLeading (pivotDocId : DocIdRaw) : List (TermCursor K) → List (TermCursor K)
  | [] => []
  | cursor :: cursors =>
    match cursor.currentDocId with
    | none => cursor :: advanceLeading pivotDocId cursors
    | some docId =>
      if docId < pivotDocId then
        cursor.advanceTo pivotDocId :: advanceLeading pivotDocId cursors
      else cursor :: cursors

/-- The postings of a document, added to what has been added up. -/
def evaluate (snapshot : Snapshot) (scoring : Scoring K) (docId : DocIdRaw) :
    K × Bool → List (TermCursor K) → K × Bool
  | total, [] => total
  | (totalScore, hasValidTerm), cursor :: cursors =>
    match cursor.currentPosting with
    | some posting =>
      if posting.docId = docId ∧ !snapshot.isTombstone docId cursor.term ∧
          snapshot.isPostingValid docId cursor.term then
        evaluate snapshot scoring docId
          (totalScore + scoring.score cursor.df posting.tf posting.docLen, true) cursors
      else evaluate snapshot scoring docId (totalScore, hasValidTerm) cursors
    | none => evaluate snapshot scoring docId (totalScore, hasValidTerm) cursors

variable (snapshot : Snapshot) (scoring : Scoring K)

/-- What becomes of a document at which the first cursor and the pivot stand. -/
def visit (docId : DocIdRaw) (cursors : List (TermCursor K)) (topK : BoundedTopK K)
    (evaluatedDocsCount : Nat) : BoundedTopK K × Nat :=
  let blockMaxSum := ((cursors.filter fun cursor => cursor.currentDocId = some docId).map
    fun cursor => cursor.blockMaxScoreAtDocId docId).sum
  if 0 < topK.capacity ∧ topK.capacity ≤ topK.heap.length ∧ blockMaxSum ≤ topK.minThreshold then
    (topK, evaluatedDocsCount)
  else if !snapshot.isLatest ∧ !snapshot.isActive docId then (topK, evaluatedDocsCount)
  else
    let (totalScore, hasValidTerm) := evaluate snapshot scoring docId (0, false) cursors
    if hasValidTerm then (topK.push docId totalScore, evaluatedDocsCount + 1)
    else (topK, evaluatedDocsCount)

def SearchState.live (state : SearchState K) : List (TermCursor K) :=
  state.cursors.filter fun cursor => cursor.currentDocId.isSome

def SearchState.sortedCursors (state : SearchState K) : List (TermCursor K) :=
  state.live.mergeSort TermCursor.sortsBefore

/-- An iteration of the loop of `block_max_wand_search`. -/
def iteration (state : SearchState K) : Turn (SearchState K) :=
  let cursors := state.sortedCursors
  match (pivotCursor state.topK.minThreshold 0 cursors).bind TermCursor.currentDocId,
      cursors.head?.bind TermCursor.currentDocId with
  | some pivotDocId, some minDocId =>
    if minDocId = pivotDocId then
      let (topK, evaluatedDocsCount) :=
        visit snapshot scoring pivotDocId cursors state.topK state.evaluatedDocsCount
      match passDocument pivotDocId cursors with
      | some cursors => .continued ⟨cursors, topK, evaluatedDocsCount⟩
      | none => .overflow
    else
      .continued ⟨advanceLeading pivotDocId cursors, state.topK, state.evaluatedDocsCount⟩
  | _, _ => .finished

def searchLoop : Nat → SearchState K → Option (Except Failure (SearchState K))
  | 0, _ => none
  | fuel + 1, state =>
    match iteration snapshot scoring state with
    | .finished => some (.ok state)
    | .continued next => searchLoop fuel next
    | .overflow => some (.error .panicked)

/-- The tombstones of the term with documents in the list.  A tombstone is taken for one of the term
when its key ends with the term behind a colon. -/
def termTbsCount (list : PostingList) (term : Key) : Nat :=
  let globalPrefix := (keyTombstone snapshot.root 0 []).takeWhile (· ≠ '0')
  (snapshot.activeTbs.filter fun key =>
    List.isSuffixOf (':' :: term) key &&
      let suffix := key.drop globalPrefix.length
      ':' ∈ suffix &&
        ((parseDocId (suffix.takeWhile (· ≠ ':'))).any fun docId =>
          match PostingList.search list.postings docId with
          | .found _ => true
          | .missing _ => false)).length

def effectiveDf (list : PostingList) (term : Key) : U32 :=
  ⟨min list.postings.length u32Max.val - termTbsCount snapshot list term, by
    have : u32Max.val = 2 ^ 32 - 1 := rfl
    omega⟩

def queryCursor (lists : Key → PostingList) (term : Key) : Option (TermCursor K) :=
  if (lists term).postings.isEmpty then none
  else if 0 < effectiveDf snapshot (lists term) term then
    some (.new scoring term (lists term) (effectiveDf snapshot (lists term) term))
  else none

def queryCursors (lists : Key → PostingList) (terms : List Key) : List (TermCursor K) :=
  terms.filterMap (queryCursor snapshot scoring lists)

def blockMaxWandSearch (lists : Key → PostingList) (terms : List Key) (k fuel : Nat) :
    Option (Except Failure (List (DocIdRaw × K) × Nat)) :=
  if terms.isEmpty ∨ k = 0 then some (.ok ([], 0))
  else
    let cursors := queryCursors snapshot scoring lists terms
    if cursors.isEmpty then some (.ok ([], 0))
    else
      (searchLoop snapshot scoring fuel ⟨cursors, .new k, 0⟩).map
        (Except.map fun state => (state.topK.intoSortedVec, state.evaluatedDocsCount))

end Cursors

end Contextra.Text
