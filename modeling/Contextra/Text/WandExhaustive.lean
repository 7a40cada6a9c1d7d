import Contextra.Text.WandCursors
import Contextra.Text.WandTopK

/-!
# Block-Max WAND and the exhaustive scan

The documents below the frontier of a search are scored or cannot be among the best, so that at
the end its heap holds the best of all documents, as far as their scores are positive.
-/

namespace Contextra.Text

open Library List

section Spec

variable {K : Type} [Field K] [LinearOrder K] (snapshot : Snapshot) (scoring : Scoring K)

/-- A posting that is neither masked by a tombstone nor missing at the snapshot. -/
def counts (term : Key) (docId : DocIdRaw) : Bool :=
  !snapshot.isTombstone docId term && snapshot.isPostingValid docId term

def termScore (term : Key) (list : PostingList) (df : U32) (docId : DocIdRaw) : K :=
  match list.postings.find? (·.docId = docId) with
  | some posting => if counts snapshot term docId then scoring.score df posting.tf posting.docLen else 0
  | none => 0

def docScore (lists : Key → PostingList) (terms : List Key) (docId : DocIdRaw) : K :=
  (terms.map fun term =>
    termScore snapshot scoring term (lists term) (effectiveDf snapshot (lists term) term) docId).sum

def matching (lists : Key → PostingList) (terms : List Key) : List DocIdRaw :=
  terms.flatMap fun term =>
    ((lists term).postings.map Posting.docId).filter fun docId => counts snapshot term docId

/-- Every document of every list is scored, and the best are taken. -/
def exhaustiveScan (lists : Key → PostingList) (terms : List Key) (k : Nat) :
    List (DocIdRaw × K) :=
  ((ranking (docScore snapshot scoring lists terms) (matching snapshot lists terms)).take k).map
    fun docId => (docId, docScore snapshot scoring lists terms docId)

end Spec

section Scores

variable {K : Type} [Field K] [LinearOrder K] {snapshot : Snapshot} {scoring : Scoring K}
  {cursor : TermCursor K} {frontier : Nat} {docId : DocIdRaw}

namespace TermCursor

variable (snapshot scoring cursor docId) in
def contribution : K := termScore snapshot scoring cursor.term cursor.postingList cursor.df docId

structure Prepared (scoring : Scoring K) (cursor : TermCursor K) : Prop where
  built : cursor.Built
  small : ∀ posting ∈ cursor.postingList.postings, posting.docId < Fin.last _
  made : ∃ position, cursor =
    { new scoring cursor.term cursor.postingList cursor.df with cursor := position }

theorem Prepared.standAt (prepared : Prepared scoring cursor) (frontier : Nat) :
    Prepared scoring (cursor.standAt frontier) := by
  obtain ⟨position, made⟩ := prepared.made
  refine ⟨prepared.built, prepared.small,
    firstFrom cursor.postingList.postings frontier, ?_⟩
  rw [made]
  rfl

omit [Field K] [LinearOrder K] in
theorem Built.find?_eq_some (built : cursor.Built) {posting : Posting} :
    cursor.postingList.postings.find? (·.docId = docId) = some posting ↔
      posting ∈ cursor.postingList.postings ∧ posting.docId = docId := by
  constructor
  · intro found
    exact ⟨mem_of_find?_eq_some found, by simpa using find?_some found⟩
  · rintro ⟨isPosting, rfl⟩
    cases found : cursor.postingList.postings.find? (·.docId = posting.docId) with
    | none => exact absurd isPosting (by simpa using (find?_eq_none.mp found) posting)
    | some other =>
      have isOther := mem_of_find?_eq_some found
      have same : other.docId = posting.docId := by simpa using find?_some found
      have ascending := built.ascending
      congr 1
      by_contra different
      have apart : cursor.postingList.postings.Pairwise fun left right =>
          left.docId ≠ right.docId := ascending.imp ne_of_lt
      have symmetric : Std.Symm fun left right : Posting => left.docId ≠ right.docId :=
        ⟨fun _ _ different => different.symm⟩
      exact apart.forall isOther isPosting different same

theorem contribution_beyond (built : cursor.Built) (notPassed : frontier ≤ docId.val)
    (beyond : ∀ other, (cursor.standAt frontier).currentDocId = some other → docId < other) :
    cursor.contribution snapshot scoring docId = 0 := by
  have absent : cursor.postingList.postings.find? (·.docId = docId) = none := by
    apply find?_eq_none.mpr
    intro posting isPosting same
    obtain ⟨position, inside, rfl⟩ := mem_iff_getElem.mp isPosting
    have same : cursor.postingList.postings[position].docId = docId := by simpa using same
    have above : frontier ≤ cursor.postingList.postings[position].docId.val := by
      rw [same]
      exact notPassed
    obtain ⟨other, stands, -, atMost⟩ := standAt_current built inside above
    rw [same] at atMost
    exact absurd (beyond other stands) atMost.not_gt
  rw [contribution, termScore, absent]

theorem contribution_current (built : cursor.Built) {posting : Posting}
    (current : cursor.currentPosting = some posting) :
    cursor.contribution snapshot scoring posting.docId =
      if counts snapshot cursor.term posting.docId then
        scoring.score cursor.df posting.tf posting.docLen
      else 0 := by
  have isPosting : posting ∈ cursor.postingList.postings := mem_of_getElem? current
  rw [contribution, termScore, built.find?_eq_some.mpr ⟨isPosting, rfl⟩]

theorem Prepared.termMaxScore_nonneg (prepared : Prepared scoring cursor) :
    0 ≤ cursor.termMaxScore := by
  obtain ⟨start, made⟩ := prepared.made
  rw [made]
  exact (foldl_greatest id _ 0).1

variable [IsStrictOrderedRing K] (positive : ∀ x, 1 ≤ x → 0 ≤ scoring.ln x)
include positive

theorem contribution_nonneg (cursor : TermCursor K) (docId : DocIdRaw) :
    0 ≤ cursor.contribution snapshot scoring docId := by
  unfold contribution termScore
  cases cursor.postingList.postings.find? (·.docId = docId) with
  | none => exact le_rfl
  | some posting =>
    simp only
    split
    · exact scoreTerm_nonneg positive _ _ _ _ _
    · exact le_rfl

theorem Prepared.blockScore (prepared : Prepared scoring cursor) {position : Nat}
    (inside : position < cursor.postingList.postings.length) :
    ∃ score, cursor.blockMaxScores[position / blockSize]? = some score ∧
      scoring.score cursor.df cursor.postingList.postings[position].tf
        cursor.postingList.postings[position].docLen ≤ score ∧ score ≤ cursor.termMaxScore := by
  obtain ⟨info, isBlock, -, mostFrequent, shortest⟩ :=
    block_bounds prepared.built.sorted inside
  have blocks : cursor.postingList.blocks = computeBlocks cursor.postingList.postings :=
    congrArg PostingList.blocks prepared.built.blocks
  rw [← blocks] at isBlock
  obtain ⟨start, made⟩ := prepared.made
  have blockScores : cursor.blockMaxScores = cursor.postingList.blocks.map fun block =>
      scoring.score cursor.df block.maxTf block.minDocLen := by
    rw [made]
    rfl
  have termScores : cursor.termMaxScore = cursor.blockMaxScores.foldl
      (fun greatest score => if greatest < score then score else greatest) 0 := by
    rw [made]
    rfl
  have isScore : cursor.blockMaxScores[position / blockSize]? =
      some (scoring.score cursor.df info.maxTf info.minDocLen) := by
    rw [blockScores, getElem?_map, isBlock]
    rfl
  refine ⟨_, isScore, scoreTerm_mono positive mostFrequent shortest _ _ _, ?_⟩
  rw [termScores]
  exact (foldl_greatest id cursor.blockMaxScores 0).2.1 _ (mem_of_getElem? isScore)

theorem Prepared.contribution_le (prepared : Prepared scoring cursor) (docId : DocIdRaw) :
    cursor.contribution snapshot scoring docId ≤ cursor.termMaxScore := by
  unfold contribution termScore
  cases found : cursor.postingList.postings.find? (·.docId = docId) with
  | none => exact prepared.termMaxScore_nonneg
  | some posting =>
    simp only
    split
    · obtain ⟨position, inside, rfl⟩ :=
        mem_iff_getElem.mp (mem_of_find?_eq_some found)
      obtain ⟨score, -, bounded, atMost⟩ := prepared.blockScore positive inside
      exact bounded.trans atMost
    · exact prepared.termMaxScore_nonneg

theorem Prepared.contribution_le_block (prepared : Prepared scoring cursor)
    (stands : cursor.currentDocId = some docId) :
    cursor.contribution snapshot scoring docId ≤ cursor.blockMaxScoreAtDocId docId := by
  obtain ⟨posting, current, rfl⟩ := currentPosting_of_docId stands
  obtain ⟨inside, isCurrent⟩ := List.getElem?_eq_some_iff.mp current
  obtain ⟨score, isScore, bounded, -⟩ := prepared.blockScore positive inside
  have block : cursor.blockMaxScoreAtDocId posting.docId = score := by
    unfold blockMaxScoreAtDocId
    simp only [inside.not_ge, if_false, stands, if_true, isScore, Option.getD_some]
  rw [block, contribution_current prepared.built current]
  rw [isCurrent] at bounded
  split
  · exact bounded
  · exact (scoreTerm_nonneg positive _ _ _ _ _).trans bounded

end TermCursor

end Scores

end Contextra.Text
