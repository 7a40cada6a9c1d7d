import Contextra.Text.WandTurns
import Contextra.Text.PostingRuns

/-!
# Where the cursors stand

A cursor at a frontier stands at the first posting that is not below it.  Advancing takes it to
a later frontier, and the scores of the blocks bound those of their postings.
-/

namespace Contextra.Text

open Library List

variable {position : Nat}

theorem chunks_getElem? {α : Type*} {size : Nat} (positive : 0 < size) {elements : List α}
    (inside : position < elements.length) :
    (chunks size elements)[position / size]? =
      some ((elements.drop (size * (position / size))).take size) := by
  have inRange : position / size < (elements.length + size - 1) / size := by
    rw [Nat.lt_iff_add_one_le, Nat.le_div_iff_mul_le positive, Nat.succ_mul]
    have := Nat.div_mul_le_self position size
    omega
  rw [chunks, getElem?_map, getElem?_range inRange]
  rfl

theorem mem_chunk {α : Type*} {size : Nat} (positive : 0 < size) {elements : List α}
    (inside : position < elements.length) :
    elements[position] ∈ (elements.drop (size * (position / size))).take size := by
  have split := Nat.div_add_mod position size
  have small := Nat.mod_lt position positive
  rw [mem_take_iff_getElem]
  refine ⟨position % size, ?_, ?_⟩
  · rw [length_drop]
    omega
  · rw [getElem_drop]
    simp only [split]

theorem block_bounds {postings : List Posting} (sorted : Sorted postings)
    (inside : position < postings.length) :
    ∃ info, (computeBlocks postings)[position / blockSize]? = some info ∧
      postings[position].docId ≤ info.maxDocId ∧ postings[position].tf ≤ info.maxTf ∧
      info.minDocLen ≤ postings[position].docLen := by
  have positive : 0 < blockSize := by decide
  have isChunk := chunks_getElem? positive inside
  have isMember := mem_chunk positive inside
  have inList := (chunk_sublist positive (mem_of_getElem? isChunk)).2
  generalize (postings.drop (blockSize * (position / blockSize))).take blockSize = chunk
    at isChunk isMember inList
  refine ⟨blockInfo chunk, ?_, ?_, ?_, ?_⟩
  · rw [PostingList.computeBlocks_eq, getElem?_map, isChunk]
    rfl
  · exact (blockInfo_maxDocId (ne_nil_of_mem isMember) (sorted.sublist inList)).2
      ⟨_, isMember, rfl⟩
  · exact (foldl_greatest Posting.tf chunk 0).2.1 _ isMember
  · have least := (foldl_least Posting.docLen chunk u32Max).2.1 _ isMember
    simp only [blockInfo]
    split
    · exact Fin.zero_le _
    · exact least

def firstFrom (postings : List Posting) (frontier : Nat) : Nat :=
  lowerBound (postings.map fun posting => posting.docId.val) frontier

section Frontier

variable {postings : List Posting} (sorted : Sorted postings) {frontier : Nat}

theorem firstFrom_le (postings : List Posting) (frontier : Nat) :
    firstFrom postings frontier ≤ postings.length := by
  have atMost := lowerBound_le (postings.map fun posting => posting.docId.val) frontier
  rwa [length_map] at atMost

include sorted

theorem lt_firstFrom_iff {position : Nat} (inside : position < postings.length) :
    position < firstFrom postings frontier ↔ postings[position].docId.val < frontier := by
  have sortedIds : (postings.map fun posting => posting.docId.val).Pairwise (· ≤ ·) :=
    pairwise_map.mpr sorted
  have inside' : position < (postings.map fun posting => posting.docId.val).length := by
    rwa [length_map]
  rw [firstFrom, lt_lowerBound_iff sortedIds inside', getElem_map]

theorem firstFrom_eq {count : Nat} (atMost : count ≤ postings.length)
    (below : ∀ position (inside : position < postings.length), position < count →
      postings[position].docId.val < frontier)
    (above : ∀ position (inside : position < postings.length), count ≤ position →
      frontier ≤ postings[position].docId.val) : firstFrom postings frontier = count := by
  have bound := firstFrom_le postings frontier
  apply le_antisymm
  · by_contra behind
    have inside : count < postings.length := by omega
    have passed : count < firstFrom postings frontier := by omega
    have isBelow := (lt_firstFrom_iff sorted inside).mp passed
    exact absurd (above count inside le_rfl) isBelow.not_ge
  · by_contra before
    have inside : firstFrom postings frontier < postings.length := by omega
    have isBelow := below _ inside (by omega)
    exact absurd ((lt_firstFrom_iff sorted inside).mpr isBelow) (lt_irrefl _)

theorem firstFrom_mono {next : Nat} (further : frontier ≤ next) :
    firstFrom postings frontier ≤ firstFrom postings next := by
  by_contra before
  have bound := firstFrom_le postings frontier
  have inside : firstFrom postings next < postings.length := by omega
  have passed : firstFrom postings next < firstFrom postings frontier := by omega
  have isBelow := (lt_firstFrom_iff sorted inside).mp passed
  exact absurd ((lt_firstFrom_iff sorted inside).mpr (isBelow.trans_le further)) (lt_irrefl _)

end Frontier

variable {K : Type}

namespace TermCursor

def standAt (frontier : Nat) (cursor : TermCursor K) : TermCursor K :=
  { cursor with cursor := firstFrom cursor.postingList.postings frontier }

variable {cursor : TermCursor K}

def Built (cursor : TermCursor K) : Prop := Computed cursor.postingList

theorem Built.sorted (built : cursor.Built) : Sorted cursor.postingList.postings :=
  built.ascending.sorted

variable {frontier : Nat}

theorem standAt_current (built : cursor.Built) {position : Nat}
    (inside : position < cursor.postingList.postings.length)
    (above : frontier ≤ cursor.postingList.postings[position].docId.val) :
    ∃ docId, (cursor.standAt frontier).currentDocId = some docId ∧ frontier ≤ docId.val ∧
      docId ≤ cursor.postingList.postings[position].docId := by
  have notBefore : firstFrom cursor.postingList.postings frontier ≤ position := by
    by_contra before
    exact absurd ((lt_firstFrom_iff built.sorted inside).mp (Nat.lt_of_not_le before))
      above.not_gt
  have within : firstFrom cursor.postingList.postings frontier <
      cursor.postingList.postings.length := notBefore.trans_lt inside
  refine ⟨cursor.postingList.postings[firstFrom cursor.postingList.postings frontier].docId,
    ?_, ?_, ?_⟩
  · rw [currentDocId, currentPosting, standAt, getElem?_eq_getElem within]
    rfl
  · by_contra below
    exact absurd ((lt_firstFrom_iff built.sorted within).mpr (Nat.lt_of_not_le below))
      (lt_irrefl _)
  · rcases notBefore.lt_or_eq with before | same
    · exact pairwise_iff_getElem.mp built.sorted _ _ within inside before
    · simp only [same, le_refl]

theorem standAt_above (built : cursor.Built) {docId : DocIdRaw}
    (stands : (cursor.standAt frontier).currentDocId = some docId) : frontier ≤ docId.val := by
  obtain ⟨posting, isPosting, rfl⟩ := currentPosting_of_docId stands
  obtain ⟨inside, isCurrent⟩ := List.getElem?_eq_some_iff.mp isPosting
  by_contra below
  rw [← isCurrent] at below
  exact absurd ((lt_firstFrom_iff built.sorted inside).mpr (Nat.lt_of_not_le below))
    (lt_irrefl _)

theorem standAt_eq (built : cursor.Built) {next : Nat} (further : frontier ≤ next)
    (stands : ∀ docId, (cursor.standAt frontier).currentDocId = some docId → next ≤ docId.val) :
    cursor.standAt frontier = cursor.standAt next := by
  have same : firstFrom cursor.postingList.postings next =
      firstFrom cursor.postingList.postings frontier := by
    apply firstFrom_eq built.sorted (firstFrom_le _ _)
    · intro position inside before
      exact ((lt_firstFrom_iff built.sorted inside).mp before).trans_le further
    · intro position inside behind
      have above : frontier ≤ cursor.postingList.postings[position].docId.val := by
        by_contra below
        have before := (lt_firstFrom_iff built.sorted inside).mpr (Nat.lt_of_not_le below)
        omega
      obtain ⟨docId, standsAt, -, atMost⟩ := standAt_current built inside above
      exact (stands docId standsAt).trans atMost
  rw [standAt, standAt, same]

variable {target : DocIdRaw}

theorem skipBlocks_below (built : cursor.Built) {index position : Nat}
    (inside : position < cursor.postingList.postings.length) (from' : index ≤ position / blockSize)
    (skipped : position / blockSize < skipBlocks cursor.postingList.blocks target index) :
    cursor.postingList.postings[position].docId < target := by
  obtain ⟨info, isBlock, bounded, -, -⟩ := block_bounds built.sorted inside
  have blocks : cursor.postingList.blocks = computeBlocks cursor.postingList.postings :=
    congrArg PostingList.blocks built.blocks
  rw [← blocks] at isBlock
  rw [skipBlocks] at skipped
  have isSkipped : position / blockSize - index <
      ((cursor.postingList.blocks.drop index).takeWhile (·.maxDocId < target)).length := by omega
  have same := (List.takeWhile_prefix (l := cursor.postingList.blocks.drop index)
    (·.maxDocId < target)).getElem isSkipped
  have passes := mem_takeWhile_imp (getElem_mem isSkipped)
  rw [same, getElem_drop, decide_eq_true_eq] at passes
  have isInfo : cursor.postingList.blocks[position / blockSize]? = some info := isBlock
  have inBlocks := (List.getElem?_eq_some_iff.mp isInfo)
  obtain ⟨inBlocks, isInfo⟩ := inBlocks
  have index' : index + (position / blockSize - index) = position / blockSize := by omega
  simp only [index', isInfo] at passes
  exact bounded.trans_lt passes

theorem search_firstFrom {postings : List Posting} (ascending : Ascending postings)
    {position : Nat} (inside : position ≤ postings.length)
    (below : ∀ earlier (inside : earlier < postings.length), earlier < position →
      postings[earlier].docId < target) :
    position + (PostingList.search (postings.drop position) target).position =
      firstFrom postings target.val := by
  have split : postings = postings.take position ++ postings.drop position :=
    (take_append_drop _ _).symm
  have length : (postings.take position).length = position := length_take_of_le inside
  have parts {low high : List Posting} (isRest : postings.drop position = low ++ high)
      (lowBelow : ∀ posting ∈ low, posting.docId < target)
      (highAbove : ∀ posting ∈ high, target ≤ posting.docId) :
      position + low.length = firstFrom postings target.val := by
    have whole : postings = (postings.take position ++ low) ++ high := by
      rw [append_assoc, ← isRest]
      exact split
    have count : (postings.take position ++ low).length = position + low.length := by
      rw [length_append, length]
    symm
    apply firstFrom_eq ascending.sorted
    · have total := congrArg List.length whole
      rw [length_append, count] at total
      omega
    · intro earlier inside before
      have isFront : postings[earlier] ∈ postings.take position ++ low := by
        have same := getElem_of_eq whole inside
        rw [getElem_append_left (by omega)] at same
        rw [same]
        exact getElem_mem _
      rcases mem_append.mp isFront with isPassed | isLow
      · obtain ⟨index, within, same⟩ := mem_take_iff_getElem.mp isPassed
        rw [← same]
        exact below index (by omega) (by omega)
      · exact lowBelow _ isLow
    · intro later inside behind
      have isHigh : postings[later] ∈ high := by
        have same := getElem_of_eq whole inside
        rw [getElem_append_right (by omega)] at same
        rw [same]
        exact getElem_mem _
      exact highAbove _ isHigh
  have rest : Ascending (postings.drop position) := ascending.sublist (drop_sublist _ _)
  rcases PostingList.search_cases rest.sorted target with
    ⟨low, same, high, isRest, isSame, found⟩ | ⟨low, high, isRest, lowBelow, highAbove, missing⟩
  · rw [isRest] at rest
    obtain ⟨lowBelow, highAbove⟩ := PostingList.ascending_split rest
    rw [found, SearchResult.position]
    apply parts isRest
    · intro posting isLow
      exact (lowBelow posting isLow).trans_eq isSame
    · intro posting isHigh
      rcases mem_cons.mp isHigh with rfl | isRest
      · exact isSame.symm.le
      · exact (isSame.symm.trans_lt (highAbove posting isRest)).le
  · rw [missing, SearchResult.position]
    exact parts isRest lowBelow fun posting isHigh => (highAbove posting isHigh).le

theorem advanceTo_standAt (built : cursor.Built) (further : frontier ≤ target.val) :
    (cursor.standAt frontier).advanceTo target = cursor.standAt target.val := by
  let first := firstFrom cursor.postingList.postings frontier
  let start := skipBlocks cursor.postingList.blocks target (first / blockSize) * blockSize
  have later : first ≤ firstFrom cursor.postingList.postings target.val :=
    firstFrom_mono built.sorted further
  have atMost := firstFrom_le cursor.postingList.postings target.val
  have advances : (cursor.standAt frontier).advanceTo target =
      if cursor.postingList.postings.length ≤ first then cursor.standAt frontier
      else if cursor.postingList.postings.length ≤ start then
        { cursor with cursor := cursor.postingList.postings.length }
      else { cursor with cursor := max start first +
        (PostingList.search (cursor.postingList.postings.drop (max start first)) target).position } :=
    rfl
  rw [advances]
  by_cases exhausted : cursor.postingList.postings.length ≤ first
  · have same : first = firstFrom cursor.postingList.postings target.val := by omega
    rw [if_pos exhausted, standAt, standAt, ← same]
  · rw [if_neg exhausted]
    have inside := Nat.lt_of_not_le exhausted
    have below (position : Nat) (within : position < cursor.postingList.postings.length)
        (before : position < max start first) :
        cursor.postingList.postings[position].docId < target := by
      rcases Nat.lt_or_ge position first with passed | ahead
      · exact Fin.lt_def.mpr
          (((lt_firstFrom_iff built.sorted within).mp passed).trans_le further)
      · have skipped : position < start := (lt_max_iff.mp before).resolve_right ahead.not_gt
        apply skipBlocks_below built within (Nat.div_le_div_right ahead)
        exact Nat.div_lt_of_lt_mul (by rw [Nat.mul_comm]; exact skipped)
    by_cases skippedAll : cursor.postingList.postings.length ≤ start
    · have same : firstFrom cursor.postingList.postings target.val =
          cursor.postingList.postings.length := by
        apply firstFrom_eq built.sorted le_rfl
        · intro position within _
          exact Fin.lt_def.mp (below position within
            (lt_max_of_lt_left (within.trans_le skippedAll)))
        · intro position within behind
          exact absurd within behind.not_gt
      rw [if_pos skippedAll, standAt, same]
    · have position : max start first ≤ cursor.postingList.postings.length :=
        max_le (Nat.lt_of_not_le skippedAll).le inside.le
      rw [if_neg skippedAll, search_firstFrom built.ascending position below, standAt]

end TermCursor

end Contextra.Text
