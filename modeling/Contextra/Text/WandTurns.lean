import Contextra.Text.Wand

/-!
# Termination of Block-Max WAND

What one iteration of the loop does, and that every iteration that does not leave the loop
advances a cursor.
-/

namespace Contextra.Text

open Library List

variable {K : Type}

def TermCursor.MovesTo (before after : TermCursor K) : Prop :=
  after = { before with cursor := after.cursor } ∧ before.cursor ≤ after.cursor

theorem TermCursor.MovesTo.refl (cursor : TermCursor K) : cursor.MovesTo cursor := ⟨rfl, le_rfl⟩

theorem TermCursor.advanceTo_movesTo (cursor : TermCursor K) (target : DocIdRaw) :
    cursor.MovesTo (cursor.advanceTo target) := by
  unfold advanceTo
  by_cases exhausted : cursor.postingList.postings.length ≤ cursor.cursor
  · simp only [exhausted, if_true]
    exact MovesTo.refl cursor
  · simp only [exhausted, if_false]
    split
    · exact ⟨rfl, by simp only; omega⟩
    · exact ⟨rfl, (le_max_right _ _).trans (Nat.le_add_right _ _)⟩

theorem search_position_pos {postings : List Posting} (sorted : Sorted postings) {first : Posting}
    (isFirst : postings.head? = some first) {target : DocIdRaw} (below : first.docId < target) :
    0 < (PostingList.search postings target).position := by
  rcases PostingList.search_cases sorted target with
    ⟨low, same, high, split, isSame, found⟩ | ⟨low, high, split, -, above, missing⟩
  · rw [found, SearchResult.position]
    cases low with
    | nil =>
      rw [split] at isFirst
      obtain rfl : same = first := Option.some.inj isFirst
      exact absurd isSame below.ne
    | cons other low => exact Nat.succ_pos _
  · rw [missing, SearchResult.position]
    cases low with
    | nil =>
      rw [split] at isFirst
      have isHigh : first ∈ high := mem_of_mem_head? isFirst
      exact absurd (above first isHigh) below.asymm
    | cons other low => exact Nat.succ_pos _

theorem TermCursor.currentPosting_of_docId {cursor : TermCursor K} {docId : DocIdRaw}
    (stands : cursor.currentDocId = some docId) :
    ∃ posting, cursor.currentPosting = some posting ∧ posting.docId = docId :=
  Option.map_eq_some_iff.mp stands

theorem TermCursor.advanceTo_lt {cursor : TermCursor K} (sorted : Sorted cursor.postingList.postings)
    {docId target : DocIdRaw} (stands : cursor.currentDocId = some docId) (below : docId < target) :
    cursor.cursor < (cursor.advanceTo target).cursor := by
  obtain ⟨posting, isPosting, rfl⟩ := currentPosting_of_docId stands
  obtain ⟨inside, isCurrent⟩ := List.getElem?_eq_some_iff.mp isPosting
  unfold advanceTo
  simp only [inside.not_ge, if_false]
  split
  · exact inside
  · rcases Nat.lt_or_ge cursor.cursor (skipBlocks cursor.postingList.blocks target
      (cursor.cursor / blockSize) * blockSize) with skipped | stays
    · exact skipped.trans_le ((le_max_left _ _).trans (Nat.le_add_right _ _))
    · have isFirst : (cursor.postingList.postings.drop cursor.cursor).head? = some posting := by
        rw [head?_drop]
        exact isPosting
      have position := search_position_pos (sorted.sublist (drop_sublist _ _)) isFirst below
      simp only [max_eq_right stays]
      omega

theorem TermCursor.sortsBefore_le {first second : TermCursor K}
    (before : sortsBefore first second = true) :
    first.currentDocId.getD (Fin.last _) ≤ second.currentDocId.getD (Fin.last _) := by
  simp only [sortsBefore, Bool.or_eq_true, Bool.and_eq_true, decide_eq_true_eq] at before
  rcases before with less | ⟨same, -⟩
  · exact less.le
  · exact same.le

theorem TermCursor.sortsBefore_total (first second : TermCursor K) :
    (sortsBefore first second || sortsBefore second first) = true := by
  simp only [sortsBefore, Bool.or_eq_true, Bool.and_eq_true, decide_eq_true_eq]
  rcases lt_trichotomy (first.currentDocId.getD (Fin.last _))
    (second.currentDocId.getD (Fin.last _)) with less | same | greater
  · exact Or.inl (Or.inl less)
  · rcases le_total first.term second.term with below | above
    · exact Or.inl (Or.inr ⟨same, below⟩)
    · exact Or.inr (Or.inr ⟨same.symm, above⟩)
  · exact Or.inr (Or.inl greater)

theorem TermCursor.sortsBefore_trans (first second third : TermCursor K)
    (before : sortsBefore first second = true) (before' : sortsBefore second third = true) :
    sortsBefore first third = true := by
  simp only [sortsBefore, Bool.or_eq_true, Bool.and_eq_true, decide_eq_true_eq] at before before' ⊢
  rcases before with less | ⟨same, below⟩
  · rcases before' with less' | ⟨same', -⟩
    · exact Or.inl (less.trans less')
    · exact Or.inl (less.trans_eq same')
  · rcases before' with less' | ⟨same', below'⟩
    · exact Or.inl (same.trans_lt less')
    · exact Or.inr ⟨same.trans same', below.trans below'⟩

namespace SearchState

variable (state : SearchState K)

theorem sortedCursors_perm : state.sortedCursors.Perm state.live := mergeSort_perm _ _

variable {state}

theorem mem_live {cursor : TermCursor K} :
    cursor ∈ state.live ↔ cursor ∈ state.cursors ∧ ∃ docId, cursor.currentDocId = some docId := by
  rw [live, mem_filter, Option.isSome_iff_exists]

theorem sortedCursors_pairwise :
    state.sortedCursors.Pairwise fun first second => ∀ docId docId',
      first.currentDocId = some docId → second.currentDocId = some docId' → docId ≤ docId' := by
  apply (pairwise_mergeSort TermCursor.sortsBefore_trans TermCursor.sortsBefore_total _).imp
  intro first second before docId docId' stands stands'
  have ordered := TermCursor.sortsBefore_le before
  rwa [stands, stands'] at ordered

theorem sortedCursors_stands {cursor : TermCursor K} (isCursor : cursor ∈ state.sortedCursors) :
    ∃ docId, cursor.currentDocId = some docId :=
  (mem_live.mp (state.sortedCursors_perm.mem_iff.mp isCursor)).2

end SearchState

/-- A cursor goes behind the document at which it stands. -/
def TermCursor.past (docId : DocIdRaw) (next : DocIdRaw) (cursor : TermCursor K) : TermCursor K :=
  if cursor.currentDocId = some docId then cursor.advanceTo next else cursor

def TermCursor.towards (pivotDocId : DocIdRaw) (cursor : TermCursor K) : TermCursor K :=
  if cursor.currentDocId.any (· < pivotDocId) then cursor.advanceTo pivotDocId else cursor

theorem advanceLeading_eq_map {pivotDocId : DocIdRaw} {cursors : List (TermCursor K)}
    (sorted : cursors.Pairwise fun first second => ∀ docId docId',
      first.currentDocId = some docId → second.currentDocId = some docId' → docId ≤ docId') :
    advanceLeading pivotDocId cursors = cursors.map (TermCursor.towards pivotDocId) := by
  induction cursors with
  | nil => rfl
  | cons cursor cursors ih =>
    obtain ⟨first, rest⟩ := pairwise_cons.mp sorted
    rw [advanceLeading, map_cons, TermCursor.towards, ih rest]
    cases stands : cursor.currentDocId with
    | none => simp
    | some docId =>
      by_cases below : docId < pivotDocId
      · simp [below]
      · have stay (later : TermCursor K) (isLater : later ∈ cursors) :
            later.towards pivotDocId = later := by
          unfold TermCursor.towards
          cases stands' : later.currentDocId with
          | none => simp
          | some docId' =>
            have ordered := first later isLater docId docId' stands stands'
            have notBelow : ¬ docId' < pivotDocId :=
              not_lt.mpr ((not_lt.mp below).trans ordered)
            simp [notBelow]
        simp [below, map_congr_left stay]

theorem TermCursor.past_movesTo (docId next : DocIdRaw) (cursor : TermCursor K) :
    cursor.MovesTo (cursor.past docId next) := by
  unfold past
  split
  · exact cursor.advanceTo_movesTo next
  · exact MovesTo.refl cursor

theorem TermCursor.towards_movesTo (docId : DocIdRaw) (cursor : TermCursor K) :
    cursor.MovesTo (cursor.towards docId) := by
  unfold towards
  split
  · exact cursor.advanceTo_movesTo docId
  · exact MovesTo.refl cursor

/-- The cursors with postings left stay where they are or move on, and one of them moves on. -/
def Advances (state next : SearchState K) : Prop :=
  ∃ (cursors : List (TermCursor K)) (move : TermCursor K → TermCursor K),
    cursors.Perm state.live ∧ next.cursors = cursors.map move ∧
    (∀ cursor ∈ cursors, cursor.MovesTo (move cursor)) ∧
    ∃ cursor ∈ cursors, cursor.cursor < (move cursor).cursor

/-- The number of postings that no cursor has passed. -/
def SearchState.remaining (state : SearchState K) : Nat :=
  (state.cursors.map fun cursor => cursor.postingList.postings.length - cursor.cursor).sum

theorem Advances.remaining {state next : SearchState K} (advances : Advances state next) :
    next.remaining < state.remaining := by
  obtain ⟨cursors, move, perm, moved, moves, further⟩ := advances
  let left (cursor : TermCursor K) : Nat :=
    cursor.postingList.postings.length - cursor.cursor
  have liveLe : (state.live.map left).sum ≤ (state.cursors.map left).sum :=
    (List.Sublist.map left filter_sublist).sum_le_sum fun _ _ => Nat.zero_le _
  have samePerm : (cursors.map left).sum = (state.live.map left).sum := (perm.map left).sum_eq
  have leftMove (cursor : TermCursor K) (isCursor : cursor ∈ cursors) :
      left (move cursor) = cursor.postingList.postings.length - (move cursor).cursor := by
    simp only [left]
    rw [(moves cursor isCursor).1]
  have decreases : (cursors.map fun cursor => left (move cursor)).sum < (cursors.map left).sum := by
    apply sum_lt_sum
    · intro cursor isCursor
      rw [leftMove cursor isCursor]
      have forward := (moves cursor isCursor).2
      simp only [left]
      omega
    · obtain ⟨cursor, isCursor, strictly⟩ := further
      refine ⟨cursor, isCursor, ?_⟩
      obtain ⟨docId, stands⟩ := (SearchState.mem_live.mp (perm.mem_iff.mp isCursor)).2
      obtain ⟨posting, isPosting, -⟩ := TermCursor.currentPosting_of_docId stands
      obtain ⟨inside, -⟩ := List.getElem?_eq_some_iff.mp isPosting
      rw [leftMove cursor isCursor]
      simp only [left]
      omega
  have nextLeft : next.remaining = (cursors.map fun cursor => left (move cursor)).sum := by
    rw [SearchState.remaining, moved, List.map_map]
    rfl
  rw [nextLeft]
  exact decreases.trans_le (samePerm.trans_le liveLe)

variable [Field K]

def maxScores (cursors : List (TermCursor K)) : K := (cursors.map TermCursor.termMaxScore).sum

theorem maxScores_perm {cursors cursors' : List (TermCursor K)} (perm : cursors.Perm cursors') :
    maxScores cursors = maxScores cursors' := (perm.map _).sum_eq

section Pivot

variable [LinearOrder K] {threshold : K}

theorem pivotCursor_eq_some {accum : K} {cursors : List (TermCursor K)} {pivot : TermCursor K}
    (found : pivotCursor threshold accum cursors = some pivot) :
    ∃ before after, cursors = before ++ pivot :: after ∧
      (accum ≤ threshold → accum + maxScores before ≤ threshold) ∧
      threshold < accum + maxScores before + pivot.termMaxScore := by
  induction cursors generalizing accum with
  | nil => cases found
  | cons cursor cursors ih =>
    rw [pivotCursor] at found
    by_cases exceeds : threshold < accum + cursor.termMaxScore
    · rw [if_pos exceeds] at found
      obtain rfl := Option.some.inj found
      exact ⟨[], cursors, rfl, fun start => by simpa [maxScores] using start,
        by simpa [maxScores] using exceeds⟩
    · rw [if_neg exceeds] at found
      obtain ⟨before, after, rfl, atMost, more⟩ := ih found
      have sum : accum + maxScores (cursor :: before) =
          accum + cursor.termMaxScore + maxScores before := by
        rw [maxScores, map_cons, sum_cons, ← add_assoc]
        rfl
      refine ⟨cursor :: before, after, rfl, fun _ => ?_, ?_⟩
      · rw [sum]
        exact atMost (not_lt.mp exceeds)
      · rw [sum]
        exact more

theorem pivotCursor_eq_none {accum : K} {cursors : List (TermCursor K)}
    (missing : pivotCursor threshold accum cursors = none) :
    cursors = [] ∨ accum + maxScores cursors ≤ threshold := by
  induction cursors generalizing accum with
  | nil => exact Or.inl rfl
  | cons cursor cursors ih =>
    rw [pivotCursor] at missing
    by_cases exceeds : threshold < accum + cursor.termMaxScore
    · rw [if_pos exceeds] at missing
      cases missing
    · rw [if_neg exceeds] at missing
      right
      rw [maxScores, map_cons, sum_cons, ← add_assoc]
      rcases ih missing with rfl | atMost
      · simpa using not_lt.mp exceeds
      · exact atMost

end Pivot

variable [LinearOrder K] (snapshot : Snapshot) (scoring : Scoring K)

inductive Iterates (state : SearchState K) : Turn (SearchState K) → Prop where
  | finished (noPivot : state.sortedCursors = [] ∨
      maxScores state.sortedCursors ≤ state.topK.minThreshold) : Iterates state .finished
  | visited {pivot : TermCursor K} {before after : List (TermCursor K)} {docId next : DocIdRaw}
      (split : state.sortedCursors = before ++ pivot :: after)
      (exceeds : state.topK.minThreshold < maxScores before + pivot.termMaxScore)
      (stands : pivot.currentDocId = some docId)
      (least : ∀ cursor ∈ state.sortedCursors, ∀ other, cursor.currentDocId = some other →
        docId ≤ other)
      (follows : next.val = docId.val + 1) :
      Iterates state (.continued
        ⟨state.sortedCursors.map (TermCursor.past docId next),
          (visit snapshot scoring docId state.sortedCursors state.topK
            state.evaluatedDocsCount).1,
          (visit snapshot scoring docId state.sortedCursors state.topK
            state.evaluatedDocsCount).2⟩)
  | overflow {pivot : TermCursor K} {before after : List (TermCursor K)}
      (split : state.sortedCursors = before ++ pivot :: after)
      (exceeds : state.topK.minThreshold < maxScores before + pivot.termMaxScore)
      (stands : pivot.currentDocId = some (Fin.last _))
      (least : ∀ cursor ∈ state.sortedCursors, ∀ other, cursor.currentDocId = some other →
        Fin.last _ ≤ other) : Iterates state .overflow
  | advanced {first pivot : TermCursor K} {before after : List (TermCursor K)}
      {minDocId docId : DocIdRaw} (split : state.sortedCursors = before ++ pivot :: after)
      (atMost : 0 ≤ state.topK.minThreshold → maxScores before ≤ state.topK.minThreshold)
      (stands : pivot.currentDocId = some docId) (isFirst : first ∈ state.sortedCursors)
      (standsFirst : first.currentDocId = some minDocId) (behind : minDocId < docId) :
      Iterates state (.continued
        ⟨state.sortedCursors.map (TermCursor.towards docId), state.topK,
          state.evaluatedDocsCount⟩)

theorem iteration_iterates (state : SearchState K) :
    Iterates snapshot scoring state (iteration snapshot scoring state) := by
  have pairwise := state.sortedCursors_pairwise
  simp only [iteration]
  cases isPivot : pivotCursor state.topK.minThreshold 0 state.sortedCursors with
  | none =>
    simp only [Option.bind_none]
    rcases pivotCursor_eq_none isPivot with empty | atMost
    · exact .finished (Or.inl empty)
    · rw [zero_add] at atMost
      exact .finished (Or.inr atMost)
  | some pivot =>
    obtain ⟨before, after, split, atMost, exceeds⟩ := pivotCursor_eq_some isPivot
    rw [zero_add] at atMost exceeds
    have isSorted : pivot ∈ state.sortedCursors := by simp [split]
    obtain ⟨docId, stands⟩ := SearchState.sortedCursors_stands isSorted
    cases order : state.sortedCursors with
    | nil =>
      rw [order] at isSorted
      cases isSorted
    | cons first rest =>
      have isFirst : first ∈ state.sortedCursors := by simp [order]
      obtain ⟨minDocId, standsFirst⟩ := SearchState.sortedCursors_stands isFirst
      have least (cursor : TermCursor K) (isCursor : cursor ∈ state.sortedCursors)
          (other : DocIdRaw) (stands' : cursor.currentDocId = some other) :
          minDocId ≤ other := by
        rw [order] at isCursor pairwise
        rcases mem_cons.mp isCursor with rfl | isRest
        · rw [standsFirst] at stands'
          exact (Option.some.inj stands').le
        · exact (pairwise_cons.mp pairwise).1 cursor isRest _ _ standsFirst stands'
      simp only [Option.bind_some, stands, head?_cons, standsFirst]
      rw [← order]
      by_cases same : minDocId = docId
      · rw [if_pos same]
        rw [same] at least
        by_cases fits : docId.val + 1 < 2 ^ 64
        · have passes : passDocument docId state.sortedCursors =
              some (state.sortedCursors.map (TermCursor.past docId ⟨docId.val + 1, fits⟩)) := by
            rw [passDocument, dif_pos fits]
            rfl
          simp only [passes]
          exact .visited split exceeds stands least rfl
        · have passes : passDocument docId state.sortedCursors = none := by
            rw [passDocument, dif_neg fits]
          have isLast : docId = Fin.last _ := Fin.ext (by
            have : docId.val < 2 ^ 64 := docId.isLt
            simp only [Fin.val_last]
            omega)
          simp only [passes]
          rw [isLast] at stands least
          exact .overflow split exceeds stands least
      · rw [if_neg same, advanceLeading_eq_map pairwise]
        have below : minDocId < docId :=
          lt_of_le_of_ne (least pivot isSorted docId stands) same
        exact .advanced split atMost stands isFirst standsFirst below

/-- The cursors with postings left all stand at the largest id, and their terms together exceed
the threshold. -/
def Stuck (state : SearchState K) : Prop :=
  state.live ≠ [] ∧ (∀ cursor ∈ state.live, cursor.currentDocId = some (Fin.last _)) ∧
    state.topK.minThreshold < maxScores state.live

structure TermCursor.Sound (cursor : TermCursor K) : Prop where
  sorted : Sorted cursor.postingList.postings
  nonneg : 0 ≤ cursor.termMaxScore

section Progress

variable {snapshot scoring} {state next : SearchState K}

theorem maxScores_nonneg [IsStrictOrderedRing K] {cursors : List (TermCursor K)}
    (sound : ∀ cursor ∈ cursors, cursor.Sound) : 0 ≤ maxScores cursors := by
  apply sum_nonneg
  intro score isScore
  obtain ⟨cursor, isCursor, rfl⟩ := List.mem_map.mp isScore
  exact (sound cursor isCursor).nonneg

theorem overflow_iff_stuck [IsStrictOrderedRing K] (sound : ∀ cursor ∈ state.cursors, cursor.Sound) :
    iteration snapshot scoring state = .overflow ↔ Stuck state := by
  have perm := state.sortedCursors_perm
  have iterates := iteration_iterates snapshot scoring state
  constructor
  · intro overflows
    rw [overflows] at iterates
    cases iterates with
    | @overflow pivot before after split exceeds stands least =>
      have isPivot : pivot ∈ state.sortedCursors := by simp [split]
      refine ⟨ne_nil_of_mem (perm.mem_iff.mp isPivot), fun cursor isLive => ?_, ?_⟩
      · obtain ⟨docId, standsAt⟩ := (SearchState.mem_live.mp isLive).2
        have atLast := least cursor (perm.mem_iff.mpr isLive) docId standsAt
        rw [standsAt, le_antisymm (Fin.le_last docId) atLast]
      · have later : 0 ≤ maxScores after := by
          apply maxScores_nonneg
          intro cursor isAfter
          have isSorted : cursor ∈ state.sortedCursors := by simp [split, isAfter]
          exact sound cursor (SearchState.mem_live.mp (perm.mem_iff.mp isSorted)).1
        have whole : maxScores state.live =
            maxScores before + pivot.termMaxScore + maxScores after := by
          rw [← maxScores_perm perm, split]
          simp [maxScores, add_assoc]
        rw [whole]
        exact lt_add_of_lt_of_nonneg exceeds later
  · rintro ⟨nonempty, allLast, exceeds⟩
    have allLast' (cursor : TermCursor K) (isCursor : cursor ∈ state.sortedCursors) :
        cursor.currentDocId = some (Fin.last _) := allLast cursor (perm.mem_iff.mp isCursor)
    generalize iteration snapshot scoring state = turn at iterates
    cases iterates with
    | finished noPivot =>
      rcases noPivot with empty | atMost
      · rw [empty] at perm
        exact absurd perm.nil_eq.symm nonempty
      · rw [maxScores_perm perm] at atMost
        exact absurd exceeds atMost.not_gt
    | @visited pivot before after docId next split exceeds' stands least follows =>
      have isPivot : pivot ∈ state.sortedCursors := by simp [split]
      rw [allLast' pivot isPivot] at stands
      obtain rfl := Option.some.inj stands
      have : next.val < 2 ^ 64 := next.isLt
      simp only [Fin.val_last] at follows
      omega
    | overflow => rfl
    | @advanced first pivot before after minDocId docId split atMost stands isFirst standsFirst
        behind =>
        rw [allLast' first isFirst] at standsFirst
        obtain rfl := Option.some.inj standsFirst
        exact absurd behind (Fin.le_last docId).not_gt

theorem continued_advances (sound : ∀ cursor ∈ state.cursors, cursor.Sound)
    (continues : iteration snapshot scoring state = .continued next) : Advances state next := by
  have perm := state.sortedCursors_perm
  have soundSorted (cursor : TermCursor K) (isCursor : cursor ∈ state.sortedCursors) :
      cursor.Sound := sound cursor (SearchState.mem_live.mp (perm.mem_iff.mp isCursor)).1
  have iterates := iteration_iterates snapshot scoring state
  rw [continues] at iterates
  cases iterates with
  | @visited pivot before after docId next split exceeds stands least follows =>
    have isPivot : pivot ∈ state.sortedCursors := by simp [split]
    refine ⟨state.sortedCursors, TermCursor.past docId next, perm, rfl,
      fun cursor _ => cursor.past_movesTo docId next, pivot, isPivot, ?_⟩
    rw [TermCursor.past, if_pos stands]
    exact TermCursor.advanceTo_lt (soundSorted pivot isPivot).sorted stands
      (Fin.lt_def.mpr (by omega))
  | @advanced first pivot before after minDocId docId split atMost stands isFirst standsFirst
      behind =>
      refine ⟨state.sortedCursors, TermCursor.towards docId, perm, rfl,
        fun cursor _ => cursor.towards_movesTo docId, first, isFirst, ?_⟩
      have before : first.currentDocId.any (· < docId) = true := by simp [standsFirst, behind]
      rw [TermCursor.towards, if_pos before]
      exact TermCursor.advanceTo_lt (soundSorted first isFirst).sorted standsFirst behind

theorem Advances.sound (advances : Advances state next)
    (sound : ∀ cursor ∈ state.cursors, cursor.Sound) : ∀ cursor ∈ next.cursors, cursor.Sound := by
  obtain ⟨cursors, move, perm, moved, moves, -⟩ := advances
  intro cursor isCursor
  rw [moved] at isCursor
  obtain ⟨before, isBefore, rfl⟩ := List.mem_map.mp isCursor
  have soundBefore := sound before (SearchState.mem_live.mp (perm.mem_iff.mp isBefore)).1
  rw [(moves before isBefore).1]
  exact ⟨soundBefore.sorted, soundBefore.nonneg⟩

end Progress

/-- The state after some iterations, all of which stay in the loop. -/
def stateAfter : Nat → SearchState K → Option (SearchState K)
  | 0, state => some state
  | count + 1, state =>
    match iteration snapshot scoring state with
    | .continued next => stateAfter count next
    | _ => none

section Loop

variable {snapshot scoring} {start : SearchState K}

theorem stateAfter_sound (sound : ∀ cursor ∈ start.cursors, cursor.Sound) {count : Nat}
    {state : SearchState K} (reached : stateAfter snapshot scoring count start = some state) :
    ∀ cursor ∈ state.cursors, cursor.Sound := by
  induction count generalizing start with
  | zero =>
    obtain rfl := Option.some.inj reached
    exact sound
  | succ count ih =>
    cases turn : iteration snapshot scoring start with
    | finished =>
      rw [stateAfter, turn] at reached
      cases reached
    | overflow =>
      rw [stateAfter, turn] at reached
      cases reached
    | continued next =>
      rw [stateAfter, turn] at reached
      exact ih ((continued_advances sound turn).sound sound) reached

variable [IsStrictOrderedRing K]

/-- A loop that reaches no stuck state leaves after at most as many iterations as there are
postings, each of which advances a cursor. -/
theorem searchLoop_ends (sound : ∀ cursor ∈ start.cursors, cursor.Sound)
    (free : ∀ count state, stateAfter snapshot scoring count start = some state →
      ¬ Stuck state) :
    (∀ count state, stateAfter snapshot scoring count start = some state →
      iteration snapshot scoring state = .finished ∨
        ∃ next, iteration snapshot scoring state = .continued next ∧ Advances state next) ∧
    ∃ count ≤ start.remaining, ∃ final, stateAfter snapshot scoring count start = some final ∧
      iteration snapshot scoring final = .finished ∧
      ∀ fuel, count < fuel → searchLoop snapshot scoring fuel start = some (.ok final) := by
  induction measure : start.remaining using Nat.strong_induction_on generalizing start with
  | _ left ih =>
  cases turn : iteration snapshot scoring start with
  | overflow => exact absurd ((overflow_iff_stuck sound).mp turn) (free 0 start rfl)
  | finished =>
    refine ⟨fun count state reached => ?_, 0, Nat.zero_le _, start, rfl, turn, ?_⟩
    · cases count with
      | zero =>
        obtain rfl := Option.some.inj reached
        exact Or.inl turn
      | succ count =>
        rw [stateAfter, turn] at reached
        cases reached
    · intro fuel enough
      obtain ⟨fuel, rfl⟩ := Nat.exists_eq_succ_of_ne_zero enough.ne'
      rw [searchLoop, turn]
  | continued next =>
    have advances := continued_advances sound turn
    have less := advances.remaining
    have reaches (count : Nat) : stateAfter snapshot scoring (count + 1) start =
        stateAfter snapshot scoring count next := by rw [stateAfter, turn]
    obtain ⟨steps, count, few, final, reached, leaves, runs⟩ :=
      ih next.remaining (by omega) (advances.sound sound)
        (fun count state reached => free (count + 1) state (by rw [reaches, reached])) rfl
    refine ⟨fun count state reached => ?_, count + 1, by omega, final, ?_, leaves, ?_⟩
    · cases count with
      | zero =>
        obtain rfl := Option.some.inj reached
        exact Or.inr ⟨next, turn, advances⟩
      | succ count =>
        rw [reaches] at reached
        exact steps count state reached
    · rw [reaches, reached]
    · intro fuel enough
      obtain ⟨fuel, rfl⟩ := Nat.exists_eq_succ_of_ne_zero (by omega : fuel ≠ 0)
      rw [searchLoop, turn]
      exact runs fuel (by omega)

theorem not_stuck (sound : ∀ cursor ∈ start.cursors, cursor.Sound)
    (steps : iteration snapshot scoring start = .finished ∨
      ∃ next, iteration snapshot scoring start = .continued next ∧ Advances start next) :
    ¬ Stuck start := by
  intro stuck
  have overflows : iteration snapshot scoring start = .overflow :=
    (overflow_iff_stuck sound).mpr stuck
  rw [overflows] at steps
  rcases steps with leaves | ⟨next, continues, -⟩
  · cases leaves
  · cases continues

end Loop

section Query

variable {snapshot scoring} {lists : Key → PostingList}

theorem queryCursor_eq_some {term : Key} {cursor : TermCursor K} :
    queryCursor snapshot scoring lists term = some cursor ↔
      (lists term).postings ≠ [] ∧ 0 < effectiveDf snapshot (lists term) term ∧
        cursor = .new scoring term (lists term) (effectiveDf snapshot (lists term) term) := by
  unfold queryCursor
  split_ifs with empty frequent
  · simp [List.isEmpty_iff.mp empty]
  · have nonempty : (lists term).postings ≠ [] := fun same => empty (List.isEmpty_iff.mpr same)
    simp [nonempty, frequent, eq_comm]
  · simp [frequent]

theorem queryCursors_sound (sorted : ∀ term, Sorted (lists term).postings) (terms : List Key) :
    ∀ cursor ∈ queryCursors snapshot scoring lists terms, cursor.Sound := by
  intro cursor isCursor
  obtain ⟨term, -, isQuery⟩ := mem_filterMap.mp isCursor
  obtain ⟨-, -, rfl⟩ := queryCursor_eq_some.mp isQuery
  exact ⟨sorted term, (foldl_greatest id _ 0).1⟩

theorem queryCursors_remaining (lists : Key → PostingList) (terms : List Key)
    (topK : BoundedTopK K) (evaluatedDocsCount : Nat) :
    SearchState.remaining ⟨queryCursors snapshot scoring lists terms, topK, evaluatedDocsCount⟩ ≤
      (terms.map fun term => (lists term).postings.length).sum := by
  unfold SearchState.remaining queryCursors
  induction terms with
  | nil => exact le_rfl
  | cons term terms ih =>
    rw [map_cons, sum_cons]
    cases isQuery : queryCursor snapshot scoring lists term with
    | none =>
      rw [filterMap_cons_none isQuery]
      exact ih.trans (Nat.le_add_left _ _)
    | some cursor =>
      rw [filterMap_cons_some isQuery, map_cons, sum_cons]
      obtain ⟨-, -, rfl⟩ := queryCursor_eq_some.mp isQuery
      exact Nat.add_le_add (Nat.sub_le _ _) ih

end Query

def plainSnapshot : Snapshot := ⟨"__txt:default:".toList, true, fun _ => false, []⟩

def singleton (docId : DocIdRaw) : PostingList := .ofPostings [⟨docId, 1, 1⟩]

/-- A corpus of two documents; the logarithm is replaced by a rational function below it. -/
def plainScoring : Scoring ℚ := ⟨fun x => 1 - 1 / x, 1, 2⟩

end Contextra.Text
