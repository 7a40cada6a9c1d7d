import Contextra.Text.WandExhaustive

/-!
# What the loop of a search preserves

All cursors with postings left stand at one frontier, and the heap holds the best of the documents
below it.
-/

namespace Contextra.Text

open Library List Option

variable {K : Type} [Field K] [LinearOrder K] {snapshot : Snapshot} {scoring : Scoring K}

section Scores

variable (snapshot scoring)

def totalScore (cursors : List (TermCursor K)) (docId : DocIdRaw) : K :=
  (cursors.map fun cursor => cursor.contribution snapshot scoring docId).sum

def IsCandidate (cursors : List (TermCursor K)) (docId : DocIdRaw) : Prop :=
  ∃ cursor ∈ cursors, counts snapshot cursor.term docId = true ∧
    ∃ posting ∈ cursor.postingList.postings, posting.docId = docId

end Scores

variable {cursors cursors' : List (TermCursor K)} {docId : DocIdRaw}

theorem totalScore_perm (perm : cursors.Perm cursors') :
    totalScore snapshot scoring cursors docId = totalScore snapshot scoring cursors' docId :=
  (perm.map _).sum_eq

theorem totalScore_append :
    totalScore snapshot scoring (cursors ++ cursors') docId =
      totalScore snapshot scoring cursors docId + totalScore snapshot scoring cursors' docId := by
  rw [totalScore, map_append, sum_append]
  rfl

theorem totalScore_filter (keep : TermCursor K → Bool)
    (silent : ∀ cursor ∈ cursors, ¬ keep cursor = true →
      cursor.contribution snapshot scoring docId = 0) :
    totalScore snapshot scoring (cursors.filter keep) docId =
      totalScore snapshot scoring cursors docId := by
  induction cursors with
  | nil => rfl
  | cons cursor cursors ih =>
    have rest := ih fun other isOther =>
      silent other (mem_cons_of_mem _ isOther)
    unfold totalScore at rest ⊢
    by_cases kept : keep cursor = true
    · rw [filter_cons_of_pos kept, map_cons, map_cons, sum_cons,
        sum_cons, rest]
    · rw [filter_cons_of_neg kept, map_cons, sum_cons,
        silent cursor mem_cons_self kept, zero_add, rest]

theorem totalScore_silent (silent : ∀ cursor ∈ cursors,
    cursor.contribution snapshot scoring docId = 0) :
    totalScore snapshot scoring cursors docId = 0 := by
  apply sum_eq_zero
  intro score isScore
  obtain ⟨cursor, isCursor, rfl⟩ := List.mem_map.mp isScore
  exact silent cursor isCursor

section Bounds

variable [IsStrictOrderedRing K] (positive : ∀ x, 1 ≤ x → 0 ≤ scoring.ln x)
include positive

theorem totalScore_nonneg (cursors : List (TermCursor K)) (docId : DocIdRaw) :
    0 ≤ totalScore snapshot scoring cursors docId := by
  apply sum_nonneg
  intro score isScore
  obtain ⟨cursor, isCursor, rfl⟩ := List.mem_map.mp isScore
  exact cursor.contribution_nonneg positive docId

theorem totalScore_le_maxScores (prepared : ∀ cursor ∈ cursors, cursor.Prepared scoring)
    (docId : DocIdRaw) : totalScore snapshot scoring cursors docId ≤ maxScores cursors :=
  sum_le_sum fun cursor isCursor => (prepared cursor isCursor).contribution_le positive docId

end Bounds

def standingAt (frontier : Nat) (cursors : List (TermCursor K)) : List (TermCursor K) :=
  (cursors.map (TermCursor.standAt frontier)).filter fun cursor => cursor.currentDocId.isSome

omit [Field K] [LinearOrder K] in
theorem mem_standingAt {frontier : Nat} {cursor : TermCursor K} :
    cursor ∈ standingAt frontier cursors ↔
      ∃ start ∈ cursors, start.standAt frontier = cursor ∧
        ∃ docId, cursor.currentDocId = some docId := by
  rw [standingAt, mem_filter, List.mem_map, isSome_iff_exists]
  constructor
  · rintro ⟨⟨start, isStart, rfl⟩, stands⟩
    exact ⟨start, isStart, rfl, stands⟩
  · rintro ⟨start, isStart, rfl, stands⟩
    exact ⟨⟨start, isStart, rfl⟩, stands⟩

omit [Field K] [LinearOrder K] in
theorem standingAt_standingAt (built : ∀ cursor ∈ cursors, cursor.Built) {frontier next : Nat}
    (further : frontier ≤ next) :
    standingAt next (standingAt frontier cursors) = standingAt next cursors := by
  let isLive (cursor : TermCursor K) : Bool := cursor.currentDocId.isSome
  have inner : standingAt frontier cursors =
      (cursors.filter (isLive ∘ TermCursor.standAt frontier)).map (TermCursor.standAt frontier) :=
    List.filter_map
  have twice : (TermCursor.standAt next ∘ TermCursor.standAt frontier : TermCursor K → _) =
      TermCursor.standAt next := rfl
  rw [inner, standingAt, standingAt, List.map_map, twice, List.filter_map, List.filter_map,
    List.filter_filter]
  congr 1
  apply filter_congr
  intro cursor isCursor
  simp only [Function.comp_apply, Bool.and_eq_left_iff_imp]
  intro stands
  obtain ⟨docId, stands⟩ := isSome_iff_exists.mp stands
  have above := TermCursor.standAt_above (built cursor isCursor) stands
  obtain ⟨posting, isPosting, rfl⟩ := TermCursor.currentPosting_of_docId stands
  obtain ⟨inside, rfl⟩ := List.getElem?_eq_some_iff.mp isPosting
  obtain ⟨docId, stands', -, -⟩ :=
    TermCursor.standAt_current (built cursor isCursor) inside (further.trans above)
  exact isSome_iff_exists.mpr ⟨docId, stands'⟩

structure Reached (snapshot : Snapshot) (scoring : Scoring K) (start : List (TermCursor K))
    (frontier : Nat) (state : SearchState K) : Prop where
  cursors : state.live.Perm (standingAt frontier start)
  holds : state.topK.Holds (totalScore snapshot scoring start) (IsCandidate snapshot start) frontier

section Iteration

variable {start : List (TermCursor K)} {frontier : Nat} {state : SearchState K}

theorem Reached.sorted_perm (reached : Reached snapshot scoring start frontier state) :
    state.sortedCursors.Perm (standingAt frontier start) :=
  state.sortedCursors_perm.trans reached.cursors

theorem Reached.sorted_mem (reached : Reached snapshot scoring start frontier state)
    {cursor : TermCursor K} (isCursor : cursor ∈ state.sortedCursors) :
    ∃ origin ∈ start, origin.standAt frontier = cursor := by
  obtain ⟨origin, isStart, same, -⟩ :=
    mem_standingAt.mp (reached.sorted_perm.mem_iff.mp isCursor)
  exact ⟨origin, isStart, same⟩

variable (prepared : ∀ cursor ∈ start, cursor.Prepared scoring)
include prepared

theorem totalScore_standingAt (notPassed : frontier ≤ docId.val) :
    totalScore snapshot scoring (standingAt frontier start) docId =
      totalScore snapshot scoring start docId := by
  unfold standingAt
  rw [totalScore_filter]
  · rw [totalScore, List.map_map]
    rfl
  · intro cursor isCursor exhausted
    obtain ⟨cursor, isStart, rfl⟩ := List.mem_map.mp isCursor
    apply TermCursor.contribution_beyond (prepared cursor isStart).built notPassed
    intro other stands
    have stands : (cursor.standAt frontier).currentDocId = some other := stands
    rw [stands] at exhausted
    exact absurd rfl exhausted

variable (reached : Reached snapshot scoring start frontier state)
include reached

theorem Reached.sorted_prepared {cursor : TermCursor K}
    (isCursor : cursor ∈ state.sortedCursors) : cursor.Prepared scoring := by
  obtain ⟨origin, isStart, rfl⟩ := reached.sorted_mem isCursor
  exact (prepared origin isStart).standAt frontier

theorem Reached.totalScore_sorted (notPassed : frontier ≤ docId.val) :
    totalScore snapshot scoring start docId =
      totalScore snapshot scoring state.sortedCursors docId := by
  rw [totalScore_perm reached.sorted_perm, totalScore_standingAt prepared notPassed]

theorem Reached.silent {cursor : TermCursor K} (isCursor : cursor ∈ state.sortedCursors)
    (notPassed : frontier ≤ docId.val)
    (beyond : ∀ other, cursor.currentDocId = some other → docId < other) :
    cursor.contribution snapshot scoring docId = 0 := by
  obtain ⟨origin, isStart, rfl⟩ := reached.sorted_mem isCursor
  exact TermCursor.contribution_beyond (prepared origin isStart).built notPassed beyond

theorem Reached.totalScore_before (notPassed : frontier ≤ docId.val)
    (before : ∀ cursor ∈ state.sortedCursors, ∀ other, cursor.currentDocId = some other →
      docId < other) : totalScore snapshot scoring start docId = 0 := by
  rw [reached.totalScore_sorted prepared notPassed]
  exact totalScore_silent fun cursor isCursor =>
    reached.silent prepared isCursor notPassed (before cursor isCursor)

theorem Reached.frontier_le {cursor : TermCursor K} (isCursor : cursor ∈ state.sortedCursors)
    (stands : cursor.currentDocId = some docId) : frontier ≤ docId.val := by
  obtain ⟨origin, isStart, rfl⟩ := reached.sorted_mem isCursor
  exact TermCursor.standAt_above (prepared origin isStart).built stands

theorem Reached.advance {next : Nat} (further : frontier ≤ next) {topK : BoundedTopK K}
    {evaluatedDocsCount : Nat} {move : TermCursor K → TermCursor K}
    (moves : ∀ cursor ∈ state.sortedCursors, move cursor = cursor.standAt next)
    (holds : topK.Holds (totalScore snapshot scoring start) (IsCandidate snapshot start) next) :
    Reached snapshot scoring start next
      ⟨state.sortedCursors.map move, topK, evaluatedDocsCount⟩ where
  cursors := by
    have perm := (reached.sorted_perm.map (TermCursor.standAt next)).filter
      fun cursor => cursor.currentDocId.isSome
    have same := standingAt_standingAt (fun cursor isStart => (prepared cursor isStart).built)
      further
    rw [← same, SearchState.live, map_congr_left moves]
    exact perm
  holds := holds

omit prepared reached in
theorem evaluate_eq {visited : List (TermCursor K)}
    (each : ∀ cursor ∈ visited, cursor.Built ∧
      (cursor.currentDocId = some docId ∨ cursor.currentDocId ≠ some docId ∧
        cursor.contribution snapshot scoring docId = 0)) (total : K) (valid : Bool) :
    evaluate snapshot scoring docId (total, valid) visited =
      (total + totalScore snapshot scoring visited docId,
        valid || visited.any fun cursor =>
          cursor.currentDocId = some docId && counts snapshot cursor.term docId) := by
  induction visited generalizing total valid with
  | nil => simp [evaluate, totalScore]
  | cons cursor visited ih =>
    obtain ⟨built, place⟩ := each cursor mem_cons_self
    have rest := ih fun other isOther =>
      each other (mem_cons_of_mem _ isOther)
    have sum : totalScore snapshot scoring (cursor :: visited) docId =
        cursor.contribution snapshot scoring docId +
          totalScore snapshot scoring visited docId := by
      rw [totalScore, map_cons, sum_cons]
      rfl
    rw [evaluate, any_cons, sum]
    rcases place with stands | ⟨elsewhere, silent⟩
    · obtain ⟨posting, current, rfl⟩ := TermCursor.currentPosting_of_docId stands
      have isCounted : counts snapshot cursor.term posting.docId = true ↔
          (!snapshot.isTombstone posting.docId cursor.term) = true ∧
            snapshot.isPostingValid posting.docId cursor.term = true := Bool.and_eq_true_iff
      simp only [current, stands, TermCursor.contribution_current built current, true_and,
        ← isCounted]
      by_cases counted : counts snapshot cursor.term posting.docId = true
      · simp [counted, rest, add_assoc]
      · simp [counted, rest]
    · have skipped : ¬ (decide (cursor.currentDocId = some docId) = true) := by
        simpa using elsewhere
      rw [silent, zero_add]
      cases current : cursor.currentPosting with
      | none => simp [elsewhere, rest]
      | some posting =>
        have different : posting.docId ≠ docId := by
          rintro rfl
          exact elsewhere (by rw [TermCursor.currentDocId, current]; rfl)
        simp [different, elsewhere, rest]

variable [IsStrictOrderedRing K] (positive : ∀ x, 1 ≤ x → 0 ≤ scoring.ln x)
  (latest : snapshot.isLatest = true)
include positive

theorem Reached.totalScore_le_blocks (notPassed : frontier ≤ docId.val)
    (least : ∀ cursor ∈ state.sortedCursors, ∀ other, cursor.currentDocId = some other →
      docId ≤ other) :
    totalScore snapshot scoring start docId ≤
      ((state.sortedCursors.filter fun cursor => cursor.currentDocId = some docId).map
        fun cursor => cursor.blockMaxScoreAtDocId docId).sum := by
  have visited := @totalScore_filter K _ _ snapshot scoring state.sortedCursors docId (fun cursor => decide (cursor.currentDocId = some docId))
    (fun cursor isCursor elsewhere => by
      apply reached.silent prepared isCursor notPassed
      intro other stands
      refine lt_of_le_of_ne (least cursor isCursor other stands) ?_
      rintro rfl
      exact elsewhere (decide_eq_true stands))
  rw [reached.totalScore_sorted prepared notPassed, ← visited]
  apply sum_le_sum
  intro cursor isVisited
  obtain ⟨isCursor, stands⟩ := mem_filter.mp isVisited
  exact (reached.sorted_prepared prepared isCursor).contribution_le_block positive
    (of_decide_eq_true stands)

include latest

theorem Reached.visit (notPassed : frontier ≤ docId.val)
    (least : ∀ cursor ∈ state.sortedCursors, ∀ other, cursor.currentDocId = some other →
      docId ≤ other) (evaluatedDocsCount : Nat) :
    (Text.visit snapshot scoring docId state.sortedCursors state.topK evaluatedDocsCount).1.Holds
      (totalScore snapshot scoring start) (IsCandidate snapshot start) (docId.val + 1) := by
  have nonneg (docId : DocIdRaw) : 0 ≤ totalScore snapshot scoring start docId :=
    totalScore_nonneg positive start docId
  have threshold := reached.holds.minThreshold_nonneg nonneg
  have upTo : state.topK.Holds (totalScore snapshot scoring start) (IsCandidate snapshot start)
      docId.val := by
    apply reached.holds.skip notPassed
    intro other above below
    rw [reached.totalScore_before prepared above fun cursor isCursor next stands =>
      (Fin.lt_def.mpr below).trans_le (least cursor isCursor next stands)]
    exact threshold
  have skips (low : totalScore snapshot scoring start docId ≤ state.topK.minThreshold) :
      state.topK.Holds (totalScore snapshot scoring start) (IsCandidate snapshot start)
        (docId.val + 1) := by
    apply upTo.skip (Nat.le_succ _)
    intro other above below
    obtain rfl : other = docId := Fin.ext (le_antisymm (Nat.le_of_lt_succ below) above)
    exact low
  have each (cursor : TermCursor K) (isCursor : cursor ∈ state.sortedCursors) :
      cursor.Built ∧ (cursor.currentDocId = some docId ∨ cursor.currentDocId ≠ some docId ∧
        cursor.contribution snapshot scoring docId = 0) := by
    refine ⟨(reached.sorted_prepared prepared isCursor).built, ?_⟩
    by_cases stands : cursor.currentDocId = some docId
    · exact Or.inl stands
    · refine Or.inr ⟨stands, reached.silent prepared isCursor notPassed fun other standsAt => ?_⟩
      refine lt_of_le_of_ne (least cursor isCursor other standsAt) ?_
      rintro rfl
      exact stands standsAt
  have evaluated := @evaluate_eq K _ _ snapshot scoring docId state.sortedCursors each 0 false
  rw [zero_add, Bool.false_or, ← reached.totalScore_sorted prepared notPassed] at evaluated
  unfold Text.visit
  simp only [latest, Bool.not_true, Bool.false_eq_true, false_and, if_false, evaluated]
  by_cases pruned : 0 < state.topK.capacity ∧ state.topK.capacity ≤ state.topK.heap.length ∧
      ((state.sortedCursors.filter fun cursor => cursor.currentDocId = some docId).map
        fun cursor => cursor.blockMaxScoreAtDocId docId).sum ≤ state.topK.minThreshold
  · rw [if_pos pruned]
    exact skips ((reached.totalScore_le_blocks prepared positive notPassed least).trans
      pruned.2.2)
  · rw [if_neg pruned]
    by_cases valid : (state.sortedCursors.any fun cursor =>
        cursor.currentDocId = some docId && counts snapshot cursor.term docId) = true
    · rw [if_pos valid]
      apply BoundedTopK.Holds.push _ upTo
      obtain ⟨cursor, isCursor, stands⟩ := List.any_eq_true.mp valid
      rw [Bool.and_eq_true, decide_eq_true_eq] at stands
      obtain ⟨origin, isStart, rfl⟩ := reached.sorted_mem isCursor
      obtain ⟨posting, current, rfl⟩ := TermCursor.currentPosting_of_docId stands.1
      exact ⟨origin, isStart, stands.2, posting, mem_of_getElem? current, rfl⟩
    · rw [if_neg valid]
      -- no posting counts, so the document scores nothing
      have nothing : totalScore snapshot scoring start docId = 0 := by
        rw [reached.totalScore_sorted prepared notPassed]
        apply totalScore_silent
        intro cursor isCursor
        obtain ⟨built, place⟩ := each cursor isCursor
        rcases place with stands | ⟨-, silent⟩
        · obtain ⟨posting, current, rfl⟩ := TermCursor.currentPosting_of_docId stands
          rw [TermCursor.contribution_current built current, if_neg]
          intro counted
          apply valid
          rw [List.any_eq_true]
          exact ⟨cursor, isCursor, by simp [stands, counted]⟩
        · exact silent
      exact skips (nothing.trans_le threshold)

theorem Reached.continued {next : SearchState K}
    (continues : iteration snapshot scoring state = .continued next) :
    ∃ frontier', Reached snapshot scoring start frontier' next := by
  have iterates := iteration_iterates snapshot scoring state
  rw [continues] at iterates
  cases iterates with
  | @visited pivot before after docId next split exceeds stands least follows =>
    have isPivot : pivot ∈ state.sortedCursors := by simp [split]
    have notPassed := reached.frontier_le prepared isPivot stands
    refine ⟨docId.val + 1, reached.advance prepared (notPassed.trans (Nat.le_succ _)) ?_
      (reached.visit prepared positive latest notPassed least _)⟩
    intro cursor isCursor
    obtain ⟨origin, isStart, rfl⟩ := reached.sorted_mem isCursor
    have built := (prepared origin isStart).built
    unfold TermCursor.past
    split
    · rw [TermCursor.advanceTo_standAt built (by omega), follows]
      rfl
    · rename_i elsewhere
      apply TermCursor.standAt_eq built (notPassed.trans (Nat.le_succ _))
      intro other standsAt
      have atLeast := Fin.le_def.mp (least _ isCursor other standsAt)
      have different : docId.val ≠ other.val := by
        intro same
        rw [Fin.ext same] at elsewhere
        exact elsewhere standsAt
      omega
  | @advanced first pivot before after minDocId docId split atMost stands isFirst standsFirst
      behind =>
      have isPivot : pivot ∈ state.sortedCursors := by simp [split]
      have notPassed := reached.frontier_le prepared isPivot stands
      have nonneg (docId : DocIdRaw) : 0 ≤ totalScore snapshot scoring start docId :=
        totalScore_nonneg positive start docId
      have bound := atMost (reached.holds.minThreshold_nonneg nonneg)
      refine ⟨docId.val, reached.advance prepared notPassed ?_
        (reached.holds.skip notPassed ?_)⟩
      · intro cursor isCursor
        obtain ⟨origin, isStart, rfl⟩ := reached.sorted_mem isCursor
        have built := (prepared origin isStart).built
        unfold TermCursor.towards
        split
        · exact TermCursor.advanceTo_standAt built notPassed
        · rename_i notBefore
          apply TermCursor.standAt_eq built notPassed
          intro other standsAt
          simp only [standsAt, any_some, decide_eq_true_eq, not_lt] at notBefore
          exact notBefore
      · -- only the cursors before the pivot can have documents below it
        intro other above below
        have pairwise := state.sortedCursors_pairwise
        have each (cursor : TermCursor K) (isBefore : cursor ∈ before) :
            cursor.Prepared scoring := by
          apply reached.sorted_prepared prepared
          rw [split]
          exact mem_append_left _ isBefore
        rw [split] at pairwise
        have silent : totalScore snapshot scoring (pivot :: after) other = 0 := by
          apply totalScore_silent
          intro cursor isLater
          have isCursor : cursor ∈ state.sortedCursors := by
            rw [split]
            exact mem_append_right _ isLater
          apply reached.silent prepared isCursor above
          intro further standsAt
          apply (Fin.lt_def.mpr below).trans_le
          rcases mem_cons.mp isLater with rfl | isAfter
          · rw [stands] at standsAt
            exact (some.inj standsAt).le
          · exact (pairwise_cons.mp (pairwise_append.mp pairwise).2.1).1 cursor isAfter
              _ _ stands standsAt
        rw [reached.totalScore_sorted prepared above, split, totalScore_append, silent, add_zero]
        exact (totalScore_le_maxScores positive each other).trans bound

omit latest in
theorem Reached.finished (leaves : iteration snapshot scoring state = .finished) :
    state.topK.Holds (totalScore snapshot scoring start) (IsCandidate snapshot start)
      (2 ^ 64) := by
  have iterates := iteration_iterates snapshot scoring state
  rw [leaves] at iterates
  have nonneg (docId : DocIdRaw) : 0 ≤ totalScore snapshot scoring start docId :=
    totalScore_nonneg positive start docId
  have threshold := reached.holds.minThreshold_nonneg nonneg
  rcases Nat.lt_or_ge (2 ^ 64) frontier with beyond | inside
  · exact { reached.holds with
      scored := fun entry isEntry =>
        have ⟨isScore, isCandidate, _⟩ := reached.holds.scored entry isEntry
        ⟨isScore, isCandidate, entry.1.isLt⟩
      complete := fun docId below => reached.holds.complete docId (below.trans beyond) }
  · apply reached.holds.skip inside
    intro docId above _
    rw [reached.totalScore_sorted prepared above]
    cases iterates with
    | finished noPivot =>
      rcases noPivot with empty | atMost
      · rw [empty]
        exact threshold
      · exact (totalScore_le_maxScores positive
          (fun cursor isCursor => reached.sorted_prepared prepared isCursor) docId).trans atMost

omit [IsStrictOrderedRing K] positive latest in
theorem Reached.not_stuck : ¬ Stuck state := by
  rintro ⟨nonempty, allLast, -⟩
  obtain ⟨cursor, isLive⟩ := exists_mem_of_ne_nil _ nonempty
  have isCursor := state.sortedCursors_perm.mem_iff.mpr isLive
  obtain ⟨posting, current, isLast⟩ := TermCursor.currentPosting_of_docId (allLast cursor isLive)
  have small := (reached.sorted_prepared prepared isCursor).small posting
    (mem_of_getElem? current)
  exact absurd isLast small.ne

omit reached in
theorem Reached.after (initial : Reached snapshot scoring start frontier state) {count : Nat}
    {final : SearchState K} (ran : stateAfter snapshot scoring count state = some final) :
    ∃ frontier', Reached snapshot scoring start frontier' final := by
  induction count generalizing state frontier with
  | zero =>
    obtain rfl := some.inj ran
    exact ⟨frontier, initial⟩
  | succ count ih =>
    cases turn : iteration snapshot scoring state with
    | finished =>
      rw [stateAfter, turn] at ran
      cases ran
    | overflow =>
      rw [stateAfter, turn] at ran
      cases ran
    | continued next =>
      rw [stateAfter, turn] at ran
      obtain ⟨frontier', reached⟩ := initial.continued prepared positive latest turn
      exact ih reached ran

end Iteration

omit [Field K] in
theorem push_capacity (topK : BoundedTopK K) (docId : DocIdRaw) (score : K) :
    (topK.push docId score).capacity = topK.capacity := by
  unfold BoundedTopK.push
  split
  · rfl
  · split
    · rfl
    · split
      · split <;> rfl
      · rfl

theorem visit_capacity (docId : DocIdRaw) (cursors : List (TermCursor K)) (topK : BoundedTopK K)
    (evaluatedDocsCount : Nat) :
    (visit snapshot scoring docId cursors topK evaluatedDocsCount).1.capacity =
      topK.capacity := by
  simp only [visit]
  split_ifs
  · rfl
  · rfl
  · exact push_capacity _ _ _
  · rfl

theorem stateAfter_capacity {start final : SearchState K} {count : Nat}
    (ran : stateAfter snapshot scoring count start = some final) :
    final.topK.capacity = start.topK.capacity := by
  induction count generalizing start with
  | zero =>
    obtain rfl := some.inj ran
    rfl
  | succ count ih =>
    have iterates := iteration_iterates snapshot scoring start
    cases turn : iteration snapshot scoring start with
    | finished =>
      rw [stateAfter, turn] at ran
      cases ran
    | overflow =>
      rw [stateAfter, turn] at ran
      cases ran
    | continued next =>
      rw [turn] at iterates
      rw [stateAfter, turn] at ran
      rw [ih ran]
      cases iterates with
      | visited => exact visit_capacity _ _ _ _
      | advanced => rfl

section Search

variable {lists : Key → PostingList} {terms : List Key}

theorem queryCursors_prepared (computed : ∀ term, Computed (lists term))
    (small : ∀ term, ∀ posting ∈ (lists term).postings, posting.docId < Fin.last _) :
    ∀ cursor ∈ queryCursors snapshot scoring lists terms, cursor.Prepared scoring := by
  intro cursor isCursor
  obtain ⟨term, -, isQuery⟩ := mem_filterMap.mp isCursor
  obtain ⟨-, -, rfl⟩ := queryCursor_eq_some.mp isQuery
  exact ⟨computed term, small term, 0, rfl⟩

theorem termScore_of_queryCursor {term : Key} (docId : DocIdRaw) :
    termScore snapshot scoring term (lists term) (effectiveDf snapshot (lists term) term) docId =
      match queryCursor snapshot scoring lists term with
      | some cursor => cursor.contribution snapshot scoring docId
      | none => 0 := by
  unfold queryCursor
  by_cases empty : (lists term).postings.isEmpty = true
  · rw [if_pos empty, termScore, List.isEmpty_iff.mp empty]
    rfl
  · by_cases frequent : 0 < effectiveDf snapshot (lists term) term
    · rw [if_neg empty, if_pos frequent]
      rfl
    · have none : effectiveDf snapshot (lists term) term = 0 :=
        le_antisymm (not_lt.mp frequent) (Fin.zero_le _)
      rw [if_neg empty, if_neg frequent, termScore, none]
      split
      · split
        · rw [Scoring.score, scoreTerm, scoreTermWithParams, if_pos (Or.inr (Or.inl rfl))]
        · rfl
      · rfl

theorem docScore_eq_totalScore (docId : DocIdRaw) :
    docScore snapshot scoring lists terms docId =
      totalScore snapshot scoring (queryCursors snapshot scoring lists terms) docId := by
  unfold docScore totalScore queryCursors
  induction terms with
  | nil => rfl
  | cons term terms ih =>
    rw [map_cons, sum_cons, ih, termScore_of_queryCursor]
    cases isQuery : queryCursor snapshot scoring lists term with
    | none => rw [filterMap_cons_none isQuery, zero_add]
    | some cursor => rw [filterMap_cons_some isQuery, map_cons, sum_cons]

theorem matching_of_isCandidate {docId : DocIdRaw}
    (isCandidate : IsCandidate snapshot (queryCursors snapshot scoring lists terms) docId) :
    docId ∈ matching snapshot lists terms := by
  obtain ⟨cursor, isCursor, counted, posting, isPosting, rfl⟩ := isCandidate
  obtain ⟨term, isTerm, isQuery⟩ := mem_filterMap.mp isCursor
  obtain ⟨-, -, rfl⟩ := queryCursor_eq_some.mp isQuery
  exact mem_flatMap.mpr ⟨term, isTerm,
    mem_filter.mpr ⟨List.mem_map.mpr ⟨posting, isPosting, rfl⟩, counted⟩⟩

theorem reached_start (computed : ∀ term, Computed (lists term)) {k : Nat} (asked : 0 < k) :
    Reached snapshot scoring (queryCursors snapshot scoring lists terms) 0
      ⟨queryCursors snapshot scoring lists terms, .new k, 0⟩ where
  cursors := by
    have atStart (cursor : TermCursor K)
        (isCursor : cursor ∈ queryCursors snapshot scoring lists terms) :
        cursor.standAt 0 = cursor := by
      obtain ⟨term, -, isQuery⟩ := mem_filterMap.mp isCursor
      obtain ⟨-, -, rfl⟩ := queryCursor_eq_some.mp isQuery
      have first : firstFrom (lists term).postings 0 = 0 :=
        firstFrom_eq (computed term).ascending.sorted (Nat.zero_le _)
          (fun _ _ impossible => absurd impossible (Nat.not_lt_zero _)) fun _ _ _ => Nat.zero_le _
      simp only [TermCursor.standAt, TermCursor.new, first]
    rw [standingAt, map_congr_left atStart, List.map_id']
    exact List.Perm.refl _
  holds := BoundedTopK.holds_new asked

variable [IsStrictOrderedRing K]

theorem searchLoop_holds (positive : ∀ x, 1 ≤ x → 0 ≤ scoring.ln x)
    (latest : snapshot.isLatest = true) (computed : ∀ term, Computed (lists term))
    (small : ∀ term, ∀ posting ∈ (lists term).postings, posting.docId < Fin.last _)
    (terms : List Key) {k : Nat} (asked : 0 < k) :
    ∃ final : SearchState K,
      final.topK.Holds (docScore snapshot scoring lists terms)
        (IsCandidate snapshot (queryCursors snapshot scoring lists terms)) (2 ^ 64) ∧
      final.topK.capacity = min k maxSearchK ∧
      ∀ fuel, (terms.map fun term => (lists term).postings.length).sum < fuel →
        searchLoop snapshot scoring fuel
          ⟨queryCursors snapshot scoring lists terms, .new k, 0⟩ = some (.ok final) := by
  let start : SearchState K := ⟨queryCursors snapshot scoring lists terms, .new k, 0⟩
  have prepared : ∀ cursor ∈ start.cursors, cursor.Prepared scoring :=
    queryCursors_prepared computed small
  have sound : ∀ cursor ∈ start.cursors, cursor.Sound :=
    queryCursors_sound (fun term => (computed term).ascending.sorted) terms
  have initial : Reached snapshot scoring start.cursors 0 start := reached_start computed asked
  have free (count : Nat) (state : SearchState K)
      (ran : stateAfter snapshot scoring count start = some state) : ¬ Stuck state := by
    obtain ⟨frontier, reached⟩ := initial.after prepared positive latest ran
    exact reached.not_stuck prepared
  obtain ⟨-, count, few, final, ran, leaves, runs⟩ := searchLoop_ends sound free
  obtain ⟨frontier, reached⟩ := initial.after prepared positive latest ran
  refine ⟨final, ?_, stateAfter_capacity ran, fun fuel enough => runs fuel ?_⟩
  · have holds := reached.finished prepared positive leaves
    have same : docScore snapshot scoring lists terms =
        totalScore snapshot scoring start.cursors := funext docScore_eq_totalScore
    rw [same]
    exact holds
  · exact (few.trans (queryCursors_remaining lists terms _ _)).trans_lt enough

variable (snapshot scoring)

/-- A search at the latest snapshot returns, of the best documents of the exhaustive scan, those
with a positive score; what else it returns has score zero. -/
theorem blockMaxWandSearch_exhaustive (positive : ∀ x, 1 ≤ x → 0 ≤ scoring.ln x)
    (latest : snapshot.isLatest = true) (computed : ∀ term, Computed (lists term))
    (small : ∀ term, ∀ posting ∈ (lists term).postings, posting.docId < Fin.last _)
    (terms : List Key) (k : Nat) :
    ∃ results evaluatedDocsCount,
      (∀ fuel, (terms.map fun term => (lists term).postings.length).sum < fuel →
        blockMaxWandSearch snapshot scoring lists terms k fuel =
          some (.ok (results, evaluatedDocsCount))) ∧
      results.filter (0 < ·.2) =
        (exhaustiveScan snapshot scoring lists terms (min k maxSearchK)).filter (0 < ·.2) ∧
      results.length ≤ min k maxSearchK ∧ results.Pairwise ScoredBefore ∧
      (∀ result ∈ results, result.1 ∈ matching snapshot lists terms ∧
        result.2 = docScore snapshot scoring lists terms result.1) ∧
      ((∀ docId ∈ matching snapshot lists terms, 0 < docScore snapshot scoring lists terms docId) →
        results = exhaustiveScan snapshot scoring lists terms (min k maxSearchK)) := by
  rcases Nat.eq_zero_or_pos k with rfl | asked
  · refine ⟨[], 0, fun fuel _ => ?_, ?_, Nat.zero_le _, .nil,
      fun _ impossible => absurd impossible not_mem_nil, fun _ => ?_⟩
    · rw [blockMaxWandSearch, if_pos (Or.inr rfl)]
    · rw [exhaustiveScan, Nat.zero_min, take_zero]
      rfl
    · rw [exhaustiveScan, Nat.zero_min, take_zero]
      rfl
  · obtain ⟨final, holds, capacity, runs⟩ :=
      searchLoop_holds positive latest computed small terms asked
    let results := final.topK.heap
    have scored (result : DocIdRaw × K) (isResult : result ∈ results) :
        result.1 ∈ matching snapshot lists terms ∧
          result.2 = docScore snapshot scoring lists terms result.1 := by
      obtain ⟨isScore, isCandidate, -⟩ := holds.scored result isResult
      exact ⟨matching_of_isCandidate isCandidate, isScore⟩
    have positives : results.filter (0 < ·.2) =
        (exhaustiveScan snapshot scoring lists terms (min k maxSearchK)).filter (0 < ·.2) := by
      have same := holds.filter_pos fun docId => matching_of_isCandidate
      rw [capacity] at same
      exact same
    -- a search without terms or cursors does not enter the loop
    have returned : ∃ evaluatedDocsCount, ∀ fuel,
        (terms.map fun term => (lists term).postings.length).sum < fuel →
        blockMaxWandSearch snapshot scoring lists terms k fuel =
          some (.ok (results, evaluatedDocsCount)) := by
      by_cases cursors : queryCursors snapshot scoring lists terms = []
      · have noResults : results = [] := by
          have ran := runs _ (Nat.lt_succ_self _)
          have leaves : iteration snapshot scoring ⟨[], .new k, 0⟩ = .finished := by
            simp [iteration, SearchState.sortedCursors, SearchState.live, pivotCursor]
          rw [cursors, searchLoop, leaves] at ran
          have isFinal := Except.ok.inj (some.inj ran)
          rw [show results = final.topK.heap from rfl, ← isFinal]
          rfl
        refine ⟨0, fun fuel _ => ?_⟩
        unfold blockMaxWandSearch
        split
        · rw [noResults]
        · simp [cursors, noResults]
      · have asks : ¬ (terms.isEmpty = true ∨ k = 0) := by
          rintro (noTerms | none)
          · rw [List.isEmpty_iff.mp noTerms] at cursors
            exact cursors rfl
          · exact asked.ne' none
        refine ⟨final.evaluatedDocsCount, fun fuel enough => ?_⟩
        rw [blockMaxWandSearch, if_neg asks]
        simp only [List.isEmpty_iff, cursors, if_false, runs fuel enough]
        rfl
    obtain ⟨evaluatedDocsCount, returned⟩ := returned
    refine ⟨results, evaluatedDocsCount, returned, positives, ?_, holds.sorted, scored, ?_⟩
    · rw [← capacity]
      exact holds.bounded
    · intro allPositive
      rw [filter_eq_self.mpr, filter_eq_self.mpr] at positives
      · exact positives
      · intro result isResult
        obtain ⟨docId, isBest, rfl⟩ := List.mem_map.mp isResult
        exact decide_eq_true (allPositive docId (mem_ranking.mp (mem_of_mem_take isBest)))
      · intro result isResult
        obtain ⟨isMatching, isScore⟩ := scored result isResult
        exact decide_eq_true ((allPositive _ isMatching).trans_eq isScore.symm)

end Search

/-- A corpus of two documents with the natural logarithm. -/
noncomputable def naturalScoring : Scoring ℝ := ⟨Real.log, 1, 2⟩

theorem blockMaxWandSearch_exhaustive_single :
    ∃ results evaluatedDocsCount,
      (∀ fuel, 1 < fuel →
        blockMaxWandSearch plainSnapshot naturalScoring (fun _ => singleton 5) ["word".toList] 10
          fuel = some (.ok (results, evaluatedDocsCount))) ∧
      results.filter (0 < ·.2) =
        (exhaustiveScan plainSnapshot naturalScoring (fun _ => singleton 5) ["word".toList]
          10).filter (0 < ·.2) := by
  have positive (x : ℝ) (atLeast : 1 ≤ x) : 0 ≤ naturalScoring.ln x := Real.log_nonneg atLeast
  have computed (_ : Key) : Computed (singleton 5) := ⟨pairwise_singleton _ _, rfl⟩
  have small (_ : Key) (posting : Posting) (isPosting : posting ∈ (singleton 5).postings) :
      posting.docId < Fin.last _ := by
    rw [mem_singleton.mp isPosting]
    decide
  obtain ⟨results, evaluatedDocsCount, returned, positives, -⟩ :=
    blockMaxWandSearch_exhaustive plainSnapshot naturalScoring positive rfl computed small
      ["word".toList] 10
  exact ⟨results, evaluatedDocsCount, returned, positives⟩

def absentTerm : PostingList := .ofPostings [⟨5, 0, 1⟩]

/-- A document with score zero is left out, although there is room for it. -/
theorem zeroScore_left_out :
    blockMaxWandSearch plainSnapshot plainScoring (fun _ => absentTerm) ["word".toList] 10 2 =
        some (.ok ([], 0)) ∧
      exhaustiveScan plainSnapshot plainScoring (fun _ => absentTerm) ["word".toList] 10 =
        [(5, 0)] := by
  decide +kernel

end Contextra.Text
