import Contextra.Text.Index

/-!
# What the calls of the index write

The kinds of keys are apart, so that a write under one kind leaves the entries of the others.  The
lists of terms are kept in order; no call fails to write one.
-/

namespace Contextra.Text

open Library List Option Function

def IsOfKind (root : Key) (kind : String) (key : Key) : Prop := ∃ rest, key = root ++ kind.toList ++ rest

section Kinds

variable {root : Key} {docId : DocIdRaw} {term : Key}

theorem isOfKind_withId (kind : String) : IsOfKind root kind (keyWithId root kind docId) :=
  ⟨decimal docId, rfl⟩

theorem isOfKind_termDoc : IsOfKind root "pl:" (keyWithTermDoc root term docId) :=
  ⟨term ++ ':' :: decimal docId, by rw [keyWithTermDoc, append_assoc]⟩

theorem isOfKind_batch : IsOfKind root "plb:" (keyBatchPostingList root term) := ⟨term, rfl⟩

theorem isOfKind_tombstone : IsOfKind root "tbs:" (keyTombstone root docId term) :=
  ⟨decimal docId ++ ':' :: term, by rw [keyTombstone, append_assoc]⟩

theorem isOfKind_meta (index : InvertedIndex) : IsOfKind index.root "meta:stats" index.metaKey :=
  ⟨[], by rw [append_nil, InvertedIndex.metaKey]⟩

theorem not_isOfKind {kind other : String} {key : Key} (isKind : IsOfKind root kind key)
    (notFirst : ¬ kind.toList <+: other.toList) (notSecond : ¬ other.toList <+: kind.toList) :
    ¬ IsOfKind root other key := by
  obtain ⟨rest, rfl⟩ := isKind
  rintro ⟨rest', same⟩
  rw [append_assoc, append_assoc] at same
  have tails := append_cancel_left same
  rcases append_eq_append_iff.mp tails with ⟨more, longer, -⟩ | ⟨more, longer, -⟩
  · exact notFirst ⟨more, longer.symm⟩
  · exact notSecond ⟨more, longer.symm⟩

theorem keyWithId_injective {kind : String} {first second : DocIdRaw}
    (same : keyWithId root kind first = keyWithId root kind second) : first = second :=
  decimal_injective (append_cancel_left same)

end Kinds

/-- Writes that leave the lengths of documents alone and whose batch lists have the magic number. -/
structure Tidy (root : Key) (writes : Writes Key Bytes) : Prop where
  length : ∀ write ∈ writes, ¬ IsOfKind root "dl:" write.1
  batch : ∀ write ∈ writes, IsOfKind root "plb:" write.1 → ∀ bytes, write.2 = some bytes →
    postingListV2Magic.isPrefixOf bytes = true

theorem tidy_nil (root : Key) : Tidy root [] :=
  ⟨fun _ impossible => absurd impossible not_mem_nil,
    fun _ impossible => absurd impossible not_mem_nil⟩

theorem Tidy.append {root : Key} {first second : Writes Key Bytes} (isFirst : Tidy root first)
    (isSecond : Tidy root second) : Tidy root (first ++ second) where
  length := by
    intro write inside
    rcases mem_append.mp inside with left | right
    · exact isFirst.length write left
    · exact isSecond.length write right
  batch := by
    intro write inside
    rcases mem_append.mp inside with left | right
    · exact isFirst.batch write left
    · exact isSecond.batch write right

theorem tidy_other {root key : Key} {value : Option Bytes} (notLength : ¬ IsOfKind root "dl:" key)
    (notBatch : ¬ IsOfKind root "plb:" key) : Tidy root [(key, value)] where
  length := by
    intro write inside
    rw [mem_singleton.mp inside]
    exact notLength
  batch := by
    intro write inside isBatch
    rw [mem_singleton.mp inside] at isBatch
    exact absurd isBatch notBatch

variable {list : PostingList}

theorem sorted_upsert (sorted : Sorted list.postings) (posting : Posting) :
    Sorted (list.upsert posting).postings := by
  unfold PostingList.upsert PostingList.ofPostings
  rcases PostingList.search_cases sorted posting.docId with
    ⟨low, same, high, split, isSame, found⟩ | ⟨low, high, split, below, above, missing⟩
  · simp only [found]
    rw [split] at sorted ⊢
    rw [set_append_right _ _ le_rfl, Nat.sub_self, set_cons_zero]
    obtain ⟨isLow, isHigh, across⟩ := pairwise_append.mp sorted
    obtain ⟨first, rest⟩ := pairwise_cons.mp isHigh
    refine pairwise_append.mpr ⟨isLow, pairwise_cons.mpr ⟨fun later isLater => ?_, rest⟩,
      fun earlier isEarlier later isLater => ?_⟩
    · rw [← isSame]
      exact first later isLater
    · rcases mem_cons.mp isLater with rfl | isLater
      · rw [← isSame]
        exact across earlier isEarlier same mem_cons_self
      · exact across earlier isEarlier later (mem_cons_of_mem _ isLater)
  · simp only [missing]
    rw [split] at sorted ⊢
    rw [PostingList.insertIdx_length]
    obtain ⟨isLow, isHigh, across⟩ := pairwise_append.mp sorted
    refine pairwise_append.mpr ⟨isLow, pairwise_cons.mpr
      ⟨fun later isLater => (above later isLater).le, isHigh⟩,
      fun earlier isEarlier later isLater => ?_⟩
    rcases mem_cons.mp isLater with rfl | isLater
    · exact (below earlier isEarlier).le
    · exact across earlier isEarlier later isLater

theorem sorted_remove (sorted : Sorted list.postings) (docId : DocIdRaw) :
    Sorted (list.remove docId).postings := by
  unfold PostingList.remove PostingList.ofPostings
  cases PostingList.search list.postings docId with
  | found position => exact sorted.sublist (eraseIdx_sublist _ _)
  | missing position => exact sorted

variable {postings : List Posting}

theorem sorted_new (sorted : Sorted postings) :
    Sorted (PostingList.new postings).postings := (PostingList.ascending_dedup sorted).sorted

theorem sorted_decodePostings {bytes : Bytes} {count prevDocId offset next : Nat}
    (decoded : decodePostings bytes count prevDocId offset = .ok (postings, next)) :
    Sorted postings ∧ ∀ posting ∈ postings, prevDocId ≤ posting.docId.val := by
  induction count generalizing prevDocId offset next postings with
  | zero =>
    cases decoded
    exact ⟨.nil, fun _ impossible => absurd impossible not_mem_nil⟩
  | succ count ih =>
    rw [decodePostings] at decoded
    obtain ⟨⟨entry, offset'⟩, -, decoded⟩ := bind_eq_ok.mp decoded
    obtain ⟨posting, checked, decoded⟩ := bind_eq_ok.mp decoded
    obtain ⟨⟨rest, offset''⟩, isRest, same⟩ := bind_eq_ok.mp decoded
    obtain ⟨rfl, rfl⟩ := Prod.mk.inj (Except.ok.inj same)
    obtain ⟨sorted, above⟩ := ih isRest
    obtain ⟨isDocId, -⟩ := checkEntry_eq_ok.mp checked
    refine ⟨pairwise_cons.mpr ⟨above, sorted⟩, fun other inside => ?_⟩
    have first : prevDocId ≤ posting.docId.val := by
      rw [isDocId]
      exact Nat.le_add_right _ _
    rcases mem_cons.mp inside with rfl | inside
    · exact first
    · exact first.trans (above other inside)

theorem sorted_decodeCompact {bincode : Bytes → Except Failure PostingList} {bytes : Bytes}
    (isV2 : postingListV2Magic.isPrefixOf bytes = true)
    (decoded : decodeCompact bincode bytes = .ok list) : Sorted list.postings := by
  rw [decodeCompact, if_pos isV2, decodeV2] at decoded
  obtain ⟨⟨count, offset⟩, -, decoded⟩ := bind_eq_ok.mp decoded
  simp only at decoded
  split_ifs at decoded
  obtain ⟨⟨postings, next⟩, isBody, decoded⟩ := bind_eq_ok.mp decoded
  simp only at decoded
  split_ifs at decoded
  obtain rfl := Except.ok.inj decoded
  exact (sorted_decodePostings isBody).1

theorem encodePostings_sorted {prevDocId : Nat} (sorted : Sorted postings)
    (above : ∀ posting ∈ postings, prevDocId ≤ posting.docId.val) :
    ∃ bytes, encodePostings prevDocId postings = .ok bytes := by
  induction postings generalizing prevDocId with
  | nil => exact ⟨[], rfl⟩
  | cons posting postings ih =>
    obtain ⟨first, rest⟩ := pairwise_cons.mp sorted
    obtain ⟨bytes, isRest⟩ := ih rest first
    have ordered : ¬ posting.docId.val < prevDocId :=
      not_lt.mpr (above posting mem_cons_self)
    refine ⟨encodeEntry ⟨posting.docId - prevDocId, posting.tf, posting.docLen⟩ ++ bytes, ?_⟩
    rw [encodePostings, if_neg ordered, isRest]
    rfl

theorem encodeCompact_sorted (sorted : Sorted list.postings) :
    ∃ bytes, encodeCompact list = .ok bytes ∧ postingListV2Magic.isPrefixOf bytes = true := by
  obtain ⟨body, isBody⟩ := encodePostings_sorted sorted fun _ _ => Nat.zero_le _
  refine ⟨postingListV2Magic ++ encodeVarint list.postings.length ++ body, ?_, ?_⟩
  · rw [encodeCompact, isBody]
    rfl
  · rw [append_assoc]
    exact isPrefixOf_iff_prefix.mpr (prefix_append _ _)

/-- The resident lists are in order, and the batch lists of the storage have the magic number. -/
structure KeptLists (index : InvertedIndex) : Prop where
  resident : ∀ term list, index.resident term = some list → Sorted list.postings
  committed : ∀ term bytes, index.get (keyBatchPostingList index.root term) = some bytes →
    postingListV2Magic.isPrefixOf bytes = true

namespace InvertedIndex

variable {env : TextEnv} {index next final : InvertedIndex} {tx : TxId} {docId : DocIdRaw}
  {term : Key}

theorem sorted_storedList (kept : KeptLists index) : Sorted (index.storedList env term).postings := by
  have total : Std.Total fun left right : Posting => left.docId ≤ right.docId :=
    ⟨fun left right => le_total left.docId right.docId⟩
  have transitive : IsTrans Posting fun left right => left.docId ≤ right.docId :=
    ⟨fun _ _ _ => le_trans⟩
  have scanned (postings : List Posting) : Sorted (PostingList.new
      (postings.insertionSort fun left right => left.docId ≤ right.docId)).postings :=
    sorted_new (pairwise_insertionSort _ _)
  unfold storedList
  cases found : index.get (keyBatchPostingList index.root term) with
  | none => exact scanned _
  | some bytes =>
    simp only
    cases decoded : decodeCompact env.deserializePostings bytes with
    | error failure => exact scanned _
    | ok list => exact sorted_decodeCompact (kept.committed term bytes found) decoded

/-- A part of a call that works on the lists: it stages tidy writes and leaves what is committed and
the statistics. -/
structure Worked (tx : TxId) (index next : InvertedIndex) : Prop where
  root : next.root = index.root
  committed : next.storage.committed = index.storage.committed
  totals : next.totalDocs = index.totalDocs ∧ next.totalTokens = index.totalTokens ∧
    next.stagedStats = index.stagedStats
  writes : ∃ writes, next.storage.staged =
    Function.update index.storage.staged tx (index.storage.staged tx ++ writes) ∧
      Tidy index.root writes
  kept : KeptLists index → KeptLists next

theorem Worked.refl (index : InvertedIndex) : Worked tx index index where
  root := rfl
  committed := rfl
  totals := ⟨rfl, rfl, rfl⟩
  writes := ⟨[], by rw [append_nil, update_eq_self], tidy_nil _⟩
  kept := id

theorem Worked.trans (first : Worked tx index next) (second : Worked tx next final) :
    Worked tx index final := by
  obtain ⟨writes, isFirst, tidy⟩ := first.writes
  obtain ⟨writes', isSecond, tidy'⟩ := second.writes
  refine ⟨second.root.trans first.root, second.committed.trans first.committed,
    ⟨second.totals.1.trans first.totals.1, second.totals.2.1.trans first.totals.2.1,
      second.totals.2.2.trans first.totals.2.2⟩, ⟨writes ++ writes', ?_, ?_⟩,
    second.kept ∘ first.kept⟩
  · rw [isSecond, isFirst, update_self, update_idem, append_assoc]
  · rw [first.root] at tidy'
    exact tidy.append tidy'

variable {value : Option Bytes}

theorem worked_stage {key : Key} (tidy : Tidy index.root [(key, value)]) :
    Worked tx index { index with storage := index.storage.stage tx key value } where
  root := rfl
  committed := rfl
  totals := ⟨rfl, rfl, rfl⟩
  writes := ⟨[(key, value)], rfl, tidy⟩
  kept := fun kept => ⟨kept.resident, kept.committed⟩

theorem worked_setResident {list : Option PostingList}
    (sorted : KeptLists index → ∀ list', list = some list' → Sorted list'.postings) :
    Worked tx index (index.setResident term list) where
  root := rfl
  committed := rfl
  totals := ⟨rfl, rfl, rfl⟩
  writes := ⟨[], by rw [append_nil, update_eq_self]; rfl, tidy_nil _⟩
  kept := by
    refine fun kept => ⟨fun other list' isResident => ?_, kept.committed⟩
    simp only [setResident] at isResident
    by_cases same : other = term
    · subst same
      rw [update_self] at isResident
      exact sorted kept list' isResident
    · rw [update_of_ne same] at isResident
      exact kept.resident other list' isResident

theorem worked_ensureTermLoaded : Worked tx index (index.ensureTermLoaded env term) := by
  unfold ensureTermLoaded
  cases index.resident term with
  | some list => exact .refl index
  | none =>
    refine worked_setResident fun kept list same => ?_
    obtain rfl := some.inj same
    exact sorted_storedList kept

theorem worked_upsertPosting {posting : Posting} :
    Worked tx index (index.upsertPosting term posting) := by
  refine worked_setResident fun kept list same => ?_
  obtain rfl := some.inj same
  cases found : index.resident term with
  | none => exact sorted_new (pairwise_singleton _ _)
  | some list => exact sorted_upsert (kept.resident term list found) posting

theorem worked_removePosting : Worked tx index (index.removePosting term docId) := by
  unfold removePosting
  cases found : index.resident term with
  | none => exact .refl index
  | some list =>
    refine worked_setResident fun kept list' same => ?_
    split_ifs at same
    obtain rfl := some.inj same
    exact sorted_remove (kept.resident term list found) docId

theorem putBatch_worked {list : PostingList} (sorted : Sorted list.postings) :
    Worked tx index (index.putBatch tx term list).1 ∧ (index.putBatch tx term list).2 = .ok () := by
  obtain ⟨bytes, encoded, isV2⟩ := encodeCompact_sorted sorted
  simp only [putBatch, encoded]
  refine ⟨worked_stage ⟨fun write inside => ?_, fun write inside _ bytes' same => ?_⟩, trivial⟩
  · rw [mem_singleton.mp inside]
    exact not_isOfKind isOfKind_batch (by decide) (by decide)
  · rw [mem_singleton.mp inside] at same
    obtain rfl := some.inj same
    exact isV2

theorem worked_putTermDoc : Worked tx index
    { index with storage := index.storage.stage tx (keyWithTermDoc index.root term docId) value } :=
  worked_stage (tidy_other (not_isOfKind isOfKind_termDoc (by decide) (by decide))
    (not_isOfKind isOfKind_termDoc (by decide) (by decide)))

theorem worked_putTombstone :
    Worked tx index (index.put tx (keyTombstone index.root docId term) []) :=
  worked_stage (tidy_other (not_isOfKind isOfKind_tombstone (by decide) (by decide))
    (not_isOfKind isOfKind_tombstone (by decide) (by decide)))

theorem worked_forward : Worked tx index
    { index with storage := index.storage.stage tx (keyWithId index.root "fw:" docId) value } :=
  worked_stage (tidy_other (not_isOfKind (isOfKind_withId _) (by decide) (by decide))
    (not_isOfKind (isOfKind_withId _) (by decide) (by decide)))

theorem storeTerm_worked {newLen tf : U32} (kept : KeptLists index) :
    Worked tx index (index.storeTerm env tx docId newLen term tf).1 ∧
      (index.storeTerm env tx docId newLen term tf).2 = .ok () := by
  obtain ⟨stored, isStored⟩ : ∃ stored, stored = ((index.ensureTermLoaded env term).put tx
      (keyWithTermDoc index.root term docId) (u32Bytes tf)).upsertPosting term
        ⟨docId, tf, newLen⟩ := ⟨_, rfl⟩
  have loads : Worked tx index (index.ensureTermLoaded env term) := worked_ensureTermLoaded
  have worked : Worked tx index stored := by
    rw [isStored, ← loads.root]
    exact (loads.trans worked_putTermDoc).trans worked_upsertPosting
  obtain ⟨list, isResident⟩ : ∃ list, stored.resident term = some list := by
    rw [isStored]
    exact ⟨_, update_self ..⟩
  have written : index.storeTerm env tx docId newLen term tf = stored.putBatch tx term list := by
    simp only [storeTerm, ← isStored, isResident]
  obtain ⟨wrote, passed⟩ := @putBatch_worked stored tx term list
    ((worked.kept kept).resident term list isResident)
  rw [written]
  exact ⟨worked.trans wrote, passed⟩

theorem storeTerms_worked {newLen : U32} {terms : List (Key × U32)} (kept : KeptLists index) :
    Worked tx index (storeTerms env tx docId newLen index terms).1 := by
  induction terms generalizing index with
  | nil => exact .refl index
  | cons entry terms ih =>
    obtain ⟨term, tf⟩ := entry
    obtain ⟨worked, passed⟩ := @storeTerm_worked env index tx docId term newLen tf kept
    rw [storeTerms]
    cases result : index.storeTerm env tx docId newLen term tf with
    | mk next outcome =>
      rw [result] at worked passed
      obtain rfl := passed
      exact worked.trans (ih (worked.kept kept))

theorem worked_putTombstones (terms : List Key) :
    Worked tx index (index.putTombstones tx docId terms) := by
  induction terms generalizing index with
  | nil => exact .refl index
  | cons term terms ih => exact worked_putTombstone.trans ih

theorem removeTerm_worked (kept : KeptLists index) :
    Worked tx index (index.removeTerm env tx docId term).1 ∧
      (index.removeTerm env tx docId term).2 = .ok () := by
  obtain ⟨listed, isListed⟩ : ∃ listed, listed = (index.ensureTermLoaded env term).delete tx
      (keyWithTermDoc index.root term docId) := ⟨_, rfl⟩
  obtain ⟨removed, isRemoved⟩ : ∃ removed, removed =
      (listed.put tx (keyTombstone listed.root docId term) []).removePosting term docId := ⟨_, rfl⟩
  have loads : Worked tx index (index.ensureTermLoaded env term) := worked_ensureTermLoaded
  have worked : Worked tx index removed := by
    rw [isRemoved, isListed, ← loads.root]
    exact ((loads.trans worked_putTermDoc).trans worked_putTombstone).trans worked_removePosting
  cases found : removed.resident term with
  | some list =>
    have written : index.removeTerm env tx docId term = removed.putBatch tx term list := by
      simp only [removeTerm, ← isListed, ← isRemoved, found]
    obtain ⟨wrote, passed⟩ := @putBatch_worked removed tx term list
      ((worked.kept kept).resident term list found)
    rw [written]
    exact ⟨worked.trans wrote, passed⟩
  | none =>
    have written : index.removeTerm env tx docId term =
        (removed.delete tx (keyBatchPostingList removed.root term), .ok ()) := by
      simp only [removeTerm, ← isListed, ← isRemoved, found]
    rw [written]
    refine ⟨worked.trans (worked_stage ⟨fun write inside => ?_, fun write inside _ bytes same => ?_⟩),
      rfl⟩
    · rw [mem_singleton.mp inside]
      exact not_isOfKind isOfKind_batch (by decide) (by decide)
    · rw [mem_singleton.mp inside] at same
      cases same

theorem removeTerms_worked {terms : List Key} (kept : KeptLists index) :
    Worked tx index (removeTerms env tx docId index terms).1 ∧
      (removeTerms env tx docId index terms).2 = .ok () := by
  induction terms generalizing index with
  | nil => exact ⟨.refl index, rfl⟩
  | cons term terms ih =>
    obtain ⟨worked, passed⟩ := @removeTerm_worked env index tx docId term kept
    rw [removeTerms]
    cases result : index.removeTerm env tx docId term with
    | mk next outcome =>
      rw [result] at worked passed
      obtain rfl := passed
      obtain ⟨rest, passed⟩ := ih (worked.kept kept)
      exact ⟨worked.trans rest, passed⟩

def Room (index : InvertedIndex) (tx : TxId) : Prop :=
  index.stagedStats.entries.length < maxStagedTransactions ∨ tx ∈ index.stagedStats

instance (index : InvertedIndex) (tx : TxId) : Decidable (Room index tx) :=
  inferInstanceAs (Decidable (_ ∨ _))

/-- A call that stages a new entry for the length of a document, with a change of the statistics. -/
structure Staged (tx : TxId) (docId : DocIdRaw) (value : Option Bytes) (change : StagedStatsChange)
    (index next : InvertedIndex) : Prop where
  root : next.root = index.root
  committed : next.storage.committed = index.storage.committed
  totals : next.totalDocs = index.totalDocs ∧ next.totalTokens = index.totalTokens
  writes : ∃ before behind, next.storage.staged = Function.update index.storage.staged tx
    (index.storage.staged tx ++ before ++ (keyWithId index.root "dl:" docId, value) :: behind) ∧
      Tidy index.root before ∧ Tidy index.root behind
  stats : next.stagedStats = index.stagedStats.insert tx ((index.change tx).add change)
  lists : KeptLists next

theorem stageStatsChange_room (room : Room index tx) (change : StagedStatsChange) :
    index.stageStatsChange tx change = (index.addChange tx change, .ok ()) := by
  rw [stageStatsChange, if_neg]
  rintro ⟨full, isNew⟩
  exact room.elim (fun less => absurd full (not_le.mpr less)) isNew

/-- The write of a length between two parts of a call, and the change of the statistics behind
them. -/
theorem staged_of_worked {change : StagedStatsChange}
    {before after : InvertedIndex} (first : Worked tx index before)
    (second : Worked tx
      { before with storage := before.storage.stage tx (keyWithId before.root "dl:" docId) value }
      after)
    (third : Worked tx (after.addChange tx change) final) (kept : KeptLists index) :
    Staged tx docId value change index final := by
  obtain ⟨writes, isFirst, tidy⟩ := first.writes
  obtain ⟨writes', isSecond, tidy'⟩ := second.writes
  obtain ⟨writes'', isThird, tidy''⟩ := third.writes
  have stats : after.stagedStats = index.stagedStats := second.totals.2.2.trans first.totals.2.2
  have sameChange : after.change tx = index.change tx := by
    rw [InvertedIndex.change, stats]
    rfl
  have rootBefore : before.root = index.root := first.root
  have rootAfter : after.root = index.root := second.root.trans first.root
  have listsBefore := first.kept kept
  have listsAfter := second.kept ⟨listsBefore.resident, listsBefore.committed⟩
  refine ⟨third.root.trans rootAfter,
    third.committed.trans (second.committed.trans first.committed),
    ⟨third.totals.1.trans (second.totals.1.trans first.totals.1),
      third.totals.2.1.trans (second.totals.2.1.trans first.totals.2.1)⟩,
    ⟨writes, writes' ++ writes'', ?_, tidy, ?_⟩, ?_,
    third.kept ⟨listsAfter.resident, listsAfter.committed⟩⟩
  · rw [isThird]
    simp only [addChange, isSecond, Storage.stage, isFirst, update_self,
      update_idem, rootBefore, append_assoc, cons_append, nil_append]
  · simp only [addChange, rootAfter] at tidy''
    simp only [rootBefore] at tidy'
    exact tidy'.append tidy''
  · rw [third.totals.2.2]
    simp only [addChange, stats, sameChange]

theorem room_of_stats (room : Room index tx) (same : next.stagedStats = index.stagedStats) :
    Room next tx := by
  unfold Room
  rw [same]
  exact room

/-- The entry of a length changes the number of documents and of tokens by as much. -/
def changeTo (old new : Option U32) : StagedStatsChange where
  docsDelta := (if new.isSome then 1 else 0) - (if old.isSome then 1 else 0)
  tokensDelta := (new.map fun len => (len.val : Int)).getD 0 -
    (old.map fun len => (len.val : Int)).getD 0

theorem storeDocument_staged {tokens dropped : List Key} {oldLen : Option U32}
    (kept : KeptLists index) (room : Room index tx) :
    Staged tx docId (some (u32Bytes (Fin.ofNat (2 ^ 32) tokens.length)))
      (changeTo oldLen (some (Fin.ofNat (2 ^ 32) tokens.length))) index
      (index.storeDocument env tx docId tokens oldLen dropped).1 := by
  obtain ⟨newLen, isLen⟩ : ∃ newLen : U32, newLen = Fin.ofNat (2 ^ 32) tokens.length := ⟨_, rfl⟩
  obtain ⟨marked, isMarked⟩ : ∃ marked, marked = index.putTombstones tx docId dropped := ⟨_, rfl⟩
  obtain ⟨measured, isMeasured⟩ : ∃ measured, measured =
      marked.put tx (keyWithId index.root "dl:" docId) (u32Bytes newLen) := ⟨_, rfl⟩
  obtain ⟨forward, isForward⟩ : ∃ forward, forward =
      measured.put tx (keyWithId measured.root "fw:" docId)
        (env.serializeTerms ((termFrequencies tokens).map Prod.fst)) := ⟨_, rfl⟩
  have first : Worked tx index marked := by
    rw [isMarked]
    exact worked_putTombstones dropped
  have rootMarked : marked.root = index.root := first.root
  have second : Worked tx { marked with
      storage := marked.storage.stage tx (keyWithId marked.root "dl:" docId) (some (u32Bytes newLen)) }
      forward := by
    have sameKey : keyWithId marked.root "dl:" docId = keyWithId index.root "dl:" docId := by
      rw [rootMarked]
    rw [sameKey, isForward, isMeasured]
    exact @worked_forward (marked.put tx (keyWithId index.root "dl:" docId) (u32Bytes newLen)) tx
      docId _
  have isChange : lengthChange oldLen newLen = changeTo oldLen (some newLen) := by
    cases oldLen <;> simp [lengthChange, changeTo]
  have room' : Room forward tx :=
    room_of_stats room (second.totals.2.2.trans first.totals.2.2)
  have listsMarked := first.kept kept
  have listsForward := second.kept ⟨listsMarked.resident, listsMarked.committed⟩
  have passed := stageStatsChange_room room' (changeTo oldLen (some newLen))
  have stored : index.storeDocument env tx docId tokens oldLen dropped =
      storeTerms env tx docId newLen (forward.addChange tx (changeTo oldLen (some newLen)))
        (termFrequencies tokens) := by
    simp only [storeDocument, ← isLen, ← isMarked, ← isMeasured, ← isForward, isChange, passed]
  rw [stored, ← isLen]
  exact staged_of_worked first second
    (storeTerms_worked ⟨listsForward.resident, listsForward.committed⟩) kept

theorem upsertDocument_cases {text : List Char} (kept : KeptLists index)
    (room : utf8Len text ≤ maxTextBytes → Room index tx) :
    (index.upsertDocument env tx docId text).1 = index ∨
      ∃ newLen, Staged tx docId (some (u32Bytes newLen))
        (changeTo ((index.get (keyWithId index.root "dl:" docId)).bind readU32) (some newLen)) index
        (index.upsertDocument env tx docId text).1 := by
  unfold upsertDocument
  by_cases oversized : maxTextBytes < utf8Len text
  · rw [if_pos oversized]
    exact Or.inl rfl
  · rw [if_neg oversized]
    have isRoom := room (not_lt.mp oversized)
    cases (index.get (keyWithId index.root "dl:" docId)).bind readU32 with
    | none => exact Or.inr ⟨_, storeDocument_staged kept isRoom⟩
    | some oldLen =>
      simp only
      cases index.get (keyWithId index.root "fw:" docId) with
      | none => exact Or.inr ⟨_, storeDocument_staged kept isRoom⟩
      | some bytes =>
        simp only
        cases env.deserializeTerms bytes with
        | error failure => exact Or.inl rfl
        | ok oldTerms => exact Or.inr ⟨_, storeDocument_staged kept isRoom⟩

theorem deleteDocument_cases (kept : KeptLists index)
    (room : index.get (keyWithId index.root "dl:" docId) ≠ none → Room index tx) :
    (index.get (keyWithId index.root "dl:" docId) = none ∧
      (index.deleteDocument env tx docId).1 = index) ∨
    ∃ bytes, index.get (keyWithId index.root "dl:" docId) = some bytes ∧
      Staged tx docId none (changeTo (some ((readU32 bytes).getD 0)) none) index
        (index.deleteDocument env tx docId).1 := by
  unfold deleteDocument
  cases found : index.get (keyWithId index.root "dl:" docId) with
  | none => exact Or.inl ⟨rfl, rfl⟩
  | some bytes =>
    refine Or.inr ⟨bytes, rfl, ?_⟩
    obtain ⟨unmeasured, isUnmeasured⟩ : ∃ unmeasured, unmeasured =
        index.delete tx (keyWithId index.root "dl:" docId) := ⟨_, rfl⟩
    have isRoom := room (by rw [found]; exact some_ne_none _)
    have keptUnmeasured : KeptLists unmeasured := by
      rw [isUnmeasured]
      exact ⟨kept.resident, kept.committed⟩
    have removes (terms : List Key) : ∃ next, removeTerms env tx docId unmeasured terms =
        (next, .ok ()) ∧
          ∃ final, (next.delete tx (keyWithId next.root "fw:" docId)).stageStatsChange tx
              ⟨-1, -(((readU32 bytes).getD 0).val : Int)⟩ = (final, .ok ()) ∧
            Staged tx docId none (changeTo (some ((readU32 bytes).getD 0)) none) index final := by
      obtain ⟨removed, passed⟩ := @removeTerms_worked env unmeasured tx docId terms keptUnmeasured
      cases result : removeTerms env tx docId unmeasured terms with
      | mk next outcome =>
        rw [result] at removed passed
        obtain rfl := passed
        have second : Worked tx unmeasured (next.delete tx (keyWithId next.root "fw:" docId)) :=
          removed.trans worked_forward
        have isChange : (⟨-1, -(((readU32 bytes).getD 0).val : Int)⟩ : StagedStatsChange) =
            changeTo (some ((readU32 bytes).getD 0)) none := by simp [changeTo]
        have sameStats : unmeasured.stagedStats = index.stagedStats := by
          rw [isUnmeasured]
          rfl
        have room' := room_of_stats isRoom (second.totals.2.2.trans sameStats)
        refine ⟨next, rfl, _, by rw [isChange, stageStatsChange_room room'], ?_⟩
        rw [isUnmeasured] at second
        exact staged_of_worked (.refl index) second (.refl _) kept
    rw [isUnmeasured] at removes
    cases index.get (keyWithId index.root "fw:" docId) with
    | none =>
      obtain ⟨next, isNext, final, isFinal, staged⟩ := removes []
      simp only [isNext, isFinal]
      exact staged
    | some bytes =>
      simp only
      cases env.deserializeTerms bytes with
      | ok terms =>
        obtain ⟨next, isNext, final, isFinal, staged⟩ := removes terms
        simp only [isNext, isFinal]
        exact staged
      | error failure =>
        obtain ⟨next, isNext, final, isFinal, staged⟩ := removes []
        simp only [isNext, isFinal]
        exact staged

end InvertedIndex

end Contextra.Text
