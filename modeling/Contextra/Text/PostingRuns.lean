import Contextra.Library.Run
import Contextra.Text.PostingCodec

/-!
# Posting lists over whole runs

Every list that calls of `new`, `upsert`, `remove` and `decode_compact` produce one behind the
other.
-/

namespace Contextra.Text

open Library List Option

/-- The varints of the postings, before any check. -/
def decodeEntries (bytes : Bytes) : Nat → Nat → Except Failure (List Entry)
  | 0, _ => .ok []
  | count + 1, offset => do
      let (entry, offset) ← decodeEntry bytes offset
      let entries ← decodeEntries bytes count offset
      .ok (entry :: entries)

def entriesOf (bytes : Bytes) : Except Failure (List Entry) := do
  let (count, offset) ← decodeVarint bytes postingListV2Magic.length
  decodeEntries bytes count offset

/-- No document is named twice, and every block has a document whose length is not the largest
number. -/
def EntriesApart (entries : List Entry) : Prop :=
  (∀ entry ∈ entries.tail, entry.delta ≠ 0) ∧
    ∀ chunk ∈ chunks blockSize entries, ∃ entry ∈ chunk, entry.docLen ≠ u32Max

inductive Follows : Nat → List Entry → List Posting → Prop where
  | nil {prevDocId : Nat} : Follows prevDocId [] []
  | cons {prevDocId : Nat} {entry : Entry} {posting : Posting} {entries : List Entry}
      {postings : List Posting} (docId : posting.docId = prevDocId + entry.delta)
      (docLen : posting.docLen = entry.docLen) (rest : Follows posting.docId entries postings) :
      Follows prevDocId (entry :: entries) (posting :: postings)

variable {postings : List Posting}

theorem decodePostings_follows {bytes : Bytes} {count prevDocId offset next : Nat}
    (read : decodePostings bytes count prevDocId offset = .ok (postings, next)) :
    ∃ entries, decodeEntries bytes count offset = .ok entries ∧
      Follows prevDocId entries postings := by
  induction count generalizing prevDocId offset postings with
  | zero =>
    obtain ⟨rfl, -⟩ := Prod.mk.inj (Except.ok.inj read)
    exact ⟨[], rfl, .nil⟩
  | succ count ih =>
    simp only [decodePostings, bind_eq_ok, Prod.exists] at read
    obtain ⟨entry, middle, readEntry, posting, checked, rest, behind, readRest, same⟩ := read
    obtain ⟨rfl, rfl⟩ := Prod.mk.inj (Except.ok.inj same)
    obtain ⟨entries, readEntries, follows⟩ := ih readRest
    obtain ⟨docId, -, docLen⟩ := checkEntry_eq_ok.mp checked
    refine ⟨entry :: entries, ?_, .cons docId docLen follows⟩
    rw [decodeEntries, readEntry]
    change (decodeEntries bytes count middle >>= _) = _
    rw [readEntries]
    rfl

variable {entries : List Entry} {prevDocId : Nat}

theorem Follows.ascending_iff (follows : Follows prevDocId entries postings) :
    (∀ posting ∈ postings, prevDocId < posting.docId) ∧ Ascending postings ↔
      ∀ entry ∈ entries, entry.delta ≠ 0 := by
  induction follows with
  | nil => simp [Ascending]
  | @cons prevDocId entry posting entries postings docId docLen rest ih =>
    rw [forall_mem_cons, forall_mem_cons, ← ih, Ascending,
      pairwise_cons]
    constructor
    · rintro ⟨⟨above, -⟩, behind, ascending⟩
      exact ⟨by omega, behind, ascending⟩
    · rintro ⟨distance, behind, ascending⟩
      have above : prevDocId < posting.docId := by omega
      exact ⟨⟨above, fun later isLater => above.trans (behind later isLater)⟩, behind, ascending⟩

theorem Follows.ascending (follows : Follows prevDocId entries postings) :
    Ascending postings ↔ ∀ entry ∈ entries.tail, entry.delta ≠ 0 := by
  cases follows with
  | nil => simp [Ascending]
  | cons docId docLen rest =>
    rw [tail_cons, ← rest.ascending_iff, Ascending, pairwise_cons]
    rfl

theorem chunks_map {α β : Type*} (size : Nat) (image : α → β) (elements : List α) :
    chunks size (elements.map image) = (chunks size elements).map (List.map image) := by
  simp [chunks, map_drop, map_take]

theorem measured_iff (postings : List Posting) :
    Measured postings ↔ ∀ chunk ∈ chunks blockSize (postings.map fun posting => posting.docLen.val),
      ∃ docLen ∈ chunk, docLen ≠ u32Max.val := by
  simp [Measured, chunks_map, Fin.val_inj]

theorem Follows.measured (follows : Follows prevDocId entries postings) :
    Measured postings ↔
      ∀ chunk ∈ chunks blockSize entries, ∃ entry ∈ chunk, entry.docLen ≠ u32Max := by
  have sameLens : postings.map (fun posting => posting.docLen.val) = entries.map Entry.docLen := by
    induction follows with
    | nil => rfl
    | cons docId docLen rest ih =>
      rw [map_cons, map_cons, docLen, ih]
  rw [measured_iff, sameLens]
  simp [chunks_map]

inductive Call where
  /-- The second list is what the sort makes of the first one. -/
  | new (postings sorted : List Posting)
  | upsert (posting : Posting)
  | remove (docId : DocIdRaw)
  | decodeCompact (bytes : Bytes)
  deriving DecidableEq

section Calls

variable (bincode : Bytes → Except Failure PostingList)

/-- The list a call leaves; `new` and `decode_compact` do not look at the one before. -/
def Call.step (list : PostingList) : Call → Option PostingList
  | .new postings sorted =>
    if PostingList.SortsTo postings sorted then some (.new sorted) else none
  | .upsert posting => some (list.upsert posting)
  | .remove docId => some (list.remove docId)
  | .decodeCompact bytes =>
    if postingListV2Magic.isPrefixOf bytes then
      (Contextra.Text.decodeCompact bincode bytes).toOption
    else none

/-- The postings that a call is to leave have in every block a document whose length is not the
largest number, and encoded postings name no document twice. -/
def Call.Apart (list : PostingList) : Call → Prop
  | .new _ sorted => Measured (PostingList.dedupByDocId sorted)
  | .upsert posting => Measured (PostingList.inserted list.postings posting)
  | .remove docId => Measured (PostingList.others list.postings docId)
  | .decodeCompact bytes => ∀ entries, entriesOf bytes = .ok entries → EntriesApart entries

variable {bincode}

theorem decodeCompact_follows {bytes : Bytes} {list : PostingList}
    (compact : postingListV2Magic.isPrefixOf bytes)
    (read : decodeCompact bincode bytes = .ok list) :
    ∃ postings entries, list = .ofPostings postings ∧ entriesOf bytes = .ok entries ∧
      Follows 0 entries postings := by
  rw [decodeCompact, if_pos compact, decodeV2, bind_eq_ok] at read
  obtain ⟨⟨count, offset⟩, readCount, read⟩ := read
  by_cases oversized : count > maxPostingCount
  · simp [oversized] at read
  · simp only [oversized, if_false, bind_eq_ok] at read
    obtain ⟨⟨postings, behind⟩, readPostings, read⟩ := read
    obtain ⟨entries, readEntries, follows⟩ := decodePostings_follows readPostings
    refine ⟨postings, entries, ?_, ?_, follows⟩
    · by_cases atEnd : behind = bytes.length
      · simpa [atEnd] using read.symm
      · by_cases outside : bytes.length < behind <;> simp [atEnd, outside] at read
    · rw [entriesOf, readCount]
      exact readEntries

/-- A list whose ids ascend and whose blocks are computed from its postings. -/
structure Computed (list : PostingList) : Prop where
  ascending : Ascending list.postings
  blocks : list = .ofPostings list.postings

theorem computed_empty : Computed .empty := ⟨.nil, rfl⟩

theorem step_wellFormed {list next : PostingList} {call : Call} (computed : Computed list)
    (taken : call.step bincode list = some next) : next.WellFormed ↔ call.Apart list := by
  cases call with
  | new postings sorted =>
    simp only [Call.step, ite_none_right_eq_some, Option.some.injEq] at taken
    obtain ⟨sorts, rfl⟩ := taken
    exact PostingList.wellFormed_ofPostings (PostingList.ascending_dedup sorts.2)
  | upsert posting =>
    obtain rfl := some.inj taken
    rw [PostingList.upsert_eq computed.ascending]
    exact PostingList.wellFormed_ofPostings
      (PostingList.ascending_inserted computed.ascending posting)
  | remove docId =>
    obtain rfl := some.inj taken
    rw [PostingList.remove_eq computed.ascending]
    exact PostingList.wellFormed_ofPostings
      (PostingList.ascending_others computed.ascending docId)
  | decodeCompact bytes =>
    simp only [Call.step, ite_none_right_eq_some] at taken
    obtain ⟨compact, read⟩ := taken
    cases decoded : decodeCompact bincode bytes with
    | error failure => simp [decoded, Except.toOption] at read
    | ok found =>
      obtain rfl : found = next := by simpa [decoded, Except.toOption] using read
      obtain ⟨postings, entries, rfl, isEntries, follows⟩ :=
        decodeCompact_follows compact decoded
      constructor
      · intro wellFormed entries' isEntries'
        obtain rfl : entries = entries' := Except.ok.inj (isEntries.symm.trans isEntries')
        have ascending : Ascending postings := wellFormed.ascending
        exact ⟨follows.ascending.mp ascending,
          follows.measured.mp ((PostingList.wellFormed_ofPostings ascending).mp wellFormed)⟩
      · intro apart
        obtain ⟨distances, lengths⟩ := apart entries isEntries
        exact (PostingList.wellFormed_ofPostings (follows.ascending.mpr distances)).mpr
          (follows.measured.mpr lengths)

theorem step_blocks {list next : PostingList} {call : Call}
    (taken : call.step bincode list = some next) : next = .ofPostings next.postings := by
  cases call with
  | new postings sorted =>
    simp only [Call.step, ite_none_right_eq_some, Option.some.injEq] at taken
    obtain ⟨-, rfl⟩ := taken
    rfl
  | upsert posting =>
    obtain rfl := some.inj taken
    unfold PostingList.upsert
    split <;> rfl
  | remove docId =>
    obtain rfl := some.inj taken
    unfold PostingList.remove
    split <;> rfl
  | decodeCompact bytes =>
    simp only [Call.step, ite_none_right_eq_some] at taken
    obtain ⟨compact, read⟩ := taken
    cases decoded : decodeCompact bincode bytes with
    | error failure => simp [decoded, Except.toOption] at read
    | ok found =>
      obtain rfl : found = next := by simpa [decoded, Except.toOption] using read
      obtain ⟨postings, entries, rfl, -, -⟩ := decodeCompact_follows compact decoded
      rfl

theorem run_wellFormed {calls : List Call} {list : PostingList}
    (ran : run (fun list call => call.step bincode list) .empty calls = some list)
    (apart : Along (fun list call => call.step bincode list) (fun list call => call.Apart list)
      .empty calls) :
    list.WellFormed ∧ Computed list := by
  have emptyMeasured : Measured [] := fun chunk impossible => absurd impossible not_mem_nil
  have start : PostingList.empty.WellFormed ∧ Computed .empty :=
    ⟨(PostingList.wellFormed_ofPostings .nil).mpr emptyMeasured, computed_empty⟩
  have preserved (list : PostingList) (call : Call) (next : PostingList)
      (holds : list.WellFormed ∧ Computed list) (isApart : call.Apart list)
      (taken : call.step bincode list = some next) : next.WellFormed ∧ Computed next := by
    have wellFormed := (step_wellFormed holds.2 taken).mpr isApart
    exact ⟨wellFormed, wellFormed.ascending, step_blocks taken⟩
  exact run_invariant preserved start apart ran

/-- Where no encoding names a document twice and no block is made of the longest documents alone,
all lists ascend, have exact blocks and are read back; reading never panics. -/
theorem postingLists_sound {bincode : Bytes → Except Failure PostingList}
    (returns : ∀ bytes, bincode bytes ≠ .error .panicked) :
    (∀ calls list, run (fun list call => Call.step bincode list call) .empty calls = some list →
      Along (fun list call => Call.step bincode list call) (fun list call => call.Apart list)
        .empty calls →
      list.WellFormed ∧ (list.postings.length ≤ maxPostingCount →
        ∃ bytes, encodeCompact list = .ok bytes ∧ decodeCompact bincode bytes = .ok list)) ∧
    ∀ bytes, decodeCompact bincode bytes ≠ .error .panicked := by
  refine ⟨fun calls list ran apart => ?_, decodeCompact_returns returns⟩
  obtain ⟨wellFormed, computed⟩ := run_wellFormed ran apart
  refine ⟨wellFormed, fun short => ?_⟩
  rw [computed.blocks]
  exact decodeCompact_encodeCompact bincode computed.ascending.sorted short

end Calls

/-- `bincode` on an input that ends at once. -/
def endOfFile (_ : Bytes) : Except Failure PostingList :=
  .error (.storage "io error: unexpected end of file")

theorem postingLists_sound_two :
    (PostingList.ofPostings [⟨3, 1, 9⟩, ⟨5, 2, 4⟩]).WellFormed ∧
      decodeCompact endOfFile [] ≠ .error .panicked := by
  have returns (bytes : Bytes) : endOfFile bytes ≠ .error .panicked := fun same => by cases same
  have sound := postingLists_sound returns
  have ran : run (fun list call => Call.step endOfFile list call) .empty
      [.upsert ⟨5, 2, 4⟩, .upsert ⟨3, 1, 9⟩] =
        some (.ofPostings [⟨3, 1, 9⟩, ⟨5, 2, 4⟩]) := by decide +kernel
  have first : Measured (PostingList.inserted [] ⟨5, 2, 4⟩) := by decide +kernel
  have second : Measured (PostingList.inserted (PostingList.empty.upsert ⟨5, 2, 4⟩).postings
      ⟨3, 1, 9⟩) := by decide +kernel
  refine ⟨(sound.1 _ _ ran ⟨first, fun next taken => ?_⟩).1, sound.2 []⟩
  obtain rfl := some.inj taken
  exact ⟨second, fun _ _ => trivial⟩

def repeatedDocId : Bytes := [0x50, 0x4C, 0x02, 0x00, 2, 5, 1, 1, 0, 2, 3]

theorem repeatedDocId_accepted :
    run (fun list call => Call.step endOfFile list call) .empty [.decodeCompact repeatedDocId] =
        some (.ofPostings [⟨5, 1, 1⟩, ⟨5, 2, 3⟩]) ∧
      ¬ (PostingList.ofPostings [⟨5, 1, 1⟩, ⟨5, 2, 3⟩]).WellFormed := by
  refine ⟨by decide +kernel, fun wellFormed => ?_⟩
  exact absurd wellFormed.ascending (by unfold Ascending; decide)

end Contextra.Text
