import Contextra.Mvcc.SeqLogRuns

/-!
# Delta replay

The changes after a snapshot, in their order, turn the documents visible at the snapshot into those
visible now.  Of a document only the last version matters.
-/

namespace Contextra.Mvcc

open Library List

def SeqLogChange.isInsert : SeqLogChange → Bool
  | insert _ _ => true
  | delete _ _ => false

def replay (visible : DocNumber → Bool) (changes : List SeqLogChange) : DocNumber → Bool :=
  changes.foldl (fun visible change => Function.update visible change.docId change.isInsert) visible

section Replay

variable {docId : DocNumber} {snapshot seqNo : Nat} {entry : SeqLogEntry}
  {entries : List SeqLogEntry} {last : DocNumber → Nat} {visible : DocNumber → Bool}

theorem replay_apply (changes : List SeqLogChange) : replay visible changes docId =
    (((changes.filter fun change => change.docId = docId).getLast?).map
      SeqLogChange.isInsert).getD (visible docId) := by
  induction changes using reverseRecOn with
  | nil => rfl
  | append_singleton changes change ih =>
    rw [replay, foldl_concat, filter_append, filter_singleton]
    by_cases isDoc : change.docId = docId
    · rw [isDoc, Function.update_self, decide_eq_true rfl, cond_true, getLast?_append]
      rfl
    · rw [Function.update_of_ne (Ne.symm isDoc), decide_eq_false isDoc, cond_false,
        append_nil]
      exact ih

theorem visibleIn_filter : visibleIn (entries.filter fun entry => entry.docId = docId) docId seqNo =
    visibleIn entries docId seqNo := by
  induction entries using reverseRecOn with
  | nil => rfl
  | append_singleton entries entry ih =>
    rw [filter_append, filter_singleton, visibleIn_concat]
    by_cases isDoc : entry.docId = docId
    · rw [decide_eq_true isDoc, cond_true, visibleIn_concat, ih]
    · rw [decide_eq_false isDoc, cond_false, append_nil, ih, if_neg]
      exact fun matching => isDoc matching.1

theorem changesOf_docId {change : SeqLogChange}
    (mem : change ∈ SequenceLog.changesOf snapshot entry) : change.docId = entry.docId := by
  unfold SequenceLog.changesOf at mem
  rcases mem_append.mp mem with isInsert | isDelete
  · split at isInsert
    · obtain rfl := mem_singleton.mp isInsert
      rfl
    · cases isInsert
  · cases isDeleted : entry.deleteSeq with
    | none =>
      rw [isDeleted] at isDelete
      cases isDelete
    | some deleteSeq =>
      rw [isDeleted] at isDelete
      dsimp only at isDelete
      split at isDelete
      · obtain rfl := mem_singleton.mp isDelete
        rfl
      · cases isDelete

theorem changesOf_seq {change : SeqLogChange}
    (mem : change ∈ SequenceLog.changesOf snapshot entry) :
    snapshot < change.seq ∧ (change.seq = entry.insertSeq ∨ entry.deleteSeq = some change.seq) := by
  unfold SequenceLog.changesOf at mem
  rcases mem_append.mp mem with isInsert | isDelete
  · split at isInsert
    · rename_i after
      obtain rfl := mem_singleton.mp isInsert
      exact ⟨after, .inl rfl⟩
    · cases isInsert
  · cases isDeleted : entry.deleteSeq with
    | none =>
      rw [isDeleted] at isDelete
      cases isDelete
    | some deleteSeq =>
      rw [isDeleted] at isDelete
      dsimp only at isDelete
      split at isDelete
      · rename_i after
        obtain rfl := mem_singleton.mp isDelete
        exact ⟨after, .inr rfl⟩
      · cases isDelete

theorem changesOf_sorted (chronicle : Chronicle entries last)
    (isDoc : ∀ entry ∈ entries, entry.docId = docId) :
    SortedByKey SeqLogChange.seq (entries.flatMap (SequenceLog.changesOf snapshot)) := by
  apply pairwise_flatMap.mpr
  constructor
  · intro entry mem
    unfold SequenceLog.changesOf
    apply pairwise_append.mpr
    refine ⟨?_, ?_, ?_⟩
    · split
      · exact pairwise_singleton _ _
      · exact .nil
    · split
      · split
        · exact pairwise_singleton _ _
        · exact .nil
      · exact .nil
    · intro insertion isInsert deletion isDelete
      split at isInsert
      · obtain rfl := mem_singleton.mp isInsert
        cases isDeleted : entry.deleteSeq with
        | none =>
          rw [isDeleted] at isDelete
          cases isDelete
        | some deleteSeq =>
          rw [isDeleted] at isDelete
          dsimp only at isDelete
          split at isDelete
          · obtain rfl := mem_singleton.mp isDelete
            exact chronicle.lived entry mem deleteSeq isDeleted
          · cases isDelete
      · cases isInsert
  · refine chronicle.ordered.imp_of_mem ?_
    intro first second isFirst isSecond precedes change isChange other isOther
    obtain ⟨deleteSeq, isDeleted, le⟩ :=
      precedes ((isDoc first isFirst).trans (isDoc second isSecond).symm)
    have before : change.seq ≤ deleteSeq := by
      rcases (changesOf_seq isChange).2 with isInsert | isDelete
      · rw [isInsert]
        exact chronicle.lived first isFirst deleteSeq isDeleted
      · rw [isDeleted] at isDelete
        exact (Option.some.inj isDelete).ge
    have after : second.insertSeq ≤ other.seq := by
      rcases (changesOf_seq isOther).2 with isInsert | isDelete
      · exact isInsert.ge
      · exact chronicle.lived second isSecond other.seq isDelete
    exact before.trans (le.trans after)

theorem changesOf_eq_nil (chronicle : Chronicle (entries ++ [entry]) last)
    (isDoc : ∀ earlier ∈ entries, earlier.docId = entry.docId) (inserted : entry.insertSeq ≤ snapshot)
    (deleted : ∀ deleteSeq ∈ entry.deleteSeq, deleteSeq ≤ snapshot) :
    (entries ++ [entry]).flatMap (SequenceLog.changesOf snapshot) = [] := by
  apply flatMap_eq_nil_iff.mpr
  intro version mem
  apply eq_nil_iff_forall_not_mem.mpr
  intro change isChange
  obtain ⟨after, isSeq⟩ := changesOf_seq isChange
  rcases mem_append.mp mem with isEarlier | isLast
  · have ordered := (pairwise_append.mp chronicle.ordered).2.2
    obtain ⟨deleteSeq, isDeleted, le⟩ := ordered version isEarlier entry
      (mem_singleton_self _) (isDoc version isEarlier)
    have reached : deleteSeq ≤ snapshot := le.trans inserted
    rcases isSeq with isInsert | isDelete
    · have lived := chronicle.lived version mem deleteSeq isDeleted
      exact absurd (isInsert ▸ after) (Nat.not_lt_of_le (lived.trans reached))
    · rw [isDeleted] at isDelete
      exact absurd (Option.some.inj isDelete ▸ after) (Nat.not_lt_of_le reached)
  · obtain rfl := mem_singleton.mp isLast
    rcases isSeq with isInsert | isDelete
    · exact absurd (isInsert ▸ after) (Nat.not_lt_of_le inserted)
    · exact absurd after (Nat.not_lt_of_le (deleted change.seq isDelete))

theorem replay_versions {present : Nat} (chronicle : Chronicle entries last)
    (isDoc : ∀ entry ∈ entries, entry.docId = docId) (newest : last docId ≤ present) :
    (((entries.flatMap (SequenceLog.changesOf snapshot)).getLast?).map
      SeqLogChange.isInsert).getD (visibleIn entries docId snapshot) =
      visibleIn entries docId present := by
  rcases eq_nil_or_concat' entries with rfl | ⟨earlier, version, rfl⟩
  · rfl
  have isVersion : version.docId = docId := isDoc version (by simp)
  have isEarlier : ∀ entry ∈ earlier, entry.docId = version.docId := fun entry mem =>
    (isDoc entry (mem_append_left _ mem)).trans isVersion.symm
  obtain ⟨inserted, deleted⟩ := chronicle.ends version (by simp)
  rw [isVersion] at inserted deleted
  have reached : version.docId = docId ∧ version.insertSeq ≤ present :=
    ⟨isVersion, inserted.trans newest⟩
  rw [visibleIn_concat, visibleIn_concat, if_pos reached]
  by_cases settled : version.insertSeq ≤ snapshot ∧
      ∀ deleteSeq ∈ version.deleteSeq, deleteSeq ≤ snapshot
  · -- The last version is as it was, so nothing has changed since.
    rw [changesOf_eq_nil chronicle isEarlier settled.1 settled.2, if_pos ⟨isVersion, settled.1⟩]
    change version.isOpenAt snapshot = version.isOpenAt present
    cases isDeleted : version.deleteSeq with
    | none => simp [SeqLogEntry.isOpenAt, isDeleted]
    | some deleteSeq =>
      rw [isOpenAt_of_deleted isDeleted (settled.2 deleteSeq isDeleted),
        isOpenAt_of_deleted isDeleted ((deleted deleteSeq isDeleted).trans newest)]
  · -- The last change is the one of the last version.
    have lastChange : ∃ change, (SequenceLog.changesOf snapshot version).getLast? = some change ∧
        change.isInsert = version.isOpenAt present := by
      cases isDeleted : version.deleteSeq with
      | none =>
        have after : snapshot < version.insertSeq := by
          apply Nat.lt_of_not_le
          intro le
          exact settled ⟨le, by simp [isDeleted]⟩
        refine ⟨.insert version.docId version.insertSeq, ?_, ?_⟩
        · simp [SequenceLog.changesOf, isDeleted, after]
        · simp [SeqLogEntry.isOpenAt, isDeleted, SeqLogChange.isInsert]
      | some deleteSeq =>
        have lived := chronicle.lived version (by simp) deleteSeq isDeleted
        have after : snapshot < deleteSeq := by
          apply Nat.lt_of_not_le
          intro le
          apply settled
          refine ⟨lived.trans le, ?_⟩
          intro other isOther
          rw [isDeleted] at isOther
          exact (Option.some.inj isOther) ▸ le
        refine ⟨.delete version.docId deleteSeq, ?_, ?_⟩
        · simp [SequenceLog.changesOf, isDeleted, after]
        · rw [isOpenAt_of_deleted isDeleted ((deleted deleteSeq isDeleted).trans newest)]
          rfl
    obtain ⟨change, isLast, isOpen⟩ := lastChange
    rw [flatMap_append, flatMap_singleton, getLast?_append, isLast]
    exact isOpen

theorem filter_changesSince {log : SequenceLog} (chronicle : Chronicle log.entries last)
    (word : UInt64) :
    (log.changesSince word).filter (fun change => change.docId = docId) =
      (log.entries.filter fun entry => entry.docId = docId).flatMap
        (SequenceLog.changesOf (maskSeq word)) := by
  have ofDocument : ∀ entry : SeqLogEntry,
      (SequenceLog.changesOf (maskSeq word) entry).filter (fun change => change.docId = docId) =
        if entry.docId = docId then SequenceLog.changesOf (maskSeq word) entry else [] := by
    intro entry
    split
    · rename_i isDoc
      apply filter_eq_self.mpr
      intro change isChange
      exact decide_eq_true ((changesOf_docId isChange).trans isDoc)
    · rename_i isOther
      apply filter_eq_nil_iff.mpr
      intro change isChange isDoc
      exact isOther ((changesOf_docId isChange).symm.trans (of_decide_eq_true isDoc))
  have filtered : (log.entries.flatMap (SequenceLog.changesOf (maskSeq word))).filter
      (fun change => change.docId = docId) =
        (log.entries.filter fun entry => entry.docId = docId).flatMap
          (SequenceLog.changesOf (maskSeq word)) := by
    induction log.entries with
    | nil => rfl
    | cons entry entries ih =>
      rw [flatMap_cons, filter_append, ih, ofDocument]
      by_cases isDoc : entry.docId = docId
      · simp [isDoc]
      · simp [isDoc]
  rw [SequenceLog.changesSince, filter_sortByKey_comm, filtered]
  symm
  apply eq_sortByKey _ fun _ => rfl
  apply changesOf_sorted (chronicle.sublist filter_sublist)
  intro entry mem
  exact of_decide_eq_true (mem_filter.mp mem).2

end Replay

theorem lastInserted_of_recorded {history : List LogOperation} {docId : DocNumber}
    {present later : Nat} (recorded : ∀ operation ∈ history, operation.seq ≤ present)
    (le : present ≤ later) :
    lastInserted history docId present = lastInserted history docId later := by
  unfold lastInserted
  congr 2
  apply filter_congr
  intro operation mem
  have before := recorded operation mem
  have isBefore : operation.seq ≤ later := before.trans le
  simp [before, isBefore]

/-- The changes since a snapshot at or above every compaction turn what is visible there into what
is visible once everything has been recorded, in the log and in the history. -/
theorem replay_changesSince (calls : List LogCall) (ascending : Ascending (historyOf calls))
    (snapshot newest : UInt64)
    (above : ∀ word, .compact word ∈ calls → maskSeq word ≤ maskSeq snapshot)
    (recorded : ∀ operation ∈ historyOf calls, operation.seq ≤ maskSeq newest) :
    let log := calls.foldl SequenceLog.perform .new
    let visibleAt := fun word docId => lastInserted (historyOf calls) docId (maskSeq word)
    replay (fun docId => log.isVisible docId snapshot) (log.changesSince snapshot) =
        (fun docId => log.isVisible docId newest) ∧
      replay (visibleAt snapshot) (log.changesSince snapshot) = visibleAt newest := by
  intro log visibleAt
  have mirrored := reflects ascending
  obtain ⟨last, chronicle, bounded⟩ := mirrored.chronicle
  have replayed : ∀ docId present, maskSeq newest ≤ present →
      replay (fun docId => log.isVisible docId snapshot) (log.changesSince snapshot) docId =
        visibleIn log.entries docId present := by
    intro docId present le
    have within : last docId ≤ present :=
      bounded docId _ fun operation mem _ => (recorded operation mem).trans le
    rw [replay_apply, filter_changesSince chronicle]
    have scanned : ∀ seqNo, visibleIn log.entries docId seqNo =
        visibleIn (log.entries.filter fun entry => entry.docId = docId) docId seqNo :=
      fun _ => visibleIn_filter.symm
    change Option.getD _ (visibleIn log.entries docId (maskSeq snapshot)) = _
    rw [scanned, scanned]
    apply replay_versions (chronicle.sublist filter_sublist) _ within
    intro entry mem
    exact of_decide_eq_true (mem_filter.mp mem).2
  constructor
  · funext docId
    exact replayed docId _ le_rfl
  · have atSnapshot : visibleAt snapshot = fun docId => log.isVisible docId snapshot := by
      funext docId
      exact (mirrored.visible docId _ above).symm
    funext docId
    -- No call compacts above the sequence numbers.
    have ofSequence : ∀ word, maskSeq word ≤ tombstoneBit := fun word =>
      (Nat.mod_lt _ (by decide)).le
    have atEnd := mirrored.visible docId tombstoneBit fun word _ => ofSequence word
    rw [atSnapshot, replayed docId _ (ofSequence newest), atEnd]
    exact (lastInserted_of_recorded recorded (ofSequence newest)).symm

/-- A replacement after the snapshot is a deletion and an insertion with one sequence number. -/
theorem replay_changesSince_replaced :
    let calls : List LogCall := [.recordInsert 1 3, .recordInsert 2 4, .compact 2,
      .recordInsert 1 6, .recordDelete 2 6]
    let log := calls.foldl SequenceLog.perform .new
    let visibleAt := fun word docId => lastInserted (historyOf calls) docId (maskSeq word)
    replay (fun docId => log.isVisible docId 5) (log.changesSince 5) =
        (fun docId => log.isVisible docId 6) ∧
      replay (visibleAt 5) (log.changesSince 5) = visibleAt 6 := by
  apply replay_changesSince
  · unfold Ascending
    decide
  · intro word isCompact
    have isTwo : word = 2 := by simpa using isCompact
    rw [isTwo]
    decide
  · decide

end Contextra.Mvcc
