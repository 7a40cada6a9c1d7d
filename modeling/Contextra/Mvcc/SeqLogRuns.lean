import Contextra.Mvcc.SeqLog

/-!
# Visibility as history

The entries of a document follow each other in time, and only the last one may be open.  So the
scan for a snapshot reads what the last operation before it did, and compaction only drops what no
later snapshot reads.
-/

namespace Contextra.Mvcc

open Library List Option Function

section Scan

variable {docId other : DocNumber} {seq seqNo : Nat} {entry : SeqLogEntry}
  {entries front back closed : List SeqLogEntry}

def SeqLogEntry.isOpenAt (entry : SeqLogEntry) (seqNo : Nat) : Bool :=
  entry.deleteSeq.all fun deleteSeq => seqNo < deleteSeq

def visibleIn (entries : List SeqLogEntry) (docId : DocNumber) (seqNo : Nat) : Bool :=
  let (inserted, deleted) := entries.foldl (SequenceLog.scanEntry docId seqNo) (false, false)
  inserted && !deleted

@[simp] theorem visibleIn_nil : visibleIn [] docId seqNo = false := rfl

theorem visibleIn_concat : visibleIn (entries ++ [entry]) docId seqNo =
    if entry.docId = docId ∧ entry.insertSeq ≤ seqNo then entry.isOpenAt seqNo
    else visibleIn entries docId seqNo := by
  unfold visibleIn
  rw [foldl_concat]
  generalize entries.foldl (SequenceLog.scanEntry docId seqNo) (false, false) = flags
  unfold SequenceLog.scanEntry SeqLogEntry.isOpenAt
  by_cases matching : entry.docId = docId ∧ entry.insertSeq ≤ seqNo
  · rw [if_pos matching, if_pos matching]
    cases entry.deleteSeq with
    | none => rfl
    | some deleteSeq =>
      by_cases deleted : deleteSeq ≤ seqNo
      · simp [deleted]
      · simp [deleted, Nat.lt_of_not_le deleted]
  · rw [if_neg matching, if_neg matching]

theorem visibleIn_replace {changed : SeqLogEntry} (sameDoc : changed.docId = entry.docId)
    (sameInsert : changed.insertSeq = entry.insertSeq)
    (sameOpen : entry.docId = docId → changed.isOpenAt seqNo = entry.isOpenAt seqNo) :
    visibleIn (front ++ changed :: back) docId seqNo =
      visibleIn (front ++ entry :: back) docId seqNo := by
  induction back using reverseRecOn with
  | nil =>
    rw [visibleIn_concat, visibleIn_concat, sameDoc, sameInsert]
    split
    · rename_i matching
      exact sameOpen matching.1
    · rfl
  | append_singleton back last ih =>
    rw [← cons_append, ← append_assoc, visibleIn_concat, ← cons_append,
      ← append_assoc, visibleIn_concat, ih]

theorem closeLast_eq_none : closeLast docId seq entries = none ↔
    ∀ entry ∈ entries, entry.docId = docId → entry.deleteSeq ≠ none := by
  induction entries with
  | nil => simp [closeLast]
  | cons first entries ih =>
    rw [closeLast]
    cases later : closeLast docId seq entries with
    | some rest =>
      rw [later] at ih
      simp only [reduceCtorEq, false_iff] at ih ⊢
      intro all
      apply ih
      intro entry mem
      exact all entry (mem_cons_of_mem _ mem)
    | none =>
      have rest := ih.mp later
      dsimp only
      constructor
      · intro notOpen entry mem isDoc
        rcases mem_cons.mp mem with rfl | isLater
        · intro isOpen
          rw [if_pos ⟨isDoc, isOpen⟩] at notOpen
          cases notOpen
        · exact rest entry isLater isDoc
      · intro all
        apply if_neg
        rintro ⟨isDoc, isOpen⟩
        exact all first mem_cons_self isDoc isOpen

theorem closeLast_eq_some (isClosed : closeLast docId seq entries = some closed) :
    ∃ front entry back, entries = front ++ entry :: back ∧ entry.docId = docId ∧
      entry.deleteSeq = none ∧ closed = front ++ { entry with deleteSeq := some seq } :: back ∧
      ∀ later ∈ back, later.docId = docId → later.deleteSeq ≠ none := by
  induction entries generalizing closed with
  | nil => cases isClosed
  | cons first entries ih =>
    rw [closeLast] at isClosed
    cases later : closeLast docId seq entries with
    | some rest =>
      rw [later] at isClosed
      obtain rfl := some.inj isClosed
      obtain ⟨front, entry, back, rfl, isDoc, isOpen, rfl, none⟩ := ih later
      exact ⟨first :: front, entry, back, rfl, isDoc, isOpen, rfl, none⟩
    | none =>
      rw [later] at isClosed
      dsimp only at isClosed
      split at isClosed
      · rename_i isLast
        obtain rfl := some.inj isClosed
        refine ⟨[], first, entries, rfl, isLast.1, isLast.2, rfl, ?_⟩
        exact closeLast_eq_none.mp later
      · cases isClosed

end Scan

/-- An entry that is closed before the next one of its document begins. -/
def SeqLogEntry.Precedes (entry later : SeqLogEntry) : Prop :=
  entry.docId = later.docId → ∃ deleteSeq, entry.deleteSeq = some deleteSeq ∧
    deleteSeq ≤ later.insertSeq

def SeqLogEntry.EndsBy (entry : SeqLogEntry) (bound : Nat) : Prop :=
  entry.insertSeq ≤ bound ∧ ∀ deleteSeq ∈ entry.deleteSeq, deleteSeq ≤ bound

/-- The entries of a document follow each other, and its operations so far are not after `last`. -/
structure Chronicle (entries : List SeqLogEntry) (last : DocNumber → Nat) : Prop where
  ordered : entries.Pairwise SeqLogEntry.Precedes
  lived : ∀ entry ∈ entries, ∀ deleteSeq ∈ entry.deleteSeq, entry.insertSeq ≤ deleteSeq
  ends : ∀ entry ∈ entries, entry.EndsBy (last entry.docId)

section Chronicle

variable {docId : DocNumber} {seq seqNo minimum : Nat} {entries closed : List SeqLogEntry}
  {last : DocNumber → Nat}

theorem Chronicle.nil : Chronicle [] last := ⟨.nil, by simp, by simp⟩

theorem Chronicle.mono (chronicle : Chronicle entries last) (le : last docId ≤ seq) :
    Chronicle entries (Function.update last docId seq) where
  ordered := chronicle.ordered
  lived := chronicle.lived
  ends := fun entry mem => by
    obtain ⟨inserted, deleted⟩ := chronicle.ends entry mem
    by_cases isDoc : entry.docId = docId
    · rw [isDoc] at inserted deleted ⊢
      rw [update_self]
      exact ⟨inserted.trans le, fun deleteSeq isDeleted => (deleted deleteSeq isDeleted).trans le⟩
    · rw [update_of_ne isDoc]
      exact ⟨inserted, deleted⟩

theorem Chronicle.sublist (chronicle : Chronicle entries last) {fewer : List SeqLogEntry}
    (sublist : fewer.Sublist entries) : Chronicle fewer last where
  ordered := chronicle.ordered.sublist sublist
  lived := fun entry mem => chronicle.lived entry (sublist.subset mem)
  ends := fun entry mem => chronicle.ends entry (sublist.subset mem)

theorem Chronicle.last_open (chronicle : Chronicle entries last) {front back : List SeqLogEntry}
    {entry : SeqLogEntry} (split : entries = front ++ entry :: back)
    (isOpen : entry.deleteSeq = none) : ∀ later ∈ back, later.docId ≠ entry.docId := by
  intro later mem sameDoc
  have ordered := chronicle.ordered
  rw [split, pairwise_append, pairwise_cons] at ordered
  obtain ⟨deleteSeq, isDeleted, -⟩ := ordered.2.1.1 later mem sameDoc.symm
  rw [isOpen] at isDeleted
  cases isDeleted

theorem Chronicle.closeLast (chronicle : Chronicle entries last) (le : last docId ≤ seq)
    (isClosed : closeLast docId seq entries = some closed) :
    Chronicle closed (Function.update last docId seq) := by
  obtain ⟨front, entry, back, split, isDoc, isOpen, rfl, -⟩ := closeLast_eq_some isClosed
  have noLater := chronicle.last_open split isOpen
  have later := chronicle.mono le
  subst split
  obtain ⟨ordered, lived, ends⟩ := later
  rw [pairwise_append, pairwise_cons] at ordered
  obtain ⟨frontOrdered, ⟨-, backOrdered⟩, between⟩ := ordered
  refine ⟨?_, ?_, ?_⟩
  · rw [pairwise_append, pairwise_cons]
    refine ⟨frontOrdered, ⟨?_, backOrdered⟩, ?_⟩
    · intro other mem sameDoc
      exact absurd sameDoc.symm (noLater other mem)
    · intro first isFirst other isOther
      rcases mem_cons.mp isOther with rfl | isBack
      · exact between first isFirst entry mem_cons_self
      · exact between first isFirst other (mem_cons_of_mem _ isBack)
  · intro other mem deleteSeq isDeleted
    rcases mem_append.mp mem with isFront | isRest
    · exact lived other (mem_append_left _ isFront) deleteSeq isDeleted
    · rcases mem_cons.mp isRest with rfl | isBack
      · obtain rfl := some.inj isDeleted
        have inserted := (chronicle.ends entry (by simp)).1
        rw [isDoc] at inserted
        exact inserted.trans le
      · exact lived other (by simp [isBack]) deleteSeq isDeleted
  · intro other mem
    rcases mem_append.mp mem with isFront | isRest
    · exact ends other (mem_append_left _ isFront)
    · rcases mem_cons.mp isRest with rfl | isBack
      · have inserted := (ends entry (by simp)).1
        refine ⟨inserted, fun deleteSeq isDeleted => ?_⟩
        obtain rfl := some.inj isDeleted
        dsimp only
        rw [isDoc, update_self]
      · exact ends other (by simp [isBack])

theorem Chronicle.concat (chronicle : Chronicle entries last) (isLast : last docId = seq)
    (allClosed : ∀ entry ∈ entries, entry.docId = docId → entry.deleteSeq ≠ none) :
    Chronicle (entries ++ [⟨docId, seq, none⟩]) last where
  ordered := by
    rw [pairwise_append]
    refine ⟨chronicle.ordered, pairwise_singleton _ _, ?_⟩
    intro entry mem new isNew sameDoc
    obtain rfl := mem_singleton.mp isNew
    obtain ⟨deleteSeq, isDeleted⟩ :=
      ne_none_iff_exists'.mp (allClosed entry mem sameDoc)
    refine ⟨deleteSeq, isDeleted, ?_⟩
    have before := (chronicle.ends entry mem).2 deleteSeq isDeleted
    rwa [show entry.docId = docId from sameDoc, isLast] at before
  lived := fun entry mem deleteSeq isDeleted => by
    rcases mem_append.mp mem with isOld | isNew
    · exact chronicle.lived entry isOld deleteSeq isDeleted
    · obtain rfl := mem_singleton.mp isNew
      cases isDeleted
  ends := fun entry mem => by
    rcases mem_append.mp mem with isOld | isNew
    · exact chronicle.ends entry isOld
    · obtain rfl := mem_singleton.mp isNew
      exact ⟨isLast.ge, fun deleteSeq isDeleted => by cases isDeleted⟩

theorem closeLast_closed (chronicle : Chronicle entries last)
    (isClosed : closeLast docId seq entries = some closed) :
    ∀ entry ∈ closed, entry.docId = docId → entry.deleteSeq ≠ none := by
  obtain ⟨front, entry, back, split, isDoc, isOpen, rfl, noneLater⟩ := closeLast_eq_some isClosed
  intro other mem isOther
  rcases mem_append.mp mem with isFront | isRest
  · have ordered := chronicle.ordered
    rw [split, pairwise_append] at ordered
    obtain ⟨deleteSeq, isDeleted, -⟩ :=
      ordered.2.2 other isFront entry mem_cons_self (isOther.trans isDoc.symm)
    rw [isDeleted]
    exact some_ne_none _
  · rcases mem_cons.mp isRest with rfl | isBack
    · exact some_ne_none _
    · exact noneLater other isBack isOther

theorem visibleIn_of_deleted
    (deleted : ∀ entry ∈ entries, entry.docId = docId → entry.isOpenAt seqNo = false) :
    visibleIn entries docId seqNo = false := by
  induction entries using reverseRecOn with
  | nil => rfl
  | append_singleton entries entry ih =>
    rw [visibleIn_concat]
    split
    · rename_i matching
      exact deleted entry (by simp) matching.1
    · apply ih
      intro earlier mem
      exact deleted earlier (mem_append_left _ mem)

theorem isOpenAt_of_deleted {entry : SeqLogEntry} {deleteSeq : Nat}
    (isDeleted : entry.deleteSeq = some deleteSeq) (le : deleteSeq ≤ seqNo) :
    entry.isOpenAt seqNo = false := by
  rw [SeqLogEntry.isOpenAt, isDeleted]
  exact decide_eq_false (Nat.not_lt_of_le le)

theorem visibleIn_of_closed (chronicle : Chronicle entries last) (le : last docId ≤ seqNo)
    (allClosed : ∀ entry ∈ entries, entry.docId = docId → entry.deleteSeq ≠ none) :
    visibleIn entries docId seqNo = false := by
  apply visibleIn_of_deleted
  intro entry mem isDoc
  obtain ⟨deleteSeq, isDeleted⟩ := ne_none_iff_exists'.mp (allClosed entry mem isDoc)
  have before := (chronicle.ends entry mem).2 deleteSeq isDeleted
  rw [isDoc] at before
  exact isOpenAt_of_deleted isDeleted (before.trans le)

theorem visibleIn_closeLast (chronicle : Chronicle entries last) (le : last docId ≤ seq)
    (isClosed : closeLast docId seq entries = some closed) (other : DocNumber) :
    visibleIn closed other seqNo =
      if other = docId ∧ seq ≤ seqNo then false else visibleIn entries other seqNo := by
  by_cases ends : other = docId ∧ seq ≤ seqNo
  · obtain ⟨rfl, reached⟩ := ends
    rw [if_pos ⟨rfl, reached⟩]
    have later := chronicle.closeLast le isClosed
    apply visibleIn_of_closed later
    · rwa [update_self]
    · exact closeLast_closed chronicle isClosed
  · rw [if_neg ends]
    obtain ⟨front, entry, back, rfl, isDoc, isOpen, rfl, -⟩ := closeLast_eq_some isClosed
    apply visibleIn_replace
    · rfl
    · rfl
    · intro isOther
      have ahead : seqNo < seq := by
        apply Nat.lt_of_not_le
        intro reached
        exact ends ⟨isOther.symm.trans isDoc, reached⟩
      rw [SeqLogEntry.isOpenAt, SeqLogEntry.isOpenAt, isOpen]
      exact decide_eq_true ahead

theorem visibleIn_compact (chronicle : Chronicle entries last) (le : minimum ≤ seqNo) :
    visibleIn (entries.filter fun entry =>
        entry.deleteSeq.all fun deleteSeq => minimum ≤ deleteSeq) docId seqNo =
      visibleIn entries docId seqNo := by
  induction entries using reverseRecOn with
  | nil => rfl
  | append_singleton entries entry ih =>
    have same := ih (chronicle.sublist (sublist_append_left _ _))
    rw [filter_append, visibleIn_concat]
    cases isDeleted : entry.deleteSeq with
    | none =>
      rw [filter_singleton, isDeleted]
      exact visibleIn_concat.trans (by rw [same])
    | some deleteSeq =>
      by_cases kept : minimum ≤ deleteSeq
      · rw [filter_singleton, isDeleted, all_some, decide_eq_true kept]
        exact visibleIn_concat.trans (by rw [same])
      · rw [filter_singleton, isDeleted, all_some, decide_eq_false kept,
          cond_false, append_nil, same]
        split
        · rename_i matching
          have reached : deleteSeq ≤ seqNo := (Nat.le_of_not_le kept).trans le
          rw [isOpenAt_of_deleted isDeleted reached]
          -- The earlier versions ended before this one did.
          apply visibleIn_of_deleted
          intro earlier mem isDoc
          have ordered := chronicle.ordered
          rw [pairwise_append] at ordered
          obtain ⟨before, isBefore, precedes⟩ := ordered.2.2 earlier mem entry
            (mem_singleton_self _) (isDoc.trans matching.1.symm)
          exact isOpenAt_of_deleted isBefore (precedes.trans matching.2)
        · rfl

end Chronicle

inductive LogCall where
  | recordInsert (docId : DocNumber) (word : UInt64)
  | recordDelete (docId : DocNumber) (word : UInt64)
  | compact (word : UInt64)

/-- A recorded operation with its masked sequence number. -/
structure LogOperation where
  docId : DocNumber
  seq : Nat
  isInsert : Bool
  deriving DecidableEq

def LogCall.operation : LogCall → Option LogOperation
  | recordInsert docId word => some ⟨docId, maskSeq word, true⟩
  | recordDelete docId word => some ⟨docId, maskSeq word, false⟩
  | compact _ => none

def historyOf (calls : List LogCall) : List LogOperation := calls.filterMap LogCall.operation

/-- Whether the last operation on a document up to a sequence number is an insertion. -/
def lastInserted (history : List LogOperation) (docId : DocNumber) (seqNo : Nat) : Bool :=
  ((history.filter fun operation => operation.docId = docId ∧ operation.seq ≤ seqNo).getLast?).any
    LogOperation.isInsert

/-- The sequence numbers of a document do not go down. -/
def Ascending (history : List LogOperation) : Prop :=
  history.Pairwise fun first second => first.docId = second.docId → first.seq ≤ second.seq

namespace SequenceLog

def perform (log : SequenceLog) : LogCall → SequenceLog
  | .recordInsert docId word => log.recordInsert docId word
  | .recordDelete docId word => log.recordDelete docId word
  | .compact word => log.compact word

end SequenceLog

section Calls

variable {calls : List LogCall} {docId : DocNumber} {seqNo : Nat}

theorem lastInserted_concat (history : List LogOperation) (operation : LogOperation) :
    lastInserted (history ++ [operation]) docId seqNo =
      if operation.docId = docId ∧ operation.seq ≤ seqNo then operation.isInsert
      else lastInserted history docId seqNo := by
  unfold lastInserted
  rw [filter_append, filter_singleton]
  by_cases matching : operation.docId = docId ∧ operation.seq ≤ seqNo
  · rw [if_pos matching, decide_eq_true matching, cond_true, getLast?_append]
    rfl
  · rw [if_neg matching, decide_eq_false matching, cond_false, append_nil]

/-- What the log of a history is: a chronicle of it that shows every later snapshot the history. -/
structure Reflects (log : SequenceLog) (calls : List LogCall) : Prop where
  chronicle : ∃ last, Chronicle log.entries last ∧ ∀ docId bound,
    (∀ operation ∈ historyOf calls, operation.docId = docId → operation.seq ≤ bound) →
      last docId ≤ bound
  visible : ∀ docId seqNo, (∀ word, .compact word ∈ calls → maskSeq word ≤ seqNo) →
    visibleIn log.entries docId seqNo = lastInserted (historyOf calls) docId seqNo

variable {log : SequenceLog}

theorem Reflects.recordInsert (reflects : Reflects log calls)
    (word : UInt64) (newest : ∀ operation ∈ historyOf calls, operation.docId = docId →
      operation.seq ≤ maskSeq word) :
    Reflects (log.recordInsert docId word) (calls ++ [.recordInsert docId word]) := by
  obtain ⟨last, chronicle, bounded⟩ := reflects.chronicle
  have le : last docId ≤ maskSeq word := bounded docId _ newest
  have history : historyOf (calls ++ [.recordInsert docId word]) =
      historyOf calls ++ [⟨docId, maskSeq word, true⟩] := filterMap_append
  have isLast : Function.update last docId (maskSeq word) docId = maskSeq word :=
    update_self _ _ _
  have others : ∀ other bound,
      (∀ operation ∈ historyOf (calls ++ [.recordInsert docId word]),
        operation.docId = other → operation.seq ≤ bound) →
      Function.update last docId (maskSeq word) other ≤ bound := by
    intro other bound within
    rw [history] at within
    by_cases isDoc : other = docId
    · rw [isDoc, update_self]
      exact within ⟨docId, maskSeq word, true⟩ (by simp) isDoc.symm
    · rw [update_of_ne isDoc]
      apply bounded
      intro operation mem
      exact within operation (mem_append_left _ mem)
  have isVisible : ∀ (closed : List SeqLogEntry) (other : DocNumber) (seqNo : Nat),
      visibleIn closed other seqNo = (if other = docId ∧ maskSeq word ≤ seqNo then false
        else visibleIn log.entries other seqNo) ∨
        visibleIn closed other seqNo = visibleIn log.entries other seqNo →
      (∀ earlier, .compact earlier ∈ calls ++ [.recordInsert docId word] →
        maskSeq earlier ≤ seqNo) →
      visibleIn (closed ++ [⟨docId, maskSeq word, none⟩]) other seqNo =
        lastInserted (historyOf (calls ++ [.recordInsert docId word])) other seqNo := by
    intro closed other seqNo same above
    rw [history, lastInserted_concat, visibleIn_concat]
    split
    · rfl
    · rename_i notNew
      rw [← reflects.visible other seqNo fun earlier isCompact =>
        above earlier (mem_append_left _ isCompact)]
      rcases same with hidden | same
      · rw [hidden, if_neg]
        rintro ⟨rfl, reached⟩
        exact notNew ⟨rfl, reached⟩
      · exact same
  cases isClosed : closeLast docId (maskSeq word) log.entries with
  | none =>
    have allClosed := closeLast_eq_none.mp isClosed
    have entries : (log.recordInsert docId word).entries =
        log.entries ++ [⟨docId, maskSeq word, none⟩] := by
      simp only [SequenceLog.recordInsert, isClosed, getD_none]
    constructor
    · rw [entries]
      exact ⟨_, (chronicle.mono le).concat isLast allClosed, others⟩
    · intro other seqNo above
      rw [entries]
      exact isVisible log.entries other seqNo (.inr rfl) above
  | some closed =>
    have allClosed := closeLast_closed chronicle isClosed
    have entries : (log.recordInsert docId word).entries =
        closed ++ [⟨docId, maskSeq word, none⟩] := by
      simp only [SequenceLog.recordInsert, isClosed, getD_some]
    constructor
    · rw [entries]
      exact ⟨_, (chronicle.closeLast le isClosed).concat isLast allClosed, others⟩
    · intro other seqNo above
      rw [entries]
      exact isVisible closed other seqNo
        (.inl (visibleIn_closeLast chronicle le isClosed other)) above

theorem Reflects.recordDelete (reflects : Reflects log calls)
    (word : UInt64) (newest : ∀ operation ∈ historyOf calls, operation.docId = docId →
      operation.seq ≤ maskSeq word) :
    Reflects (log.recordDelete docId word) (calls ++ [.recordDelete docId word]) := by
  obtain ⟨last, chronicle, bounded⟩ := reflects.chronicle
  have le : last docId ≤ maskSeq word := bounded docId _ newest
  have history : historyOf (calls ++ [.recordDelete docId word]) =
      historyOf calls ++ [⟨docId, maskSeq word, false⟩] := filterMap_append
  have earlier : ∀ {seqNo}, (∀ word', .compact word' ∈ calls ++ [.recordDelete docId word] →
      maskSeq word' ≤ seqNo) → ∀ word', .compact word' ∈ calls → maskSeq word' ≤ seqNo :=
    fun above word' isCompact => above word' (mem_append_left _ isCompact)
  cases isClosed : closeLast docId (maskSeq word) log.entries with
  | none =>
    have allClosed := closeLast_eq_none.mp isClosed
    have unchanged : log.recordDelete docId word = log := by
      simp only [SequenceLog.recordDelete, isClosed]
    rw [unchanged]
    refine ⟨⟨last, chronicle, ?_⟩, ?_⟩
    · intro other bound within
      apply bounded
      intro operation mem
      apply within
      rw [history]
      exact mem_append_left _ mem
    · intro other seqNo above
      rw [history, lastInserted_concat]
      split
      · rename_i matching
        obtain ⟨rfl, reached⟩ := matching
        exact visibleIn_of_closed chronicle (le.trans reached) allClosed
      · exact reflects.visible other seqNo (earlier above)
  | some closed =>
    have entries : (log.recordDelete docId word).entries = closed := by
      simp only [SequenceLog.recordDelete, isClosed]
    constructor
    · rw [entries]
      refine ⟨_, chronicle.closeLast le isClosed, ?_⟩
      intro other bound within
      rw [history] at within
      by_cases isDoc : other = docId
      · rw [isDoc, update_self]
        exact within ⟨docId, maskSeq word, false⟩ (by simp) isDoc.symm
      · rw [update_of_ne isDoc]
        apply bounded
        intro operation mem
        exact within operation (mem_append_left _ mem)
    · intro other seqNo above
      rw [entries, history, lastInserted_concat, visibleIn_closeLast chronicle le isClosed,
        reflects.visible other seqNo (earlier above)]
      apply if_congr _ rfl rfl
      rw [eq_comm]

theorem Reflects.compact (reflects : Reflects log calls) (word : UInt64) :
    Reflects (log.compact word) (calls ++ [.compact word]) := by
  obtain ⟨last, chronicle, bounded⟩ := reflects.chronicle
  have history : historyOf (calls ++ [.compact word]) = historyOf calls := by
    rw [historyOf, filterMap_append]
    exact append_nil _
  refine ⟨⟨last, chronicle.sublist filter_sublist, history ▸ bounded⟩, ?_⟩
  intro docId seqNo above
  rw [history, ← reflects.visible docId seqNo fun earlier isCompact =>
    above earlier (mem_append_left _ isCompact)]
  apply visibleIn_compact chronicle
  exact above word (by simp)

theorem reflects (ascending : Ascending (historyOf calls)) :
    Reflects (calls.foldl SequenceLog.perform .new) calls := by
  induction calls using reverseRecOn with
  | nil =>
    refine ⟨⟨fun _ => 0, .nil, fun _ _ _ => Nat.zero_le _⟩, ?_⟩
    intro docId seqNo _
    rfl
  | append_singleton calls call ih =>
    rw [historyOf, filterMap_append] at ascending
    obtain ⟨before, -, newest⟩ := pairwise_append.mp ascending
    have earlier := ih before
    rw [foldl_concat]
    cases call with
    | recordInsert docId word =>
      apply earlier.recordInsert word
      intro operation mem isDoc
      exact newest operation mem _ (mem_singleton_self _) isDoc
    | recordDelete docId word =>
      apply earlier.recordDelete word
      intro operation mem isDoc
      exact newest operation mem _ (mem_singleton_self _) isDoc
    | compact word => exact earlier.compact word

/-- The log shows a snapshot at or above every compaction what the history says. -/
theorem isVisible_eq (calls : List LogCall) (ascending : Ascending (historyOf calls))
    (docId : DocNumber) (asOf : UInt64)
    (above : ∀ word, .compact word ∈ calls → maskSeq word ≤ maskSeq asOf) :
    (calls.foldl SequenceLog.perform .new).isVisible docId asOf =
      lastInserted (historyOf calls) docId (maskSeq asOf) :=
  (reflects ascending).visible docId (maskSeq asOf) above

/-- Two versions of a document, one deletion of an absent one, and a compaction between them. -/
theorem isVisible_eq_reinserted :
    let calls : List LogCall := [.recordInsert 1 3, .recordDelete 1 5, .recordDelete 1 6,
      .compact 6, .recordInsert 1 6, .recordInsert 2 1]
    (calls.foldl SequenceLog.perform .new).isVisible 1 7 =
      lastInserted (historyOf calls) 1 (maskSeq 7) := by
  apply isVisible_eq
  · unfold Ascending
    decide
  · intro word isCompact
    have isSix : word = 6 := by simpa using isCompact
    rw [isSix]
    decide

end Calls

end Contextra.Mvcc
