import Contextra.Erasure.JournalReopen
import Contextra.Library.Run

/-!
# Runs of the journal

A journal is opened, appended to, reduced and opened again, while file operations fail.  A read
error at an append puts the new block in the place of the whole file.  As long as no append writes
over a file that it could not read, no list is longer than its count, and side events and reductions
come when the saga of their erasure allows, the file holds what was journalled, and recovery finds
the sagas that are still open.
-/

namespace Contextra.Erasure

open Library List Option

/-- The state that a record puts its saga in.  A read of restricted data and the answer of
an observer are no steps of the saga. -/
def RecordCode.sagaStep : RecordCode → Option SagaState
  | .restrictedRead => none
  | .observerAck => none
  | code => some code.toSagaState

def lastState (history : List JournalRecord) (id : ErasureId) : Option SagaState :=
  ((history.filter fun record => record.erasureId = id).filterMap fun record =>
    record.recordCode.sagaStep).getLast?

def Settled (state : Option SagaState) : Prop := ∀ running ∈ state, running.isTerminal = true

instance : DecidablePred Settled := fun state =>
  match state with
  | none => .isTrue fun _ impossible => nomatch impossible
  | some state =>
    decidable_of_iff (state.isTerminal = true)
      ⟨fun terminal _ same => mem_some.mp same ▸ terminal, fun settled => settled state rfl⟩

/-- The sagas of a history that have started and not ended, each once and in its last state. -/
structure IsOpenSagas (history : List JournalRecord) (sagas : List (ErasureId × EraseSaga)) :
    Prop where
  nodup : (sagas.map Prod.fst).Nodup
  mem : ∀ id saga, (id, saga) ∈ sagas ↔
    ∃ state, lastState history id = some state ∧ state.isTerminal = false ∧
      saga = .withState state

/-- The file, the open journal, all records that were journalled, and those of them that the
reductions left. -/
structure JournalSystem where
  file : Option Bytes
  journal : Option DurableJournal
  history : List JournalRecord
  kept : List JournalRecord

def JournalSystem.start : JournalSystem := ⟨none, none, [], []⟩

inductive JournalEvent where
  | openOrCreate (faults : VfsFaults)
  | append (record : JournalRecord) (faults : VfsFaults)
  | reduce (faults : VfsFaults)
  deriving DecidableEq

section System

variable (hashes : HashFunctions) (derivedKey : FixedBytes 32)

/-- The journal is opened at any time, also after a crash; records are appended, and the
journal reduced, while it is open. -/
def JournalSystem.step (state : JournalSystem) : JournalEvent → Option JournalSystem
  | .openOrCreate faults =>
    match Erasure.openOrCreate hashes derivedKey state.file faults with
    | .ok (journal, bytes) => some { state with file := some bytes, journal := some journal }
    | .error _ => some { state with journal := none }
  | .append record faults =>
    state.journal.map fun journal =>
      match journal.appendRecord hashes derivedKey state.file faults record with
      | .ok (after, bytes) =>
        { file := some bytes, journal := some after, history := state.history ++ [record]
          kept := state.kept ++ [record] }
      | .error _ => state
  | .reduce faults =>
    state.journal.map fun journal =>
      match journal.reduceCompleted hashes derivedKey faults with
      | .ok (after, bytes) =>
        { state with
          file := some bytes, journal := some after, kept := DurableJournal.reduced state.kept }
      | .error _ => state

/-- The file opens with the journalled records, less those a reduction dropped, and recovery from it
finds the open sagas of all that was journalled. -/
structure JournalSystem.RecoversJournal (state : JournalSystem) : Prop where
  reopened : ∃ journal bytes,
    Erasure.openOrCreate hashes derivedKey state.file {} = .ok (journal, bytes) ∧
      journal.records = state.kept ∧ IsOpenSagas state.history journal.recoverOpenSagas
  live : ∀ journal, state.journal = some journal → journal.records = state.kept

/-- The event of the code matches what the erasure's saga is in. -/
def SideEventFits (history : List JournalRecord) (record : JournalRecord) : Prop :=
  match record.recordCode with
  | .observerAck => Settled (lastState history record.erasureId)
  | .restrictedRead => lastState history record.erasureId = some .restricted
  | _ => True

instance (history : List JournalRecord) (record : JournalRecord) :
    Decidable (SideEventFits history record) := by
  unfold SideEventFits
  cases record.recordCode <;> infer_instance

/-- An append that writes has read the file, and its record fits the codec and the saga; a
reduction that writes meets no erasure that goes on after its `Completed` record. -/
def JournalSystem.admissible (state : JournalSystem) : JournalEvent → Prop
  | .openOrCreate _ => True
  | .append record faults =>
    faults.writeAtomic = none → record.encode.length + 30 < 2 ^ 32 →
      faults.read = none ∧ record.Representable ∧ SideEventFits state.history record
  | .reduce faults =>
    faults.writeAtomic = none → ∀ id ∈ DurableJournal.completedIds state.history,
      Settled (lastState state.history id)

instance (state : JournalSystem) (event : JournalEvent) : Decidable (state.admissible event) := by
  unfold JournalSystem.admissible
  cases event <;> infer_instance

end System

theorem lastState_concat (history : List JournalRecord) (record : JournalRecord)
    (id : ErasureId) :
    lastState (history ++ [record]) id =
      if record.erasureId = id then record.recordCode.sagaStep.or (lastState history id)
      else lastState history id := by
  unfold lastState
  rw [filter_append, filterMap_append, getLast?_append]
  by_cases own : record.erasureId = id
  · rw [if_pos own, filter_cons_of_pos (by simpa using own), filter_nil]
    rw [filterMap_cons, filterMap_nil]
    cases record.recordCode.sagaStep <;> rfl
  · rw [if_neg own, filter_cons_of_neg (by simpa using own), filter_nil]
    rfl

namespace DurableJournal

theorem recordedState_concat (records : List JournalRecord) (record : JournalRecord)
    (id : ErasureId) :
    recordedState (records ++ [record]) id =
      if record.erasureId = id then some record.recordCode.toSagaState
      else recordedState records id := by
  unfold recordedState
  rw [lastRecord_concat]
  split <;> rfl

variable {records : List JournalRecord} {id : ErasureId}

theorem mem_completedIds :
    id ∈ completedIds records ↔
      ∃ record ∈ records, record.recordCode = .completed ∧ record.erasureId = id := by
  simp [completedIds, and_assoc]

theorem recordedState_reduced_of_open (running : id ∉ completedIds records) :
    recordedState (reduced records) id = recordedState records id := by
  have same : (reduced records).filter (fun record => record.erasureId = id) =
      records.filter fun record => record.erasureId = id := by
    rw [reduced, List.filter_filter]
    apply filter_congr
    intro record _
    by_cases own : record.erasureId = id
    · simp [own, running]
    · simp [own]
  rw [recordedState, lastRecord, same]
  rfl

theorem recordedState_reduced_of_completed (completed : id ∈ completedIds records) :
    recordedState (reduced records) id = some .completed := by
  obtain ⟨record, membership, code, own⟩ := mem_completedIds.mp completed
  have kept : record ∈ (reduced records).filter fun record => record.erasureId = id := by
    simp [reduced, membership, code, own]
  obtain ⟨last, last_eq⟩ : ∃ last, ((reduced records).filter fun record =>
      record.erasureId = id).getLast? = some last :=
    ⟨_, getLast?_eq_some_getLast (ne_nil_of_mem kept)⟩
  have lastKept := mem_of_getLast? last_eq
  rw [mem_filter, reduced, mem_filter] at lastKept
  have lastCode : last.recordCode = .completed := by
    have lastOwn : last.erasureId = id := by simpa using lastKept.2
    have reasons := of_decide_eq_true lastKept.1.2
    rw [lastOwn] at reasons
    exact reasons.resolve_right (not_not.mpr completed)
  rw [recordedState, lastRecord, last_eq, map_some, lastCode]
  rfl

end DurableJournal

def Agrees (recorded last : Option SagaState) : Prop :=
  recorded = last ∨ Settled recorded ∧ Settled last

theorem Agrees.running_iff {recorded last : Option SagaState} (agrees : Agrees recorded last)
    {state : SagaState} (running : state.isTerminal = false) :
    recorded = some state ↔ last = some state := by
  rcases agrees with rfl | ⟨recordedSettled, lastSettled⟩
  · rfl
  · constructor
    · intro same
      have terminal := recordedSettled state (mem_def.mpr same)
      rw [running] at terminal
      contradiction
    · intro same
      have terminal := lastSettled state (mem_def.mpr same)
      rw [running] at terminal
      contradiction

theorem isOpenSagas_recover {journal : DurableJournal} {history : List JournalRecord}
    (agrees : ∀ id, Agrees (DurableJournal.recordedState journal.records id)
      (lastState history id)) : IsOpenSagas history journal.recoverOpenSagas where
  nodup := DurableJournal.nodup_recoverOpenSagas journal
  mem := by
    intro id saga
    rw [DurableJournal.mem_recoverOpenSagas]
    constructor
    · rintro ⟨state, recorded, running, same⟩
      exact ⟨state, ((agrees id).running_iff running).mp recorded, running, same⟩
    · rintro ⟨state, last, running, same⟩
      exact ⟨state, ((agrees id).running_iff running).mpr last, running, same⟩

theorem settled_completed : Settled (some .completed) := by decide

theorem Agrees.concat {kept history : List JournalRecord} {record : JournalRecord}
    (agrees : ∀ id, Agrees (DurableJournal.recordedState kept id) (lastState history id))
    (fits : SideEventFits history record) (id : ErasureId) :
    Agrees (DurableJournal.recordedState (kept ++ [record]) id)
      (lastState (history ++ [record]) id) := by
  rw [DurableJournal.recordedState_concat, lastState_concat]
  by_cases own : record.erasureId = id
  · rw [if_pos own, if_pos own]
    unfold SideEventFits at fits
    rw [own] at fits
    cases code : record.recordCode with
    | observerAck =>
      rw [code] at fits
      exact .inr ⟨settled_completed, fits⟩
    | restrictedRead =>
      rw [code] at fits
      exact .inl fits.symm
    | _ => exact .inl rfl
  · rw [if_neg own, if_neg own]
    exact agrees id

/-- A reduction keeps the states in agreement where no erasure goes on after its
`Completed` record. -/
theorem Agrees.reduced {kept history : List JournalRecord}
    (agrees : ∀ id, Agrees (DurableJournal.recordedState kept id) (lastState history id))
    (contained : kept ⊆ history)
    (settled : ∀ id ∈ DurableJournal.completedIds history, Settled (lastState history id))
    (id : ErasureId) :
    Agrees (DurableJournal.recordedState (DurableJournal.reduced kept) id)
      (lastState history id) := by
  by_cases completed : id ∈ DurableJournal.completedIds kept
  · rw [DurableJournal.recordedState_reduced_of_completed completed]
    obtain ⟨record, membership, code, own⟩ := DurableJournal.mem_completedIds.mp completed
    exact .inr ⟨settled_completed, settled id
      (DurableJournal.mem_completedIds.mpr ⟨record, contained membership, code, own⟩)⟩
  · rw [DurableJournal.recordedState_reduced_of_open completed]
    exact agrees id

section Runs

variable (hashes : HashFunctions) (derivedKey : FixedBytes 32)

/-- The file is the journal of the kept records, or there is none yet. -/
structure JournalSystem.Intact (state : JournalSystem) : Prop where
  file : state.file = none ∧ state.journal = none ∧ state.kept = [] ∨
    state.file = some (journalFile hashes derivedKey state.kept)
  journal : ∀ journal ∈ state.journal, journal = openedJournal hashes derivedKey state.kept
  representable : ∀ record ∈ state.kept, record.Representable
  contained : state.kept ⊆ state.history
  agrees : ∀ id, Agrees (DurableJournal.recordedState state.kept id) (lastState state.history id)

variable {hashes derivedKey}

theorem JournalSystem.Intact.start : JournalSystem.start.Intact hashes derivedKey where
  file := .inl ⟨rfl, rfl, rfl⟩
  journal := by simp [JournalSystem.start]
  representable := by simp [JournalSystem.start]
  contained := List.Subset.refl _
  agrees _ := .inl rfl

namespace JournalSystem.Intact

variable {state : JournalSystem}

theorem file_of_journal (intact : state.Intact hashes derivedKey) {journal : DurableJournal}
    (opened : state.journal = some journal) :
    state.file = some (journalFile hashes derivedKey state.kept) := by
  rcases intact.file with ⟨_, closed, _⟩ | file
  · rw [opened] at closed
    contradiction
  · exact file

theorem openOrCreate_eq_ok (intact : state.Intact hashes derivedKey) {faults : VfsFaults}
    {journal : DurableJournal} {bytes : Bytes}
    (opened : Erasure.openOrCreate hashes derivedKey state.file faults = .ok (journal, bytes)) :
    journal = openedJournal hashes derivedKey state.kept ∧
      bytes = journalFile hashes derivedKey state.kept := by
  unfold Erasure.openOrCreate at opened
  rcases intact.file with ⟨missing, _, nothing⟩ | file
  · rw [missing] at opened
    rw [nothing]
    repeat' split at opened
    all_goals first
      | contradiction
      | (cases opened
         exact ⟨rfl, (append_nil _).symm⟩)
  · simp only [file, parseJournal_journalFile hashes derivedKey intact.representable] at opened
    repeat' split at opened
    all_goals first
      | contradiction
      | (cases opened
         exact ⟨rfl, rfl⟩)

theorem openOrCreate_succeeds (intact : state.Intact hashes derivedKey) :
    ∃ bytes, Erasure.openOrCreate hashes derivedKey state.file {} =
      .ok (openedJournal hashes derivedKey state.kept, bytes) := by
  rcases intact.file with ⟨missing, _, nothing⟩ | file
  · rw [missing, nothing]
    exact ⟨_, rfl⟩
  · refine ⟨journalFile hashes derivedKey state.kept, ?_⟩
    simp only [Erasure.openOrCreate, file,
      parseJournal_journalFile hashes derivedKey intact.representable]
    rfl

theorem recoversJournal (intact : state.Intact hashes derivedKey) :
    state.RecoversJournal hashes derivedKey where
  reopened := by
    obtain ⟨bytes, opened⟩ := intact.openOrCreate_succeeds
    exact ⟨_, bytes, opened, rfl, isOpenSagas_recover intact.agrees⟩
  live journal opened := by
    rw [intact.journal journal opened]
    rfl

end JournalSystem.Intact

variable {faults : VfsFaults} {bytes : Bytes}

theorem DurableJournal.appendRecord_eq_ok {journal after : DurableJournal} {file : Option Bytes}
    {record : JournalRecord}
    (appended : journal.appendRecord hashes derivedKey file faults record = .ok (after, bytes)) :
    faults.writeAtomic = none ∧ record.encode.length + 30 < 2 ^ 32 ∧
      after = ⟨journal.records ++ [record],
        nextChain hashes derivedKey journal.chainTail record⟩ ∧
      bytes = readOrDefault file faults ++
        block hashes derivedKey journal.chainTail record := by
  unfold appendRecord at appended
  repeat' split at appended
  · contradiction
  · contradiction
  · contradiction
  · rename_i small _ written
    rw [ctLen_eq] at small
    cases appended
    exact ⟨written, by omega, rfl, rfl⟩

theorem JournalSystem.Intact.append {state : JournalSystem}
    (intact : state.Intact hashes derivedKey) {journal after : DurableJournal} {record : JournalRecord}
    (opened : state.journal = some journal)
    (admissible : state.admissible (.append record faults))
    (appended : journal.appendRecord hashes derivedKey state.file faults record =
      .ok (after, bytes)) :
    JournalSystem.Intact hashes derivedKey
      { file := some bytes, journal := some after, history := state.history ++ [record]
        kept := state.kept ++ [record] } := by
  obtain ⟨written, small, rfl, rfl⟩ := DurableJournal.appendRecord_eq_ok appended
  obtain ⟨read, representable, fits⟩ := admissible written small
  have journal_eq := intact.journal journal opened
  have current : DurableJournal.readOrDefault state.file faults =
      journalFile hashes derivedKey state.kept := by
    simp only [DurableJournal.readOrDefault, read, intact.file_of_journal opened]
  refine ⟨.inr ?_, ?_, ?_, ?_, Agrees.concat intact.agrees fits⟩
  · rw [current, journal_eq, journalFile, journalFile, blocks_concat, append_assoc]
    rfl
  · rintro other ⟨⟩
    rw [journal_eq, openedJournal, openedJournal, chainAfter_concat]
  · intro other membership
    rcases mem_append.mp membership with earlier | last
    · exact intact.representable other earlier
    · rw [mem_singleton.mp last]
      exact representable
  · exact append_subset.mpr ⟨subset_append_of_subset_left _ intact.contained,
      subset_append_right _ _⟩

theorem JournalSystem.Intact.reduce {state : JournalSystem}
    (intact : state.Intact hashes derivedKey) {journal after : DurableJournal}
    (opened : state.journal = some journal)
    (admissible : state.admissible (.reduce faults))
    (reduced : journal.reduceCompleted hashes derivedKey faults = .ok (after, bytes)) :
    JournalSystem.Intact hashes derivedKey
      { state with
        file := some bytes, journal := some after
        kept := DurableJournal.reduced state.kept } := by
  have contained : DurableJournal.reduced state.kept ⊆ state.kept := filter_subset_self _
  have representable : ∀ record ∈ DurableJournal.reduced state.kept, record.Representable :=
    fun record membership => intact.representable record (contained membership)
  have records : journal.records = state.kept := by
    rw [intact.journal journal opened]
    rfl
  unfold DurableJournal.reduceCompleted at reduced
  rw [records, sealAll_eq hashes derivedKey representable] at reduced
  cases written : faults.writeAtomic with
  | some text =>
    rw [written] at reduced
    contradiction
  | none =>
    rw [written] at reduced
    cases reduced
    refine ⟨.inr rfl, ?_, representable, fun record membership =>
      intact.contained (contained membership),
      Agrees.reduced intact.agrees intact.contained (admissible written)⟩
    rintro other ⟨⟩
    rfl

theorem JournalSystem.Intact.step {state next : JournalSystem} {event : JournalEvent}
    (intact : state.Intact hashes derivedKey) (admissible : state.admissible event)
    (taken : state.step hashes derivedKey event = some next) : next.Intact hashes derivedKey := by
  cases event with
  | openOrCreate faults =>
    simp only [JournalSystem.step] at taken
    cases opened : Erasure.openOrCreate hashes derivedKey state.file faults with
    | ok answer =>
      obtain ⟨journal, bytes⟩ := answer
      obtain ⟨rfl, rfl⟩ := intact.openOrCreate_eq_ok opened
      rw [opened] at taken
      cases taken
      exact ⟨.inr rfl, fun _ same => (some.inj same).symm, intact.representable,
        intact.contained, intact.agrees⟩
    | error error =>
      rw [opened] at taken
      cases taken
      refine ⟨?_, (fun _ impossible => nomatch impossible), intact.representable,
        intact.contained, intact.agrees⟩
      rcases intact.file with ⟨missing, _, nothing⟩ | file
      · exact .inl ⟨missing, rfl, nothing⟩
      · exact .inr file
  | append record faults =>
    simp only [JournalSystem.step, map_eq_some_iff] at taken
    obtain ⟨journal, opened, same⟩ := taken
    cases appended : journal.appendRecord hashes derivedKey state.file faults record with
    | ok answer =>
      rw [appended] at same
      exact same ▸ intact.append opened admissible appended
    | error error =>
      rw [appended] at same
      exact same ▸ intact
  | reduce faults =>
    simp only [JournalSystem.step, map_eq_some_iff] at taken
    obtain ⟨journal, opened, same⟩ := taken
    cases reduced : journal.reduceCompleted hashes derivedKey faults with
    | ok answer =>
      rw [reduced] at same
      exact same ▸ intact.reduce opened admissible reduced
    | error error =>
      rw [reduced] at same
      exact same ▸ intact

theorem kept_eq_history {state final : JournalSystem} {events : List JournalEvent}
    (unreduced : ∀ faults, .reduce faults ∉ events) (start : state.kept = state.history)
    (finished : run (JournalSystem.step hashes derivedKey) state events = some final) :
    final.kept = final.history := by
  induction events generalizing state with
  | nil =>
    cases finished
    exact start
  | cons event events ih =>
    obtain ⟨next, taken, rest⟩ := run_cons_eq_some.mp finished
    apply ih (fun faults later => unreduced faults (.tail _ later)) ?_ rest
    cases event with
    | openOrCreate faults =>
      simp only [JournalSystem.step] at taken
      split at taken
      all_goals
        cases taken
        exact start
    | append record faults =>
      simp only [JournalSystem.step, map_eq_some_iff] at taken
      obtain ⟨journal, _, same⟩ := taken
      split at same
      · rw [← same, start]
      · exact same ▸ start
    | reduce faults => exact absurd mem_cons_self (unreduced faults)

end Runs

section Example

def zeroBytes (size : Nat) : FixedBytes size := ⟨replicate size 0, length_replicate⟩

def zeroHashes : HashFunctions := ⟨fun _ => zeroBytes 32, fun _ _ => zeroBytes 32, fun _ _ => 0⟩

def exampleRecord (recordCode : RecordCode) : JournalRecord :=
  ⟨zeroBytes 16, recordCode, 1500, zeroBytes 16, .document, 0, 1, 0, [1, 2], 0, [zeroBytes 32]⟩

def completedRun : List JournalEvent :=
  [.openOrCreate {}, .append (exampleRecord .requestedIntent) {},
    .append (exampleRecord .gated) {}, .openOrCreate {}, .append (exampleRecord .completed) {},
    .reduce {}, .openOrCreate {}]

/-- The read of the second append fails, and its write does not. -/
def unreadRun : List JournalEvent :=
  [.openOrCreate {}, .append (exampleRecord .requestedIntent) {},
    .append (exampleRecord .gated) { read := some "read error" }]

end Example

end Contextra.Erasure
