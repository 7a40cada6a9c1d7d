import Contextra.Erasure.GateLog

/-!
# Compaction and replay

The set after a replay holds the records that no later removal takes out of the set, and the
compacted log keeps the records that no later removal names.  The two agree on the records with
65-byte bounds; on the others only where the removals happen to match.
-/

namespace Contextra.Erasure

open Library List Option
open scoped Contextra.Library.ByteOrder

def keptBy (dropped : GateRecord → GateLog → Bool) : GateLog → List GateRecord
  | [] => []
  | .remove _ :: rest => keptBy dropped rest
  | .add record :: rest =>
    if dropped record rest then keptBy dropped rest else record :: keptBy dropped rest

namespace GateRecord

def cancelled (record : GateRecord) (later : GateLog) : Bool :=
  .remove record.gateId ∈ later

def removedFromSet (record : GateRecord) (later : GateLog) : Bool :=
  match record.form with
  | .range _ _ => .remove record.gateId ∈ later
  | .keys => .remove GateId.zero ∈ later
  | .prefixSeq _ _ => false

def rangeEntry (record : GateRecord) : Option GateEntry :=
  match record.form with
  | .range lo hi => some (ErasedSet.boundsEntry record.gateId lo hi record.gatedSeq)
  | .keys => some (ErasedSet.keyEntry record.lo record.hi record.gatedSeq)
  | .prefixSeq _ _ => none

def erasedEntry (record : GateRecord) : Option GateEntry :=
  if record.isErased then record.rangeEntry else none

def restrictedEntry (record : GateRecord) : Option GateEntry :=
  if record.isErased then none else record.rangeEntry

def prefixEntry (record : GateRecord) : Option PrefixSeqEntry :=
  match record.form with
  | .prefixSeq keyPrefix seqLt => some ⟨keyPrefix, seqLt, record.gatedSeq⟩
  | .range _ _ | .keys => none

end GateRecord

section Kept

variable {dropped other : GateRecord → GateLog → Bool} {log : GateLog} {record : GateRecord}

theorem mem_keptBy :
    record ∈ keptBy dropped log ↔
      ∃ before after, log = before ++ .add record :: after ∧ dropped record after = false := by
  induction log with
  | nil => simp [keptBy]
  | cons entry log ih =>
    have later : record ∈ keptBy dropped log ↔ ∃ before after,
        entry :: log = (entry :: before) ++ .add record :: after ∧
          dropped record after = false := by
      simpa using ih
    cases entry with
    | remove gateId =>
      rw [keptBy, later]
      constructor
      · rintro ⟨before, after, split, stays⟩
        exact ⟨_, after, split, stays⟩
      · rintro ⟨before, after, split, stays⟩
        cases before with
        | nil => cases split
        | cons first before =>
          cases split
          exact ⟨before, after, rfl, stays⟩
    | add first =>
      have heads : record ∈ keptBy dropped (.add first :: log) ↔
          (record = first ∧ dropped first log = false) ∨ record ∈ keptBy dropped log := by
        rw [keptBy]
        split <;> simp_all
      rw [heads, later]
      constructor
      · rintro (⟨rfl, stays⟩ | ⟨before, after, split, stays⟩)
        · exact ⟨[], log, rfl, stays⟩
        · exact ⟨_, after, split, stays⟩
      · rintro ⟨before, after, split, stays⟩
        cases before with
        | nil =>
          cases split
          exact .inl ⟨rfl, stays⟩
        | cons _ before =>
          cases split
          exact .inr ⟨before, after, rfl, stays⟩

theorem keptBy_congr
    (agree : ∀ before record after, log = before ++ .add record :: after →
      dropped record after = other record after) :
    keptBy dropped log = keptBy other log := by
  induction log with
  | nil => rfl
  | cons entry log ih =>
    have rest : keptBy dropped log = keptBy other log := by
      apply ih
      rintro before record after rfl
      exact agree (entry :: before) record after rfl
    cases entry with
    | remove gateId => exact rest
    | add record => rw [keptBy, keptBy, rest, agree [] record log rfl]

end Kept

section Compact

variable {log : GateLog} {gateId : GateId}

theorem mem_compactScan : gateId ∈ (GateLog.compactScan log).2 ↔ .remove gateId ∈ log := by
  induction log with
  | nil => simp [GateLog.compactScan]
  | cons entry log ih =>
    cases entry with
    | remove removed => simp [GateLog.compactScan, ih]
    | add record =>
      rw [GateLog.compactScan]
      split <;> simp [ih]

theorem compact_eq : log.compact = (keptBy GateRecord.cancelled log).map .add := by
  induction log with
  | nil => rfl
  | cons entry log ih =>
    rw [GateLog.compact] at ih
    cases entry with
    | remove removed => exact ih
    | add record =>
      rw [GateLog.compact, GateLog.compactScan, keptBy]
      by_cases later : .remove record.gateId ∈ log
      · simp [mem_compactScan, GateRecord.cancelled, later, ih]
      · simp [mem_compactScan, GateRecord.cancelled, later, ih]

theorem keptBy_removedFromSet_add (records : List GateRecord) :
    keptBy GateRecord.removedFromSet (records.map .add) = records := by
  induction records with
  | nil => rfl
  | cons record records ih =>
    have stays : record.removedFromSet (records.map .add) = false := by
      unfold GateRecord.removedFromSet
      split <;> simp
    rw [map_cons, keptBy, stays, ih]
    rfl

end Compact

section Replay

structure Represents (set : ErasedSet) (records : List GateRecord) : Prop where
  erased : set.erased = sortByKey (·.lo.val) (records.filterMap GateRecord.erasedEntry)
  restricted : set.restricted = sortByKey (·.lo.val) (records.filterMap GateRecord.restrictedEntry)
  prefixSeq : set.prefixSeq = records.filterMap GateRecord.prefixEntry

variable {set : ErasedSet} {records : List GateRecord}

theorem represents_new : Represents .new [] := ⟨rfl, rfl, rfl⟩

theorem Represents.addRecord (represents : Represents set records) (record : GateRecord) :
    Represents (set.addRecord record) (records ++ [record]) := by
  obtain ⟨erased, restricted, prefixSeq⟩ := represents
  cases form : record.form with
  | range lo hi =>
    cases kind : record.isErased <;>
      constructor <;>
      simp [ErasedSet.addRecord, form, kind, ErasedSet.addErasedWithBounds,
        ErasedSet.addRestrictedWithBounds, ErasedSet.incrementEpoch, ErasedSet.pushed,
        GateRecord.erasedEntry, GateRecord.restrictedEntry, GateRecord.prefixEntry,
        GateRecord.rangeEntry, erased, restricted, prefixSeq, sortByKey_append]
  | prefixSeq keyPrefix seqLt =>
    cases kind : record.isErased <;>
      constructor <;>
      simp [ErasedSet.addRecord, form, kind, ErasedSet.addPrefixSeq, ErasedSet.incrementEpoch,
        GateRecord.erasedEntry, GateRecord.restrictedEntry, GateRecord.prefixEntry,
        GateRecord.rangeEntry, erased, restricted, prefixSeq]
  | keys =>
    cases kind : record.isErased <;>
      constructor <;>
      simp [ErasedSet.addRecord, form, kind, ErasedSet.addErased, ErasedSet.addRestricted,
        ErasedSet.incrementEpoch, ErasedSet.pushed, GateRecord.erasedEntry,
        GateRecord.restrictedEntry, GateRecord.prefixEntry, GateRecord.rangeEntry, erased,
        restricted, prefixSeq, sortByKey_append]

theorem Represents.removeGate (represents : Represents set records) (gateId : GateId) :
    Represents (set.removeGate gateId)
      (records.filter fun record => !record.removedFromSet [.remove gateId]) := by
  have taken : ∀ record : GateRecord, record.removedFromSet [.remove gateId] =
      record.rangeEntry.any (·.gateId = gateId) := by
    intro record
    simp only [GateRecord.removedFromSet, GateRecord.rangeEntry]
    split <;> simp [ErasedSet.boundsEntry, ErasedSet.keyEntry, eq_comm]
  obtain ⟨erased, restricted, prefixSeq⟩ := represents
  refine ⟨?_, ?_, ?_⟩
  · simp only [ErasedSet.removeGate, erased, filter_sortByKey_comm]
    congr 1
    rw [filter_filterMap, filterMap_filter]
    apply filterMap_congr
    intro record _
    simp only [GateRecord.erasedEntry, taken]
    cases record.rangeEntry <;> cases record.isErased <;> simp [Option.filter]
  · simp only [ErasedSet.removeGate, restricted, filter_sortByKey_comm]
    congr 1
    rw [filter_filterMap, filterMap_filter]
    apply filterMap_congr
    intro record _
    simp only [GateRecord.restrictedEntry, taken]
    cases record.rangeEntry <;> cases record.isErased <;> simp [Option.filter]
  · simp only [ErasedSet.removeGate, ErasedSet.incrementEpoch, prefixSeq]
    rw [filterMap_filter]
    apply filterMap_congr
    intro record _
    cases form : record.form <;>
      simp [GateRecord.prefixEntry, GateRecord.removedFromSet, form]

theorem removedFromSet_cons (record : GateRecord) (entry : GateLogEntry) (log : GateLog) :
    record.removedFromSet (entry :: log) =
      (record.removedFromSet [entry] || record.removedFromSet log) := by
  simp only [GateRecord.removedFromSet]
  split <;> simp

theorem Represents.replay (represents : Represents set records) (log : GateLog) :
    Represents (log.replayInto set)
      (records.filter (fun record => !record.removedFromSet log) ++
        keptBy GateRecord.removedFromSet log) := by
  induction log generalizing set records with
  | nil =>
    have all : records.filter (fun record => !record.removedFromSet []) = records := by
      apply filter_eq_self.mpr
      intro record _
      unfold GateRecord.removedFromSet
      split <;> simp
    rw [all, keptBy, append_nil]
    exact represents
  | cons entry log ih =>
    cases entry with
    | add record =>
      have step := ih (represents.addRecord record)
      have untouched : ∀ kept : GateRecord,
          kept.removedFromSet (.add record :: log) = kept.removedFromSet log := by
        intro kept
        rw [removedFromSet_cons, Bool.or_eq_right_iff_imp]
        unfold GateRecord.removedFromSet
        split <;> simp
      have same : (records ++ [record]).filter (fun record => !record.removedFromSet log) ++
          keptBy GateRecord.removedFromSet log =
          records.filter (fun kept => !kept.removedFromSet (.add record :: log)) ++
            keptBy GateRecord.removedFromSet (.add record :: log) := by
        simp only [untouched, filter_append, keptBy, append_assoc]
        congr 1
        cases stays : record.removedFromSet log <;> simp [stays]
      rw [← same]
      exact step
    | remove gateId =>
      have step := ih (represents.removeGate gateId)
      have same : (records.filter fun kept => !kept.removedFromSet [.remove gateId]).filter
          (fun kept => !kept.removedFromSet log) =
          records.filter fun kept => !kept.removedFromSet (.remove gateId :: log) := by
        rw [List.filter_filter]
        apply filter_congr
        intro kept _
        rw [removedFromSet_cons kept (.remove gateId) log, Bool.not_or, Bool.and_comm]
      rw [same] at step
      exact step

theorem represents_replay (log : GateLog) :
    Represents (log.replayInto .new) (keptBy GateRecord.removedFromSet log) := by
  simpa using represents_new.replay log

theorem sameAnswers_of_represents {other : ErasedSet} (first : Represents set records)
    (second : Represents other records) : set.SameAnswers other :=
  ErasedSet.sameAnswers_of_gates (first.erased.trans second.erased.symm)
    (first.restricted.trans second.restricted.symm) (first.prefixSeq.trans second.prefixSeq.symm)

end Replay

section Live

variable {set : ErasedSet}

theorem apply_eq_addRecord (set : ErasedSet) (gatedSeq : Nat) (request : BatchGateRequest) :
    request.apply set gatedSeq = set.addRecord (request.record gatedSeq) := by
  cases bounds : request.bounds65 with
  | none => simp [BatchGateRequest.apply, BatchGateRequest.record, ErasedSet.addRecord,
      GateRecord.form, bounds]
  | some pair =>
    obtain ⟨⟨lo, isLo⟩, ⟨hi, isHi⟩⟩ := pair
    simp [BatchGateRequest.apply, BatchGateRequest.record, ErasedSet.addRecord,
      GateRecord.form, bounds, isLo, isHi]

theorem Represents.incrementEpoch {records : List GateRecord}
    (represents : Represents set records) : Represents set.incrementEpoch records :=
  ⟨represents.erased, represents.restricted, represents.prefixSeq⟩

theorem represents_live (steps : List GateStep) :
    Represents (GateState.live steps).set
      (keptBy GateRecord.removedFromSet (GateState.live steps).log) := by
  have replayed : ∀ (log entries : GateLog) (set : ErasedSet),
      Represents set (keptBy GateRecord.removedFromSet log) →
      Represents (entries.replayInto set) (keptBy GateRecord.removedFromSet (log ++ entries)) := by
    intro log entries set represents
    have whole := represents_replay (log ++ entries)
    have split : (log ++ entries).replayInto .new = entries.replayInto (log.replayInto .new) :=
      foldl_append
    have parts := (represents_replay log).replay entries
    have step := represents.replay entries
    rw [split] at whole
    refine ⟨?_, ?_, ?_⟩
    · exact step.erased.trans (parts.erased.symm.trans whole.erased)
    · exact step.restricted.trans (parts.restricted.symm.trans whole.restricted)
    · exact step.prefixSeq.trans (parts.prefixSeq.symm.trans whole.prefixSeq)
  have kept : ∀ (steps : List GateStep) (state : GateState),
      Represents state.set (keptBy GateRecord.removedFromSet state.log) →
      Represents (steps.foldl GateState.step state).set
        (keptBy GateRecord.removedFromSet (steps.foldl GateState.step state).log) := by
    intro steps
    induction steps with
    | nil => exact fun state represents => represents
    | cons step steps ih =>
      intro state represents
      apply ih
      cases step with
      | batch requests gatedSeq =>
        simp only [GateState.step, GateState.executeBatch]
        split
        · exact represents
        · have applied := replayed state.log
            (requests.map fun request => .add (request.record gatedSeq)) _
            represents.incrementEpoch
          simpa only [GateLog.replayInto, foldl_map, ErasedSet.replayEntry,
            ← apply_eq_addRecord] using applied
      | prefixGate gateId keyPrefix seqLt gatedSeq erasureId =>
        have applied := replayed state.log
          [.add ⟨gateId, true, .front keyPrefix, .front keyPrefix,
            some (.prefixSeq keyPrefix.val seqLt), gatedSeq, erasureId⟩] _ represents
        simp only [GateState.step]
        simpa [GateLog.replayInto, ErasedSet.replayEntry, ErasedSet.addRecord,
          GateRecord.form, keyPrefix.property] using applied
      | removeGate gateId => exact replayed state.log [.remove gateId] _ represents
  exact kept steps ⟨.new, []⟩ represents_new

end Live

/-- Compaction of the log changes no answer, and both replays answer as every live set that has
written this log. -/
def CompactionKeepsAnswers (log : GateLog) : Prop :=
  (log.compact.replayInto .new).SameAnswers (log.replayInto .new) ∧
    ∀ steps, (GateState.live steps).log = log →
      (log.replayInto .new).SameAnswers (GateState.live steps).set

/-- For every record: a later entry removes the id of the record if and only if a later entry
removes the id under which the set keeps the gate. -/
def RemovalsMatch (log : GateLog) : Prop :=
  ∀ before record after, log = before ++ .add record :: after →
    record.cancelled after = record.removedFromSet after

theorem compactionKeepsAnswers_of_removalsMatch {log : GateLog} (removals : RemovalsMatch log) :
    CompactionKeepsAnswers log := by
  refine ⟨?_, ?_⟩
  · have compacted := represents_replay log.compact
    rw [compact_eq, keptBy_removedFromSet_add, keptBy_congr removals] at compacted
    rw [compact_eq, keptBy_congr removals]
    exact sameAnswers_of_represents compacted (represents_replay log)
  · rintro steps rfl
    exact sameAnswers_of_represents (represents_replay _) (represents_live steps)

/-! The condition is about ids, kinds and order alone.  Where it fails, there are bounds for the
same log under which a decision changes. -/

inductive FormKind where
  | range
  | prefixSeq
  | keys
  deriving DecidableEq

def GateForm.kind : GateForm → FormKind
  | .range _ _ => .range
  | .prefixSeq _ _ => .prefixSeq
  | .keys => .keys

/-- What a log entry is, without its bounds and sequence numbers. -/
inductive EntryShape where
  | add (gateId : GateId) (isErased : Bool) (kind : FormKind)
  | remove (gateId : GateId)
  deriving DecidableEq

def GateLogEntry.shape : GateLogEntry → EntryShape
  | .add record => .add record.gateId record.isErased record.form.kind
  | .remove gateId => .remove gateId

section Distinguish

variable {dropped : GateRecord → GateLog → Bool} {before after log : GateLog}
  {record other : GateRecord} {k : KeyBuf} {raw : RawKey}

theorem length_testKey : (replicate 16 (0 : UInt8)).length = 16 := length_replicate

def testKey : KeyBuf := ⟨replicate 16 0, length_testKey⟩

def testRaw : RawKey := ⟨replicate 78 255, by simp⟩

def testRecord (reaches : Bool) (gateId : GateId) (isErased : Bool) (kind : FormKind) :
    GateRecord where
  gateId := gateId
  isErased := isErased
  lo := testKey
  hi := if reaches then ⟨replicate 16 255, by simp⟩ else testKey
  predicate :=
    match kind with
    | .range => some (.range (replicate 65 0) (replicate 65 0))
    | .prefixSeq => some (.prefixSeq (replicate 65 255) (if reaches then 1 else 0))
    | .keys => none
  gatedSeq := 0
  erasureId := GateId.zero

def blank : EntryShape → GateLogEntry
  | .add gateId isErased kind => .add (testRecord false gateId isErased kind)
  | .remove gateId => .remove gateId

def GateRecord.touches (record : GateRecord) (k : KeyBuf) (raw : RawKey) : Bool :=
  record.rangeEntry.any (fun entry => entry.contains16 k || entry.contains78 raw) ||
    record.prefixEntry.any (·.matches78 raw)

theorem testRecord_kind (reaches : Bool) (gateId : GateId) (isErased : Bool) (kind : FormKind) :
    (testRecord reaches gateId isErased kind).form.kind = kind := by
  cases kind <;> simp [GateRecord.form, testRecord, GateForm.kind]

theorem blank_shape (shape : EntryShape) : (blank shape).shape = shape := by
  cases shape with
  | add gateId isErased kind => simp only [blank, GateLogEntry.shape, testRecord_kind]; rfl
  | remove gateId => rfl

theorem touches_testRecord (reaches : Bool) (gateId : GateId) (isErased : Bool)
    (kind : FormKind) :
    (testRecord reaches gateId isErased kind).touches k raw =
      (testRecord reaches GateId.zero true kind).touches k raw := by
  cases kind <;> simp [GateRecord.touches, GateRecord.rangeEntry, GateRecord.prefixEntry,
    GateRecord.form, testRecord, ErasedSet.boundsEntry, ErasedSet.keyEntry,
    GateEntry.contains16, GateEntry.contains78]

theorem testRecord_touches (reaches : Bool) (gateId : GateId) (isErased : Bool)
    {kind : FormKind} (notRange : reaches = true → kind ≠ .range) :
    (testRecord reaches gateId isErased kind).touches testKey testRaw = reaches := by
  rw [touches_testRecord]
  cases kind with
  | range =>
    cases reaches with
    | true => exact absurd rfl (notRange rfl)
    | false => decide +kernel
  | prefixSeq => cases reaches <;> decide +kernel
  | keys => cases reaches <;> decide +kernel

theorem decision_open {restricted erased : Bool} :
    (if restricted then GateDecision.restricted else if erased then .erased else .isOpen) =
      .isOpen ↔ restricted = false ∧ erased = false := by
  cases restricted <;> cases erased <;> simp

theorem Represents.open_iff {set : ErasedSet} {records : List GateRecord}
    (represents : Represents set records) :
    (set.check k = .isOpen ∧ set.checkRaw raw = .isOpen) ↔
      ∀ record ∈ records, record.touches k raw = false := by
  have raws : set.checkRaw raw = .isOpen ↔ set.restricted.any (·.contains78 raw) = false ∧
      set.erased.any (·.contains78 raw) = false ∧ set.prefixSeq.any (·.matches78 raw) = false := by
    simp only [ErasedSet.checkRaw]
    cases set.restricted.any (·.contains78 raw) <;> cases set.erased.any (·.contains78 raw) <;>
      cases set.prefixSeq.any (·.matches78 raw) <;> simp
  simp only [ErasedSet.check, decision_open, raws, represents.erased, represents.restricted,
    represents.prefixSeq, List.any_eq_false, mem_sortByKey, mem_filterMap]
  constructor
  · rintro ⟨⟨restricted16, erased16⟩, restricted78, erased78, prefixes⟩ record inside
    rw [GateRecord.touches, Bool.or_eq_false_iff]
    refine ⟨?_, ?_⟩
    · cases entry : record.rangeEntry with
      | none => rfl
      | some entry' =>
        cases kind : record.isErased with
        | true =>
          have isEntry : record.erasedEntry = some entry' := by
            simp [GateRecord.erasedEntry, kind, entry]
          have first := erased16 entry' ⟨record, inside, isEntry⟩
          have second := erased78 entry' ⟨record, inside, isEntry⟩
          simp [first, second]
        | false =>
          have isEntry : record.restrictedEntry = some entry' := by
            simp [GateRecord.restrictedEntry, kind, entry]
          have first := restricted16 entry' ⟨record, inside, isEntry⟩
          have second := restricted78 entry' ⟨record, inside, isEntry⟩
          simp [first, second]
    · cases entry : record.prefixEntry with
      | none => rfl
      | some entry' =>
        have third := prefixes entry' ⟨record, inside, entry⟩
        simp [third]
  · intro untouched
    have ranges : ∀ entry, (∃ record ∈ records, record.rangeEntry = some entry) →
        entry.contains16 k = false ∧ entry.contains78 raw = false := by
      rintro entry ⟨record, inside, isEntry⟩
      have none := untouched record inside
      simp only [GateRecord.touches, isEntry, Bool.or_eq_false_iff, any_some] at none
      exact none.1
    have fromErased : ∀ entry, (∃ record ∈ records, record.erasedEntry = some entry) →
        entry.contains16 k = false ∧ entry.contains78 raw = false := by
      rintro entry ⟨record, inside, isEntry⟩
      apply ranges
      refine ⟨record, inside, ?_⟩
      simpa [GateRecord.erasedEntry] using (ite_none_right_eq_some.mp isEntry).2
    have fromRestricted : ∀ entry, (∃ record ∈ records, record.restrictedEntry = some entry) →
        entry.contains16 k = false ∧ entry.contains78 raw = false := by
      rintro entry ⟨record, inside, isEntry⟩
      apply ranges
      refine ⟨record, inside, ?_⟩
      simpa [GateRecord.restrictedEntry] using (ite_none_left_eq_some.mp isEntry).2
    refine ⟨⟨fun entry isEntry => ?_, fun entry isEntry => ?_⟩, fun entry isEntry => ?_,
      fun entry isEntry => ?_, ?_⟩
    · simp [(fromRestricted entry isEntry).1]
    · simp [(fromErased entry isEntry).1]
    · simp [(fromRestricted entry isEntry).2]
    · simp [(fromErased entry isEntry).2]
    · rintro entry ⟨record, inside, isEntry⟩
      have none := untouched record inside
      simp only [GateRecord.touches, isEntry, Bool.or_eq_false_iff, any_some] at none
      simp [none.2]

def blanked (log : GateLog) : GateLog := log.map fun entry => blank entry.shape

theorem blanked_shapes (log : GateLog) : (blanked log).map GateLogEntry.shape =
    log.map GateLogEntry.shape := by
  simp [blanked, Function.comp_def, blank_shape]

theorem not_touches_of_blanked (inside : .add record ∈ blanked log) :
    record.touches testKey testRaw = false := by
  obtain ⟨entry, -, isBlank⟩ := List.mem_map.mp inside
  cases shape : entry.shape with
  | remove gateId => simp [shape, blank] at isBlank
  | add gateId isErased kind =>
    simp only [shape, blank, GateLogEntry.add.injEq] at isBlank
    subst isBlank
    exact testRecord_touches false gateId isErased fun impossible => nomatch impossible

theorem remove_mem_blanked {gateId : GateId} :
    .remove gateId ∈ blanked log ↔ .remove gateId ∈ log := by
  rw [blanked, List.mem_map]
  constructor
  · rintro ⟨entry, inside, isBlank⟩
    cases entry with
    | add record => simp [GateLogEntry.shape, blank] at isBlank
    | remove removed =>
      simp only [GateLogEntry.shape, blank, GateLogEntry.remove.injEq] at isBlank
      exact isBlank ▸ inside
  · exact fun inside => ⟨_, inside, rfl⟩

theorem touched_iff (reaches : record.touches testKey testRaw = true) :
    (∃ kept ∈ keptBy dropped (blanked before ++ .add record :: blanked after),
      kept.touches testKey testRaw = true) ↔ dropped record (blanked after) = false := by
  constructor
  · rintro ⟨kept, inside, touches⟩
    obtain ⟨early, late, split, stays⟩ := mem_keptBy.mp inside
    have notBlank : ∀ log, .add kept ∉ blanked log := by
      intro log isBlank
      rw [not_touches_of_blanked isBlank] at touches
      cases touches
    rcases append_eq_append_iff.mp split with ⟨between, rfl, rest⟩ | ⟨between, front, rest⟩
    · cases between with
      | nil =>
        cases rest
        exact stays
      | cons first between =>
        have inAfter : .add kept ∈ blanked after := by
          rw [(List.cons.inj rest).2]
          simp
        exact absurd inAfter (notBlank after)
    · cases between with
      | nil =>
        cases rest
        exact stays
      | cons first between =>
        have inBefore : .add kept ∈ blanked before := by
          rw [front, ← (List.cons.inj rest).1]
          simp
        exact absurd inBefore (notBlank before)
  · exact fun stays => ⟨record, mem_keptBy.mpr ⟨_, _, rfl, stays⟩, reaches⟩

theorem removedFromSet_of_kind {first second : GateRecord} {log changed : GateLog}
    (kind : first.form.kind = second.form.kind) (sameId : first.gateId = second.gateId)
    (removals : ∀ gateId, .remove gateId ∈ log ↔ .remove gateId ∈ changed) :
    first.removedFromSet log = second.removedFromSet changed := by
  simp only [GateRecord.removedFromSet, sameId, removals]
  revert kind
  cases first.form <;> cases second.form <;> simp [GateForm.kind]

theorem not_keepsAnswers_of_mismatch (split : log = before ++ .add record :: after)
    (mismatch : record.cancelled after ≠ record.removedFromSet after) :
    ∃ changed : GateLog, changed.map GateLogEntry.shape = log.map GateLogEntry.shape ∧
      ¬ CompactionKeepsAnswers changed := by
  have notRange : record.form.kind ≠ .range := by
    intro isRange
    apply mismatch
    cases form : record.form with
    | range lo hi => simp [GateRecord.cancelled, GateRecord.removedFromSet, form]
    | prefixSeq keyPrefix seqLt => simp [form, GateForm.kind] at isRange
    | keys => simp [form, GateForm.kind] at isRange
  set test := testRecord true record.gateId record.isErased record.form.kind with isTest
  have reaches : test.touches testKey testRaw = true :=
    testRecord_touches true _ _ fun _ => notRange
  refine ⟨blanked before ++ .add test :: blanked after, ?_, ?_⟩
  · rw [split, map_append, map_cons, map_append, map_cons, blanked_shapes,
      blanked_shapes]
    simp only [GateLogEntry.shape, isTest, testRecord_kind]
    rfl
  · rintro ⟨same, -⟩
    have original := represents_replay (blanked before ++ .add test :: blanked after)
    have compacted := represents_replay
      (GateLog.compact (blanked before ++ .add test :: blanked after))
    rw [compact_eq, keptBy_removedFromSet_add, ← compact_eq] at compacted
    have decisions : (∀ kept ∈ keptBy GateRecord.cancelled
        (blanked before ++ .add test :: blanked after), kept.touches testKey testRaw = false) ↔
        ∀ kept ∈ keptBy GateRecord.removedFromSet
          (blanked before ++ .add test :: blanked after),
          kept.touches testKey testRaw = false := by
      rw [← original.open_iff, ← compacted.open_iff, same.check, same.checkRaw]
    have agree : test.cancelled (blanked after) = false ↔
        test.removedFromSet (blanked after) = false := by
      rw [← touched_iff reaches, ← touched_iff reaches]
      simpa only [not_forall, Bool.not_eq_false, exists_prop] using not_congr decisions
    have cancelled : test.cancelled (blanked after) = record.cancelled after := by
      simp [GateRecord.cancelled, remove_mem_blanked, isTest, testRecord]
    have removed : test.removedFromSet (blanked after) = record.removedFromSet after :=
      removedFromSet_of_kind (testRecord_kind _ _ _ _) rfl fun gateId => remove_mem_blanked
    rw [cancelled, removed] at agree
    apply mismatch
    cases first : record.cancelled after <;> cases second : record.removedFromSet after <;>
      simp [first, second] at agree ⊢

end Distinguish

theorem remove_mem_shapes {log : GateLog} {gateId : GateId} :
    .remove gateId ∈ log.map GateLogEntry.shape ↔ .remove gateId ∈ log := by
  rw [List.mem_map]
  constructor
  · rintro ⟨entry, inside, isRemove⟩
    cases entry with
    | add record => cases isRemove
    | remove removed =>
      cases isRemove
      exact inside
  · exact fun inside => ⟨_, inside, rfl⟩

theorem RemovalsMatch.of_shapes {log changed : GateLog} (removals : RemovalsMatch log)
    (sameShape : changed.map GateLogEntry.shape = log.map GateLogEntry.shape) :
    RemovalsMatch changed := by
  rintro before record after rfl
  rw [map_append, map_cons] at sameShape
  obtain ⟨early, rest, rfl, -, restShape⟩ := map_eq_append_iff.mp sameShape.symm
  obtain ⟨entry, late, rfl, entryShape, lateShape⟩ := map_eq_cons_iff.mp restShape
  cases entry with
  | remove gateId => cases entryShape
  | add original =>
    have later : ∀ gateId, .remove gateId ∈ after ↔ .remove gateId ∈ late := by
      intro gateId
      rw [← remove_mem_shapes, ← lateShape, remove_mem_shapes]
    simp only [GateLogEntry.shape, EntryShape.add.injEq] at entryShape
    have cancelled : record.cancelled after = original.cancelled late := by
      simp [GateRecord.cancelled, later, entryShape.1]
    rw [cancelled, removals early original late rfl]
    exact (removedFromSet_of_kind entryShape.2.2.symm entryShape.1.symm later).symm

/-- Exactly when the removals of a log match does its compaction change no decision, whatever
the bounds and sequence numbers of its records are. -/
theorem compactionKeepsAnswers_iff (log : GateLog) :
    (∀ changed : GateLog, changed.map GateLogEntry.shape = log.map GateLogEntry.shape →
      CompactionKeepsAnswers changed) ↔ RemovalsMatch log := by
  constructor
  · intro keeps before record after split
    by_contra mismatch
    obtain ⟨changed, sameShape, differs⟩ := not_keepsAnswers_of_mismatch split mismatch
    exact differs (keeps changed sameShape)
  · intro removals changed sameShape
    exact compactionKeepsAnswers_of_removalsMatch (removals.of_shapes sameShape)

/-- A range of 16-byte keys that is added and removed again: the set keeps it, the compacted log
does not. -/
theorem key_gate_removed_not_keepsAnswers :
    ¬ CompactionKeepsAnswers
      [.add ⟨⟨replicate 16 1, by simp⟩, true, testKey, ⟨replicate 16 255, by simp⟩, none,
        5, GateId.zero⟩, .remove ⟨replicate 16 1, by simp⟩] := by
  rintro ⟨same, -⟩
  have decision := same.check testKey
  revert decision
  decide +kernel

end Contextra.Erasure
