import Contextra.Erasure.Journal

/-!
# Reopening the journal

A file that is a header and the blocks of representable records is read back as these
records, and recovery answers with the last state that each erasure has in them.
-/

namespace Contextra.Erasure

open Library List

section Blocks

variable (hashes : HashFunctions) (derivedKey : FixedBytes 32)

def blocks : FixedBytes 32 → List JournalRecord → Bytes
  | _, [] => []
  | chain, record :: records =>
    block hashes derivedKey chain record ++
      blocks (nextChain hashes derivedKey chain record) records

def chainAfter (chain : FixedBytes 32) (records : List JournalRecord) : FixedBytes 32 :=
  records.foldl (nextChain hashes derivedKey) chain

def journalFile (records : List JournalRecord) : Bytes :=
  journalHeader hashes derivedKey ++ blocks hashes derivedKey journalGenesisChain records

def openedJournal (records : List JournalRecord) : DurableJournal :=
  ⟨records, chainAfter hashes derivedKey journalGenesisChain records⟩

theorem blocks_concat (chain : FixedBytes 32) (records : List JournalRecord)
    (record : JournalRecord) :
    blocks hashes derivedKey chain (records ++ [record]) =
      blocks hashes derivedKey chain records ++
        block hashes derivedKey (chainAfter hashes derivedKey chain records) record := by
  induction records generalizing chain with
  | nil => simp [blocks, chainAfter]
  | cons first records ih =>
    rw [cons_append, blocks, blocks, ih, append_assoc]
    rfl

theorem chainAfter_concat (chain : FixedBytes 32) (records : List JournalRecord)
    (record : JournalRecord) :
    chainAfter hashes derivedKey chain (records ++ [record]) =
      nextChain hashes derivedKey (chainAfter hashes derivedKey chain records) record := by
  simp [chainAfter]

theorem ctLen_eq (record : JournalRecord) :
    ctLen hashes derivedKey record = record.encode.length + 30 := by
  rw [ctLen, envelope, HashFunctions.length_sealRecord]
  omega

variable {record : JournalRecord}

theorem ctLen_lt (representable : record.Representable) :
    ctLen hashes derivedKey record < 2 ^ 32 := by
  have tags := representable.1
  have witnesses := representable.2
  rw [ctLen_eq, JournalRecord.length_encode]
  omega

theorem length_envelope (record : JournalRecord) :
    (envelope hashes derivedKey record).length = ctLen hashes derivedKey record + 16 := by
  rw [ctLen_eq, envelope, HashFunctions.length_sealRecord]

theorem length_blockBody (record : JournalRecord) :
    (blockBody hashes derivedKey record).length = 4 + ctLen hashes derivedKey record + 16 := by
  rw [blockBody, length_append, length_toBeBytes, length_envelope]
  omega

theorem nextBlock_block (representable : record.Representable)
    (chain : FixedBytes 32) (rest : Bytes) :
    nextBlock hashes derivedKey chain (block hashes derivedKey chain record ++ rest) =
      .record record (nextChain hashes derivedKey chain record) rest := by
  set next := nextChain hashes derivedKey chain record with next_eq
  have bodySize := length_blockBody hashes derivedKey record
  have log_eq : block hashes derivedKey chain record ++ rest =
      blockBody hashes derivedKey record ++ (next.val ++ rest) := by
    rw [block, append_assoc]
  have lengthField : (blockBody hashes derivedKey record ++ (next.val ++ rest)).take 4 =
      toBeBytes 4 (ctLen hashes derivedKey record) := by
    rw [blockBody, append_assoc, take_left' (length_toBeBytes 4 _)]
  have len : fromBeBytes (toBeBytes 4 (ctLen hashes derivedKey record)) =
      ctLen hashes derivedKey record :=
    fromBeBytes_toBeBytes (ctLen_lt hashes derivedKey representable)
  have total : (blockBody hashes derivedKey record ++ (next.val ++ rest)).length =
      4 + ctLen hashes derivedKey record + 16 + 32 + rest.length := by
    rw [length_append, length_append, bodySize, next.property]
    omega
  have nonempty : blockBody hashes derivedKey record ++ (next.val ++ rest) ≠ [] := by
    apply ne_nil_of_length_pos
    omega
  have covered : (blockBody hashes derivedKey record ++ (next.val ++ rest)).take
      (4 + ctLen hashes derivedKey record + 16) = blockBody hashes derivedKey record :=
    take_left' bodySize
  have behind : (blockBody hashes derivedKey record ++ (next.val ++ rest)).drop
      (4 + ctLen hashes derivedKey record + 16) = next.val ++ rest := drop_left' bodySize
  have sealed : (blockBody hashes derivedKey record).drop 4 = envelope hashes derivedKey record :=
    drop_left' (length_toBeBytes 4 _)
  have opened : hashes.openRecord derivedKey journalKeyBinding (envelope hashes derivedKey record) =
      .ok record.encode := hashes.openRecord_sealRecord _ _ _ _
  have decoded := (JournalRecord.decode_encode_iff record).mpr representable
  have left : (blockBody hashes derivedKey record ++ (next.val ++ rest)).drop
      (4 + ctLen hashes derivedKey record + 16 + 32) = rest := by
    rw [← drop_drop, behind, drop_left' next.property]
  rw [log_eq, nextBlock, if_neg nonempty, if_neg (by omega)]
  simp only [lengthField, len, covered, behind, sealed, opened, decoded, left]
  rw [if_neg (by omega), take_left' next.property,
    if_neg (fun different => different (congrArg Subtype.val next_eq))]
  rfl

theorem scan_block {chain chain' : FixedBytes 32} {body rest : Bytes}
    (found : nextBlock hashes derivedKey chain body = .record record chain' rest) :
    (journalScanner hashes derivedKey).scan chain body =
      ((journalScanner hashes derivedKey).scan chain' rest).map (Scan.prepend [record]) :=
  Scanner.scan_record found

variable {records : List JournalRecord}

theorem scan_blocks
    (representable : ∀ record ∈ records, record.Representable) (chain : FixedBytes 32) :
    (journalScanner hashes derivedKey).scan chain (blocks hashes derivedKey chain records) =
      .ok ⟨records, chainAfter hashes derivedKey chain records, []⟩ := by
  induction records generalizing chain with
  | nil =>
    exact Scanner.scan_stop rfl
  | cons record records ih =>
    have first := nextBlock_block hashes derivedKey
      (representable record mem_cons_self) chain
      (blocks hashes derivedKey (nextChain hashes derivedKey chain record) records)
    have later := ih
      (fun other mem => representable other (mem_cons_of_mem _ mem))
      (nextChain hashes derivedKey chain record)
    rw [blocks, scan_block hashes derivedKey first, later]
    rfl

theorem length_journalHeader : (journalHeader hashes derivedKey).length = 64 := by
  rw [journalHeader, length_append, headerMac, length_take,
    (hashes.keyedHash derivedKey journalHeader48).property]
  rfl

theorem parseJournal_journalFile (representable : ∀ record ∈ records, record.Representable) :
    parseJournal hashes derivedKey (journalFile hashes derivedKey records) =
      .ok (openedJournal hashes derivedKey records) := by
  have headerSize := length_journalHeader hashes derivedKey
  have header : (journalFile hashes derivedKey records).take 64 = journalHeader hashes derivedKey :=
    take_left' headerSize
  have body : (journalFile hashes derivedKey records).drop 64 =
      blocks hashes derivedKey journalGenesisChain records := drop_left' headerSize
  have long : ¬ (journalFile hashes derivedKey records).length < 64 := by
    rw [journalFile, length_append]
    omega
  have front : (journalHeader hashes derivedKey).take 48 = journalHeader48 := take_left' rfl
  have macSize : (headerMac hashes derivedKey journalHeader48).length = 16 := by
    rw [headerMac, length_take, (hashes.keyedHash derivedKey journalHeader48).property]
    rfl
  have mac : ((journalHeader hashes derivedKey).drop 48).take 16 =
      headerMac hashes derivedKey journalHeader48 := by
    have back : (journalHeader hashes derivedKey).drop 48 =
        headerMac hashes derivedKey journalHeader48 := drop_left' rfl
    rw [back, take_of_length_le (by omega)]
  rw [parseJournal, if_neg long]
  simp only [header, body, front, mac, scan_blocks hashes derivedKey representable]
  rw [if_neg (by exact not_not.mpr rfl), if_neg (by exact not_not.mpr rfl), if_neg (not_not.mpr rfl)]
  rfl

theorem sealAll_eq
    (representable : ∀ record ∈ records, record.Representable) (chain : FixedBytes 32) :
    DurableJournal.sealAll hashes derivedKey chain records =
      .ok (blocks hashes derivedKey chain records, chainAfter hashes derivedKey chain records) := by
  induction records generalizing chain with
  | nil => rfl
  | cons record records ih =>
    have small := ctLen_lt hashes derivedKey
      (representable record mem_cons_self)
    have later := ih
      (fun other mem => representable other (mem_cons_of_mem _ mem))
      (nextChain hashes derivedKey chain record)
    rw [DurableJournal.sealAll, if_neg (by omega), later]
    rfl

end Blocks

instance (size : Nat) : Std.TransOrd (FixedBytes size) where
  eq_swap := (inferInstance : Std.TransOrd Bytes).eq_swap
  isLE_trans := (inferInstance : Std.TransOrd Bytes).isLE_trans

instance (size : Nat) : Std.LawfulEqOrd (FixedBytes size) where
  compare_self := (inferInstance : Std.LawfulEqOrd Bytes).compare_self
  eq_of_compare same := Subtype.ext ((inferInstance : Std.LawfulEqOrd Bytes).eq_of_compare same)

namespace DurableJournal

def lastRecord (records : List JournalRecord) (id : ErasureId) : Option JournalRecord :=
  (records.filter fun record => record.erasureId = id).getLast?

theorem lastRecord_concat (records : List JournalRecord) (record : JournalRecord)
    (id : ErasureId) :
    lastRecord (records ++ [record]) id =
      if record.erasureId = id then some record else lastRecord records id := by
  unfold lastRecord
  rw [filter_append]
  by_cases own : record.erasureId = id
  · rw [if_pos own, filter_cons_of_pos (by simpa using own), filter_nil,
      getLast?_concat]
  · rw [if_neg own, filter_cons_of_neg (by simpa using own), filter_nil,
      append_nil]

theorem getElem?_latestState (records : List JournalRecord) (id : ErasureId) :
    (latestState records)[id]? =
      (lastRecord records id).map fun record =>
        (record.recordCode.toSagaState, record.timestamp) := by
  induction records using reverseRecOn with
  | nil => exact Std.TreeMap.getElem?_emptyc
  | append_singleton records record ih =>
    have step : latestState (records ++ [record]) = (latestState records).insert
        record.erasureId (record.recordCode.toSagaState, record.timestamp) := by
      simp [latestState]
    rw [step, Std.TreeMap.getElem?_insert, lastRecord_concat, ih]
    by_cases own : record.erasureId = id
    · rw [if_pos (Std.LawfulEqCmp.compare_eq_iff_eq.mpr own), if_pos own]
      rfl
    · rw [if_neg (fun same => own (Std.LawfulEqCmp.compare_eq_iff_eq.mp same)), if_neg own]

def recordedState (records : List JournalRecord) (id : ErasureId) : Option SagaState :=
  (lastRecord records id).map fun record => record.recordCode.toSagaState

theorem mem_recoverOpenSagas {journal : DurableJournal} {id : ErasureId} {saga : EraseSaga} :
    (id, saga) ∈ journal.recoverOpenSagas ↔
      ∃ state, recordedState journal.records id = some state ∧ state.isTerminal = false ∧
        saga = .withState state := by
  simp only [recoverOpenSagas, mem_filterMap]
  constructor
  · rintro ⟨⟨other, state, time⟩, mem, kept⟩
    have found := Std.TreeMap.mem_toList_iff_getElem?_eq_some.mp mem
    rw [getElem?_latestState] at found
    simp only at kept
    split at kept
    · contradiction
    · rename_i running
      cases kept
      refine ⟨state, ?_, by simpa using running, rfl⟩
      rw [Option.map_eq_some_iff] at found
      obtain ⟨record, last, same⟩ := found
      cases same
      rw [recordedState, last]
      rfl
  · rintro ⟨state, recorded, running, rfl⟩
    rw [recordedState, Option.map_eq_some_iff] at recorded
    obtain ⟨record, last, rfl⟩ := recorded
    refine ⟨(id, record.recordCode.toSagaState, record.timestamp), ?_, ?_⟩
    · apply Std.TreeMap.mem_toList_iff_getElem?_eq_some.mpr
      rw [getElem?_latestState, last]
      rfl
    · simp [running]

theorem nodup_recoverOpenSagas (journal : DurableJournal) :
    (journal.recoverOpenSagas.map Prod.fst).Nodup := by
  have sublist : (journal.recoverOpenSagas.map Prod.fst).Sublist
      ((latestState journal.records).toList.map Prod.fst) := by
    rw [recoverOpenSagas]
    induction (latestState journal.records).toList with
    | nil => exact List.Sublist.refl _
    | cons entry entries ih =>
      rw [filterMap_cons, map_cons]
      by_cases terminal : entry.2.1.isTerminal
      · simp only [terminal, if_true]
        exact ih.cons _
      · simp only [terminal]
        exact ih.cons_cons _
  apply sublist.nodup
  rw [Std.TreeMap.map_fst_toList_eq_keys]
  exact Std.TreeMap.nodup_keys

end DurableJournal

end Contextra.Erasure
