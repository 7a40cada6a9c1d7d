import Contextra.Store.ManifestReopen

/-!
# Rollover of the MANIFEST

A rollover replaces the file by `Add` entries of the live tables.  The valid file names are those
of the replaced log; the checkpoints of the WAL are gone with the log.
-/

namespace Contextra.Store.ManifestFile

open Library

variable {PathBuf : Type} {platform : Platform PathBuf}

def IsText (platform : Platform PathBuf) (path : PathBuf) : Prop :=
  platform.fromText (platform.toStringLossy path) = path

structure FileNames (platform : Platform PathBuf) where
  /-- `Path::file_name`. -/
  fileName : PathBuf → Option PathBuf
  isText : ∀ {path name}, fileName path = some name → IsText platform path → IsText platform name
  /-- What is lost of the directory does not reach the file name. -/
  lossy : ∀ {path name}, fileName path = some name → IsText platform name →
    fileName (platform.fromText (platform.toStringLossy path)) = some name

namespace FileNames

variable (names : FileNames platform)

def key (path : PathBuf) : PathBuf := (names.fileName path).getD path

theorem key_isText {path : PathBuf} (isText : IsText platform path) :
    IsText platform (names.key path) := by
  rw [key]
  cases found : names.fileName path with
  | none => exact isText
  | some name => exact names.isText found isText

theorem key_asWritten {path : PathBuf} (isText : IsText platform (names.key path)) :
    names.key (platform.fromText (platform.toStringLossy path)) = names.key path := by
  rw [key] at isText
  cases found : names.fileName path with
  | none =>
    rw [found] at isText
    have unchanged : platform.fromText (platform.toStringLossy path) = path := isText
    rw [unchanged]
  | some name =>
    rw [found] at isText
    rw [key, key, names.lossy found isText, found]
    rfl

end FileNames

section Recovery

variable [DecidableEq PathBuf] (names : FileNames platform)

/-- The ranks of the valid file names. -/
abbrev ValidMap (PathBuf : Type) := AList fun _ : PathBuf => Nat

/-- One entry of the replay, with `next_rank`. -/
def replay (replayed : ValidMap PathBuf × Nat) : ManifestEntry PathBuf → ValidMap PathBuf × Nat
  | .add path _ => (replayed.1.insert (names.key path) replayed.2, replayed.2 + 1)
  | .remove path => (replayed.1.erase (names.key path), replayed.2)
  | .rollbackComplete _ => replayed
  | .walCheckpoint _ => replayed
  | .replace removed added _ _ =>
    ((removed.foldl (fun valid path => valid.erase (names.key path)) replayed.1).insert
      (names.key added) replayed.2, replayed.2 + 1)

def validMap (entries : List (ManifestEntry PathBuf)) : ValidMap PathBuf :=
  (entries.foldl (replay names) (∅, 0)).1

/-- The valid file names with their ranks, in the order of the ranks. -/
def reconstructValidSstables (entries : List (ManifestEntry PathBuf)) : List (PathBuf × Nat) :=
  ((validMap names entries).entries.map fun entry => (entry.1, entry.2)).mergeSort
    fun first second => first.2 ≤ second.2

end Recovery

/-- The newest checkpoint of the WAL. -/
def extractHighWaterMark (entries : List (ManifestEntry PathBuf)) : Option (Vector UInt8 32) :=
  entries.reverse.findSome? fun
    | .walCheckpoint hmac => some hmac
    | _ => none

/-- `maybe_rollover`, when the platform does not fail: whether the file was replaced, and the
file. -/
def maybeRollover (platform : Platform PathBuf) (file : Bytes)
    (liveEntries : List (ManifestEntry PathBuf)) (thresholdBytes : Nat) :
    Except EntryError (Bool × Bytes) :=
  if file.length < thresholdBytes then .ok (false, file)
  else (appendBatch platform header liveEntries).map fun written => (true, written)

section Names

variable [DecidableEq PathBuf] {names : FileNames platform}

variable {name : PathBuf}

theorem mem_reconstructValidSstables {entries : List (ManifestEntry PathBuf)} :
    name ∈ (reconstructValidSstables names entries).map Prod.fst ↔
      name ∈ validMap names entries := by
  have sorted := List.mergeSort_perm ((validMap names entries).entries.map fun entry =>
    (entry.1, entry.2)) fun first second => first.2 ≤ second.2
  rw [reconstructValidSstables, (sorted.map Prod.fst).mem_iff, List.map_map]
  exact Iff.rfl

theorem validMap_concat (names : FileNames platform) (entries : List (ManifestEntry PathBuf))
    (entry : ManifestEntry PathBuf) :
    ∃ rank, validMap names (entries ++ [entry]) =
      (replay names (validMap names entries, rank) entry).1 := by
  rw [validMap, List.foldl_append]
  exact ⟨(entries.foldl (replay names) (∅, 0)).2, rfl⟩

theorem mem_of_mem_eraseAll {removed : List PathBuf} {valid : ValidMap PathBuf}
    (isValid : name ∈ removed.foldl (fun valid path => valid.erase (names.key path)) valid) :
    name ∈ valid := by
  induction removed generalizing valid with
  | nil => exact isValid
  | cons path removed ih =>
    exact (AList.mem_erase.mp (ih isValid)).2

theorem exists_path_of_valid {entries : List (ManifestEntry PathBuf)}
    (isValid : name ∈ validMap names entries) :
    ∃ entry ∈ entries, ∃ path ∈ entry.paths, name = names.key path := by
  induction entries using List.reverseRecOn with
  | nil => exact absurd isValid (AList.notMem_empty name)
  | append_singleton entries entry ih =>
    have earlier (wasValid : name ∈ validMap names entries) :
        ∃ other ∈ entries ++ [entry], ∃ path ∈ other.paths, name = names.key path := by
      obtain ⟨other, isOther, found⟩ := ih wasValid
      exact ⟨other, List.mem_append_left _ isOther, found⟩
    have isEntry : entry ∈ entries ++ [entry] := List.mem_append_right _ List.mem_cons_self
    obtain ⟨rank, replayed⟩ := validMap_concat names entries entry
    rw [replayed] at isValid
    cases entry with
    | add path maxTx =>
      rcases (AList.mem_insert _).mp isValid with isKey | wasValid
      · exact ⟨_, isEntry, path, List.mem_cons_self, isKey⟩
      · exact earlier wasValid
    | remove path => exact earlier (AList.mem_erase.mp isValid).2
    | rollbackComplete targetTx => exact earlier isValid
    | walCheckpoint hmac => exact earlier isValid
    | replace removed added addedMaxTx rank =>
      rcases (AList.mem_insert _).mp isValid with isKey | wasValid
      · exact ⟨_, isEntry, added, List.mem_cons_self, isKey⟩
      · exact earlier (mem_of_mem_eraseAll wasValid)

def addEntries (tables : List (PathBuf × UInt64)) : List (ManifestEntry PathBuf) :=
  tables.map fun table => .add table.1 table.2

theorem mem_validMap_addEntries {tables : List (PathBuf × UInt64)} :
    name ∈ validMap names (addEntries tables) ↔
      name ∈ tables.map fun table => names.key table.1 := by
  induction tables using List.reverseRecOn with
  | nil => exact iff_of_false (AList.notMem_empty name) List.not_mem_nil
  | append_singleton tables table ih =>
    have entries : addEntries (tables ++ [table]) =
        addEntries tables ++ [.add table.1 table.2] := List.map_append
    obtain ⟨rank, replayed⟩ := validMap_concat names (addEntries tables)
      (.add table.1 table.2)
    rw [entries, replayed, List.map_append, List.mem_append, ← ih]
    refine (AList.mem_insert _).trans ?_
    rw [List.map_singleton, List.mem_singleton, or_comm]

end Names

theorem extractHighWaterMark_eq_none {entries : List (ManifestEntry PathBuf)} :
    extractHighWaterMark entries = none ↔ ∀ hmac, .walCheckpoint hmac ∉ entries := by
  rw [extractHighWaterMark, List.findSome?_eq_none_iff]
  constructor
  · intro noMark hmac isEntry
    have isMark := noMark _ (List.mem_reverse.mpr isEntry)
    cases isMark
  · intro noCheckpoint entry isEntry
    cases entry with
    | walCheckpoint hmac => exact absurd (List.mem_reverse.mp isEntry) (noCheckpoint hmac)
    | _ => rfl

theorem extractHighWaterMark_addEntries (tables : List (PathBuf × UInt64)) :
    extractHighWaterMark (addEntries tables) = none := by
  apply extractHighWaterMark_eq_none.mpr
  intro hmac isEntry
  obtain ⟨table, _, impossible⟩ := List.mem_map.mp isEntry
  cases impossible

def tablesAsWritten (platform : Platform PathBuf) (tables : List (PathBuf × UInt64)) :
    List (PathBuf × UInt64) :=
  tables.map fun table => (platform.fromText (platform.toStringLossy table.1), table.2)

theorem load_rollover {file after : Bytes} {tables : List (PathBuf × UInt64)}
    (fit : ∀ entry ∈ addEntries tables, entry.Fits platform)
    (rolled : maybeRollover platform file (addEntries tables) 0 = .ok (true, after)) :
    load platform (some after) = .ok (addEntries (tablesAsWritten platform tables)) := by
  rw [maybeRollover, if_neg (Nat.not_lt_zero _)] at rolled
  cases written : appendBatch platform header (addEntries tables) with
  | error error =>
    rw [written] at rolled
    cases rolled
  | ok bytes =>
    rw [written] at rolled
    cases rolled
    obtain ⟨accepted, rfl⟩ := appendBatch_eq_ok written
    have asRead : addEntries (tablesAsWritten platform tables) =
        (addEntries tables).map (ManifestEntry.asWritten platform) := by
      rw [addEntries, addEntries, tablesAsWritten, List.map_map, List.map_map]
      rfl
    rw [load_header_append, asRead]
    apply scan_records_iff.mpr
    refine ⟨?_, [], ?_, Or.inl (by decide)⟩
    · intro entry isEntry
      obtain ⟨original, isOriginal, rfl⟩ := List.mem_map.mp isEntry
      exact ManifestEntry.asWritten_readable (fit original isOriginal)
        (accepted original isOriginal)
    · rw [List.append_nil, flatMap_frame fit]

section Preserved

variable [DecidableEq PathBuf] {names : FileNames platform}

theorem valid_isText {file : Bytes} {entries : List (ManifestEntry PathBuf)}
    (loaded : load platform (some file) = .ok entries) {name : PathBuf}
    (isValid : name ∈ validMap names entries) : IsText platform name := by
  obtain ⟨_, readable, _⟩ := load_some_iff.mp loaded
  obtain ⟨entry, isEntry, path, isPath, rfl⟩ := exists_path_of_valid isValid
  exact names.key_isText ((readable entry isEntry).texts path isPath)

def LiveTables (names : FileNames platform) (entries : List (ManifestEntry PathBuf))
    (tables : List (PathBuf × UInt64)) : Prop :=
  ∀ name, name ∈ (tables.map fun table => names.key table.1) ↔
    name ∈ (reconstructValidSstables names entries).map Prod.fst

theorem valid_tablesAsWritten {file : Bytes} {entries : List (ManifestEntry PathBuf)}
    {tables : List (PathBuf × UInt64)} (loaded : load platform (some file) = .ok entries)
    (live : LiveTables names entries tables) (name : PathBuf) :
    name ∈ validMap names (addEntries (tablesAsWritten platform tables)) ↔
      name ∈ validMap names entries := by
  have sameKeys : ((tablesAsWritten platform tables).map fun table => names.key table.1) =
      tables.map fun table => names.key table.1 := by
    rw [tablesAsWritten, List.map_map]
    apply List.map_congr_left
    intro table isTable
    apply names.key_asWritten
    apply valid_isText loaded
    apply mem_reconstructValidSstables.mp
    exact (live _).mp (List.mem_map_of_mem isTable)
  rw [mem_validMap_addEntries, sameKeys, live name, mem_reconstructValidSstables]

/-- What recovery derives from a log and from what a rollover made of it. -/
def DerivesSame (names : FileNames platform) (before after : List (ManifestEntry PathBuf)) : Prop :=
  (∀ name, name ∈ (reconstructValidSstables names after).map Prod.fst ↔
    name ∈ (reconstructValidSstables names before).map Prod.fst) ∧
    extractHighWaterMark after = extractHighWaterMark before

/-- The file after a rollover reads back, with the same valid names; the high-water mark is the
same just when there is none. -/
theorem rollover_derivesSame_iff {file after : Bytes} {entries : List (ManifestEntry PathBuf)}
    {tables : List (PathBuf × UInt64)} (loaded : load platform (some file) = .ok entries)
    (live : LiveTables names entries tables)
    (fit : ∀ entry ∈ addEntries tables, entry.Fits platform)
    (rolled : maybeRollover platform file (addEntries tables) 0 = .ok (true, after)) :
    (∃ reloaded, load platform (some after) = .ok reloaded ∧ DerivesSame names entries reloaded) ↔
      ∀ hmac, .walCheckpoint hmac ∉ entries := by
  have reloads := load_rollover fit rolled
  rw [← extractHighWaterMark_eq_none]
  constructor
  · rintro ⟨reloaded, isReloaded, _, sameMark⟩
    rw [reloads] at isReloaded
    cases isReloaded
    exact sameMark.symm.trans (extractHighWaterMark_addEntries _)
  · intro noMark
    refine ⟨_, reloads, fun name => ?_, ?_⟩
    · rw [mem_reconstructValidSstables, mem_reconstructValidSstables]
      exact valid_tablesAsWritten loaded live name
    · exact (extractHighWaterMark_addEntries _).trans noMark.symm

end Preserved

def lastComponent (path : String) : Option String :=
  match (path.toList.reverse.takeWhile fun char => char ≠ '/').reverse with
  | [] => none
  | component => some (String.ofList component)

def slashNames : FileNames textPaths where
  fileName := lastComponent
  isText _ _ := rfl
  lossy found _ := found

def rolledBackLog : List (ManifestEntry String) := [.add "d/t" 7, .rollbackComplete 3]

def flushedLog : List (ManifestEntry String) := [.add "d/t" 7, .walCheckpoint (Vector.replicate 32 9)]

def fileOf (entries : List (ManifestEntry String)) : Bytes :=
  header ++ entries.flatMap (ManifestEntry.frame textPaths)

theorem liveTable {entries : List (ManifestEntry String)}
    (valid : (reconstructValidSstables slashNames entries).map Prod.fst = ["t"]) :
    LiveTables slashNames entries [("d/t", 7)] := by
  intro name
  have key : ([("d/t", (7 : UInt64))].map fun table => slashNames.key table.1) = ["t"] := by
    decide +kernel
  rw [valid, key]

theorem rollover_derivesSame_rolledBack :
    (∃ reloaded, load textPaths (some (fileOf (addEntries [("d/t", 7)]))) = .ok reloaded ∧
      DerivesSame slashNames rolledBackLog reloaded) ↔
      ∀ hmac, .walCheckpoint hmac ∉ rolledBackLog := by
  have loaded : load textPaths (some (fileOf rolledBackLog)) = .ok rolledBackLog := by
    decide +kernel
  exact rollover_derivesSame_iff loaded (liveTable (by decide +kernel)) (by decide +kernel)
    (by decide +kernel)

theorem rollover_loses_checkpoint :
    load textPaths (some (fileOf flushedLog)) = .ok flushedLog ∧
      LiveTables slashNames flushedLog [("d/t", 7)] ∧
      maybeRollover textPaths (fileOf flushedLog) (addEntries [("d/t", 7)]) 0 =
        .ok (true, fileOf (addEntries [("d/t", 7)])) ∧
      ¬ ∃ reloaded, load textPaths (some (fileOf (addEntries [("d/t", 7)]))) = .ok reloaded ∧
        DerivesSame slashNames flushedLog reloaded := by
  refine ⟨by decide +kernel, liveTable (by decide +kernel), by decide +kernel, ?_⟩
  rintro ⟨reloaded, isReloaded, _, sameMark⟩
  have reloads : load textPaths (some (fileOf (addEntries [("d/t", 7)]))) =
      .ok (addEntries [("d/t", 7)]) := by decide +kernel
  rw [reloads] at isReloaded
  cases isReloaded
  rw [extractHighWaterMark_addEntries] at sameMark
  have isMark : extractHighWaterMark flushedLog = some (Vector.replicate 32 9) := by decide +kernel
  rw [isMark] at sameMark
  cases sameMark

end Contextra.Store.ManifestFile
