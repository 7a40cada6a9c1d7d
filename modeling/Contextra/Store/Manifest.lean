import Contextra.Types

/-!
# MANIFEST

The append-only log of the table set.  The file is a header of five bytes and one
frame for each entry; `reconstruct_valid_sstables` replays the entries into the file
names that are valid, and a rollover replaces the file by a snapshot of live entries.
-/

namespace Contextra.Store

open List

def defaultRolloverThresholdBytes : Nat := 64 * 1024

structure Path where
  dir : String
  fileName : String
  deriving DecidableEq, Repr

def Path.size (path : Path) : Nat := path.dir.utf8ByteSize + 1 + path.fileName.utf8ByteSize

inductive ManifestEntry where
  | add (path : Path) (maxTx : TxId)
  | remove (path : Path)
  | rollbackComplete (targetTx : TxId)
  | replace (removed : List Path) (added : Path) (addedMaxTx : TxId)
  | walCheckpoint (hmac : Bytes)
  deriving DecidableEq

namespace ManifestEntry

/-- The bytes of `payload`: a tag, and the fields with a length before each path. -/
def payloadSize : ManifestEntry → Nat
  | add path _ => 1 + 8 + 4 + path.size
  | remove path => 1 + 4 + path.size
  | rollbackComplete _ => 1 + 8
  | replace removed added _ =>
    1 + 8 + 8 + 4 + added.size + 4 + (removed.map fun path => 4 + path.size).sum
  | walCheckpoint hmac => 1 + hmac.length

/-- The bytes of `to_bytes`: the size, the checksum and the payload. -/
def frameSize (entry : ManifestEntry) : Nat := 4 + 4 + entry.payloadSize

end ManifestEntry

abbrev Manifest := List ManifestEntry

namespace Manifest

/-- `metadata().len()` of a file with the header. -/
def fileSize (manifest : Manifest) : Nat := 5 + (manifest.map ManifestEntry.frameSize).sum

def appendBatch (manifest entries : Manifest) : Manifest := manifest ++ entries

/-- The valid file names with their ranks, in the order of the ranks. -/
abbrev ValidMap := List (String × Nat)

def ValidMap.names (map : ValidMap) : List String := map.map Prod.fst

def ValidMap.remove (map : ValidMap) (name : String) : ValidMap :=
  map.filter fun item => item.1 ≠ name

/-- `valid_map.insert`: the newest rank is the greatest, so the name goes to the end. -/
def ValidMap.insert (map : ValidMap) (name : String) (rank : Nat) : ValidMap :=
  map.remove name ++ [(name, rank)]

/-- One entry of the replay, with `next_rank`. -/
def replay (replayed : ValidMap × Nat) : ManifestEntry → ValidMap × Nat
  | .add path _ => (replayed.1.insert path.fileName replayed.2, replayed.2 + 1)
  | .remove path => (replayed.1.remove path.fileName, replayed.2)
  | .rollbackComplete _ => replayed
  | .walCheckpoint _ => replayed
  | .replace removed added _ =>
    ((removed.foldl (fun map path => map.remove path.fileName) replayed.1).insert
      added.fileName replayed.2, replayed.2 + 1)

def reconstructValidSstables (manifest : Manifest) : ValidMap :=
  (manifest.foldl replay ([], 0)).1

def Valid (manifest : Manifest) (name : String) : Prop :=
  name ∈ manifest.reconstructValidSstables.names

instance (manifest : Manifest) (name : String) : Decidable (manifest.Valid name) :=
  inferInstanceAs (Decidable (name ∈ manifest.reconstructValidSstables.names))

/-- `maybe_rollover`: at the threshold the file becomes the given entries. -/
def maybeRollover (manifest liveEntries : Manifest) (thresholdBytes : Nat) : Manifest :=
  if manifest.fileSize < thresholdBytes then manifest else liveEntries

@[simp] theorem names_remove {map : ValidMap} {name other : String} :
    other ∈ (map.remove name).names ↔ other ∈ map.names ∧ other ≠ name := by
  simp only [ValidMap.names, ValidMap.remove, mem_map, mem_filter, decide_eq_true_eq]
  constructor
  · rintro ⟨item, ⟨mem, different⟩, rfl⟩
    exact ⟨⟨item, mem, rfl⟩, different⟩
  · rintro ⟨⟨item, mem, rfl⟩, different⟩
    exact ⟨item, ⟨mem, different⟩, rfl⟩

@[simp] theorem names_insert {map : ValidMap} {name other : String} {rank : Nat} :
    other ∈ (map.insert name rank).names ↔ other ∈ map.names ∨ other = name := by
  have split : other ∈ (map.insert name rank).names ↔
      other ∈ (map.remove name).names ∨ other = name := by
    simp [ValidMap.insert, ValidMap.names]
  rw [split, names_remove]
  tauto

theorem names_removeAll {removed : List Path} {map : ValidMap} {other : String} :
    other ∈ (removed.foldl (fun map path => map.remove path.fileName) map).names ↔
      other ∈ map.names ∧ ∀ path ∈ removed, other ≠ path.fileName := by
  induction removed generalizing map with
  | nil => simp
  | cons path removed ih =>
    simp only [foldl_cons, ih, names_remove, forall_mem_cons]
    tauto

theorem valid_nil {name : String} : ¬ Valid [] name := by simp [Valid, reconstructValidSstables, ValidMap.names]

theorem valid_concat (manifest : Manifest) (entry : ManifestEntry) (name : String) :
    Valid (manifest ++ [entry]) name ↔
      match entry with
      | .add path _ => manifest.Valid name ∨ name = path.fileName
      | .remove path => manifest.Valid name ∧ name ≠ path.fileName
      | .rollbackComplete _ => manifest.Valid name
      | .walCheckpoint _ => manifest.Valid name
      | .replace removed added _ =>
        (manifest.Valid name ∧ ∀ path ∈ removed, name ≠ path.fileName) ∨
          name = added.fileName := by
  simp only [Valid, reconstructValidSstables, foldl_append, foldl_cons, foldl_nil]
  cases entry with
  | add path maxTx => simp [replay]
  | remove path => simp [replay]
  | rollbackComplete targetTx => rfl
  | walCheckpoint hmac => rfl
  | replace removed added addedMaxTx => simp [replay, names_removeAll]

theorem valid_of_adds {adds : Manifest}
    (isAdd : ∀ entry ∈ adds, ∃ path maxTx, entry = .add path maxTx) (name : String) :
    adds.Valid name ↔ ∃ path maxTx, .add path maxTx ∈ adds ∧ name = path.fileName := by
  induction adds using reverseRecOn with
  | nil => simp [valid_nil]
  | append_singleton adds entry ih =>
    obtain ⟨path, maxTx, rfl⟩ := isAdd entry (by simp)
    rw [valid_concat]
    simp only
    rw [ih fun other mem => isAdd other (mem_append_left _ mem)]
    constructor
    · rintro (⟨other, tx, mem, rfl⟩ | rfl)
      · exact ⟨other, tx, mem_append_left _ mem, rfl⟩
      · exact ⟨path, maxTx, by simp, rfl⟩
    · rintro ⟨other, tx, mem, rfl⟩
      rcases mem_append.mp mem with old | new
      · exact .inl ⟨other, tx, old, rfl⟩
      · rw [mem_singleton, ManifestEntry.add.injEq] at new
        exact .inr (by rw [new.1])

end Manifest

end Contextra.Store
