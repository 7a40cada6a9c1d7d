import Contextra.Erasure.JournalRecord
import Contextra.Library.Scanner

/-!
# The journal file

A header and a chain of sealed records.  An append reads the file, and writes it back with
one more block; the reduction writes a new file.
-/

/-!
## Sealed records

The envelope of `crypto_local.rs`.  The hash functions are those of other packages; nothing
is assumed of them.
-/

namespace Contextra.Erasure

open Library List

/-- SHA-256, the keyed BLAKE3 hash and the bytes of its output stream. -/
structure HashFunctions where
  sha256 : Bytes → FixedBytes 32
  keyedHash : FixedBytes 32 → Bytes → FixedBytes 32
  xof : FixedBytes 32 → Nat → UInt8

/-- `ctx/rec-aad/v1` -/
def recordAad : Bytes :=
  [0x63, 0x74, 0x78, 0x2f, 0x72, 0x65, 0x63, 0x2d, 0x61, 0x61, 0x64, 0x2f, 0x76, 0x31]

namespace HashFunctions

variable (hashes : HashFunctions)

def nonceHash (dek : FixedBytes 32) (doc keyBytes : Bytes) (length : Nat) : FixedBytes 32 :=
  hashes.sha256 (dek.val ++ doc ++ keyBytes ++ toBeBytes 8 length)

/-- The data with the stream; its chunks of 64 bytes take up the stream one after another. -/
def xorStream (hash : FixedBytes 32) (data : Bytes) : Bytes :=
  data.mapIdx fun index byte => byte ^^^ hashes.xof hash index

def recordTag (dek : FixedBytes 32) (keyBytes nonce ciphertext : Bytes) : Bytes :=
  (hashes.keyedHash dek (recordAad ++ keyBytes ++ nonce ++ ciphertext)).val.take 16

def sealRecord (dek : FixedBytes 32) (doc : FixedBytes 16) (keyBytes plain : Bytes) : Bytes :=
  let hash := hashes.nonceHash dek doc.val keyBytes plain.length
  let nonce := hash.val.take 12
  let ciphertext := hashes.xorStream hash plain
  [2, 1] ++ doc.val ++ nonce ++ ciphertext ++ hashes.recordTag dek keyBytes nonce ciphertext

def openRecord (dek : FixedBytes 32) (keyBytes env : Bytes) : Except ErasureError Bytes :=
  if env.length < 1 + 1 + 16 + 12 + 16 then .error .corrupt
  else if env[0]? ≠ some 2 then .error .corrupt
  else if env[1]? ≠ some 1 then .error .corrupt
  else
    let nonce := (env.drop 18).take 12
    let ctWithTag := env.drop 30
    let ciphertext := ctWithTag.take (ctWithTag.length - 16)
    let tag := ctWithTag.drop (ctWithTag.length - 16)
    if tag ≠ hashes.recordTag dek keyBytes nonce ciphertext then .error .corrupt
    else
      let doc := (env.drop 2).take 16
      .ok (hashes.xorStream (hashes.nonceHash dek doc keyBytes ciphertext.length) ciphertext)

@[simp] theorem length_xorStream (hash : FixedBytes 32) (data : Bytes) :
    (hashes.xorStream hash data).length = data.length := length_mapIdx

theorem xorStream_xorStream (hash : FixedBytes 32) (data : Bytes) :
    hashes.xorStream hash (hashes.xorStream hash data) = data := by
  apply ext_getElem
  · simp
  · intro index _ _
    simp [xorStream]

@[simp] theorem length_recordTag (dek : FixedBytes 32) (keyBytes nonce ciphertext : Bytes) :
    (hashes.recordTag dek keyBytes nonce ciphertext).length = 16 := by
  rw [recordTag, length_take, (hashes.keyedHash _ _).property]
  rfl

@[simp] theorem length_sealRecord (dek : FixedBytes 32) (doc : FixedBytes 16)
    (keyBytes plain : Bytes) :
    (hashes.sealRecord dek doc keyBytes plain).length = plain.length + 46 := by
  have hashSize := (hashes.nonceHash dek doc.val keyBytes plain.length).property
  simp [sealRecord]
  omega

theorem openRecord_sealRecord (dek : FixedBytes 32) (doc : FixedBytes 16)
    (keyBytes plain : Bytes) :
    hashes.openRecord dek keyBytes (hashes.sealRecord dek doc keyBytes plain) = .ok plain := by
  set hash := hashes.nonceHash dek doc.val keyBytes plain.length with hash_eq
  set ciphertext := hashes.xorStream hash plain with ciphertext_eq
  set tag := hashes.recordTag dek keyBytes (hash.val.take 12) ciphertext with tag_eq
  have size : ciphertext.length = plain.length := length_xorStream hashes hash plain
  have nonceSize : (hash.val.take 12).length = 12 := by
    rw [length_take, hash.property]
    rfl
  have tagSize : tag.length = 16 := length_recordTag hashes dek keyBytes _ ciphertext
  have envelope : hashes.sealRecord dek doc keyBytes plain =
      2 :: 1 :: (doc.val ++ (hash.val.take 12 ++ (ciphertext ++ tag))) := by
    simp [sealRecord, ← hash_eq, ← ciphertext_eq, ← tag_eq]
  have docField : ((doc.val ++ (hash.val.take 12 ++ (ciphertext ++ tag))).take 16) = doc.val :=
    take_left' doc.property
  have nonceField : ((doc.val ++ (hash.val.take 12 ++ (ciphertext ++ tag))).drop 16).take 12 =
      hash.val.take 12 := by
    rw [drop_left' doc.property, take_left' nonceSize]
  have body : (doc.val ++ (hash.val.take 12 ++ (ciphertext ++ tag))).drop 28 =
      ciphertext ++ tag := by
    rw [← append_assoc]
    apply drop_left'
    rw [length_append, doc.property, nonceSize]
  have split : (ciphertext ++ tag).length - 16 = ciphertext.length := by
    rw [length_append, tagSize, Nat.add_sub_cancel]
  have long : ¬ (hashes.sealRecord dek doc keyBytes plain).length < 1 + 1 + 16 + 12 + 16 := by
    rw [length_sealRecord]
    omega
  unfold openRecord
  rw [if_neg long, envelope, if_neg (by simp), if_neg (by simp)]
  simp only [drop_succ_cons, drop_zero, nonceField, body, docField, split,
    take_left, drop_left]
  rw [if_neg (by simp [tag_eq]), size, ← hash_eq, ciphertext_eq, xorStream_xorStream]

end HashFunctions

end Contextra.Erasure

namespace Contextra.Erasure

open Library List

instance (size : Nat) : Ord (FixedBytes size) := ⟨fun left right => compare left.val right.val⟩

/-- `CTXFILE\0` -/
def fileHeaderMagic : Bytes := [0x43, 0x54, 0x58, 0x46, 0x49, 0x4c, 0x45, 0x00]

def fileKindJournal : UInt8 := 6

def journalGenesisChain : FixedBytes 32 := ⟨replicate 32 0, by simp⟩

/-- `ctx/journal/v1` -/
def journalKeyBinding : Bytes :=
  [0x63, 0x74, 0x78, 0x2f, 0x6a, 0x6f, 0x75, 0x72, 0x6e, 0x61, 0x6c, 0x2f, 0x76, 0x31]

/-- The texts of the errors of a call's file operations, where they fail. -/
structure VfsFaults where
  existsCall : Option String := none
  read : Option String := none
  createDirAll : Option String := none
  writeAtomic : Option String := none
  deriving DecidableEq

/-- An open journal; its file and its key are the system's. -/
structure DurableJournal where
  records : List JournalRecord
  chainTail : FixedBytes 32
  deriving DecidableEq

/-- The first 48 bytes of the file: magic, version, kind, flags and the key mode. -/
def journalHeader48 : Bytes :=
  fileHeaderMagic ++ [0, 1] ++ [fileKindJournal] ++ [1, 0, 1, 1] ++ replicate 24 0 ++ [1] ++
    replicate 8 0

section File

variable (hashes : HashFunctions) (derivedKey : FixedBytes 32)

def headerMac (header48 : Bytes) : Bytes := (hashes.keyedHash derivedKey header48).val.take 16

def journalHeader : Bytes := journalHeader48 ++ headerMac hashes derivedKey journalHeader48

def envelope (record : JournalRecord) : Bytes :=
  hashes.sealRecord derivedKey record.erasureId journalKeyBinding record.encode

/-- The envelope without its last 16 bytes, whose length the block begins with. -/
def ctLen (record : JournalRecord) : Nat := (envelope hashes derivedKey record).length - 16

def blockBody (record : JournalRecord) : Bytes :=
  toBeBytes 4 (ctLen hashes derivedKey record) ++ envelope hashes derivedKey record

def nextChain (chain : FixedBytes 32) (record : JournalRecord) : FixedBytes 32 :=
  hashes.sha256 (chain.val ++ blockBody hashes derivedKey record)

def block (chain : FixedBytes 32) (record : JournalRecord) : Bytes :=
  blockBody hashes derivedKey record ++ (nextChain hashes derivedKey chain record).val

def nextBlock (chain : FixedBytes 32) (body : Bytes) :
    Found UInt8 (FixedBytes 32) JournalRecord ErasureError :=
  if body = [] then .stop
  else if body.length < 4 then .refuse .corrupt
  else
    let len := fromBeBytes (body.take 4)
    let totalLen := 4 + len + 16 + 32
    if body.length < totalLen then .refuse .corrupt
    else
      let covered := body.take (4 + len + 16)
      let chainField := (body.drop (4 + len + 16)).take 32
      let expectedChain := hashes.sha256 (chain.val ++ covered)
      if chainField ≠ expectedChain.val then .refuse .corrupt
      else
        match hashes.openRecord derivedKey journalKeyBinding (covered.drop 4) with
        | .error _ => .refuse .corrupt
        | .ok plain =>
          match JournalRecord.decode plain with
          | .error error => .refuse error
          | .ok record => .record record expectedChain (body.drop totalLen)

def journalScanner : Scanner UInt8 (FixedBytes 32) JournalRecord ErasureError where
  next := nextBlock hashes derivedKey
  shrinks := by
    intro chain body record chain' rest found
    simp only [nextBlock] at found
    split at found
    · contradiction
    · rename_i nonempty
      have positive := length_pos_iff.mpr nonempty
      repeat' split at found
      all_goals first
        | contradiction
        | (cases found
           rw [length_drop]
           omega)

def vfsErr (text : String) : ErasureError := .io text

/-- The records of the file, when there is one and it can be read. -/
def parseJournal (bytes : Bytes) : Except ErasureError DurableJournal :=
  if bytes.length < 64 then .error .corrupt
  else
    let header := bytes.take 64
    if header.take 8 ≠ fileHeaderMagic then .error .corrupt
    else if header[10]? ≠ some fileKindJournal then .error .corrupt
    else if (header.drop 48).take 16 ≠ headerMac hashes derivedKey (header.take 48) then
      .error .corrupt
    else
      match (journalScanner hashes derivedKey).scan journalGenesisChain (bytes.drop 64) with
      | .error error => .error error
      | .ok scanned => .ok ⟨scanned.records, scanned.state⟩

def openOrCreate (file : Option Bytes) (faults : VfsFaults) :
    Except ErasureError (DurableJournal × Bytes) :=
  match faults.existsCall with
  | some text => .error (vfsErr text)
  | none =>
    match file with
    | none =>
      match faults.createDirAll, faults.writeAtomic with
      | some text, _ => .error (vfsErr text)
      | none, some text => .error (vfsErr text)
      | none, none => .ok (⟨[], journalGenesisChain⟩, journalHeader hashes derivedKey)
    | some bytes =>
      match faults.read with
      | some text => .error (vfsErr text)
      | none => (parseJournal hashes derivedKey bytes).map fun journal => (journal, bytes)

namespace DurableJournal

/-- What `read(path).unwrap_or_default()` gives. -/
def readOrDefault (file : Option Bytes) (faults : VfsFaults) : Bytes :=
  match faults.read, file with
  | none, some bytes => bytes
  | _, _ => []

/-- The journal and the bytes of its file afterwards; when this fails, both are as before. -/
def appendRecord (journal : DurableJournal) (file : Option Bytes) (faults : VfsFaults)
    (record : JournalRecord) : Except ErasureError (DurableJournal × Bytes) :=
  if (envelope hashes derivedKey record).length < 16 then .error (.crypto "Seal failed")
  else if 2 ^ 32 ≤ ctLen hashes derivedKey record then
    .error (.limitExceeded "Ciphertext too large")
  else
    let curBytes := readOrDefault file faults ++ block hashes derivedKey journal.chainTail record
    match faults.writeAtomic with
    | some text => .error (vfsErr text)
    | none =>
      .ok (⟨journal.records ++ [record], nextChain hashes derivedKey journal.chainTail record⟩,
        curBytes)

/-- The blocks of a list of records behind a chain value, and the chain value behind them. -/
def sealAll : FixedBytes 32 → List JournalRecord → Except ErasureError (Bytes × FixedBytes 32)
  | chain, [] => .ok ([], chain)
  | chain, record :: records =>
    if 2 ^ 32 ≤ ctLen hashes derivedKey record then .error .corrupt
    else
      match sealAll (nextChain hashes derivedKey chain record) records with
      | .error error => .error error
      | .ok (blocks, last) => .ok (block hashes derivedKey chain record ++ blocks, last)

def completedIds (records : List JournalRecord) : List ErasureId :=
  (records.filter fun record => record.recordCode = .completed).map JournalRecord.erasureId

local instance erasureIdLawful : LawfulBEq (FixedBytes 16) := Subtype.instLawfulBEq

/-- Of an erasure with a `Completed` record, only such records are kept. -/
def reduced (records : List JournalRecord) : List JournalRecord :=
  records.filter fun record =>
    record.recordCode = .completed ∨ record.erasureId ∉ completedIds records

def reduceCompleted (journal : DurableJournal) (faults : VfsFaults) :
    Except ErasureError (DurableJournal × Bytes) :=
  match sealAll hashes derivedKey journalGenesisChain (reduced journal.records) with
  | .error error => .error error
  | .ok (blocks, chain) =>
    match faults.writeAtomic with
    | some text => .error (vfsErr text)
    | none =>
      .ok (⟨reduced journal.records, chain⟩, journalHeader hashes derivedKey ++ blocks)

def latestState (records : List JournalRecord) : Std.TreeMap ErasureId (SagaState × UInt64) :=
  records.foldl (fun latest record =>
    latest.insert record.erasureId (record.recordCode.toSagaState, record.timestamp)) ∅

def recoverOpenSagas (journal : DurableJournal) : List (ErasureId × EraseSaga) :=
  (latestState journal.records).toList.filterMap fun entry =>
    if entry.2.1.isTerminal then none else some (entry.1, .withState entry.2.1)

end DurableJournal

end File

end Contextra.Erasure
