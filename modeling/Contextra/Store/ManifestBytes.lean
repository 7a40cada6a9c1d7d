import Contextra.Library.Bytes
import Contextra.Library.Scanner
import Contextra.Types

/-!
# The bytes of the MANIFEST

The entries as they are written and read: `to_bytes` and `from_bytes`, the header, the
loader with its rule for a torn tail, and the opening of a file for appending.  A path is
whatever the platform takes for one; the file holds its lossy text.
-/

namespace Contextra.Store.ManifestFile

open Library

def maxManifestEntrySize : Nat := 1024 * 1024

/-- `MANIFEST_HEADER_MAGIC`, the bytes of `MFMN`. -/
def manifestHeaderMagic : Bytes := [0x4D, 0x46, 0x4D, 0x4E]

def currentManifestVersion : UInt8 := 1

/-- What the file format takes from the platform: the texts of its paths. -/
structure Platform (PathBuf : Type) where
  /-- `PathBuf::from` of a text. -/
  fromText : String → PathBuf
  toStringLossy : PathBuf → String
  toStringLossy_fromText : ∀ text, toStringLossy (fromText text) = text

def textBytes (text : String) : Bytes := text.toByteArray.data.toList

def fromUtf8 (data : Bytes) : Option String := String.fromUTF8? ⟨data.toArray⟩

def u64Bytes (value : UInt64) : Bytes := toLeBytes 8 value.toNat

def u64Of (data : Bytes) : UInt64 := UInt64.ofNat (fromLeBytes data)

inductive ManifestEntry (PathBuf : Type) where
  | add (path : PathBuf) (maxTx : UInt64)
  | remove (path : PathBuf)
  | rollbackComplete (targetTx : UInt64)
  | replace (removed : List PathBuf) (added : PathBuf) (addedMaxTx rank : UInt64)
  | walCheckpoint (hmac : Vector UInt8 32)
  deriving DecidableEq

inductive EntryError where
  | exceedsMaxSize (size : Nat)
  | tooShort
  | crcMismatch (stored computed : Nat)
  | payloadTooShort (entry : String)
  | lengthMismatch (entry : String) (expected got : Nat)
  | invalidUtf8 (field : String)
  | truncated (field : String)
  | removedCount (count capacity : Nat)
  | trailingBytes (consumed total : Nat)
  | unknownTag (opTag : UInt8)
  deriving DecidableEq, Repr

inductive LoadError where
  | unsupportedVersion (version : UInt8)
  | invalidLength (length offset : Nat)
  | entryCorruption (offset : Nat) (error : EntryError)
  | midFileCorruption (offset length : Nat)
  deriving DecidableEq, Repr

variable {PathBuf : Type} (platform : Platform PathBuf)

/-- A path in a payload: the length of its text, and the text. -/
def pathBytes (path : PathBuf) : Bytes :=
  let text := textBytes (platform.toStringLossy path)
  toLeBytes 4 text.length ++ text

namespace ManifestEntry

/-- `payload` of `to_bytes`; the rank is written as 0. -/
def payload : ManifestEntry PathBuf → Bytes
  | add path maxTx => 0 :: (u64Bytes maxTx ++ pathBytes platform path)
  | remove path => 1 :: pathBytes platform path
  | rollbackComplete targetTx => 2 :: u64Bytes targetTx
  | replace removed added addedMaxTx _ =>
    3 :: (u64Bytes addedMaxTx ++ u64Bytes 0 ++ pathBytes platform added ++
      toLeBytes 4 removed.length ++ removed.flatMap (pathBytes platform))
  | walCheckpoint hmac => 4 :: hmac.toList

/-- `total_payload_size`, cast to 32 bits. -/
def totalPayloadSize (entry : ManifestEntry PathBuf) : Nat :=
  (4 + (entry.payload platform).length) % 2 ^ 32

/-- The bytes of `to_bytes` behind the size check. -/
def frame (entry : ManifestEntry PathBuf) : Bytes :=
  toLeBytes 4 (entry.totalPayloadSize platform) ++
    (toLeBytes 4 (crc32 (entry.payload platform)) ++ entry.payload platform)

def toBytes (entry : ManifestEntry PathBuf) : Except EntryError Bytes :=
  if maxManifestEntrySize < entry.totalPayloadSize platform then
    .error (.exceedsMaxSize (entry.totalPayloadSize platform))
  else .ok (entry.frame platform)

/-- The removed paths of a `Replace` payload, and what stands behind them. -/
def parseRemoved : Nat → Bytes → Except EntryError (List PathBuf × Bytes)
  | 0, remaining => .ok ([], remaining)
  | count + 1, remaining =>
    match takeField 4 remaining with
    | none => .error (.truncated "removed path length")
    | some (rLen, remaining) =>
      match takeField (fromLeBytes rLen) remaining with
      | none => .error (.truncated "removed path data")
      | some (text, remaining) =>
        match fromUtf8 text with
        | none => .error (.invalidUtf8 "removed path")
        | some text =>
          match parseRemoved count remaining with
          | .error error => .error error
          | .ok (removed, remaining) => .ok (platform.fromText text :: removed, remaining)

def parseAdd (remaining : Bytes) : Except EntryError (ManifestEntry PathBuf) :=
  match takeField 8 remaining with
  | none => .error (.payloadTooShort "Add")
  | some (maxTx, rest) =>
    match takeField 4 rest with
    | none => .error (.payloadTooShort "Add")
    | some (pathLen, path) =>
      if remaining.length ≠ 12 + fromLeBytes pathLen then
        .error (.lengthMismatch "Add" (12 + fromLeBytes pathLen) remaining.length)
      else
        match fromUtf8 path with
        | none => .error (.invalidUtf8 "path")
        | some text => .ok (.add (platform.fromText text) (u64Of maxTx))

def parseRemove (remaining : Bytes) : Except EntryError (ManifestEntry PathBuf) :=
  match takeField 4 remaining with
  | none => .error (.payloadTooShort "Remove")
  | some (pathLen, path) =>
    if remaining.length ≠ 4 + fromLeBytes pathLen then
      .error (.lengthMismatch "Remove" (4 + fromLeBytes pathLen) remaining.length)
    else
      match fromUtf8 path with
      | none => .error (.invalidUtf8 "path")
      | some text => .ok (.remove (platform.fromText text))

def parseReplace (remaining : Bytes) : Except EntryError (ManifestEntry PathBuf) :=
  if remaining.length < 24 then .error (.payloadTooShort "Replace")
  else
    match takeField 8 remaining with
    | none => .error (.payloadTooShort "Replace")
    | some (addedMaxTx, rest) =>
      match takeField 8 rest with
      | none => .error (.payloadTooShort "Replace")
      | some (rank, rest) =>
        match takeField 4 rest with
        | none => .error (.payloadTooShort "Replace")
        | some (addedPathLen, rest) =>
          match takeField (fromLeBytes addedPathLen) rest with
          | none => .error (.truncated "added path data")
          | some (addedPath, rest) =>
            match fromUtf8 addedPath with
            | none => .error (.invalidUtf8 "added path")
            | some added =>
              match takeField 4 rest with
              | none => .error (.truncated "removed count")
              | some (removedCount, rest) =>
                if rest.length / 4 < fromLeBytes removedCount then
                  .error (.removedCount (fromLeBytes removedCount) (rest.length / 4))
                else
                  match parseRemoved platform (fromLeBytes removedCount) rest with
                  | .error error => .error error
                  | .ok (removed, []) =>
                    .ok (.replace removed (platform.fromText added)
                      (u64Of addedMaxTx) (u64Of rank))
                  | .ok (_, unparsed) =>
                    .error (.trailingBytes (remaining.length - unparsed.length)
                      remaining.length)

/-- `from_bytes`, on the checksum and the payload of a frame. -/
def fromBytes (data : Bytes) : Except EntryError (ManifestEntry PathBuf) :=
  if data.length < 5 then .error .tooShort
  else
    let storedCrc := fromLeBytes (data.take 4)
    let payload := data.drop 4
    if storedCrc ≠ crc32 payload then
      .error (.crcMismatch storedCrc (crc32 payload))
    else
      match payload with
      | [] => .error .tooShort
      | opTag :: remaining =>
        match opTag.toNat with
        | 0 => parseAdd platform remaining
        | 1 => parseRemove platform remaining
        | 2 =>
          if remaining.length ≠ 8 then
            .error (.lengthMismatch "RollbackComplete" 8 remaining.length)
          else .ok (.rollbackComplete (u64Of remaining))
        | 3 => parseReplace platform remaining
        | 4 =>
          if size : remaining.length = 32 then .ok (.walCheckpoint ⟨remaining.toArray, size⟩)
          else .error (.lengthMismatch "WalCheckpoint" 32 remaining.length)
        | _ => .error (.unknownTag opTag)

end ManifestEntry

/-- `u32` of the bytes at `offset`, when they are there. -/
def u32At (offset : Nat) (data : Bytes) : Option Nat := (fieldAt offset 4 data).map fromLeBytes

/-- The loop over the removed paths: the length the frame should have, or none where the
bytes end before a path's length. -/
def calculatedLen (remaining : Bytes) : Nat → Nat → Nat → Option Nat
  | 0, _, calculated => some calculated
  | count + 1, remOffset, calculated =>
    match u32At remOffset remaining with
    | none => none
    | some rLen => calculatedLen remaining count (remOffset + (4 + rLen)) (calculated + (4 + rLen))

/-- `is_valid_tail_truncation_candidate`: may the bytes up to the end of the file be the
beginning of a frame of `claimed_len` bytes? -/
def isValidTailTruncationCandidate (claimedLen : Nat) (part : Bytes) : Bool :=
  if claimedLen < 10 ∨ maxManifestEntrySize < claimedLen then false
  else
    match part.drop 4 with
    | [] => true
    | opTag :: remaining =>
      match opTag.toNat with
      | 0 =>
        if claimedLen < 18 then false
        else
          match u32At 8 remaining with
          | none => true
          | some pathLen => claimedLen = 4 + 1 + 8 + 4 + pathLen
      | 1 =>
        if claimedLen < 10 then false
        else
          match u32At 0 remaining with
          | none => true
          | some pathLen => claimedLen = 4 + 1 + 4 + pathLen
      | 2 => claimedLen = 13
      | 3 =>
        if claimedLen < 30 then false
        else
          match u32At 16 remaining with
          | none => true
          | some addedPathLen =>
            match u32At (20 + addedPathLen) remaining with
            | none => true
            | some removedCount =>
              match calculatedLen remaining removedCount (20 + addedPathLen + 4)
                  (4 + 1 + 8 + 8 + 4 + addedPathLen + 4) with
              | none => true
              | some calculated => claimedLen = calculated
      | _ => false

/-- One turn of the loop of `load`, at offset `pos`. -/
def nextEntry (pos : Nat) (data : Bytes) : Found UInt8 Nat (ManifestEntry PathBuf) LoadError :=
  if data = [] then .stop
  else
    match takeField 4 data with
    | none => .stop
    | some (lenBytes, rest) =>
      let len := fromLeBytes lenBytes
      if len < 5 ∨ maxManifestEntrySize < len then .refuse (.invalidLength len pos)
      else
        match takeField len rest with
        | some (entryRaw, rest) =>
          match ManifestEntry.fromBytes platform entryRaw with
          | .error error => .refuse (.entryCorruption pos error)
          | .ok entry => .record entry (pos + 4 + len) rest
        | none =>
          if isValidTailTruncationCandidate len rest then .stop
          else .refuse (.midFileCorruption pos len)

/-- The loop of `load`. -/
def entryScanner : Scanner UInt8 Nat (ManifestEntry PathBuf) LoadError where
  next := nextEntry platform
  shrinks := by
    intro pos data entry pos' rest found
    unfold nextEntry at found
    split at found
    · contradiction
    · split at found
      · contradiction
      · rename_i lenBytes behind taken
        obtain ⟨rfl, four⟩ := takeField_eq_some.mp taken
        simp only at found
        split at found
        · contradiction
        · split at found
          · rename_i entryRaw behind' taken'
            obtain ⟨rfl, long⟩ := takeField_eq_some.mp taken'
            split at found
            · contradiction
            · cases found
              simp only [List.length_append]
              omega
          · split at found <;> contradiction

def header : Bytes := manifestHeaderMagic ++ [currentManifestVersion]

/-- The offset at which the entries begin: behind the header, or 0 in a file without one
and in a file too short for one. -/
def entriesOffset (file : Bytes) : Except LoadError Nat :=
  if 5 ≤ file.length then
    if file.take 4 = manifestHeaderMagic then
      match file.drop 4 with
      | [] => .ok 0
      | version :: _ =>
        if currentManifestVersion < version then .error (.unsupportedVersion version) else .ok 5
    else .ok 0
  else .ok 0

/-- `Manifest::load`; without a file there are no entries. -/
def load (file : Option Bytes) : Except LoadError (List (ManifestEntry PathBuf)) :=
  match file with
  | none => .ok []
  | some file =>
    match entriesOffset file with
    | .error error => .error error
    | .ok offset =>
      ((entryScanner platform).scan offset (file.drop offset)).map Scan.records

/-- `Manifest::open`: a new file gets the header, an existing one stays as it is. -/
def openFile (file : Option Bytes) : Bytes := file.getD header

def batchBytes : List (ManifestEntry PathBuf) → Except EntryError Bytes
  | [] => .ok []
  | entry :: entries =>
    match entry.toBytes platform with
    | .error error => .error error
    | .ok frame =>
      match batchBytes entries with
      | .error error => .error error
      | .ok frames => .ok (frame ++ frames)

def appendBatch (file : Bytes) (entries : List (ManifestEntry PathBuf)) : Except EntryError Bytes :=
  (batchBytes platform entries).map (file ++ ·)

end Contextra.Store.ManifestFile
