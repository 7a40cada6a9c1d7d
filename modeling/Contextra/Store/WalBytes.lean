import Contextra.Library.Bytes
import Contextra.Library.Scanner
import Contextra.Store.Wal

/-!
# The bytes of a WAL segment

The entries as they are written and read, the keyed checksum that chains them, and the two scanners
of a segment: the memory-mapped one that every replay uses, and the stream scanner of the flusher,
which decrypts and verifies.  The branches for `wal-integrity`, a feature that the crate does not
declare, are not compiled.
-/

namespace Contextra.Store

open Library

/-- `WAL_V3_HEADER`, the bytes of `MFW3`. -/
def walV3Header : Bytes := [0x4D, 0x46, 0x57, 0x33]

/-- `WAL_V2_HEADER`, the bytes of `MFW2`. -/
def walV2Header : Bytes := [0x4D, 0x46, 0x57, 0x32]

inductive WalVersion where
  | v1
  | v2
  | v3
  deriving DecidableEq, Repr

/-- The hash before the first entry of a segment. -/
def zeroHmac : Hmac := List.replicate 32 0

/-- The limit `from_bytes` sets to a key. -/
def maxWalKeyLen : Nat := 1024 * 1024

inductive WalParseError where
  | headerTooShort
  | crcMismatch (stored computed : Nat)
  | truncated
  | oversizedKey
  | oversizedValue
  | unknownOp (opType : UInt8)
  | invalidCommittedByte (byte : UInt8)
  | trailingBytes
  deriving DecidableEq, Repr

/-- The reasons of `wal_corruption`. -/
inductive Corruption where
  | exceedsHardLimit (length : Nat)
  | tooLarge (length : Nat)
  | exceedsFileSize (length fileSize : Nat)
  | unreadable (error : WalParseError)
  | decryptionFailed
  | innerFraming
  | nonMonotonic (seqNo last : Nat)
  | sequenceGap (expected got : Nat)
  | hmacMismatch (seqNo : Nat)
  deriving DecidableEq, Repr

inductive WalError where
  | corruption (offset : Nat) (reason : Corruption)
  | entryTooLarge (size : Nat)
  | tooShortForNonce
  | downgrade (offset : Nat)
  deriving DecidableEq, Repr

def WalOp.key : WalOp → Bytes
  | .put _ key _ => key
  | .delete _ key => key
  | .txEnd _ _ => []

def committedByte (committed : Bool) : UInt8 := if committed then 1 else 0

/-- The operation within the payload of an entry. -/
def WalOp.toBytes : WalOp → Bytes
  | .put tx key value =>
    0 :: (toLeBytes 8 tx ++ (toLeBytes 4 key.length ++ (key ++ (toLeBytes 4 value.length ++ value))))
  | .delete tx key => 1 :: (toLeBytes 8 tx ++ (toLeBytes 4 key.length ++ key))
  | .txEnd tx committed => 2 :: (toLeBytes 8 tx ++ [committedByte committed])

namespace WalEntry

def payload (entry : WalEntry) : Bytes :=
  toLeBytes 8 entry.seqNo ++ (entry.checksum ++ (entry.prevHmac ++ entry.op.toBytes))

/-- The bytes of `to_bytes` behind the size check. -/
def frame (entry : WalEntry) : Bytes :=
  toLeBytes 4 entry.op.payloadSize ++ (toLeBytes 4 (crc32 entry.payload) ++ entry.payload)

def toBytes (entry : WalEntry) : Except WalError Bytes :=
  if maxWalEntrySize < entry.op.payloadSize then .error (.entryTooLarge entry.op.payloadSize)
  else .ok entry.frame

/-- The numbers have 64 bits and the hashes 32 bytes, as their types say. -/
structure Typed (entry : WalEntry) : Prop where
  tx : entry.op.txId < 2 ^ 64
  seq : entry.seqNo < 2 ^ 64
  checksum : entry.checksum.length = 32
  prevHmac : entry.prevHmac.length = 32

/-- A key of `from_bytes`, and what stands behind it. -/
def parseKey (data : Bytes) : Except WalParseError (Bytes × Bytes) :=
  match takeField 4 data with
  | none => .error .truncated
  | some (keyLen, rest) =>
    if maxWalKeyLen < fromLeBytes keyLen then .error .oversizedKey
    else
      match takeField (fromLeBytes keyLen) rest with
      | none => .error .truncated
      | some found => .ok found

/-- The operation of `from_bytes`, and what stands behind it. -/
def parseOp (opType : UInt8) (data : Bytes) : Except WalParseError (WalOp × Bytes) :=
  match opType.toNat with
  | 0 =>
    match takeField 8 data with
    | none => .error .truncated
    | some (tx, rest) =>
      match parseKey rest with
      | .error error => .error error
      | .ok (key, rest) =>
        match takeField 4 rest with
        | none => .error .truncated
        | some (valLen, rest) =>
          if maxWalEntrySize < fromLeBytes valLen then .error .oversizedValue
          else
            match takeField (fromLeBytes valLen) rest with
            | none => .error .truncated
            | some (value, rest) => .ok (.put (fromLeBytes tx) key value, rest)
  | 1 =>
    match takeField 8 data with
    | none => .error .truncated
    | some (tx, rest) =>
      match parseKey rest with
      | .error error => .error error
      | .ok (key, rest) => .ok (.delete (fromLeBytes tx) key, rest)
  | 2 =>
    match takeField 8 data with
    | none => .error .truncated
    | some (_, []) => .error .truncated
    | some (tx, byte :: rest) =>
      if 1 < byte.toNat then .error (.invalidCommittedByte byte)
      else .ok (.txEnd (fromLeBytes tx) (byte = 1), rest)
  | _ => .error (.unknownOp opType)

/-- `from_bytes_classified`, on the checksum and the payload of a frame. -/
def fromBytes (data : Bytes) : Except WalParseError WalEntry :=
  match takeField 4 data with
  | none => .error .headerTooShort
  | some (storedCrc, payload) =>
    if fromLeBytes storedCrc ≠ crc32 payload then
      .error (.crcMismatch (fromLeBytes storedCrc) (crc32 payload))
    else
      match takeField 8 payload with
      | none => .error .truncated
      | some (seqNo, rest) =>
        match takeField 32 rest with
        | none => .error .truncated
        | some (checksum, rest) =>
          match takeField 32 rest with
          | none => .error .truncated
          | some (_, []) => .error .truncated
          | some (prevHmac, opType :: remaining) =>
            match parseOp opType remaining with
            | .error error => .error error
            | .ok (op, []) => .ok ⟨op, fromLeBytes seqNo, checksum, prevHmac⟩
            | .ok (_, _ :: _) => .error .trailingBytes

end WalEntry

/-- `contextra-wal-v1`, with which every HMAC begins. -/
def walDomain : Bytes :=
  [0x63, 0x6F, 0x6E, 0x74, 0x65, 0x78, 0x74, 0x72, 0x61, 0x2D, 0x77, 0x61, 0x6C, 0x2D, 0x76, 0x31]

/-- What `compute_checksum_v3` feeds to the HMAC behind the domain. -/
def checksumInputV3 (op : WalOp) (seqNo : Nat) (prevHmac : Hmac) : Bytes :=
  prevHmac ++ (toLeBytes 8 seqNo ++ (toLeBytes 8 op.txId ++
    match op with
    | .put _ key value =>
      0 :: (toLeBytes 4 key.length ++ (key ++ (toLeBytes 4 value.length ++ value)))
    | .delete _ key => 1 :: (toLeBytes 4 key.length ++ key)
    | .txEnd _ committed => [2, committedByte committed]))

/-- What `compute_checksum_v2` feeds to the HMAC behind the domain. -/
def checksumInputV2 (op : WalOp) (seqNo : Nat) (prevHmac : Hmac) : Bytes :=
  prevHmac ++ (toLeBytes 8 seqNo ++
    match op with
    | .put _ key value => 0 :: (key ++ value)
    | .delete _ key => 1 :: key
    | .txEnd _ committed => [2, committedByte committed])

abbrev HmacFunction := Bytes → Bytes → Hmac

def computeChecksumV3 (hmac : HmacFunction) (integrityKey : Bytes) (op : WalOp) (seqNo : Nat)
    (prevHmac : Hmac) : Hmac :=
  hmac integrityKey (walDomain ++ checksumInputV3 op seqNo prevHmac)

def computeChecksumV2 (hmac : HmacFunction) (integrityKey : Bytes) (op : WalOp) (seqNo : Nat)
    (prevHmac : Hmac) : Hmac :=
  hmac integrityKey (walDomain ++ checksumInputV2 op seqNo prevHmac)

/-- Every entry carries the V3 checksum of its operation, its number and the checksum
before it. -/
def Authentic (hmac : HmacFunction) (integrityKey : Bytes) : Hmac → List WalEntry → Prop
  | _, [] => True
  | prev, entry :: entries =>
    entry.prevHmac = prev ∧
      entry.checksum = computeChecksumV3 hmac integrityKey entry.op entry.seqNo prev ∧
      Authentic hmac integrityKey entry.checksum entries

/-- An entry of a replay and the offset behind its frame. -/
structure Replayed where
  entry : WalEntry
  endOffset : Nat
  deriving DecidableEq, Repr

/-- `entries_count` and `pos` of a scan. -/
structure ScanPosition where
  entriesCount : Nat
  pos : Nat
  deriving DecidableEq, Repr

inductive FrameRead where
  | stop
  | refuse (error : WalError)
  | frame (entryDataRaw rest : Bytes)

/-- The reading of a frame, the same in both scanners: what goes beyond the end of the file
is a torn tail, except at the start of a file of more than 64 bytes. -/
def readFrame (fileSize : Nat) (position : ScanPosition) (data : Bytes) : FrameRead :=
  if data = [] then .stop
  else
    match takeField 4 data with
    | none => .stop
    | some (lenBytes, rest) =>
      let len := fromLeBytes lenBytes
      if maxWalEntrySize < len then
        if rest.length < len then
          if position.entriesCount = 0 ∧ 64 < fileSize then
            .refuse (.corruption position.pos (.exceedsHardLimit len))
          else .stop
        else .refuse (.corruption position.pos (.tooLarge len))
      else
        match takeField len rest with
        | none =>
          if position.entriesCount = 0 ∧ 64 < fileSize then
            .refuse (.corruption position.pos (.exceedsFileSize len fileSize))
          else .stop
        | some (entryDataRaw, rest) => .frame entryDataRaw rest

/-- `handle_wal_entry_parse_error`: none where the entry is tolerated as a torn tail. -/
def handleWalEntryParseError (error : WalParseError) (chunkStartPos : Nat) (rest : Bytes) :
    Option WalError :=
  match error with
  | .crcMismatch stored computed =>
    some (.corruption chunkStartPos (.unreadable (.crcMismatch stored computed)))
  | error => if rest = [] then none else some (.corruption chunkStartPos (.unreadable error))

/-- One turn of `scan_entries_from_slice`, as compiled without `wal-integrity`. -/
def nextFromSlice (fileSize : Nat) (position : ScanPosition) (data : Bytes) :
    Found UInt8 ScanPosition Replayed WalError :=
  match readFrame fileSize position data with
  | .stop => .stop
  | .refuse error => .refuse error
  | .frame entryDataRaw rest =>
    let pos := position.pos + (4 + entryDataRaw.length)
    match WalEntry.fromBytes entryDataRaw with
    | .ok entry => .record ⟨entry, pos⟩ ⟨position.entriesCount + 1, pos⟩ rest
    | .error error =>
      match handleWalEntryParseError error position.pos rest with
      | some error => .refuse error
      | none => .stop

theorem readFrame_eq_frame {fileSize : Nat} {position : ScanPosition} {data raw rest : Bytes}
    (read : readFrame fileSize position data = .frame raw rest) :
    data = toLeBytes 4 raw.length ++ raw ++ rest ∧ raw.length ≤ maxWalEntrySize := by
  unfold readFrame at read
  split at read
  · contradiction
  split at read
  · contradiction
  rename_i lenBytes behind four
  obtain ⟨rfl, fourLong⟩ := takeField_eq_some.mp four
  simp only at read
  split at read
  · split at read
    · split at read <;> contradiction
    · contradiction
  · split at read
    · split at read <;> contradiction
    · rename_i bounded _ _ _ taken
      obtain ⟨rfl, long⟩ := takeField_eq_some.mp taken
      cases read
      refine ⟨?_, by omega⟩
      rw [long, ← fourLong, toLeBytes_fromLeBytes, List.append_assoc]

def sliceScanner (fileSize : Nat) : Scanner UInt8 ScanPosition Replayed WalError where
  next := nextFromSlice fileSize
  shrinks := by
    intro position data replayed position' rest found
    unfold nextFromSlice at found
    split at found
    · contradiction
    · contradiction
    · rename_i raw behind read
      obtain ⟨rfl, _⟩ := readFrame_eq_frame read
      simp only at found
      split at found
      · cases found
        simp only [List.length_append, length_toLeBytes]
        omega
      · split at found <;> contradiction

/-- The version in the header, and the offset of the first frame. -/
def detectVersion (file : Bytes) : WalVersion × Nat :=
  if 4 ≤ file.length then
    if file.take 4 = walV3Header then (.v3, 4)
    else if file.take 4 = walV2Header then (.v2, 4)
    else (.v1, 0)
  else (.v1, 0)

def replayMmap (file : Bytes) : Except WalError (List Replayed × WalVersion) :=
  let (version, start) := detectVersion file
  ((sliceScanner file.length).scan ⟨0, start⟩ (file.drop start)).map fun scan =>
    (scan.records, version)

/-- `Wal::replay`; there is no fallback to the stream scanner here. -/
def replay (file : Bytes) : Except WalError (List WalEntry) :=
  (replayMmap file).map fun replayed => replayed.1.map Replayed.entry

end Contextra.Store
