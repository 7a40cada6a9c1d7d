import Contextra.Store.WalBytes

/-!
# Stream scanner, encryption and opening of a segment

The stream scanner of the flusher decrypts the frames of a segment with a key manager and verifies
the chain of entries.  `open` replays a segment by the memory-mapped scanner and falls back to the
stream scanner.  The legacy integrity key is left out: it is off unless a migration asks for it.
-/

namespace Contextra.Store

open Library

structure IntegrityVerifier where
  lastHmac : Hmac
  lastSeqNo : Option Nat
  deriving DecidableEq, Repr

namespace IntegrityVerifier

def fresh : IntegrityVerifier := ⟨zeroHmac, none⟩

/-- `verify_and_update_v3` and `verify_and_update_v2`, which differ in the checksum. -/
def verifyAndUpdate (compute : WalOp → Nat → Hmac → Hmac) (verifier : IntegrityVerifier)
    (entry : WalEntry) (offset : Nat) : Except WalError IntegrityVerifier :=
  let linked : Except WalError IntegrityVerifier :=
    let computed := compute entry.op entry.seqNo verifier.lastHmac
    if computed ≠ entry.checksum ∨ entry.prevHmac ≠ verifier.lastHmac then
      .error (.corruption offset (.hmacMismatch entry.seqNo))
    else .ok ⟨computed, some entry.seqNo⟩
  match verifier.lastSeqNo with
  | none => linked
  | some last =>
    if entry.seqNo ≤ last then .error (.corruption offset (.nonMonotonic entry.seqNo last))
    else if last + 1 < entry.seqNo then
      .error (.corruption offset (.sequenceGap (last + 1) entry.seqNo))
    else linked

def verifyAndUpdateV3 (hmac : HmacFunction) (integrityKey : Bytes) :
    IntegrityVerifier → WalEntry → Nat → Except WalError IntegrityVerifier :=
  verifyAndUpdate (computeChecksumV3 hmac integrityKey)

def verifyAndUpdateV2 (hmac : HmacFunction) (integrityKey : Bytes) :
    IntegrityVerifier → WalEntry → Nat → Except WalError IntegrityVerifier :=
  verifyAndUpdate (computeChecksumV2 hmac integrityKey)

def skipHmacVerifyLegacy (_ : IntegrityVerifier) (entry : WalEntry) : IntegrityVerifier :=
  ⟨entry.checksum, some entry.seqNo⟩

def verifyEntry (hmac : HmacFunction) (integrityKey : Bytes) (version : WalVersion)
    (verifier : IntegrityVerifier) (entry : WalEntry) (offset : Nat) :
    Except WalError IntegrityVerifier :=
  match version with
  | .v3 => verifyAndUpdateV3 hmac integrityKey verifier entry offset
  | .v2 => verifyAndUpdateV2 hmac integrityKey verifier entry offset
  | .v1 => .ok (skipHmacVerifyLegacy verifier entry)

end IntegrityVerifier

/-- The key of a segment: AES-256-GCM-SIV under a counted nonce, which authenticates and
makes the text 16 bytes longer. -/
structure KeyManager where
  integrityKey : Bytes
  /-- The nonce of the call with this counter value. -/
  nonce : Nat → Bytes
  encrypt : Bytes → Bytes → Bytes
  decrypt : Bytes → Bytes → Option Bytes
  length_nonce : ∀ counter, (nonce counter).length = 12
  length_encrypt : ∀ nonce text, (encrypt nonce text).length = text.length + 16
  decrypt_encrypt : ∀ nonce text, decrypt nonce (encrypt nonce text) = some text

/-- `get_integrity_key`; the fallback is the key of the file beside the segment. -/
def getIntegrityKey (km : Option KeyManager) (fallback : Bytes) : Bytes :=
  match km with
  | some km => km.integrityKey
  | none => fallback

def maxPlaintextPerFrame : Nat := maxWalEntrySize - 28

/-- The plaintexts of the frames of a batch, from the plaintext of the frame that is open:
a frame that would get too long is closed, and so is one whose last entry ends a
transaction. -/
def framePlaintexts : Bytes → List (Bool × Bytes) → List Bytes
  | current, [] => if current = [] then [] else [current]
  | current, (isTxEnd, bytes) :: entries =>
    if current ≠ [] ∧ maxPlaintextPerFrame < current.length + bytes.length then
      current ::
        if isTxEnd then bytes :: framePlaintexts [] entries else framePlaintexts bytes entries
    else if isTxEnd then (current ++ bytes) :: framePlaintexts [] entries
    else framePlaintexts (current ++ bytes) entries

/-- A frame of a plaintext: its length, the nonce and the encrypted text. -/
def sealFrame (km : KeyManager) (counter : Nat) (plaintext : Bytes) : Except WalError Bytes :=
  let encrypted := km.encrypt (km.nonce counter) plaintext
  let chunkLen := 12 + encrypted.length
  if maxWalEntrySize < chunkLen then .error (.entryTooLarge chunkLen)
  else .ok (toLeBytes 4 chunkLen ++ (km.nonce counter ++ encrypted))

def sealFrames (km : KeyManager) : Nat → List Bytes → Except WalError Bytes
  | _, [] => .ok []
  | counter, plaintext :: plaintexts =>
    match sealFrame km counter plaintext with
    | .error error => .error error
    | .ok frame =>
      match sealFrames km (counter + 1) plaintexts with
      | .error error => .error error
      | .ok frames => .ok (frame ++ frames)

def WalOp.isTxEnd : WalOp → Bool
  | .txEnd _ _ => true
  | _ => false

/-- The entries of a batch as they go into frames, or the error of one that is too large. -/
def serializedEntries : List WalEntry → Except WalError (List (Bool × Bytes))
  | [] => .ok []
  | entry :: entries =>
    match entry.toBytes with
    | .error error => .error error
    | .ok bytes =>
      if maxPlaintextPerFrame < bytes.length then .error (.entryTooLarge bytes.length)
      else
        match serializedEntries entries with
        | .error error => .error error
        | .ok later => .ok ((entry.op.isTxEnd, bytes) :: later)

/-- `prepare_append_payload` with a key manager that has made `counter` nonces. -/
def encryptedPayload (km : KeyManager) (counter : Nat) (entries : List WalEntry) :
    Except WalError Bytes :=
  match serializedEntries entries with
  | .error error => .error error
  | .ok serialized => sealFrames km counter (framePlaintexts [] serialized)

/-- `prepare_append_payload` without a key manager. -/
def plainPayload : List WalEntry → Except WalError Bytes
  | [] => .ok []
  | entry :: entries =>
    match entry.toBytes with
    | .error error => .error error
    | .ok bytes =>
      match plainPayload entries with
      | .error error => .error error
      | .ok later => .ok (bytes ++ later)

section Stream

variable (hmac : HmacFunction) (integrityKey : Bytes)

/-- The entries of a decrypted frame, each verified when it is read. -/
def innerEntries (version : WalVersion) (chunkStartPos endOffset : Nat) :
    Nat → IntegrityVerifier → Bytes → Except WalError (List Replayed × IntegrityVerifier)
  | 0, verifier, _ => .ok ([], verifier)
  | fuel + 1, verifier, inner =>
    if inner = [] then .ok ([], verifier)
    else
      match takeField 4 inner with
      | none => .error (.corruption chunkStartPos .innerFraming)
      | some (innerLen, rest) =>
        match takeField (fromLeBytes innerLen) rest with
        | none => .error (.corruption chunkStartPos .innerFraming)
        | some (bytes, rest) =>
          match WalEntry.fromBytes bytes with
          | .error error => .error (.corruption chunkStartPos (.unreadable error))
          | .ok entry =>
            match verifier.verifyEntry hmac integrityKey version entry chunkStartPos with
            | .error error => .error error
            | .ok verifier =>
              match innerEntries version chunkStartPos endOffset fuel verifier rest with
              | .error error => .error error
              | .ok (later, verifier) => .ok (⟨entry, endOffset⟩ :: later, verifier)

/-- A frame that holds one entry: it is parsed and verified. -/
def streamEntry (version : WalVersion) (position : ScanPosition) (verifier : IntegrityVerifier)
    (endOffset : Nat) (entryData rest : Bytes) :
    Found UInt8 (ScanPosition × IntegrityVerifier) (List Replayed) WalError :=
  match WalEntry.fromBytes entryData with
  | .error error =>
    match handleWalEntryParseError error position.pos rest with
    | some error => .refuse error
    | none => .stop
  | .ok entry =>
    match verifier.verifyEntry hmac integrityKey version entry position.pos with
    | .error error => .refuse error
    | .ok verifier =>
      .record [⟨entry, endOffset⟩] (⟨position.entriesCount + 1, endOffset⟩, verifier) rest

/-- An encrypted batch: at the end of the file a frame that does not decrypt is a torn
tail, but what decrypts is never one. -/
def streamBatch (km : KeyManager) (version : WalVersion) (position : ScanPosition)
    (verifier : IntegrityVerifier) (endOffset : Nat) (entryDataRaw rest : Bytes) :
    Found UInt8 (ScanPosition × IntegrityVerifier) (List Replayed) WalError :=
  match takeField 12 entryDataRaw with
  | none => if rest = [] then .stop else .refuse .tooShortForNonce
  | some (nonce, ciphertext) =>
    match km.decrypt nonce ciphertext with
    | none => if rest = [] then .stop else .refuse (.corruption position.pos .decryptionFailed)
    | some inner =>
      match innerEntries hmac integrityKey version position.pos endOffset inner.length verifier
          inner with
      | .error error => .refuse error
      | .ok (entries, verifier) =>
        .record entries (⟨position.entriesCount + entries.length, endOffset⟩, verifier) rest

/-- One turn of `do_scan_entries_with_callback`. -/
def nextFromStream (km : Option KeyManager) (version : WalVersion) (fileSize : Nat)
    (state : ScanPosition × IntegrityVerifier) (data : Bytes) :
    Found UInt8 (ScanPosition × IntegrityVerifier) (List Replayed) WalError :=
  match readFrame fileSize state.1 data with
  | .stop => .stop
  | .refuse error => .refuse error
  | .frame entryDataRaw rest =>
    let endOffset := state.1.pos + (4 + entryDataRaw.length)
    match km with
    | none => streamEntry hmac integrityKey version state.1 state.2 endOffset entryDataRaw rest
    | some km =>
      if version = .v1 then
        match takeField 12 entryDataRaw with
        | none => .refuse .tooShortForNonce
        | some (nonce, ciphertext) =>
          match km.decrypt nonce ciphertext with
          | none => .refuse (.downgrade state.1.pos)
          | some entryData =>
            streamEntry hmac integrityKey version state.1 state.2 endOffset entryData rest
      else streamBatch hmac integrityKey km version state.1 state.2 endOffset entryDataRaw rest

variable {entries : List Replayed} {version : WalVersion}

theorem streamEntry_rest {position : ScanPosition}
    {verifier : IntegrityVerifier} {endOffset : Nat} {entryData rest rest' : Bytes}
    {state' : ScanPosition × IntegrityVerifier}
    (found : streamEntry hmac integrityKey version position verifier endOffset entryData rest =
      .record entries state' rest') : rest' = rest := by
  unfold streamEntry at found
  split at found
  · split at found <;> contradiction
  · split at found
    · contradiction
    · cases found
      rfl

theorem nextFromStream_rest {km : Option KeyManager} {fileSize : Nat}
    {state state' : ScanPosition × IntegrityVerifier} {data rest : Bytes}
    (found : nextFromStream hmac integrityKey km version fileSize state data =
      .record entries state' rest) :
    ∃ raw, readFrame fileSize state.1 data = .frame raw rest := by
  unfold nextFromStream at found
  split at found
  · contradiction
  · contradiction
  rename_i raw behind read
  have same : rest = behind := by
    simp only at found
    split at found
    · exact streamEntry_rest hmac integrityKey found
    · split at found
      · split at found
        · contradiction
        · split at found
          · contradiction
          · exact streamEntry_rest hmac integrityKey found
      · unfold streamBatch at found
        split at found
        · split at found <;> contradiction
        · split at found
          · split at found <;> contradiction
          · split at found
            · contradiction
            · cases found
              rfl
  exact ⟨raw, same ▸ read⟩

theorem nextFromStream_shrinks {km : Option KeyManager} {fileSize : Nat}
    {state : ScanPosition × IntegrityVerifier} {data : Bytes}
    {state' : ScanPosition × IntegrityVerifier} {rest : Bytes}
    (found : nextFromStream hmac integrityKey km version fileSize state data =
      .record entries state' rest) :
    rest.length < data.length := by
  obtain ⟨raw, read⟩ := nextFromStream_rest hmac integrityKey found
  obtain ⟨rfl, _⟩ := readFrame_eq_frame read
  simp only [List.length_append, length_toLeBytes]
  omega

def streamScanner (km : Option KeyManager) (version : WalVersion) (fileSize : Nat) :
    Scanner UInt8 (ScanPosition × IntegrityVerifier) (List Replayed) WalError where
  next := nextFromStream hmac integrityKey km version fileSize
  shrinks := nextFromStream_shrinks hmac integrityKey

/-- `scan_entries_with_callback`, with a callback that keeps every entry. -/
def scanStream (km : Option KeyManager) (file : Bytes) :
    Except WalError (List Replayed × WalVersion) :=
  let (version, start) := detectVersion file
  ((streamScanner hmac integrityKey km version file.length).scan
    (⟨0, start⟩, IntegrityVerifier.fresh) (file.drop start)).map fun scan =>
      (scan.records.flatten, version)

/-- `replay_mmap_with_size_and_version`: the fallback of `open`. -/
def replayWithSizeAndVersion (km : Option KeyManager) (file : Bytes) :
    Except WalError (List Replayed × WalVersion) :=
  match replayMmap file with
  | .ok replayed => .ok replayed
  | .error _ => scanStream hmac integrityKey km file

end Stream

/-- A segment that was opened for appending: its bytes, the state of the handle, and the
entries that were found in it. -/
structure OpenWal where
  file : Bytes
  size : Nat
  headerWritten : Bool
  lastHmac : Hmac
  recovered : List WalEntry
  deriving DecidableEq, Repr

def plainCodec (hmac : HmacFunction) (integrityKey : Bytes) : WalCodec :=
  WalCodec.plain (computeChecksumV3 hmac integrityKey)

/-- `rewrite_as_v3`: the entries are chained again under a V3 header. -/
def rewriteAsV3 (hmac : HmacFunction) (integrityKey : Bytes) (entries : List WalEntry) :
    Except WalError OpenWal :=
  let rewritten := Wal.chain (plainCodec hmac integrityKey) zeroHmac
    (entries.map fun entry => (entry.op, entry.seqNo))
  match plainPayload rewritten with
  | .error error => .error error
  | .ok payload =>
    let file := walV3Header ++ payload
    .ok ⟨file, file.length, true, Wal.chainEnd zeroHmac rewritten, entries⟩

def replayedEnd (file : Bytes) (entries : List Replayed) : Nat × Hmac :=
  match entries.getLast? with
  | some last => (last.endOffset, last.entry.checksum)
  | none => if 4 ≤ file.length then (4, zeroHmac) else (0, zeroHmac)

/-- `open_with_config` without a key manager, on the content of the file, an empty one when it is
missing.  What is behind the last verified entry is cut off. -/
def openPlaintext (hmac : HmacFunction) (integrityKey : Bytes) (file : Bytes) :
    Except WalError OpenWal :=
  if file = [] then .ok ⟨[], 0, false, zeroHmac, []⟩
  else
    match replayWithSizeAndVersion hmac integrityKey none file with
    | .error error => .error error
    | .ok (entries, version) =>
      if version ≠ .v3 then rewriteAsV3 hmac integrityKey (entries.map Replayed.entry)
      else
        let verified := replayedEnd file entries
        if verified.1 < file.length then
          .ok ⟨file.take verified.1, verified.1, decide (4 ≤ verified.1), verified.2,
            entries.map Replayed.entry⟩
        else .ok ⟨file, file.length, true, verified.2, entries.map Replayed.entry⟩

end Contextra.Store
