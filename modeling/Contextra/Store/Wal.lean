import Contextra.Store.Prepare

/-!
# Write-ahead log

The segment file, the handle and the commands of its flusher.  The file holds whole
frames and the torn bytes of an interrupted write behind them.  How a batch becomes
frames, and the keyed hash of an entry, are the codec's business.
-/

namespace Contextra.Store

abbrev Hmac := Bytes

def WalOp.txId : WalOp → TxId
  | .put tx _ _ => tx
  | .delete tx _ => tx
  | .txEnd tx _ => tx

structure WalEntry where
  op : WalOp
  seqNo : Nat
  checksum : Hmac
  prevHmac : Hmac
  deriving DecidableEq, Repr

/-- A length-prefixed record of the file: one entry, or an encrypted run of entries. -/
structure Frame where
  entries : List WalEntry
  size : Nat
  deriving DecidableEq, Repr

structure WalCodec where
  /-- `compute_checksum_v3` under the integrity key. -/
  checksum : WalOp → Nat → Hmac → Hmac
  /-- The frames of a batch, or the message with which its encoding is refused. -/
  frames : List WalEntry → Except String (List Frame)

def maxWalEntrySize : Nat := 64 * 1024 * 1024

/-- `total_payload_size` of `to_bytes`. -/
def WalOp.payloadSize : WalOp → Nat
  | .put _ key value => 4 + (8 + 32 + 32 + (1 + 8 + 4 + key.length + 4 + value.length))
  | .delete _ key => 4 + (8 + 32 + 32 + (1 + 8 + 4 + key.length))
  | .txEnd _ _ => 4 + (8 + 32 + 32 + (1 + 8 + 1))

/-- Without a key manager every entry is its own frame. -/
def WalCodec.plain (checksum : WalOp → Nat → Hmac → Hmac) : WalCodec where
  checksum := checksum
  frames entries :=
    match entries.find? fun entry => maxWalEntrySize < entry.op.payloadSize with
    | some _ => .error "WAL entry too large"
    | none => .ok (entries.map fun entry => ⟨[entry], 4 + entry.op.payloadSize⟩)

structure WalFile where
  header : Bool
  frames : List Frame
  torn : Nat
  deriving DecidableEq, Repr

namespace WalFile

def payloadLength (frames : List Frame) : Nat := (frames.map Frame.size).sum

def length (file : WalFile) : Nat :=
  (if file.header then 4 else 0) + payloadLength file.frames + file.torn

def entries (file : WalFile) : List WalEntry := file.frames.flatMap Frame.entries

/-- The frames that lie within the first `count` bytes of a payload. -/
def wholeFrames : Nat → List Frame → List Frame
  | _, [] => []
  | count, frame :: frames =>
    if frame.size ≤ count then frame :: wholeFrames (count - frame.size) frames else []

/-- The first `count` bytes of a payload are written; behind torn bytes no frame is whole. -/
def write (file : WalFile) (payload : List Frame) (count : Nat) : WalFile :=
  let written := min count (payloadLength payload)
  if file.torn = 0 then
    let whole := wholeFrames written payload
    { file with frames := file.frames ++ whole, torn := written - payloadLength whole }
  else { file with torn := file.torn + written }

def setLen (file : WalFile) (offset : Nat) : WalFile :=
  if offset < 4 then ⟨false, [], offset⟩
  else
    let whole := wholeFrames (offset - 4) file.frames
    { file with frames := whole, torn := offset - 4 - payloadLength whole }

end WalFile

/-- The handle; `flusher` says that the channel to the flusher is open. -/
structure Wal where
  file : WalFile
  size : Nat
  lastHmac : Hmac
  headerWritten : Bool
  sealedFlag : Bool
  poisoned : Bool
  flusher : Bool
  deriving DecidableEq, Repr

/-- What the disk does with an append command: `written` bytes and then an error, all of
them and a failed `sync_all`, or success. -/
inductive AppendIo where
  | ok
  | writeFails (headerWritten : Bool) (written : Nat)
  | syncFails
  deriving DecidableEq, Repr

inductive TruncateIo where
  | ok
  | setLenFails
  | syncFails
  deriving DecidableEq, Repr

def poisonedMessage : String :=
  "WAL handle poisoned after suspected torn write; requires explicit recovery replay before further appends"

namespace Wal

def chain (codec : WalCodec) : Hmac → List (WalOp × Nat) → List WalEntry
  | _, [] => []
  | prev, (op, seqNo) :: ops =>
    let checksum := codec.checksum op seqNo prev
    ⟨op, seqNo, checksum, prev⟩ :: chain codec checksum ops

def chainEnd (prev : Hmac) (entries : List WalEntry) : Hmac :=
  (entries.getLast?.map WalEntry.checksum).getD prev

/-- `prepare_batch`: the entries and the HMAC before them; the handle moves on at once. -/
def prepareBatch (codec : WalCodec) (wal : Wal) (ops : List (WalOp × Nat)) :
    Except String (List WalEntry × Hmac) × Wal :=
  if wal.sealedFlag then (.error "Cannot prepare batch for sealed WAL segment", wal)
  else
    let entries := chain codec wal.lastHmac ops
    (.ok (entries, wal.lastHmac), { wal with lastHmac := chainEnd wal.lastHmac entries })

def flushAppend (wal : Wal) (payload : List Frame) (lastHmacVal : Hmac) (io : AppendIo) :
    Except String Unit × Wal :=
  if wal.poisoned then (.error poisonedMessage, wal)
  else
    let writeHeader := !wal.headerWritten && wal.size = 0
    let headed : WalFile := { wal.file with header := wal.file.header || writeHeader }
    match io with
    | .writeFails headerWritten written =>
      let file := if writeHeader && !headerWritten then wal.file else headed.write payload written
      (.error "WAL flusher write failed", { wal with file, poisoned := true })
    | .syncFails =>
      (.error "WAL fsync failed, outcome unknown",
        { wal with
          file := headed.write payload (WalFile.payloadLength payload)
          poisoned := true })
    | .ok =>
      (.ok (),
        { wal with
          file := headed.write payload (WalFile.payloadLength payload)
          headerWritten := wal.headerWritten || writeHeader
          size := wal.size + (if writeHeader then 4 else 0) + WalFile.payloadLength payload
          lastHmac := lastHmacVal })

/-- `append_batch_locked`: the refusals before the command is sent, and the flusher. -/
def appendBatchLocked (codec : WalCodec) (wal : Wal) (entries : List WalEntry) (io : AppendIo) :
    Except String Unit × Wal :=
  if wal.poisoned then (.error poisonedMessage, wal)
  else if entries = [] then (.ok (), wal)
  else if wal.sealedFlag then (.error "Cannot append to sealed WAL segment", wal)
  else
    match codec.frames entries with
    | .error message => (.error message, wal)
    | .ok payload =>
      if wal.flusher then wal.flushAppend payload (chainEnd [] entries) io
      else (.error "WAL flusher channel closed", wal)

def flushTruncate (wal : Wal) (offset : Nat) (newLastHmac : Hmac) (io : TruncateIo) :
    Except String Unit × Wal :=
  if wal.poisoned then (.error poisonedMessage, wal)
  else
    let sized : Wal := { wal with size := offset }
    match io with
    | .setLenFails => (.error "WAL truncate failed", sized)
    | .syncFails =>
      (.error "WAL truncate fsync failed",
        { sized with file := wal.file.setLen offset, poisoned := true })
    | .ok =>
      (.ok (),
        { sized with
          file := wal.file.setLen offset
          headerWritten := decide (4 ≤ offset)
          lastHmac := newLastHmac })

/-- `truncate` once it has the lock. -/
def truncateLocked (wal : Wal) (offset : Nat) (newLastHmac : Hmac) (io : TruncateIo) :
    Except String Unit × Wal :=
  if wal.sealedFlag then (.error "Cannot truncate sealed WAL segment", wal)
  else if wal.flusher then wal.flushTruncate offset newLastHmac io
  else (.error "WAL flusher channel closed", wal)

/-- The end of the verified entries and the HMAC there, as `recover_from_poison` computes
them from a replay. -/
def verifiedEnd (wal : Wal) : Nat × Hmac :=
  match wal.file.entries.getLast? with
  | some last => (4 + WalFile.payloadLength wal.file.frames, last.checksum)
  | none =>
    if 4 ≤ wal.file.length ∧ wal.headerWritten = true then (4, List.replicate 32 0)
    else (0, List.replicate 32 0)

end Wal

/-- One entry of the replay, with the operations of open transactions and those applied. -/
def replayEntry (replayed : List WalEntry × List WalEntry) (entry : WalEntry) :
    List WalEntry × List WalEntry :=
  match entry.op with
  | .put .. => (replayed.1 ++ [entry], replayed.2)
  | .delete .. => (replayed.1 ++ [entry], replayed.2)
  | .txEnd tx true =>
    (replayed.1.filter fun open' => open'.op.txId ≠ tx,
      replayed.2 ++ replayed.1.filter fun open' => open'.op.txId = tx)
  | .txEnd tx false => (replayed.1.filter fun open' => open'.op.txId ≠ tx, replayed.2)

/-- The operations that recovery applies from one segment, in order. -/
def replayCommitted (entries : List WalEntry) : List WalEntry :=
  (entries.foldl replayEntry ([], [])).2

end Contextra.Store
