import Contextra.Library.Run
import Contextra.Store.WalAgreement

/-!
# The backups of a WAL

A WAL of an old version is copied beside itself before it is written anew, and an open that finds
the WAL empty puts such a copy back.  Here the WAL has no key manager, and nothing fails but a
migration that is interrupted.
-/

namespace Contextra.Store

open Library

structure WalHandle where
  size : Nat
  headerWritten : Bool
  lastHmac : Hmac
  deriving DecidableEq, Repr

/-- The files of a WAL; where the WAL itself is missing it counts as empty.  The handle is there
from an open to the next close. -/
structure WalPath where
  wal : Bytes
  v1Bak : Option Bytes
  v2Bak : Option Bytes
  handle : Option WalHandle
  deriving DecidableEq, Repr

/-- A migration stops behind the backup, or when the file is empty and not yet written anew. -/
inductive Interruption where
  | beforeSetLen
  | beforeRewrite
  deriving DecidableEq, Repr

inductive OpenResult where
  | entries (recovered : List WalEntry)
  | refused (error : WalError)
  | interrupted
  deriving DecidableEq, Repr

def migratedFrom (hmac : HmacFunction) (integrityKey file : Bytes) : Option WalVersion :=
  if file = [] then none
  else
    match replayWithSizeAndVersion hmac integrityKey none file with
    | .ok (_, version) => if version = .v3 then none else some version
    | .error _ => none

namespace WalPath

variable (path : WalPath)

/-- The backup that is put back: the WAL is empty and it is not. -/
def restorable (bak : Option Bytes) : Option Bytes :=
  bak.filter fun content => decide (path.wal = [] ∧ content ≠ [])

/-- `recover_from_bak_if_present`: the backup becomes the WAL. -/
def recoverFromBakIfPresent : WalPath :=
  match path.restorable path.v1Bak with
  | some content => { path with wal := content, v1Bak := none }
  | none =>
    match path.restorable path.v2Bak with
    | some content => { path with wal := content, v2Bak := none }
    | none => path

/-- The copy beside the WAL; no V3 file is migrated. -/
def backUp : Option WalVersion → WalPath
  | some .v1 => { path with v1Bak := some path.wal }
  | some .v2 => { path with v2Bak := some path.wal }
  | _ => path

/-- The next open puts a backup back. -/
def Restorable : Prop :=
  path.wal = [] ∧ ((∃ bak ∈ path.v1Bak, bak ≠ []) ∨ ∃ bak ∈ path.v2Bak, bak ≠ [])

section Calls

variable (hmac : HmacFunction) (integrityKey : Bytes)

/-- `open_with_config`, which an interruption ends during a migration. -/
def openWithConfig (interruption : Option Interruption) : OpenResult × WalPath :=
  let path := path.recoverFromBakIfPresent
  let version := migratedFrom hmac integrityKey path.wal
  let backed := path.backUp version
  match openPlaintext hmac integrityKey path.wal with
  | .error error => (.refused error, backed)
  | .ok opened =>
    match interruption, version with
    | some .beforeSetLen, some _ => (.interrupted, backed)
    | some .beforeRewrite, some _ => (.interrupted, { backed with wal := [] })
    | _, _ =>
      (.entries opened.recovered,
        { backed with
          wal := opened.file
          handle := some ⟨opened.size, opened.headerWritten, opened.lastHmac⟩ })

/-- An append through the flusher; the header is written with the first one. -/
def append (handle : WalHandle) (ops : List (WalOp × Nat)) : Except WalError Unit × WalPath :=
  let entries := Wal.chain (plainCodec hmac integrityKey) handle.lastHmac ops
  match plainPayload entries with
  | .error error => (.error error, path)
  | .ok payload =>
    let writeHeader := !handle.headerWritten && decide (handle.size = 0)
    let written := (if writeHeader then walV3Header else []) ++ payload
    (.ok (),
      { path with
        wal := path.wal ++ written
        handle := some ⟨handle.size + written.length, handle.headerWritten || writeHeader,
          Wal.chainEnd handle.lastHmac entries⟩ })

end Calls

/-- `WalCommand::Truncate`; behind its end a file is filled with zeros. -/
def truncate (offset : Nat) (newLastHmac : Hmac) : WalPath :=
  { path with
    wal := path.wal.take offset ++ List.replicate (offset - path.wal.length) 0
    handle := some ⟨offset, decide (4 ≤ offset), newLastHmac⟩ }

end WalPath

inductive WalEvent where
  | openWal (interruption : Option Interruption)
  | append (ops : List (WalOp × Nat))
  | truncate (offset : Nat) (newLastHmac : Hmac)
  | close
  deriving DecidableEq, Repr

def WalOp.frameSize (op : WalOp) : Nat := 4 + op.payloadSize

/-- The operations whose frames end within the first bytes. -/
def keptOps : Nat → List (WalOp × Nat) → List (WalOp × Nat)
  | _, [] => []
  | count, op :: ops =>
    if op.1.frameSize ≤ count then op :: keptOps (count - op.1.frameSize) ops else []

/-- A WAL, and the operations that the completed calls have left in it. -/
structure LoggedPath where
  path : WalPath
  expected : List (WalOp × Nat)
  deriving DecidableEq

/-- What a call makes of the WAL, and of the operations in it. -/
def LoggedPath.step (hmac : HmacFunction) (integrityKey : Bytes) (state : LoggedPath) :
    WalEvent → Option LoggedPath
  | .openWal interruption =>
    match state.path.handle with
    | some _ => none
    | none =>
      some { state with path := (state.path.openWithConfig hmac integrityKey interruption).2 }
  | .append ops =>
    state.path.handle.map fun handle =>
      match state.path.append hmac integrityKey handle ops with
      | (.ok (), path) => ⟨path, state.expected ++ ops⟩
      | (.error _, path) => ⟨path, state.expected⟩
  | .truncate offset newLastHmac =>
    state.path.handle.map fun _ =>
      ⟨state.path.truncate offset newLastHmac, keptOps (offset - 4) state.expected⟩
  | .close =>
    state.path.handle.map fun _ => { state with path := { state.path with handle := none } }

def WalEntry.logged (entry : WalEntry) : WalOp × Nat := (entry.op, entry.seqNo)

/-- The operations that are replayed from a file, none where it is refused. -/
def loggedOps (file : Bytes) : List (WalOp × Nat) :=
  match replay file with
  | .ok entries => entries.map WalEntry.logged
  | .error _ => []

def LoggedPath.initial (file : Bytes) : LoggedPath :=
  ⟨⟨file, none, none, none⟩, loggedOps file⟩

end Contextra.Store
