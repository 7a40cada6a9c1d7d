import Contextra.Store.WalBackup
import Contextra.Store.WalTorn

/-!
# Reopening a WAL with backups

An open returns what the completed calls have left in the WAL, in every run that never closes an
empty WAL beside a backup and never appends behind the middle of a frame.  A backup stays behind
its migration, so a WAL that is truncated to nothing gets the old entries back.
-/

namespace Contextra.Store

open Library List

def Logs (file : Bytes) (ops : List (WalOp × Nat)) : Prop :=
  ∀ records version, replayMmap file = .ok (records, version) →
    (records.map Replayed.entry).map WalEntry.logged = ops

/-- The file is the beginning of a V3 segment of entries that can be read. -/
structure WrittenWal (file : Bytes) (ops : List (WalOp × Nat)) : Prop where
  segment : ∃ entries count, (∀ entry ∈ entries, WalEntry.Readable entry) ∧
    count ≤ (walV3Header ++ entries.flatMap WalEntry.frame).length ∧
    file = (walV3Header ++ entries.flatMap WalEntry.frame).take count ∧
    ops = (wholeRecords WalEntry.frame (count - 4) entries).map WalEntry.logged

/-- The file is empty or ends with a whole frame. -/
def Aligned (file : Bytes) : Prop :=
  file = [] ∨ ∃ entries : List WalEntry, (∀ entry ∈ entries, WalEntry.Readable entry) ∧
    file = walV3Header ++ entries.flatMap WalEntry.frame

theorem logs_loggedOps (file : Bytes) : Logs file (loggedOps file) := by
  intro records version replayed
  rw [loggedOps, replay, replayed]
  rfl

theorem wholeRecords_all {Record : Type} (encode : Record → List UInt8) (records : List Record) :
    wholeRecords encode (records.flatMap encode).length records = records := by
  induction records with
  | nil => rfl
  | cons record records ih =>
    rw [flatMap_cons, length_append, wholeRecords, if_pos (Nat.le_add_right _ _),
      Nat.add_sub_cancel_left, ih]

theorem frameSize_eq {entry : WalEntry} (typed : entry.Typed) :
    entry.frame.length = entry.op.frameSize := by
  rw [entry.length_frame, WalOp.frameSize, ← typed.length_payload]
  omega

variable {entries : List WalEntry}

theorem keptOps_whole (typed : ∀ entry ∈ entries, entry.Typed)
    {count more : Nat} (fewer : count ≤ more) :
    keptOps count ((wholeRecords WalEntry.frame more entries).map WalEntry.logged) =
      (wholeRecords WalEntry.frame count entries).map WalEntry.logged := by
  induction entries generalizing count more with
  | nil => rfl
  | cons entry entries ih =>
    have size := frameSize_eq (typed entry mem_cons_self)
    unfold wholeRecords
    by_cases inside : entry.frame.length ≤ count
    · rw [if_pos inside, if_pos (inside.trans fewer), map_cons, map_cons, keptOps]
      have fits : entry.logged.1.frameSize ≤ count := size ▸ inside
      rw [if_pos fits]
      congr 1
      have same : entry.logged.1.frameSize = entry.frame.length := size.symm
      rw [same]
      apply ih
      · exact fun other isOther => typed other (mem_cons_of_mem entry isOther)
      · exact Nat.sub_le_sub_right fewer _
    · rw [if_neg inside]
      by_cases inMore : entry.frame.length ≤ more
      · rw [if_pos inMore, map_cons, keptOps, if_neg]
        · rfl
        · intro fits
          exact inside (size ▸ fits)
      · rw [if_neg inMore]
        rfl

theorem nextFromSlice_cut {fileSize : Nat} {position : ScanPosition} {entry : WalEntry}
    (readable : entry.Readable) {kept : Nat} (cut : kept < entry.frame.length) :
    nextFromSlice fileSize position (entry.frame.take kept) = .stop ∨
      ∃ error, nextFromSlice fileSize position (entry.frame.take kept) = .refuse error := by
  have read : readFrame fileSize position (entry.frame.take kept) = _ :=
    readFrame_take readable.typed readable.sized cut
  rw [nextFromSlice, read]
  by_cases first : 4 ≤ kept ∧ position.entriesCount = 0 ∧ 64 < fileSize
  · rw [if_pos first]
    exact Or.inr ⟨_, rfl⟩
  · rw [if_neg first]
    exact Or.inl rfl

theorem tornSymbols_cut (count : Nat) (entries : List WalEntry) :
    tornSymbols WalEntry.frame count entries = [] ∨
      ∃ entry ∈ entries, ∃ kept < entry.frame.length,
        tornSymbols WalEntry.frame count entries = entry.frame.take kept := by
  rw [tornSymbols]
  cases cut : cutRecord WalEntry.frame count entries with
  | none => exact Or.inl rfl
  | some found =>
    obtain ⟨⟨later, place⟩, incomplete⟩ := cutRecord_eq_some cut
    have isEntry : found.1 ∈ entries := place ▸ mem_append_right _ mem_cons_self
    exact Or.inr ⟨found.1, isEntry, found.2, incomplete, rfl⟩

variable {file : Bytes}

theorem replayMmap_short (short : file.length < 4) : replayMmap file = .ok ([], .v1) := by
  have version : detectVersion file = (.v1, 0) := by
    rw [detectVersion, if_neg (not_le.mpr short)]
  have stops : (sliceScanner file.length).next ⟨0, 0⟩ (file.drop 0) = .stop := by
    apply nextFromSlice_eq_stop_iff.mpr
    exact Or.inl short
  rw [replayMmap, version]
  dsimp only
  rw [Scanner.scan_stop stops]
  rfl

variable {ops : List (WalOp × Nat)}

theorem WrittenWal.logs (written : WrittenWal file ops) : Logs file ops := by
  obtain ⟨entries, count, readable, inside, rfl, rfl⟩ := written.segment
  intro records version replayed
  have length := length_take_of_le inside
  by_cases short : count < 4
  · rw [replayMmap_short (length.symm ▸ short)] at replayed
    cases replayed
    have nothing : count - 4 = 0 := Nat.sub_eq_zero_of_le short.le
    rw [nothing]
    cases entries with
    | nil => rfl
    | cons entry entries =>
      rw [wholeRecords, if_neg (Nat.not_le_of_lt entry.length_frame_pos)]
      rfl
  · have header : walV3Header.length = 4 := rfl
    have split : (walV3Header ++ entries.flatMap WalEntry.frame).take count =
        walV3Header ++ ((wholeRecords WalEntry.frame (count - 4) entries).flatMap WalEntry.frame ++
          tornSymbols WalEntry.frame (count - 4) entries) := by
      rw [take_append, take_of_length_le (header.trans_le (not_lt.mp short)), header,
        take_encodings]
    have whole : ∀ entry ∈ wholeRecords WalEntry.frame (count - 4) entries, entry.Readable :=
      fun entry isWhole => readable entry ((wholeRecords_isPrefix _ entries).subset isWhole)
    rw [split] at replayed
    rw [replayMmap, detectVersion_header] at replayed
    dsimp only at replayed
    rw [drop_left' header, scan_frames whole] at replayed
    generalize (walV3Header ++ ((wholeRecords WalEntry.frame (count - 4) entries).flatMap
      WalEntry.frame ++ tornSymbols WalEntry.frame (count - 4) entries)).length = fileSize at replayed
    generalize (wholeRecords WalEntry.frame (count - 4) entries).foldl ScanPosition.behind ⟨0, 4⟩ =
      position at replayed
    -- the scan stops before the frame that is cut, or refuses the file there
    have turn : (sliceScanner fileSize).next position
          (tornSymbols WalEntry.frame (count - 4) entries) = .stop ∨
        ∃ error, (sliceScanner fileSize).next position
          (tornSymbols WalEntry.frame (count - 4) entries) = .refuse error := by
      rcases tornSymbols_cut (count - 4) entries with nothing | ⟨entry, isEntry, kept, cut, torn⟩
      · rw [nothing]
        exact Or.inl rfl
      · rw [torn]
        exact nextFromSlice_cut (readable entry isEntry) cut
    rcases turn with stops | ⟨error, refuses⟩
    · rw [Scanner.scan_stop stops] at replayed
      cases replayed
      change ((replayedFrom ⟨0, 4⟩ _ ++ []).map Replayed.entry).map WalEntry.logged = _
      rw [append_nil, map_replayedFrom]
    · rw [Scanner.scan_refuse refuses] at replayed
      cases replayed

theorem written_segment (readable : ∀ entry ∈ entries, WalEntry.Readable entry) :
    WrittenWal (walV3Header ++ entries.flatMap WalEntry.frame) (entries.map WalEntry.logged) := by
  have header : walV3Header.length = 4 := rfl
  refine ⟨entries, (walV3Header ++ entries.flatMap WalEntry.frame).length, readable, le_rfl,
    take_length.symm, ?_⟩
  rw [length_append, header, Nat.add_sub_cancel_left, wholeRecords_all]

theorem writtenWal_nil : WrittenWal [] [] where
  segment := ⟨[], 0, fun _ impossible => absurd impossible not_mem_nil, Nat.zero_le _, rfl, rfl⟩

theorem WrittenWal.eq_of_aligned (readable : ∀ entry ∈ entries, WalEntry.Readable entry)
    (written : WrittenWal (walV3Header ++ entries.flatMap WalEntry.frame) ops) :
    ops = entries.map WalEntry.logged := by
  have stops : nextFromSlice (walV3Header ++ (entries.flatMap WalEntry.frame ++ [])).length
      (entries.foldl ScanPosition.behind ⟨0, 4⟩) [] = .stop := rfl
  have replayed := replayMmap_frames readable stops
  rw [append_nil] at replayed
  have logs := written.logs _ _ replayed
  rw [map_replayedFrom] at logs
  exact logs.symm

theorem WrittenWal.truncate (written : WrittenWal file ops)
    {offset : Nat} (inside : offset ≤ file.length) :
    WrittenWal (file.take offset) (keptOps (offset - 4) ops) := by
  obtain ⟨entries, count, readable, bounded, rfl, rfl⟩ := written.segment
  rw [length_take_of_le bounded] at inside
  refine ⟨entries, offset, readable, inside.trans bounded, ?_, ?_⟩
  · rw [take_take, min_eq_left inside]
  · exact keptOps_whole (fun entry isEntry => (readable entry isEntry).typed)
      (Nat.sub_le_sub_right inside 4)

theorem WrittenWal.not_v2 (written : WrittenWal file ops) : (detectVersion file).1 ≠ .v2 := by
  obtain ⟨entries, count, _, inside, rfl, _⟩ := written.segment
  have length := length_take_of_le inside
  by_cases short : count < 4
  · rw [detectVersion, if_neg]
    · exact WalVersion.noConfusion
    · rw [length]
      exact not_le.mpr short
  · have header : walV3Header.length = 4 := rfl
    rw [take_append, take_of_length_le (header.trans_le (not_lt.mp short)),
      detectVersion_header]
    exact WalVersion.noConfusion

section Opening

variable {hmac : HmacFunction} {integrityKey : Bytes}

variable {file : Bytes}

theorem replayed_of_ok {replayed : List Replayed × WalVersion}
    (found : replayWithSizeAndVersion hmac integrityKey none file = .ok replayed) :
    replayMmap file = .ok replayed := by
  rw [replayWithSizeAndVersion] at found
  cases mapped : replayMmap file with
  | ok records =>
    rw [mapped] at found
    exact found
  | error error =>
    rw [mapped] at found
    exact mapped.symm.trans (scanStream_plain_iff.mp found).1

theorem chain_readable (long : ∀ key message, (hmac key message).length = 32)
    {ops : List (WalOp × Nat)} {prev : Hmac} (prevLong : prev.length = 32)
    (typed : ∀ op ∈ ops, op.1.txId < 2 ^ 64 ∧ op.2 < 2 ^ 64 ∧ op.1.payloadSize ≤ maxWalEntrySize ∧
      op.1.key.length ≤ maxWalKeyLen) :
    ∀ entry ∈ Wal.chain (plainCodec hmac integrityKey) prev ops, entry.Readable := by
  induction ops generalizing prev with
  | nil => exact fun _ impossible => absurd impossible not_mem_nil
  | cons op ops ih =>
    obtain ⟨tx, seq, sized, short⟩ := typed op mem_cons_self
    have checksum : (computeChecksumV3 hmac integrityKey op.1 op.2 prev).length = 32 := long _ _
    intro entry isEntry
    rcases mem_cons.mp isEntry with rfl | isLater
    · exact ⟨⟨tx, seq, checksum, prevLong⟩, sized, short⟩
    · exact ih checksum
        (fun other isOther => typed other (mem_cons_of_mem op isOther)) entry isLater

theorem chain_logged (codec : WalCodec) (prev : Hmac) (ops : List (WalOp × Nat)) :
    (Wal.chain codec prev ops).map WalEntry.logged = ops := by
  induction ops generalizing prev with
  | nil => rfl
  | cons op ops ih =>
    exact congrArg (op :: ·) (ih _)

variable {entries : List WalEntry}

theorem chainEnd_length {prev : Hmac} (prevLong : prev.length = 32)
    (readable : ∀ entry ∈ entries, WalEntry.Readable entry) :
    (Wal.chainEnd prev entries).length = 32 := by
  rw [Wal.chainEnd]
  cases last : entries.getLast? with
  | none => exact prevLong
  | some entry => exact (readable entry (mem_of_getLast? last)).typed.checksum

/-- What an open leaves: the operations it returns, in a file that ends with a whole frame. -/
structure Reopened (file : Bytes) (opened : OpenWal) : Prop where
  replayed : ∀ ops, Logs file ops → opened.recovered.map WalEntry.logged = ops
  written : WrittenWal opened.file (opened.recovered.map WalEntry.logged)
  size : opened.size = opened.file.length
  header : opened.headerWritten = decide (4 ≤ opened.file.length)
  lastHmac : opened.lastHmac.length = 32

theorem reopened_segment {entries recovered : List WalEntry} {opened : OpenWal}
    (readable : ∀ entry ∈ entries, WalEntry.Readable entry)
    (same : recovered.map WalEntry.logged = entries.map WalEntry.logged)
    (replays : ∀ ops, Logs file ops → recovered.map WalEntry.logged = ops)
    (isOpened : opened = ⟨walV3Header ++ entries.flatMap WalEntry.frame,
      (walV3Header ++ entries.flatMap WalEntry.frame).length, true,
      Wal.chainEnd zeroHmac entries, recovered⟩) : Reopened file opened := by
  subst isOpened
  refine ⟨replays, ?_, rfl, ?_, chainEnd_length length_replicate readable⟩
  · rw [same]
    exact written_segment readable
  · apply (decide_eq_true _).symm
    rw [length_append]
    exact Nat.le_add_right 4 _

theorem detectVersion_v3 (isV3 : (detectVersion file).1 = .v3) :
    file = walV3Header ++ file.drop 4 ∧ (detectVersion file).2 = 4 := by
  rw [detectVersion] at isV3 ⊢
  by_cases enough : 4 ≤ file.length
  · rw [if_pos enough] at isV3 ⊢
    by_cases header : file.take 4 = walV3Header
    · rw [if_pos header]
      exact ⟨by rw [← header, take_append_drop], rfl⟩
    · rw [if_neg header] at isV3
      split at isV3 <;> cases isV3
  · rw [if_neg enough] at isV3
    cases isV3

theorem openPlaintext_reopened (long : ∀ key message, (hmac key message).length = 32)
    {opened : OpenWal} (succeeded : openPlaintext hmac integrityKey file = .ok opened) :
    Reopened file opened := by
  by_cases empty : file = []
  · rw [openPlaintext, if_pos empty] at succeeded
    cases succeeded
    have replayed : replayMmap file = .ok ([], .v1) := by
      rw [empty]
      exact replayMmap_short (by decide)
    exact ⟨fun ops logs => logs _ _ replayed, writtenWal_nil, rfl, rfl, length_replicate⟩
  · have unfolded := succeeded
    rw [openPlaintext, if_neg empty] at unfolded
    cases found : replayWithSizeAndVersion hmac integrityKey none file with
    | error error =>
      rw [found] at unfolded
      cases unfolded
    | ok replayed =>
      obtain ⟨records, version⟩ := replayed
      have mapped := replayed_of_ok found
      obtain ⟨isVersion, readable, tail, content, torn⟩ := plainSegment_of_replayMmap mapped
      have replays : ∀ ops, Logs file ops →
          (records.map Replayed.entry).map WalEntry.logged = ops :=
        fun ops logs => logs records version mapped
      rw [found] at unfolded
      dsimp only at unfolded
      by_cases isV3 : version = .v3
      · obtain ⟨header, start⟩ := detectVersion_v3 (isVersion ▸ isV3)
        rw [start] at content
        rw [content] at header
        rw [header] at succeeded torn
        rw [← tornTail_behind (records.map Replayed.entry) 4] at torn
        rw [openPlaintext_frames readable (nextFromSlice_eq_stop_iff.mpr torn)] at succeeded
        exact reopened_segment readable rfl replays (Except.ok.inj succeeded).symm
      · rw [if_pos isV3, rewriteAsV3] at unfolded
        dsimp only at unfolded
        split at unfolded
        · cases unfolded
        · rename_i payload written
          obtain ⟨_, rfl⟩ := plainPayload_eq_ok.mp written
          have rewritten : ∀ entry ∈ Wal.chain (plainCodec hmac integrityKey) zeroHmac
              ((records.map Replayed.entry).map fun entry => (entry.op, entry.seqNo)),
              entry.Readable := by
            apply chain_readable long length_replicate
            intro op isOp
            obtain ⟨entry, isEntry, rfl⟩ := List.mem_map.mp isOp
            have read := readable entry isEntry
            exact ⟨read.typed.tx, read.typed.seq, read.sized, read.shortKey⟩
          refine reopened_segment rewritten ?_ replays (Except.ok.inj unfolded).symm
          exact (chain_logged _ _ _).symm

theorem version_of_migratedFrom {version : WalVersion}
    (migrates : migratedFrom hmac integrityKey file = some version) :
    file ≠ [] ∧ version = (detectVersion file).1 ∧ version ≠ .v3 := by
  rw [migratedFrom] at migrates
  split at migrates
  · cases migrates
  · rename_i nonempty
    split at migrates
    · rename_i records found replayed
      split at migrates
      · cases migrates
      · rename_i isOld
        cases migrates
        exact ⟨nonempty, (plainSegment_of_replayMmap (replayed_of_ok replayed)).1, isOld⟩
    · cases migrates

theorem replayMmap_v1 (readable : ∀ entry ∈ entries, entry.Readable)
    (isV1 : detectVersion (entries.flatMap WalEntry.frame) = (.v1, 0)) :
    replayMmap (entries.flatMap WalEntry.frame) = .ok (replayedFrom ⟨0, 0⟩ entries, .v1) := by
  rw [replayMmap, isV1]
  dsimp only
  rw [drop_zero]
  have scanned := @scan_frames (entries.flatMap WalEntry.frame).length ⟨0, 0⟩ entries readable []
  rw [append_nil] at scanned
  have stops : (sliceScanner (entries.flatMap WalEntry.frame).length).next
      (entries.foldl ScanPosition.behind ⟨0, 0⟩) [] = .stop := rfl
  rw [scanned, Scanner.scan_stop stops]
  change Except.ok (replayedFrom ⟨0, 0⟩ entries ++ [], WalVersion.v1) = _
  rw [append_nil]

theorem openPlaintext_v1 (readable : ∀ entry ∈ entries, entry.Readable)
    (nonempty : entries.flatMap WalEntry.frame ≠ [])
    (isV1 : detectVersion (entries.flatMap WalEntry.frame) = (.v1, 0)) :
    migratedFrom hmac integrityKey (entries.flatMap WalEntry.frame) = some .v1 ∧
      ∃ opened, openPlaintext hmac integrityKey (entries.flatMap WalEntry.frame) = .ok opened ∧
        opened.recovered = entries := by
  have replayed : replayWithSizeAndVersion hmac integrityKey none (entries.flatMap WalEntry.frame) =
      .ok (replayedFrom ⟨0, 0⟩ entries, .v1) := by
    rw [replayWithSizeAndVersion, replayMmap_v1 readable isV1]
  constructor
  · rw [migratedFrom, if_neg nonempty, replayed]
    rfl
  · have sized : ∀ entry ∈ Wal.chain (plainCodec hmac integrityKey) zeroHmac
        (entries.map WalEntry.logged), entry.op.payloadSize ≤ maxWalEntrySize := by
      intro entry isEntry
      have isOp : entry.logged ∈ _ := List.mem_map_of_mem isEntry
      rw [chain_logged] at isOp
      obtain ⟨original, isOriginal, same⟩ := List.mem_map.mp isOp
      have sameOp : original.op = entry.op := congrArg Prod.fst same
      exact sameOp ▸ (readable original isOriginal).sized
    have payload : plainPayload (Wal.chain (plainCodec hmac integrityKey) zeroHmac
        (entries.map fun entry => (entry.op, entry.seqNo))) = .ok _ :=
      plainPayload_eq_ok.mpr ⟨sized, rfl⟩
    rw [openPlaintext, if_neg nonempty, replayed]
    dsimp only
    have isOld : WalVersion.v1 ≠ .v3 := WalVersion.noConfusion
    rw [if_pos isOld, map_replayedFrom, rewriteAsV3]
    dsimp only
    rw [payload]
    exact ⟨_, rfl, rfl⟩

theorem unchained_v1 : (∀ entry ∈ [unchained], WalEntry.Readable entry) ∧
    [unchained].flatMap WalEntry.frame ≠ [] ∧
    detectVersion ([unchained].flatMap WalEntry.frame) = (.v1, 0) := by
  refine ⟨?_, ?_, by decide +kernel⟩
  · intro entry isEntry
    obtain rfl := mem_singleton.mp isEntry
    exact ⟨⟨by decide, by decide, rfl, rfl⟩, by decide, by decide⟩
  · rw [flatMap_singleton]
    exact ne_nil_of_length_pos unchained.length_frame_pos

end Opening

section Recovery

variable {path : WalPath}

theorem recover_of_notRestorable (notRestorable : ¬ path.Restorable) :
    path.recoverFromBakIfPresent = path := by
  have absent (bak : Option Bytes) (isBak : bak = path.v1Bak ∨ bak = path.v2Bak) :
      path.restorable bak = none := by
    apply Option.filter_eq_none_iff.mpr
    intro content isContent empty
    obtain ⟨noWal, nonempty⟩ := of_decide_eq_true empty
    rcases isBak with rfl | rfl
    · exact notRestorable ⟨noWal, Or.inl ⟨content, isContent, nonempty⟩⟩
    · exact notRestorable ⟨noWal, Or.inr ⟨content, isContent, nonempty⟩⟩
  rw [WalPath.recoverFromBakIfPresent, absent _ (Or.inl rfl), absent _ (Or.inr rfl)]

theorem recover_of_nonempty (nonempty : path.wal ≠ []) : path.recoverFromBakIfPresent = path :=
  recover_of_notRestorable fun restorable => nonempty restorable.1

variable {content : Bytes}

theorem restorable_eq_some (noWal : path.wal = []) (nonempty : content ≠ []) :
    path.restorable (some content) = some content :=
  Option.filter_some_pos (decide_eq_true ⟨noWal, nonempty⟩)

theorem restorable_none : path.restorable none = none := rfl

theorem recover_handle : path.recoverFromBakIfPresent.handle = path.handle := by
  rw [WalPath.recoverFromBakIfPresent]
  split
  · rfl
  · split <;> rfl

theorem recover_v1Bak (noBackup : path.v1Bak = none) :
    path.recoverFromBakIfPresent.v1Bak = none := by
  rw [WalPath.recoverFromBakIfPresent, noBackup, restorable_none]
  dsimp only
  split
  · rfl
  · exact noBackup

theorem recover_first (noWal : path.wal = []) (nonempty : content ≠ [])
    (isBackup : path.v1Bak = some content) :
    path.recoverFromBakIfPresent = { path with wal := content, v1Bak := none } := by
  rw [WalPath.recoverFromBakIfPresent, isBackup, restorable_eq_some noWal nonempty]

theorem recover_second (noWal : path.wal = []) (nonempty : content ≠ [])
    (noBackup : path.v1Bak = none) (isBackup : path.v2Bak = some content) :
    path.recoverFromBakIfPresent = { path with wal := content, v2Bak := none } := by
  rw [WalPath.recoverFromBakIfPresent, noBackup, restorable_none, isBackup,
    restorable_eq_some noWal nonempty]

theorem backUp_wal (version : Option WalVersion) : (path.backUp version).wal = path.wal := by
  rcases version with _ | _ | _ | _ <;> rfl

theorem backUp_handle (version : Option WalVersion) :
    (path.backUp version).handle = path.handle := by
  rcases version with _ | _ | _ | _ <;> rfl

end Recovery

section Runs

variable {hmac : HmacFunction} {integrityKey : Bytes}

/-- What a call may rely on: nothing is appended behind half a frame, keys can be read back, a
truncation shortens the file, and no empty WAL is closed beside a backup.  Numbers have 64 bits,
hashes 32 bytes. -/
def Orderly (state : LoggedPath) : WalEvent → Prop
  | .openWal _ => True
  | .append ops => Aligned state.path.wal ∧ ∀ op ∈ ops,
      op.1.txId < 2 ^ 64 ∧ op.2 < 2 ^ 64 ∧ op.1.key.length ≤ maxWalKeyLen
  | .truncate offset newLastHmac => offset ≤ state.path.wal.length ∧ newLastHmac.length = 32
  | .close => ¬ state.path.Restorable

/-- A WAL without a handle: the file of the next open logs what is expected.  A backup of V1 is put
back before one of V2, so there is none where a V2 file waits. -/
structure Waits (path : WalPath) (expected : List (WalOp × Nat)) : Prop where
  logs : Logs path.recoverFromBakIfPresent.wal expected
  first : path.v1Bak = none ∨ (detectVersion path.recoverFromBakIfPresent.wal).1 ≠ .v2

structure Appends (path : WalPath) (handle : WalHandle) (expected : List (WalOp × Nat)) : Prop where
  written : WrittenWal path.wal expected
  size : handle.size = path.wal.length
  header : handle.headerWritten = decide (4 ≤ path.wal.length)
  lastHmac : handle.lastHmac.length = 32

def LoggedPath.Settled (state : LoggedPath) : Prop :=
  match state.path.handle with
  | none => Waits state.path state.expected
  | some handle => Appends state.path handle state.expected

variable {expected : List (WalOp × Nat)}

theorem settled_of_closed (path : WalPath)
    (closed : path.handle = none) (waits : Waits path expected) :
    LoggedPath.Settled ⟨path, expected⟩ := by
  rw [LoggedPath.Settled]
  dsimp only
  rw [closed]
  exact waits

variable {file : Bytes}

theorem waits_of_wal {path : WalPath} (nonempty : file ≠ []) (isWal : path.wal = file) (logs : Logs file expected)
    (first : path.v1Bak = none ∨ (detectVersion file).1 ≠ .v2) : Waits path expected := by
  have stays : path.recoverFromBakIfPresent = path :=
    recover_of_nonempty (isWal.symm ▸ nonempty)
  constructor
  · rw [stays, isWal]
    exact logs
  · rw [stays, isWal]
    exact first

theorem backUp_first {path : WalPath} {version : Option WalVersion}
    (first : path.v1Bak = none ∨ (detectVersion file).1 ≠ .v2)
    (isVersion : ∀ found ∈ version, found = (detectVersion file).1) :
    (path.backUp version).v1Bak = none ∨ (detectVersion file).1 ≠ .v2 := by
  rcases version with _ | _ | _ | _
  · exact first
  · refine Or.inr ?_
    rw [← isVersion _ rfl]
    exact WalVersion.noConfusion
  · exact first
  · exact first

variable {opened : OpenWal}

theorem openWithConfig_opened {path recovered : WalPath}
    (recovers : path.recoverFromBakIfPresent = recovered)
    (succeeded : openPlaintext hmac integrityKey recovered.wal = .ok opened) :
    path.openWithConfig hmac integrityKey none =
      (.entries opened.recovered,
        { recovered.backUp (migratedFrom hmac integrityKey recovered.wal) with
          wal := opened.file
          handle := some ⟨opened.size, opened.headerWritten, opened.lastHmac⟩ }) := by
  rw [WalPath.openWithConfig, recovers]
  dsimp only
  rw [succeeded]

theorem openWithConfig_stopped {path recovered : WalPath} {version : WalVersion}
    (recovers : path.recoverFromBakIfPresent = recovered)
    (migrates : migratedFrom hmac integrityKey recovered.wal = some version)
    (succeeded : openPlaintext hmac integrityKey recovered.wal = .ok opened) :
    path.openWithConfig hmac integrityKey (some .beforeRewrite) =
      (.interrupted, { recovered.backUp (some version) with wal := [] }) := by
  rw [WalPath.openWithConfig, recovers]
  dsimp only
  rw [succeeded, migrates]

/-- A migration that stops behind its `set_len` leaves the file to the next open. -/
theorem waits_of_interrupted {path : WalPath} {version : WalVersion}
    (migrates : migratedFrom hmac integrityKey path.wal = some version)
    (logs : Logs path.wal expected)
    (first : path.v1Bak = none ∨ (detectVersion path.wal).1 ≠ .v2) :
    Waits { path.backUp (some version) with wal := [] } expected := by
  obtain ⟨nonempty, isVersion, isOld⟩ := version_of_migratedFrom migrates
  cases version with
  | v1 =>
    have restores : WalPath.recoverFromBakIfPresent { path.backUp (some .v1) with wal := [] } =
        { path with v1Bak := none } := recover_first rfl nonempty rfl
    constructor
    · rw [restores]
      exact logs
    · rw [restores]
      exact Or.inr (isVersion ▸ WalVersion.noConfusion)
  | v2 =>
    have noBackup : path.v1Bak = none := first.resolve_right fun isNot => isNot isVersion.symm
    have restores : WalPath.recoverFromBakIfPresent { path.backUp (some .v2) with wal := [] } =
        { path with v2Bak := none } := recover_second rfl nonempty noBackup rfl
    constructor
    · rw [restores]
      exact logs
    · exact Or.inl noBackup
  | v3 => exact absurd rfl isOld

theorem Waits.openWithConfig (long : ∀ key message, (hmac key message).length = 32) {path : WalPath}
    (closed : path.handle = none) (waits : Waits path expected)
    (interruption : Option Interruption) :
    (∀ entries after, path.openWithConfig hmac integrityKey interruption = (.entries entries, after) →
      entries.map WalEntry.logged = expected) ∧
    LoggedPath.Settled ⟨(path.openWithConfig hmac integrityKey interruption).2, expected⟩ := by
  have first : path.recoverFromBakIfPresent.v1Bak = none ∨
      (detectVersion path.recoverFromBakIfPresent.wal).1 ≠ .v2 :=
    waits.first.imp_left recover_v1Bak
  have noHandle : path.recoverFromBakIfPresent.handle = none := recover_handle.trans closed
  have logs := waits.logs
  rw [WalPath.openWithConfig]
  generalize path.recoverFromBakIfPresent = recovered at *
  have isVersion : ∀ found ∈ migratedFrom hmac integrityKey recovered.wal,
      found = (detectVersion recovered.wal).1 :=
    fun found migrates => (version_of_migratedFrom migrates).2.1
  have backedWaits (nonempty : recovered.wal ≠ []) :
      Waits (recovered.backUp (migratedFrom hmac integrityKey recovered.wal)) expected :=
    waits_of_wal nonempty (backUp_wal _) logs (backUp_first first isVersion)
  have backedHandle : (recovered.backUp (migratedFrom hmac integrityKey recovered.wal)).handle =
      none := (backUp_handle _).trans noHandle
  split
  · rename_i error refused
    have nonempty : recovered.wal ≠ [] := by
      intro empty
      rw [openPlaintext, if_pos empty] at refused
      cases refused
    refine ⟨?_, settled_of_closed _ backedHandle (backedWaits nonempty)⟩
    intro entries after impossible
    cases impossible
  · rename_i opened succeeded
    have reopened := openPlaintext_reopened long succeeded
    split
    · rename_i version migrates
      have nonempty := (version_of_migratedFrom migrates).1
      refine ⟨?_, settled_of_closed _ backedHandle (backedWaits nonempty)⟩
      intro entries after impossible
      cases impossible
    · rename_i version migrates
      constructor
      · intro entries after impossible
        cases impossible
      · have stopped := waits_of_interrupted migrates logs first
        rw [← migrates] at stopped
        exact settled_of_closed { recovered.backUp _ with wal := [] } backedHandle stopped
    · have returned := reopened.replayed expected logs
      constructor
      · intro entries after same
        cases same
        exact returned
      · exact ⟨returned ▸ reopened.written, reopened.size, reopened.header, reopened.lastHmac⟩

variable {handle : WalHandle}

theorem append_eq_ok {path after : WalPath} {ops : List (WalOp × Nat)}
    (appended : path.append hmac integrityKey handle ops = (.ok (), after)) :
    (∀ op ∈ ops, op.1.payloadSize ≤ maxWalEntrySize) ∧
      ∃ header, header = (!handle.headerWritten && decide (handle.size = 0)) ∧
      ∃ entries, entries = Wal.chain (plainCodec hmac integrityKey) handle.lastHmac ops ∧
      ∃ written, written = (if header then walV3Header else []) ++ entries.flatMap WalEntry.frame ∧
      after = { path with
        wal := path.wal ++ written
        handle := some ⟨handle.size + written.length, handle.headerWritten || header,
          Wal.chainEnd handle.lastHmac entries⟩ } := by
  rw [WalPath.append] at appended
  dsimp only at appended
  split at appended
  · cases appended
  · rename_i payload encoded
    obtain ⟨sized, rfl⟩ := plainPayload_eq_ok.mp encoded
    refine ⟨?_, _, rfl, _, rfl, _, rfl, (Prod.mk.inj appended).2.symm⟩
    intro op isOp
    rw [← chain_logged (plainCodec hmac integrityKey) handle.lastHmac ops] at isOp
    obtain ⟨entry, isEntry, rfl⟩ := List.mem_map.mp isOp
    exact sized entry isEntry

theorem append_eq_error {path after : WalPath} {ops : List (WalOp × Nat)}
    {error : WalError} (failed : path.append hmac integrityKey handle ops = (.error error, after)) :
    after = path := by
  rw [WalPath.append] at failed
  dsimp only at failed
  split at failed
  · exact (Prod.mk.inj failed).2.symm
  · cases failed

theorem Appends.append (long : ∀ key message, (hmac key message).length = 32) {path after : WalPath}
    {expected ops : List (WalOp × Nat)} (appends : Appends path handle expected)
    (aligned : Aligned path.wal)
    (typed : ∀ op ∈ ops, op.1.txId < 2 ^ 64 ∧ op.2 < 2 ^ 64 ∧ op.1.key.length ≤ maxWalKeyLen)
    (appended : path.append hmac integrityKey handle ops = (.ok (), after)) :
    ∃ next, after.handle = some next ∧ Appends after next (expected ++ ops) := by
  obtain ⟨sized, header, isHeader, entries, isChain, written, isWritten, rfl⟩ := append_eq_ok appended
  have readable : ∀ entry ∈ entries, WalEntry.Readable entry := by
    rw [isChain]
    apply chain_readable long appends.lastHmac
    intro op isOp
    obtain ⟨tx, seq, short⟩ := typed op isOp
    exact ⟨tx, seq, sized op isOp, short⟩
  have logged : entries.map WalEntry.logged = ops := by
    rw [isChain]
    exact chain_logged _ _ _
  -- with the frames behind it the file is a segment again
  have segment : ∃ all : List WalEntry, (∀ entry ∈ all, WalEntry.Readable entry) ∧
      path.wal ++ written = walV3Header ++ all.flatMap WalEntry.frame ∧
      all.map WalEntry.logged = expected ++ ops ∧
      (handle.headerWritten || header) = true := by
    rcases aligned with empty | ⟨before, beforeReadable, isWal⟩
    · have nothing : expected = [] := by
        have logs := appends.written.logs _ _ (replayMmap_short (by rw [empty]; decide))
        exact logs.symm
      have noHeader : handle.headerWritten = false := by
        rw [appends.header, empty]
        rfl
      have size : handle.size = 0 := by
        rw [appends.size, empty]
        rfl
      have writes : header = true := by
        rw [isHeader, noHeader, size]
        rfl
      refine ⟨entries, readable, ?_, ?_, ?_⟩
      · rw [empty, isWritten, writes]
        rfl
      · rw [nothing, logged]
        rfl
      · rw [writes, Bool.or_true]
    · have longEnough : 4 ≤ path.wal.length := by
        rw [isWal, length_append]
        exact Nat.le_add_right 4 _
      have hasHeader : handle.headerWritten = true := by
        rw [appends.header]
        exact decide_eq_true longEnough
      have writesNone : header = false := by
        rw [isHeader, hasHeader]
        rfl
      have isExpected : expected = before.map WalEntry.logged :=
        WrittenWal.eq_of_aligned beforeReadable (isWal ▸ appends.written)
      refine ⟨before ++ entries, ?_, ?_, ?_, ?_⟩
      · intro entry isEntry
        rcases mem_append.mp isEntry with isBefore | isNew
        · exact beforeReadable entry isBefore
        · exact readable entry isNew
      · rw [isWritten, writesNone, isWal, flatMap_append, append_assoc]
        rfl
      · rw [map_append, ← isExpected, logged]
      · rw [hasHeader, Bool.true_or]
  obtain ⟨all, allReadable, isFile, isExpected, hasHeader⟩ := segment
  refine ⟨_, rfl, ?_, ?_, ?_, chainEnd_length appends.lastHmac readable⟩
  · change WrittenWal (path.wal ++ written) (expected ++ ops)
    rw [isFile, ← isExpected]
    exact written_segment allReadable
  · change handle.size + written.length = (path.wal ++ written).length
    rw [appends.size, length_append]
  · change (handle.headerWritten || header) = decide (4 ≤ (path.wal ++ written).length)
    rw [hasHeader, isFile, length_append]
    exact (decide_eq_true (Nat.le_add_right 4 _)).symm

theorem Appends.truncate {path : WalPath} (appends : Appends path handle expected) {offset : Nat} (inside : offset ≤ path.wal.length)
    {newLastHmac : Hmac} (isHmac : newLastHmac.length = 32) :
    Appends (path.truncate offset newLastHmac) ⟨offset, decide (4 ≤ offset), newLastHmac⟩
      (keptOps (offset - 4) expected) := by
  have shorter : (path.truncate offset newLastHmac).wal = path.wal.take offset := by
    rw [WalPath.truncate]
    dsimp only
    rw [Nat.sub_eq_zero_of_le inside, replicate_zero, append_nil]
  have length : (path.truncate offset newLastHmac).wal.length = offset := by
    rw [shorter, length_take_of_le inside]
  refine ⟨?_, length.symm, ?_, isHmac⟩
  · rw [shorter]
    exact appends.written.truncate inside
  · rw [length]

theorem Appends.close {path : WalPath} (appends : Appends path handle expected) (notRestorable : ¬ path.Restorable) :
    Waits { path with handle := none } expected := by
  have stays : WalPath.recoverFromBakIfPresent { path with handle := none } =
      { path with handle := none } := recover_of_notRestorable notRestorable
  constructor
  · rw [stays]
    exact appends.written.logs
  · rw [stays]
    exact Or.inr appends.written.not_v2

theorem settled_step (long : ∀ key message, (hmac key message).length = 32)
    {state : LoggedPath} {event : WalEvent} {next : LoggedPath} (settled : state.Settled)
    (orderly : Orderly state event)
    (taken : state.step hmac integrityKey event = some next) : next.Settled := by
  rw [LoggedPath.Settled] at settled
  cases event with
  | openWal interruption =>
    rw [LoggedPath.step] at taken
    cases closed : state.path.handle with
    | some handle =>
      rw [closed] at taken
      cases taken
    | none =>
      rw [closed] at taken settled
      cases taken
      exact (settled.openWithConfig long closed interruption).2
  | append ops =>
    rw [LoggedPath.step] at taken
    obtain ⟨handle, isHandle, rfl⟩ := Option.map_eq_some_iff.mp taken
    rw [isHandle] at settled
    split
    · rename_i after appended
      obtain ⟨later, isLater, appends⟩ := settled.append long orderly.1 orderly.2 appended
      rw [LoggedPath.Settled]
      dsimp only
      rw [isLater]
      exact appends
    · rename_i error after failed
      rw [append_eq_error failed, LoggedPath.Settled]
      dsimp only
      rw [isHandle]
      exact settled
  | truncate offset newLastHmac =>
    rw [LoggedPath.step] at taken
    obtain ⟨handle, isHandle, rfl⟩ := Option.map_eq_some_iff.mp taken
    rw [isHandle] at settled
    exact settled.truncate orderly.1 orderly.2
  | close =>
    rw [LoggedPath.step] at taken
    obtain ⟨handle, isHandle, rfl⟩ := Option.map_eq_some_iff.mp taken
    rw [isHandle] at settled
    exact settled.close orderly

theorem settled_initial (file : Bytes) : (LoggedPath.initial file).Settled := by
  have stays : (LoggedPath.initial file).path.recoverFromBakIfPresent =
      (LoggedPath.initial file).path := by
    apply recover_of_notRestorable
    rintro ⟨_, ⟨_, impossible, _⟩ | ⟨_, impossible, _⟩⟩
    · cases impossible
    · cases impossible
  constructor
  · rw [stays]
    exact logs_loggedOps file
  · exact Or.inl rfl

/-- Every open returns the operations that the completed calls have left. -/
theorem run_reopens (long : ∀ key message, (hmac key message).length = 32) {file : Bytes}
    {events : List WalEvent} {final : LoggedPath}
    (orderly : Along (LoggedPath.step hmac integrityKey) Orderly (.initial file) events)
    (finished : run (LoggedPath.step hmac integrityKey) (.initial file) events = some final)
    (closed : final.path.handle = none) (interruption : Option Interruption)
    {entries : List WalEntry} {after : WalPath}
    (opened : final.path.openWithConfig hmac integrityKey interruption = (.entries entries, after)) :
    entries.map WalEntry.logged = final.expected := by
  have settled : final.Settled := by
    refine run_invariant ?_ (settled_initial file) orderly finished
    exact fun _ _ _ settled orderly taken => settled_step long settled orderly taken
  rw [LoggedPath.Settled, closed] at settled
  exact (settled.openWithConfig long closed interruption).1 entries after opened

/-- The entry of a V1 file whose migration stops before it is written anew. -/
theorem run_reopens_interrupted :
    ∃ final, run (LoggedPath.step constantHmac []) (.initial ([unchained].flatMap WalEntry.frame))
        [.openWal (some .beforeRewrite)] = some final ∧
      (final.path.openWithConfig constantHmac [] none).1 = .entries [unchained] ∧
      [unchained].map WalEntry.logged = final.expected := by
  obtain ⟨readable, nonempty, isV1⟩ := unchained_v1
  obtain ⟨migrates, opened, succeeded, recovered⟩ :=
    @openPlaintext_v1 constantHmac [] [unchained] readable nonempty isV1
  generalize [unchained].flatMap WalEntry.frame = file at *
  have stays : WalPath.recoverFromBakIfPresent ⟨file, none, none, none⟩ =
      ⟨file, none, none, none⟩ := rfl
  have restores : WalPath.recoverFromBakIfPresent ⟨[], some file, none, none⟩ =
      ⟨file, none, none, none⟩ := recover_first rfl nonempty rfl
  have stopped := congrArg (fun result => LoggedPath.mk (Prod.snd result) (loggedOps file))
    (openWithConfig_stopped stays migrates succeeded)
  have finished : run (LoggedPath.step constantHmac []) (.initial file)
      [.openWal (some .beforeRewrite)] = some ⟨⟨[], some file, none, none⟩, loggedOps file⟩ :=
    run_cons_eq_some.mpr ⟨_, congrArg some stopped, rfl⟩
  have reopened := openWithConfig_opened restores succeeded
  rw [recovered] at reopened
  have orderly : Along (LoggedPath.step constantHmac []) Orderly (.initial file)
      [.openWal (some .beforeRewrite)] := ⟨trivial, fun _ _ => trivial⟩
  refine ⟨_, finished, by rw [reopened], ?_⟩
  exact run_reopens (fun _ _ => rfl) orderly finished rfl none reopened

theorem truncated_returns (migrates : migratedFrom hmac integrityKey file = some .v1)
    (succeeded : openPlaintext hmac integrityKey file = .ok opened) :
    ∃ final, run (LoggedPath.step hmac integrityKey) (.initial file)
        [.openWal none, .truncate 0 zeroHmac, .close] = some final ∧
      final.path.handle = none ∧ final.expected = [] ∧
      (final.path.openWithConfig hmac integrityKey none).1 = .entries opened.recovered := by
  have nonempty := (version_of_migratedFrom migrates).1
  have nothing (ops : List (WalOp × Nat)) : keptOps (0 - 4) ops = [] := by
    cases ops with
    | nil => rfl
    | cons op ops =>
      rw [keptOps, if_neg]
      rw [WalOp.frameSize]
      omega
  refine ⟨⟨⟨[], some file, none, none⟩, []⟩, ?_, rfl, rfl, ?_⟩
  · have opens : (LoggedPath.initial file).step hmac integrityKey (.openWal none) = some
        ⟨⟨opened.file, some file, none,
          some ⟨opened.size, opened.headerWritten, opened.lastHmac⟩⟩, loggedOps file⟩ := by
      have stays : WalPath.recoverFromBakIfPresent ⟨file, none, none, none⟩ =
          ⟨file, none, none, none⟩ := rfl
      have result := openWithConfig_opened stays succeeded
      dsimp only at result
      rw [migrates] at result
      exact congrArg (fun result => some (LoggedPath.mk (Prod.snd result) (loggedOps file))) result
    have truncates : LoggedPath.step hmac integrityKey
        ⟨⟨opened.file, some file, none,
          some ⟨opened.size, opened.headerWritten, opened.lastHmac⟩⟩, loggedOps file⟩
        (.truncate 0 zeroHmac) =
          some ⟨⟨[], some file, none, some ⟨0, false, zeroHmac⟩⟩, []⟩ := by
      rw [LoggedPath.step, Option.map_some, nothing, WalPath.truncate, take_zero,
        Nat.zero_sub]
      rfl
    apply run_cons_eq_some.mpr ⟨_, opens, ?_⟩
    exact run_cons_eq_some.mpr ⟨_, truncates, rfl⟩
  · have restores : WalPath.recoverFromBakIfPresent ⟨[], some file, none, none⟩ =
        ⟨file, none, none, none⟩ := recover_first rfl nonempty rfl
    rw [openWithConfig_opened restores succeeded]

/-- A V1 file with one entry is migrated and truncated to nothing: the entry returns. -/
theorem truncated_returns_entry :
    ∃ final, run (LoggedPath.step constantHmac []) (.initial ([unchained].flatMap WalEntry.frame))
        [.openWal none, .truncate 0 zeroHmac, .close] = some final ∧
      final.path.handle = none ∧ final.expected = [] ∧
      (final.path.openWithConfig constantHmac [] none).1 = .entries [unchained] := by
  obtain ⟨readable, nonempty, isV1⟩ := unchained_v1
  obtain ⟨migrates, opened, succeeded, recovered⟩ :=
    @openPlaintext_v1 constantHmac [] [unchained] readable nonempty isV1
  obtain ⟨final, finished, closed, nothing, returned⟩ := truncated_returns migrates succeeded
  rw [recovered] at returned
  exact ⟨final, finished, closed, nothing, returned⟩

end Runs

end Contextra.Store
