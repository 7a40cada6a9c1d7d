import Contextra.Store.WalBytes

/-!
# Frames of a WAL segment

An entry is read back from its own frame, unless its key is longer than the reader allows:
the writer does not check that.  What is read as an entry is the frame of that entry.
-/

namespace Contextra.Store

open Library List

theorem WalOp.length_toBytes (op : WalOp) : 76 + op.toBytes.length = op.payloadSize := by
  cases op <;> simp [WalOp.toBytes, WalOp.payloadSize] <;> omega

namespace WalEntry

/-- `to_bytes` accepts the entry, and its key is one that `from_bytes` allows. -/
structure Readable (entry : WalEntry) : Prop where
  typed : entry.Typed
  sized : entry.op.payloadSize ≤ maxWalEntrySize
  shortKey : entry.op.key.length ≤ maxWalKeyLen

theorem Typed.length_payload {entry : WalEntry} (typed : entry.Typed) :
    4 + entry.payload.length = entry.op.payloadSize := by
  have size := entry.op.length_toBytes
  simp only [payload, length_append, length_toLeBytes, typed.checksum, typed.prevHmac]
  omega

theorem length_frame (entry : WalEntry) : entry.frame.length = 8 + entry.payload.length := by
  simp [frame]
  omega

theorem length_frame_pos (entry : WalEntry) : 0 < entry.frame.length := by
  rw [length_frame]
  omega

theorem toBytes_eq_ok {entry : WalEntry} {bytes : Bytes} :
    entry.toBytes = .ok bytes ↔ entry.op.payloadSize ≤ maxWalEntrySize ∧ bytes = entry.frame := by
  unfold toBytes
  split
  · simp
    omega
  · simp only [Except.ok.injEq]
    exact ⟨fun same => ⟨by omega, same.symm⟩, fun both => both.2.symm⟩

theorem parseKey_append (key rest : Bytes) (bounded : key.length < 256 ^ 4) :
    parseKey (toLeBytes 4 key.length ++ (key ++ rest)) =
      if maxWalKeyLen < key.length then .error .oversizedKey else .ok (key, rest) := by
  simp only [parseKey, takeField_toLeBytes, fromLeBytes_toLeBytes bounded, takeField_append]

theorem parseOp_toBytes {op : WalOp} (tx : op.txId < 2 ^ 64) (sized : op.payloadSize ≤ maxWalEntrySize) :
    ∃ opType body, op.toBytes = opType :: body ∧
      parseOp opType body =
        if maxWalKeyLen < op.key.length then .error .oversizedKey else .ok (op, []) := by
  have total := op.length_toBytes
  have small : maxWalEntrySize < 256 ^ 4 := by decide
  cases op with
  | put tx' key value =>
    refine ⟨0, _, rfl, ?_⟩
    simp only [WalOp.toBytes, length_cons, length_append, length_toLeBytes] at total
    have keyRead := parseKey_append key (toLeBytes 4 value.length ++ value) (by omega)
    have valueLen : fromLeBytes (toLeBytes 4 value.length) = value.length :=
      fromLeBytes_toLeBytes (by omega)
    have valueRead : takeField value.length value = some (value, []) :=
      takeField_eq_some.mpr ⟨(append_nil value).symm, rfl⟩
    have txRead : fromLeBytes (toLeBytes 8 tx') = tx' := fromLeBytes_toLeBytes tx
    change _ = if maxWalKeyLen < key.length then _ else _
    simp only [parseOp, UInt8.toNat_zero, takeField_toLeBytes, keyRead]
    by_cases oversized : maxWalKeyLen < key.length
    · simp only [if_pos oversized]
    · simp only [if_neg oversized, takeField_toLeBytes, valueLen, valueRead, txRead]
      rw [if_neg (by omega)]
  | delete tx' key =>
    refine ⟨1, _, rfl, ?_⟩
    simp only [WalOp.toBytes, length_cons, length_append, length_toLeBytes] at total
    have keyRead := parseKey_append key [] (by omega)
    have txRead : fromLeBytes (toLeBytes 8 tx') = tx' := fromLeBytes_toLeBytes tx
    rw [append_nil] at keyRead
    change _ = if maxWalKeyLen < key.length then _ else _
    simp only [parseOp, UInt8.toNat_one, takeField_toLeBytes, keyRead]
    by_cases oversized : maxWalKeyLen < key.length
    · simp only [if_pos oversized]
    · simp only [if_neg oversized, txRead]
  | txEnd tx' committed =>
    refine ⟨2, _, rfl, ?_⟩
    have txRead : fromLeBytes (toLeBytes 8 tx') = tx' := fromLeBytes_toLeBytes tx
    have two : (2 : UInt8).toNat = 2 := rfl
    simp only [parseOp, two, takeField_toLeBytes, txRead, WalOp.key]
    cases committed <;> rfl

theorem fromBytes_payload {entry : WalEntry} (typed : entry.Typed)
    (sized : entry.op.payloadSize ≤ maxWalEntrySize) :
    fromBytes (toLeBytes 4 (crc32 entry.payload) ++ entry.payload) =
      if maxWalKeyLen < entry.op.key.length then .error .oversizedKey else .ok entry := by
  obtain ⟨opType, body, op_eq, parsed⟩ := parseOp_toBytes typed.tx sized
  have crc := fromLeBytes_toLeBytes (crc32_lt entry.payload)
  have seqRead : fromLeBytes (toLeBytes 8 entry.seqNo) = entry.seqNo :=
    fromLeBytes_toLeBytes typed.seq
  have checksumRead : takeField 32 (entry.checksum ++ (entry.prevHmac ++ opType :: body)) =
      some (entry.checksum, entry.prevHmac ++ opType :: body) :=
    takeField_eq_some.mpr ⟨rfl, typed.checksum⟩
  have prevRead : takeField 32 (entry.prevHmac ++ opType :: body) =
      some (entry.prevHmac, opType :: body) :=
    takeField_eq_some.mpr ⟨rfl, typed.prevHmac⟩
  simp only [fromBytes, takeField_toLeBytes, crc, ne_eq, not_true, if_false]
  simp only [payload, op_eq, takeField_toLeBytes, checksumRead, prevRead, parsed, seqRead]
  by_cases oversized : maxWalKeyLen < entry.op.key.length
  · simp only [if_pos oversized]
  · simp only [if_neg oversized]

theorem parseKey_eq_ok {data key rest : Bytes} (parsed : parseKey data = .ok (key, rest)) :
    data = toLeBytes 4 key.length ++ (key ++ rest) ∧ key.length ≤ maxWalKeyLen := by
  unfold parseKey at parsed
  split at parsed
  · contradiction
  rename_i keyLen behind taken
  obtain ⟨rfl, four⟩ := takeField_eq_some.mp taken
  split at parsed
  · contradiction
  rename_i bounded
  split at parsed
  · contradiction
  rename_i found takenKey
  cases parsed
  obtain ⟨rfl, long⟩ := takeField_eq_some.mp takenKey
  refine ⟨?_, by omega⟩
  rw [long, ← four, toLeBytes_fromLeBytes]

theorem parseOp_eq_ok {opType : UInt8} {data rest : Bytes} {op : WalOp}
    (parsed : parseOp opType data = .ok (op, rest)) :
    opType :: data = op.toBytes ++ rest ∧ op.txId < 2 ^ 64 ∧ op.key.length ≤ maxWalKeyLen := by
  have tagged : ∀ tag : Nat, opType.toNat = tag → opType = UInt8.ofNat tag := by
    rintro _ rfl
    simp
  have txBound : ∀ tx : Bytes, tx.length = 8 → fromLeBytes tx < 2 ^ 64 := by
    intro tx eight
    have bound := fromLeBytes_lt tx
    rwa [eight] at bound
  have txBytes : ∀ tx : Bytes, tx.length = 8 → toLeBytes 8 (fromLeBytes tx) = tx := by
    intro tx eight
    rw [← eight, toLeBytes_fromLeBytes]
  unfold parseOp at parsed
  split at parsed
  · rename_i zero
    split at parsed
    · contradiction
    rename_i tx behind takenTx
    obtain ⟨rfl, eight⟩ := takeField_eq_some.mp takenTx
    split at parsed
    · contradiction
    rename_i key behindKey keyParsed
    obtain ⟨rfl, short⟩ := parseKey_eq_ok keyParsed
    split at parsed
    · contradiction
    rename_i valLen behindLen takenLen
    obtain ⟨rfl, four⟩ := takeField_eq_some.mp takenLen
    split at parsed
    · contradiction
    split at parsed
    · contradiction
    rename_i value behindValue takenValue
    obtain ⟨rfl, long⟩ := takeField_eq_some.mp takenValue
    cases parsed
    refine ⟨?_, txBound tx eight, short⟩
    have lenBytes : toLeBytes 4 value.length = valLen := by
      rw [long, ← four, toLeBytes_fromLeBytes]
    simp only [WalOp.toBytes, txBytes tx eight, lenBytes, tagged 0 zero, cons_append,
      append_assoc]
    rfl
  · rename_i one
    split at parsed
    · contradiction
    rename_i tx behind takenTx
    obtain ⟨rfl, eight⟩ := takeField_eq_some.mp takenTx
    split at parsed
    · contradiction
    rename_i key behindKey keyParsed
    obtain ⟨rfl, short⟩ := parseKey_eq_ok keyParsed
    cases parsed
    refine ⟨?_, txBound tx eight, short⟩
    simp only [WalOp.toBytes, txBytes tx eight, tagged 1 one, cons_append, append_assoc]
    rfl
  · rename_i two
    split at parsed
    · contradiction
    · contradiction
    rename_i tx byte behind takenTx
    obtain ⟨rfl, eight⟩ := takeField_eq_some.mp takenTx
    split at parsed
    · contradiction
    rename_i bounded
    cases parsed
    refine ⟨?_, txBound tx eight, Nat.zero_le _⟩
    have committed : committedByte (byte = 1) = byte := by
      have small : byte.toNat = 0 ∨ byte.toNat = 1 := by omega
      rcases small with zero | one
      · rw [UInt8.toNat_inj.mp (zero.trans UInt8.toNat_zero.symm)]
        rfl
      · rw [UInt8.toNat_inj.mp (one.trans UInt8.toNat_one.symm)]
        rfl
    simp only [WalOp.toBytes, txBytes tx eight, tagged 2 two, committed, cons_append,
      append_assoc]
    rfl
  · contradiction

theorem fromBytes_eq_ok {data : Bytes} {entry : WalEntry} (parsed : fromBytes data = .ok entry) :
    data = toLeBytes 4 (crc32 entry.payload) ++ entry.payload ∧ entry.Typed ∧
      entry.op.key.length ≤ maxWalKeyLen := by
  unfold fromBytes at parsed
  split at parsed
  · contradiction
  rename_i storedCrc body takenCrc
  obtain ⟨rfl, four⟩ := takeField_eq_some.mp takenCrc
  split at parsed
  · contradiction
  rename_i sameCrc
  rw [not_not] at sameCrc
  split at parsed
  · contradiction
  rename_i seqNo behindSeq takenSeq
  obtain ⟨rfl, eight⟩ := takeField_eq_some.mp takenSeq
  split at parsed
  · contradiction
  rename_i checksum behindChecksum takenChecksum
  obtain ⟨rfl, checksumLong⟩ := takeField_eq_some.mp takenChecksum
  split at parsed
  · contradiction
  · contradiction
  rename_i prevHmac opType remaining takenPrev
  obtain ⟨rfl, prevLong⟩ := takeField_eq_some.mp takenPrev
  split at parsed
  · contradiction
  · rename_i op opParsed
    cases parsed
    obtain ⟨opBytes, tx, short⟩ := parseOp_eq_ok opParsed
    have seqBound := fromLeBytes_lt seqNo
    rw [eight] at seqBound
    rw [append_nil] at opBytes
    have seqBytes : toLeBytes 8 (fromLeBytes seqNo) = seqNo := by
      rw [← eight, toLeBytes_fromLeBytes]
    have same : payload ⟨op, fromLeBytes seqNo, checksum, prevHmac⟩ =
        seqNo ++ (checksum ++ (prevHmac ++ opType :: remaining)) := by
      rw [payload, seqBytes, opBytes]
    refine ⟨?_, ⟨tx, seqBound, checksumLong, prevLong⟩, short⟩
    rw [same, ← sameCrc, ← four, toLeBytes_fromLeBytes]
  · contradiction

end WalEntry

section Frames

variable {fileSize : Nat} {position : ScanPosition} {entry : WalEntry}

theorem readFrame_frame (typed : entry.Typed) (sized : entry.op.payloadSize ≤ maxWalEntrySize)
    (rest : Bytes) :
    readFrame fileSize position (entry.frame ++ rest) =
      .frame (toLeBytes 4 (crc32 entry.payload) ++ entry.payload) rest := by
  have size := typed.length_payload
  have len : fromLeBytes (toLeBytes 4 entry.op.payloadSize) = entry.op.payloadSize :=
    fromLeBytes_toLeBytes (Nat.lt_of_le_of_lt sized (by decide))
  have nonempty : entry.frame ++ rest ≠ [] := by
    simp [WalEntry.frame, toLeBytes]
  have taken : takeField entry.op.payloadSize
      (toLeBytes 4 (crc32 entry.payload) ++ (entry.payload ++ rest)) =
        some (toLeBytes 4 (crc32 entry.payload) ++ entry.payload, rest) := by
    rw [takeField_eq_some, append_assoc]
    exact ⟨rfl, by simp [size]⟩
  rw [readFrame, if_neg nonempty]
  simp only [WalEntry.frame, append_assoc, takeField_toLeBytes, len, taken]
  rw [if_neg (by omega)]

theorem readFrame_take (typed : entry.Typed) (sized : entry.op.payloadSize ≤ maxWalEntrySize)
    {kept : Nat} (cut : kept < entry.frame.length) :
    readFrame fileSize position (entry.frame.take kept) =
      if 4 ≤ kept ∧ position.entriesCount = 0 ∧ 64 < fileSize then
        .refuse (.corruption position.pos (.exceedsFileSize entry.op.payloadSize fileSize))
      else .stop := by
  have size := typed.length_payload
  have total := entry.length_frame
  unfold readFrame
  split
  · rename_i empty
    have nothing : kept = 0 := by
      have none := congrArg List.length empty
      simp only [length_take, length_nil] at none
      omega
    rw [if_neg (by omega)]
  · by_cases lengthLost : kept < 4
    · have none : takeField 4 (entry.frame.take kept) = none := by
        rw [takeField_eq_none, length_take]
        omega
      rw [none, if_neg (by omega)]
    · have split : entry.frame.take kept = toLeBytes 4 entry.op.payloadSize ++
          (toLeBytes 4 (crc32 entry.payload) ++ entry.payload).take (kept - 4) := by
        rw [WalEntry.frame, take_append, take_of_length_le (by simp; omega),
          length_toLeBytes]
      have len : fromLeBytes (toLeBytes 4 entry.op.payloadSize) = entry.op.payloadSize :=
        fromLeBytes_toLeBytes (Nat.lt_of_le_of_lt sized (by decide))
      have missing : takeField entry.op.payloadSize
          ((toLeBytes 4 (crc32 entry.payload) ++ entry.payload).take (kept - 4)) = none := by
        rw [takeField_eq_none, length_take]
        simp only [length_append, length_toLeBytes]
        omega
      simp only [split, takeField_toLeBytes, len, missing]
      rw [if_neg (by omega)]
      by_cases first : position.entriesCount = 0 ∧ 64 < fileSize
      · rw [if_pos first, if_pos ⟨by omega, first⟩]
      · rw [if_neg first, if_neg (fun both => first both.2)]

def ScanPosition.behind (position : ScanPosition) (entry : WalEntry) : ScanPosition :=
  ⟨position.entriesCount + 1, position.pos + entry.frame.length⟩

def ScanPosition.replayed (position : ScanPosition) (entry : WalEntry) : Replayed :=
  ⟨entry, position.pos + entry.frame.length⟩

theorem nextFromSlice_frame (readable : entry.Readable) (rest : Bytes) :
    nextFromSlice fileSize position (entry.frame ++ rest) =
      .record (position.replayed entry) (position.behind entry) rest := by
  have parsed := WalEntry.fromBytes_payload readable.typed readable.sized
  rw [if_neg (Nat.not_lt_of_le readable.shortKey)] at parsed
  have long : 4 + (toLeBytes 4 (crc32 entry.payload) ++ entry.payload).length =
      entry.frame.length := by
    rw [WalEntry.length_frame, length_append, length_toLeBytes]
    omega
  simp only [nextFromSlice, readFrame_frame readable.typed readable.sized, parsed, long]
  rfl

theorem nextFromSlice_eq_record {data rest : Bytes} {replayed : Replayed} {position' : ScanPosition}
    (found : nextFromSlice fileSize position data = .record replayed position' rest) :
    data = replayed.entry.frame ++ rest ∧ replayed.entry.Readable := by
  unfold nextFromSlice at found
  split at found
  · contradiction
  · contradiction
  rename_i raw behind read
  obtain ⟨rfl, bounded⟩ := readFrame_eq_frame read
  simp only at found
  split at found
  · rename_i entry parsed
    cases found
    obtain ⟨rfl, typed, short⟩ := WalEntry.fromBytes_eq_ok parsed
    have size := typed.length_payload
    have long : (toLeBytes 4 (crc32 entry.payload) ++ entry.payload).length =
        entry.op.payloadSize := by
      rw [length_append, length_toLeBytes, size]
    exact ⟨by rw [long, WalEntry.frame], ⟨typed, long ▸ bounded, short⟩⟩
  · split at found <;> contradiction

end Frames

def replayedFrom (position : ScanPosition) (entries : List WalEntry) : List Replayed :=
  Scanner.recordsAlong ScanPosition.replayed ScanPosition.behind position entries

@[simp] theorem map_replayedFrom (position : ScanPosition) (entries : List WalEntry) :
    (replayedFrom position entries).map Replayed.entry = entries := by
  induction entries generalizing position with
  | nil => rfl
  | cons entry entries ih =>
    exact congrArg (entry :: ·) (ih (position.behind entry))

theorem getLast?_replayedFrom (position : ScanPosition) (entries : List WalEntry) :
    (replayedFrom position entries).getLast? =
      entries.getLast?.map fun last =>
        ⟨last, position.pos + (entries.flatMap WalEntry.frame).length⟩ := by
  induction entries generalizing position with
  | nil => rfl
  | cons entry entries ih =>
    have later := ih (position.behind entry)
    cases entries with
    | nil => simp [replayedFrom, Scanner.recordsAlong, ScanPosition.replayed]
    | cons next entries =>
      change ((position.replayed entry) :: replayedFrom (position.behind entry)
        (next :: entries)).getLast? = _
      have nonempty : replayedFrom (position.behind entry) (next :: entries) ≠ [] :=
        cons_ne_nil _ _
      rw [getLast?_cons_of_ne_nil nonempty, later, getLast?_cons_cons]
      congr 1
      funext last
      rw [flatMap_cons (x := entry), length_append]
      simp only [ScanPosition.behind, Nat.add_assoc]

theorem behind_foldl (position : ScanPosition) (entries : List WalEntry) :
    entries.foldl ScanPosition.behind position =
      ⟨position.entriesCount + entries.length,
        position.pos + (entries.flatMap WalEntry.frame).length⟩ := by
  induction entries generalizing position with
  | nil => rfl
  | cons entry entries ih =>
    rw [foldl_cons, ih]
    simp [ScanPosition.behind]
    omega

theorem scan_frames {fileSize : Nat} {position : ScanPosition} {entries : List WalEntry}
    (readable : ∀ entry ∈ entries, entry.Readable) (tail : Bytes) :
    (sliceScanner fileSize).scan position (entries.flatMap WalEntry.frame ++ tail) =
      ((sliceScanner fileSize).scan (entries.foldl ScanPosition.behind position) tail).map
        (Scan.prepend (replayedFrom position entries)) := by
  apply Scanner.scan_items ScanPosition.replayed ScanPosition.behind
  intro entry mem position rest
  exact nextFromSlice_frame (readable entry mem) rest

theorem detectVersion_header (data : Bytes) : detectVersion (walV3Header ++ data) = (.v3, 4) := by
  have four : 4 ≤ (walV3Header ++ data).length := by
    simp [walV3Header]
  rw [detectVersion, if_pos four, if_pos (take_left' (show walV3Header.length = 4 from rfl))]

section Chains

variable {hmac : HmacFunction} {integrityKey : Bytes}

theorem Authentic.append {prev : Hmac} {entries later : List WalEntry}
    (authentic : Authentic hmac integrityKey prev entries)
    (goes_on : Authentic hmac integrityKey (Wal.chainEnd prev entries) later) :
    Authentic hmac integrityKey prev (entries ++ later) := by
  induction entries generalizing prev with
  | nil => exact goes_on
  | cons entry entries ih =>
    obtain ⟨linked, computed, rest⟩ := authentic
    rw [cons_append]
    refine ⟨linked, computed, ih rest ?_⟩
    cases entries with
    | nil => simpa [Wal.chainEnd] using goes_on
    | cons next entries =>
      simpa only [Wal.chainEnd, getLast?_cons_cons, getLast?_cons, Option.map_some,
        Option.getD_some] using goes_on

theorem authentic_chain (prev : Hmac) (ops : List (WalOp × Nat)) :
    Authentic hmac integrityKey prev
      (Wal.chain (WalCodec.plain (computeChecksumV3 hmac integrityKey)) prev ops) := by
  induction ops generalizing prev with
  | nil => trivial
  | cons op ops ih => exact ⟨rfl, rfl, ih _⟩

end Chains

end Contextra.Store
