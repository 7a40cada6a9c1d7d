import Contextra.Store.WalFrames
import Contextra.Store.WalStream

/-!
# Authentic replays

The replay at startup uses the memory-mapped scanner, as compiled without `wal-integrity`: it
accepts every file of well-formed frames, whatever their checksums, and does not decrypt.
-/

namespace Contextra.Store

open Library List

/-- The bytes behind the last entry are taken for a torn tail: they hold no length or less than it
says, which is refused where `first` holds, or one frame with a right checksum that is no entry. -/
def WalTornTail (first : Prop) (tail : Bytes) : Prop :=
  tail.length < 4 ∨ tail.length < 4 + fromLeBytes (tail.take 4) ∧ ¬ first ∨
    tail.length = 4 + fromLeBytes (tail.take 4) ∧
      fromLeBytes (tail.take 4) ≤ maxWalEntrySize ∧
      ∃ error, WalEntry.fromBytes (tail.drop 4) = .error error ∧
        ∀ stored computed, error ≠ .crcMismatch stored computed

theorem handleWalEntryParseError_eq_none_iff {error : WalParseError} {chunkStartPos : Nat}
    {rest : Bytes} :
    handleWalEntryParseError error chunkStartPos rest = none ↔
      rest = [] ∧ ∀ stored computed, error ≠ .crcMismatch stored computed := by
  cases error <;> simp [handleWalEntryParseError]

variable {data : Bytes}

theorem nextFromSlice_eq_stop_iff {fileSize : Nat} {position : ScanPosition} :
    nextFromSlice fileSize position data = .stop ↔
      WalTornTail (position.entriesCount = 0 ∧ 64 < fileSize) data := by
  by_cases short : data.length < 4
  · have none : takeField 4 data = none := takeField_eq_none.mpr short
    refine iff_of_true ?_ (.inl short)
    rw [nextFromSlice, readFrame, none]
    by_cases empty : data = [] <;> simp [empty]
  obtain ⟨lenBytes, behind, rfl, four⟩ : ∃ lenBytes behind : Bytes,
      data = lenBytes ++ behind ∧ lenBytes.length = 4 :=
    ⟨data.take 4, data.drop 4, (take_append_drop 4 data).symm, by
      rw [length_take]
      omega⟩
  have nonempty : lenBytes ++ behind ≠ [] := by
    intro empty
    rw [empty] at short
    exact short (by decide)
  have taken : takeField 4 (lenBytes ++ behind) = some (lenBytes, behind) :=
    takeField_eq_some.mpr ⟨rfl, four⟩
  unfold WalTornTail
  rw [nextFromSlice, readFrame, if_neg nonempty, taken, take_left' four, drop_left' four,
    length_append, four]
  simp only
  by_cases huge : maxWalEntrySize < fromLeBytes lenBytes
  · rw [if_pos huge]
    by_cases missing : behind.length < fromLeBytes lenBytes
    · rw [if_pos missing]
      by_cases first : position.entriesCount = 0 ∧ 64 < fileSize
      · simp [first]
        omega
      · simp [first]
        omega
    · rw [if_neg missing]
      simp
      omega
  · rw [if_neg huge]
    cases field : takeField (fromLeBytes lenBytes) behind with
    | none =>
      have missing := takeField_eq_none.mp field
      by_cases first : position.entriesCount = 0 ∧ 64 < fileSize
      · simp [first]
        omega
      · simp [first]
        omega
    | some found =>
      obtain ⟨raw, rest⟩ := found
      obtain ⟨rfl, long⟩ := takeField_eq_some.mp field
      have enough : ¬ 4 + (raw ++ rest).length < 4 + fromLeBytes lenBytes := by
        rw [length_append]
        omega
      have last : 4 + (raw ++ rest).length = 4 + fromLeBytes lenBytes ↔ rest = [] := by
        rw [length_append, long, ← length_eq_zero_iff]
        omega
      simp only [enough, last, false_and, false_or]
      have bounded : fromLeBytes lenBytes ≤ maxWalEntrySize := by omega
      have notShort : ¬ 4 + (raw ++ rest).length < 4 := by omega
      simp only [notShort, bounded, true_and, false_or]
      cases parsed : WalEntry.fromBytes raw with
      | ok entry =>
        simp only [reduceCtorEq, false_iff]
        rintro ⟨rfl, error, failed, _⟩
        rw [append_nil, parsed] at failed
        contradiction
      | error error =>
        cases tolerated : handleWalEntryParseError error position.pos rest with
        | none =>
          simp only [tolerated, true_iff]
          obtain ⟨rfl, harmless⟩ := handleWalEntryParseError_eq_none_iff.mp tolerated
          exact ⟨rfl, error, by rw [append_nil, parsed], harmless⟩
        | some refused =>
          simp only [tolerated, reduceCtorEq, false_iff]
          rintro ⟨rfl, error', failed, harmless⟩
          rw [append_nil, parsed] at failed
          cases failed
          rw [handleWalEntryParseError_eq_none_iff.mpr ⟨rfl, harmless⟩] at tolerated
          contradiction

/-- The file is a V3 header, the frames of the entries and a torn tail. -/
def PlainFrames (file : Bytes) (entries : List WalEntry) : Prop :=
  (∀ entry ∈ entries, entry.Readable) ∧
    ∃ tail, file = walV3Header ++ (entries.flatMap WalEntry.frame ++ tail) ∧
      WalTornTail (entries = [] ∧ 64 < file.length) tail

theorem tornTail_behind (entries : List WalEntry) (start fileSize : Nat) :
    WalTornTail ((entries.foldl ScanPosition.behind ⟨0, start⟩).entriesCount = 0 ∧ 64 < fileSize) =
      WalTornTail (entries = [] ∧ 64 < fileSize) := by
  rw [behind_foldl]
  simp

variable {entries : List WalEntry}

theorem sliceScan_iff {fileSize start : Nat} :
    (∃ scanned, (sliceScanner fileSize).scan ⟨0, start⟩ data = .ok scanned ∧
        scanned.records.map Replayed.entry = entries) ↔
      (∀ entry ∈ entries, entry.Readable) ∧
        ∃ tail, data = entries.flatMap WalEntry.frame ++ tail ∧
          WalTornTail (entries = [] ∧ 64 < fileSize) tail := by
  constructor
  · rintro ⟨scanned, finished, same⟩
    have trace := Scanner.scan_eq_ok.mp finished
    have content : data = scanned.records.flatMap (fun replayed => replayed.entry.frame) ++
        scanned.rest := trace.log_eq
      fun _ _ _ _ _ found => (nextFromSlice_eq_record found).1
    have each := trace.forall_records (fun replayed => replayed.entry.Readable)
      fun _ _ _ _ _ found => (nextFromSlice_eq_record found).2
    have readable : ∀ entry ∈ entries, entry.Readable := by
      rw [← same]
      simpa using each
    have frames : data = entries.flatMap WalEntry.frame ++ scanned.rest := by
      rw [← same, flatMap_map]
      exact content
    refine ⟨readable, scanned.rest, frames, ?_⟩
    rw [frames, scan_frames readable] at finished
    cases later : (sliceScanner fileSize).scan (entries.foldl ScanPosition.behind ⟨0, start⟩)
        scanned.rest with
    | error error => rw [later] at finished; contradiction
    | ok scanned' =>
      rw [later] at finished
      have nothing : scanned'.records = [] := by
        have records := congrArg Scan.records (Except.ok.inj finished)
        have again := congrArg (List.map Replayed.entry) records
        change (replayedFrom ⟨0, start⟩ entries ++ scanned'.records).map Replayed.entry = _
          at again
        rw [map_append, map_replayedFrom, same] at again
        simpa using again
      have stops := (Scanner.scan_eq_ok.mp later).stop_of_records_nil nothing
      rw [← tornTail_behind entries start]
      exact nextFromSlice_eq_stop_iff.mp stops
  · rintro ⟨readable, tail, rfl, torn⟩
    rw [← tornTail_behind entries start] at torn
    have stops : (sliceScanner fileSize).next
        (entries.foldl ScanPosition.behind ⟨0, start⟩) tail = .stop :=
      nextFromSlice_eq_stop_iff.mpr torn
    rw [scan_frames readable, Scanner.scan_stop stops]
    exact ⟨_, rfl, by simp [Scan.prepend]⟩

theorem replay_eq_ok_iff :
    replay (walV3Header ++ data) = .ok entries ↔ PlainFrames (walV3Header ++ data) entries := by
  have scan : replay (walV3Header ++ data) = .ok entries ↔
      ∃ scanned, (sliceScanner (walV3Header ++ data).length).scan ⟨0, 4⟩ data = .ok scanned ∧
        scanned.records.map Replayed.entry = entries := by
    unfold replay replayMmap
    simp only [detectVersion_header, drop_left' (show walV3Header.length = 4 from rfl)]
    cases (sliceScanner (walV3Header ++ data).length).scan ⟨0, 4⟩ data with
    | error error => simp [Except.map]
    | ok scanned => simp [Except.map]
  rw [scan, sliceScan_iff, PlainFrames]
  simp only [append_cancel_left_eq]

theorem framePlaintexts_first {current : Bytes} (nonempty : current ≠ [])
    (entries : List (Bool × Bytes)) :
    ∃ first later, framePlaintexts current entries = first :: later ∧ current <+: first := by
  induction entries generalizing current with
  | nil => exact ⟨current, [], by rw [framePlaintexts, if_neg nonempty], prefix_rfl⟩
  | cons entry entries ih =>
    obtain ⟨isTxEnd, bytes⟩ := entry
    unfold framePlaintexts
    split
    · exact ⟨current, _, rfl, prefix_rfl⟩
    · split
      · exact ⟨current ++ bytes, _, rfl, prefix_append current bytes⟩
      · have longer : current ++ bytes ≠ [] := by simp [nonempty]
        obtain ⟨first, later, frames, grows⟩ := ih longer
        exact ⟨first, later, frames, (prefix_append current bytes).trans grows⟩

variable {km : KeyManager} {payload : Bytes}

theorem encryptedPayload_first {counter : Nat} {entry : WalEntry}
        (written : encryptedPayload km counter (entry :: entries) = .ok payload) :
    ∃ raw rest, payload = toLeBytes 4 raw.length ++ (raw ++ rest) ∧
      raw.length ≤ maxWalEntrySize ∧ entry.frame.length + 28 ≤ raw.length := by
  unfold encryptedPayload serializedEntries at written
  cases encoded : entry.toBytes with
  | error error => rw [encoded] at written; contradiction
  | ok bytes =>
    rw [encoded] at written
    obtain ⟨_, rfl⟩ := WalEntry.toBytes_eq_ok.mp encoded
    by_cases tooLong : maxPlaintextPerFrame < entry.frame.length
    · simp only [if_pos tooLong] at written
      contradiction
    simp only [if_neg tooLong] at written
    cases serialized : serializedEntries entries with
    | error error => rw [serialized] at written; contradiction
    | ok later =>
      rw [serialized] at written
      have nonempty : entry.frame ≠ [] := ne_nil_of_length_pos entry.length_frame_pos
      obtain ⟨first, more, frames, grows⟩ : ∃ first more,
          framePlaintexts [] ((entry.op.isTxEnd, entry.frame) :: later) = first :: more ∧
            entry.frame <+: first := by
        unfold framePlaintexts
        rw [if_neg (by simp)]
        split
        · exact ⟨entry.frame, _, rfl, prefix_rfl⟩
        · exact framePlaintexts_first nonempty later
      simp only [frames, sealFrames] at written
      have size := km.length_encrypt (km.nonce counter) first
      have nonce := km.length_nonce counter
      have longer := grows.length_le
      unfold sealFrame at written
      simp only at written
      split at written
      · contradiction
      · rename_i sealed
        split at sealed
        · contradiction
        cases sealed
        split at written
        · contradiction
        · rename_i frames' _
          cases written
          refine ⟨km.nonce counter ++ km.encrypt (km.nonce counter) first, frames', ?_, ?_, ?_⟩
          · simp [nonce]
          · rw [length_append]
            omega
          · rw [length_append]
            omega

/-- The payload of a segment to which batches were appended under a key manager. -/
inductive EncryptedSegment (km : KeyManager) : List WalEntry → Bytes → Prop
  | empty : EncryptedSegment km [] []
  | append {entries payload counter batch bytes} :
      EncryptedSegment km entries payload → encryptedPayload km counter batch = .ok bytes →
      EncryptedSegment km (entries ++ batch) (payload ++ bytes)

theorem EncryptedSegment.first (segment : EncryptedSegment km entries payload) :
    (entries = [] ∧ payload = []) ∨
      ∃ entry later raw rest, entries = entry :: later ∧
        payload = toLeBytes 4 raw.length ++ (raw ++ rest) ∧
        raw.length ≤ maxWalEntrySize ∧ entry.frame.length + 28 ≤ raw.length := by
  induction segment with
  | empty => exact .inl ⟨rfl, rfl⟩
  | @append entries payload counter batch bytes _ written ih =>
    rcases ih with ⟨rfl, rfl⟩ | ⟨entry, later, raw, rest, rfl, rfl, short, long⟩
    · cases batch with
      | nil =>
        cases written
        exact .inl ⟨rfl, rfl⟩
      | cons entry batch =>
        obtain ⟨raw, rest, rfl, short, long⟩ := encryptedPayload_first written
        exact .inr ⟨entry, batch, raw, rest, rfl, rfl, short, long⟩
    · refine .inr ⟨entry, later ++ batch, raw, rest ++ bytes, rfl, ?_, short, long⟩
      simp

theorem replay_encrypted (segment : EncryptedSegment km entries payload) :
    replay (walV3Header ++ payload) = .ok entries ↔ entries = [] := by
  rcases segment.first with ⟨rfl, rfl⟩ | ⟨entry, later, raw, rest, rfl, rfl, short, long⟩
  · refine iff_of_true ?_ rfl
    exact replay_eq_ok_iff.mpr ⟨by simp, [], rfl, .inl (by simp)⟩
  · refine iff_of_false ?_ (cons_ne_nil _ _)
    intro replayed
    obtain ⟨readable, tail, content, _⟩ := replay_eq_ok_iff.mp replayed
    have head := readable entry mem_cons_self
    have size := head.typed.length_payload
    have total := entry.length_frame
    have small : maxWalEntrySize < 256 ^ 4 := by decide
    have sized := head.sized
    -- the length in front of the first frame is not the one of the entry
    rw [append_cancel_left_eq, flatMap_cons, WalEntry.frame, append_assoc,
      append_assoc] at content
    have lengths := (append_inj content (by simp)).1
    have same := congrArg fromLeBytes lengths
    rw [fromLeBytes_toLeBytes (by omega), fromLeBytes_toLeBytes (by omega)] at same
    omega

/-- The replay of a segment returns authentic chains only, and where batches were appended
under its key manager it returns their entries. -/
structure ReplaysAuthentic (hmac : HmacFunction) (km : Option KeyManager) (fallback file : Bytes) :
    Prop where
  authentic : ∀ entries, replay file = .ok entries →
    Authentic hmac (getIntegrityKey km fallback) zeroHmac entries
  encrypted : ∀ manager entries payload, km = some manager →
    EncryptedSegment manager entries payload → file = walV3Header ++ payload →
      replay file = .ok entries

/-- A V3 segment is replayed as it should be if and only if the plain frames in it, if it
holds any, are an authentic chain, and it is not an encrypted one with entries. -/
theorem replaysAuthentic_iff {hmac : HmacFunction} {km : Option KeyManager} {fallback data : Bytes} :
    ReplaysAuthentic hmac km fallback (walV3Header ++ data) ↔
      (∀ entries, PlainFrames (walV3Header ++ data) entries →
        Authentic hmac (getIntegrityKey km fallback) zeroHmac entries) ∧
      ∀ manager entries, km = some manager → EncryptedSegment manager entries data →
        entries = [] := by
  constructor
  · intro replays
    refine ⟨fun entries frames => replays.authentic entries (replay_eq_ok_iff.mpr frames), ?_⟩
    intro manager entries same segment
    exact (replay_encrypted segment).mp (replays.encrypted manager entries data same segment rfl)
  · rintro ⟨chained, plain⟩
    refine ⟨fun entries replayed => chained entries (replay_eq_ok_iff.mp replayed), ?_⟩
    intro manager entries payload same segment content
    obtain rfl := append_cancel_left content
    exact (replay_encrypted segment).mpr (plain manager entries same segment)

/-- An entry that names a checksum before it although it is the first of its segment. -/
def unchained : WalEntry := ⟨.txEnd 1 true, 1, zeroHmac, replicate 32 1⟩

/-- Under no hash and no key is the entry authentic, but it is replayed. -/
theorem replay_accepts_unchained :
    replay (walV3Header ++ unchained.frame) = .ok [unchained] ∧
      ∀ (hmac : HmacFunction) (km : Option KeyManager) (fallback : Bytes),
        ¬ ReplaysAuthentic hmac km fallback (walV3Header ++ unchained.frame) := by
  have readable : unchained.Readable :=
    ⟨⟨by decide, by decide, rfl, rfl⟩, by decide, by decide⟩
  have replayed : replay (walV3Header ++ unchained.frame) = .ok [unchained] :=
    replay_eq_ok_iff.mpr ⟨by simpa using readable, [], by simp, .inl (by simp)⟩
  refine ⟨replayed, fun hmac km fallback replays => ?_⟩
  obtain ⟨linked, _⟩ := replays.authentic _ replayed
  exact absurd linked (by decide)

end Contextra.Store
