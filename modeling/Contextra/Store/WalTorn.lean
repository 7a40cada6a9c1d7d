import Contextra.Store.WalFrames
import Contextra.Store.WalStream

/-!
# Torn writes of a WAL segment

A crash leaves a prefix of a plaintext segment.  Opening it cuts the segment behind the last
complete frame, unless the file is longer than 64 bytes and holds no complete frame, or a
complete frame holds a key that the reader does not allow.
-/

namespace Contextra.Store

open Library List

variable {entries : List Replayed} {version : WalVersion}

theorem replayMmap_keys {file : Bytes} (replayed : replayMmap file = .ok (entries, version)) :
    ∀ entry ∈ entries, entry.entry.op.key.length ≤ maxWalKeyLen := by
  unfold replayMmap at replayed
  simp only at replayed
  cases scanned : (sliceScanner file.length).scan ⟨0, (detectVersion file).2⟩
      (file.drop (detectVersion file).2) with
  | error error => rw [scanned] at replayed; contradiction
  | ok scan =>
    rw [scanned] at replayed
    cases replayed
    apply (Scanner.scan_eq_ok.mp scanned).forall_records
      fun entry => entry.entry.op.key.length ≤ maxWalKeyLen
    exact fun _ _ _ _ _ found => (nextFromSlice_eq_record found).2.shortKey

variable {hmac : HmacFunction}

theorem streamEntry_keys {integrityKey : Bytes}
    {position : ScanPosition} {verifier : IntegrityVerifier} {endOffset : Nat}
    {entryData rest rest' : Bytes} {state' : ScanPosition × IntegrityVerifier}
    (found : streamEntry hmac integrityKey version position verifier endOffset entryData rest =
      .record entries state' rest') :
    ∀ entry ∈ entries, entry.entry.op.key.length ≤ maxWalKeyLen := by
  unfold streamEntry at found
  split at found
  · split at found <;> contradiction
  · rename_i parsed
    split at found
    · contradiction
    · cases found
      simpa using (WalEntry.fromBytes_eq_ok parsed).2.2

theorem scanStream_keys {integrityKey file : Bytes} (scanned : scanStream hmac integrityKey none file = .ok (entries, version)) :
    ∀ entry ∈ entries, entry.entry.op.key.length ≤ maxWalKeyLen := by
  unfold scanStream at scanned
  simp only at scanned
  cases finished : (streamScanner hmac integrityKey none (detectVersion file).1 file.length).scan
      (⟨0, (detectVersion file).2⟩, IntegrityVerifier.fresh) (file.drop (detectVersion file).2) with
  | error error => rw [finished] at scanned; contradiction
  | ok scan =>
    rw [finished] at scanned
    cases scanned
    intro entry mem
    obtain ⟨batch, batch_mem, entry_mem⟩ := mem_flatten.mp mem
    have batches := (Scanner.scan_eq_ok.mp finished).forall_records
      fun batch => ∀ entry ∈ batch, entry.entry.op.key.length ≤ maxWalKeyLen
    refine batches ?_ batch batch_mem entry entry_mem
    intro state log record state' rest found
    change nextFromStream _ _ none _ _ _ _ = _ at found
    unfold nextFromStream at found
    split at found
    · contradiction
    · contradiction
    · exact streamEntry_keys found

theorem replayWithSizeAndVersion_keys {integrityKey file : Bytes}
        (replayed : replayWithSizeAndVersion hmac integrityKey none file = .ok (entries, version)) :
    ∀ entry ∈ entries, entry.entry.op.key.length ≤ maxWalKeyLen := by
  unfold replayWithSizeAndVersion at replayed
  split at replayed
  · rename_i result mapped
    cases replayed
    exact replayMmap_keys mapped
  · exact scanStream_keys replayed

theorem openPlaintext_keys {integrityKey file : Bytes} {opened : OpenWal}
    (succeeded : openPlaintext hmac integrityKey file = .ok opened) :
    ∀ entry ∈ opened.recovered, entry.op.key.length ≤ maxWalKeyLen := by
  unfold openPlaintext at succeeded
  split at succeeded
  · cases succeeded
    simp
  split at succeeded
  · contradiction
  rename_i entries version replayed
  have keys : ∀ entry ∈ entries.map Replayed.entry, entry.op.key.length ≤ maxWalKeyLen := by
    intro entry mem
    obtain ⟨found, found_mem, rfl⟩ := mem_map.mp mem
    exact replayWithSizeAndVersion_keys replayed found found_mem
  split at succeeded
  · unfold rewriteAsV3 at succeeded
    simp only at succeeded
    split at succeeded
    · contradiction
    · cases succeeded
      exact keys
  · simp only at succeeded
    split at succeeded
    · cases succeeded
      exact keys
    · cases succeeded
      exact keys

theorem replayMmap_frames {entries : List WalEntry} {tail : Bytes}
    (readable : ∀ entry ∈ entries, entry.Readable)
    (stops : nextFromSlice (walV3Header ++ (entries.flatMap WalEntry.frame ++ tail)).length
      (entries.foldl ScanPosition.behind ⟨0, 4⟩) tail = .stop) :
    replayMmap (walV3Header ++ (entries.flatMap WalEntry.frame ++ tail)) =
      .ok (replayedFrom ⟨0, 4⟩ entries, .v3) := by
  unfold replayMmap
  simp only [detectVersion_header, drop_left' (show walV3Header.length = 4 from rfl)]
  rw [scan_frames readable, @Scanner.scan_stop _ _ _ _ (sliceScanner _) _ _ stops]
  simp [Except.map, Scan.prepend]

theorem plainPayload_eq_ok {entries : List WalEntry} {payload : Bytes} :
    plainPayload entries = .ok payload ↔
      (∀ entry ∈ entries, entry.op.payloadSize ≤ maxWalEntrySize) ∧
        payload = entries.flatMap WalEntry.frame := by
  induction entries generalizing payload with
  | nil => simp [plainPayload, eq_comm]
  | cons entry entries ih =>
    rw [plainPayload, forall_mem_cons, flatMap_cons]
    cases encoded : entry.toBytes with
    | error error =>
      have refused : ¬ entry.op.payloadSize ≤ maxWalEntrySize := by
        intro accepted
        rw [WalEntry.toBytes_eq_ok.mpr ⟨accepted, rfl⟩] at encoded
        contradiction
      simp [refused]
    | ok frame =>
      obtain ⟨accepted, rfl⟩ := WalEntry.toBytes_eq_ok.mp encoded
      cases later : plainPayload entries with
      | error error =>
        have refused : ¬ ∀ entry ∈ entries, entry.op.payloadSize ≤ maxWalEntrySize := by
          intro all
          rw [ih.mpr ⟨all, rfl⟩] at later
          contradiction
        simp [refused]
      | ok frames =>
        obtain ⟨all, rfl⟩ := ih.mp later
        simp only [Except.ok.injEq]
        exact ⟨fun same => ⟨⟨accepted, all⟩, same.symm⟩, fun same => same.2.symm⟩

/-- What opening should make of a prefix: the entries whose frames are complete are recovered, the
file ends behind them (an empty file gets its header with the first append), and the next append
goes on from the last checksum. -/
structure Recovers (hmac : HmacFunction) (integrityKey file : Bytes) (whole : List WalEntry)
    (opened : OpenWal) : Prop where
  succeeded : openPlaintext hmac integrityKey file = .ok opened
  recovered : opened.recovered = whole
  truncated : opened.file =
    if file = [] then [] else walV3Header ++ whole.flatMap WalEntry.frame
  size : opened.size = opened.file.length
  header : opened.headerWritten = decide (file ≠ [])
  lastHmac : opened.lastHmac = Wal.chainEnd zeroHmac whole
  appends : Authentic hmac integrityKey zeroHmac whole → ∀ ops,
    Authentic hmac integrityKey zeroHmac
      (whole ++ Wal.chain (plainCodec hmac integrityKey) opened.lastHmac ops)

theorem openPlaintext_frames {integrityKey : Bytes} {entries : List WalEntry}
    {tail : Bytes} (readable : ∀ entry ∈ entries, entry.Readable)
    (stops : nextFromSlice (walV3Header ++ (entries.flatMap WalEntry.frame ++ tail)).length
      (entries.foldl ScanPosition.behind ⟨0, 4⟩) tail = .stop) :
    openPlaintext hmac integrityKey (walV3Header ++ (entries.flatMap WalEntry.frame ++ tail)) =
      .ok ⟨walV3Header ++ entries.flatMap WalEntry.frame,
        (walV3Header ++ entries.flatMap WalEntry.frame).length, true,
        Wal.chainEnd zeroHmac entries, entries⟩ := by
  have nonempty : walV3Header ++ (entries.flatMap WalEntry.frame ++ tail) ≠ [] := by
    simp [walV3Header]
  have ends : replayedEnd (walV3Header ++ (entries.flatMap WalEntry.frame ++ tail))
      (replayedFrom ⟨0, 4⟩ entries) =
        (4 + (entries.flatMap WalEntry.frame).length, Wal.chainEnd zeroHmac entries) := by
    unfold replayedEnd
    rw [getLast?_replayedFrom, Wal.chainEnd]
    cases last : entries.getLast? with
    | none =>
      have noEntries := getLast?_eq_none_iff.mp last
      simp [noEntries, walV3Header]
    | some entry => rfl
  rw [openPlaintext, if_neg nonempty, replayWithSizeAndVersion, replayMmap_frames readable stops]
  simp only [ne_eq, not_true, if_false, ends, map_replayedFrom, length_append]
  have header : walV3Header.length = 4 := rfl
  split
  · have kept : (walV3Header ++ (entries.flatMap WalEntry.frame ++ tail)).take
        (4 + (entries.flatMap WalEntry.frame).length) =
          walV3Header ++ entries.flatMap WalEntry.frame := by
      rw [← append_assoc, take_left' (by rw [length_append, header])]
    rw [kept, header]
    simp
  · rename_i nothingBehind
    have noTail : tail = [] := by
      apply eq_nil_of_length_eq_zero
      rw [header] at nothingBehind
      omega
    simp [noTail]

theorem openPlaintext_short {integrityKey file : Bytes}
    (nonempty : file ≠ []) (short : file.length < 4) :
    openPlaintext hmac integrityKey file = .ok ⟨walV3Header, 4, true, zeroHmac, []⟩ := by
  have version : detectVersion file = (.v1, 0) := by
    rw [detectVersion, if_neg (by omega)]
  have stops : nextFromSlice file.length ⟨0, 0⟩ file = .stop := by
    have none : takeField 4 file = none := takeField_eq_none.mpr short
    rw [nextFromSlice, readFrame, if_neg nonempty, none]
  have replayed : replayMmap file = .ok ([], .v1) := by
    unfold replayMmap
    simp only [version, drop_zero]
    rw [@Scanner.scan_stop _ _ _ _ (sliceScanner _) _ _ stops]
    rfl
  rw [openPlaintext, if_neg nonempty, replayWithSizeAndVersion, replayed]
  rfl

theorem openPlaintext_refused {integrityKey file : Bytes} {entry : WalEntry}
    {kept : Nat} (typed : entry.Typed) (sized : entry.op.payloadSize ≤ maxWalEntrySize)
    (cut : kept < entry.frame.length) (content : file = walV3Header ++ entry.frame.take kept)
    (long : 64 < file.length) (opened : OpenWal) :
    openPlaintext hmac integrityKey file ≠ .ok opened := by
  have nonempty : file ≠ [] := by
    rintro rfl
    simp at long
  have enough : 4 ≤ kept := by
    rw [content, length_append, length_take] at long
    simp only [walV3Header, length_cons, length_nil] at long
    omega
  have version : detectVersion file = (.v3, 4) := content ▸ detectVersion_header _
  have behind : file.drop 4 = entry.frame.take kept := by
    rw [content, drop_left' (show walV3Header.length = 4 from rfl)]
  have refused : readFrame file.length ⟨0, 4⟩ (file.drop 4) =
      .refuse (.corruption 4 (.exceedsFileSize entry.op.payloadSize file.length)) := by
    rw [behind, readFrame_take typed sized cut, if_pos ⟨enough, rfl, long⟩]
  have mapped : ∃ error, replayMmap file = .error error := by
    have found : nextFromSlice file.length ⟨0, 4⟩ (file.drop 4) =
        .refuse (.corruption 4 (.exceedsFileSize entry.op.payloadSize file.length)) := by
      rw [nextFromSlice, refused]
    refine ⟨.corruption 4 (.exceedsFileSize entry.op.payloadSize file.length), ?_⟩
    unfold replayMmap
    simp only [version]
    rw [@Scanner.scan_refuse _ _ _ _ (sliceScanner _) _ _ _ found]
    rfl
  have streamed : ∃ error, scanStream hmac integrityKey none file = .error error := by
    have found : nextFromStream hmac integrityKey none .v3 file.length
        (⟨0, 4⟩, IntegrityVerifier.fresh) (file.drop 4) =
          .refuse (.corruption 4 (.exceedsFileSize entry.op.payloadSize file.length)) := by
      simp only [nextFromStream, refused]
    refine ⟨.corruption 4 (.exceedsFileSize entry.op.payloadSize file.length), ?_⟩
    unfold scanStream
    simp only [version]
    rw [@Scanner.scan_refuse _ _ _ _ (streamScanner hmac integrityKey none .v3 _) _ _ _ found]
    rfl
  obtain ⟨mmapError, mapped⟩ := mapped
  obtain ⟨streamError, streamed⟩ := streamed
  rw [openPlaintext, if_neg nonempty, replayWithSizeAndVersion, mapped]
  simp [streamed]

/-- A prefix of a written segment is recovered if and only if it has at most 64 bytes or
holds a complete frame, and no complete frame holds a key of more than a megabyte. -/
theorem openPlaintext_prefix_iff {hmac : HmacFunction} {integrityKey payload : Bytes}
    {entries : List WalEntry} (typed : ∀ entry ∈ entries, entry.Typed)
    (written : plainPayload entries = .ok payload) {count : Nat}
    (inside : count ≤ (walV3Header ++ payload).length) :
    (∃ opened, Recovers hmac integrityKey ((walV3Header ++ payload).take count)
        (wholeRecords WalEntry.frame (count - 4) entries) opened) ↔
      (count ≤ 64 ∨ wholeRecords WalEntry.frame (count - 4) entries ≠ []) ∧
        ∀ entry ∈ wholeRecords WalEntry.frame (count - 4) entries,
          entry.op.key.length ≤ maxWalKeyLen := by
  obtain ⟨accepted, rfl⟩ := plainPayload_eq_ok.mp written
  have header : walV3Header.length = 4 := rfl
  have length : ((walV3Header ++ entries.flatMap WalEntry.frame).take count).length = count :=
    length_take_of_le inside
  by_cases short : count < 4
  · have nothing : count - 4 = 0 := by omega
    have noneWhole : wholeRecords WalEntry.frame 0 entries = [] := by
      cases entries with
      | nil => rfl
      | cons entry entries => exact if_neg (Nat.not_le_of_lt entry.length_frame_pos)
    rw [nothing, noneWhole]
    generalize (walV3Header ++ entries.flatMap WalEntry.frame).take count = file at length
    refine iff_of_true ?_ ⟨.inl (by omega), by simp⟩
    by_cases empty : file = []
    · refine ⟨⟨[], 0, false, zeroHmac, []⟩, ?_⟩
      have succeeded : openPlaintext hmac integrityKey file = .ok ⟨[], 0, false, zeroHmac, []⟩ := by
        rw [openPlaintext, if_pos empty]
      exact ⟨succeeded, rfl, by simp [empty], rfl, by simp [empty], rfl,
        fun authentic ops => authentic.append (authentic_chain _ ops)⟩
    · refine ⟨⟨walV3Header, 4, true, zeroHmac, []⟩, ?_⟩
      exact ⟨openPlaintext_short empty (by omega), rfl, by simp [empty], rfl, by simp [empty], rfl,
        fun authentic ops => authentic.append (authentic_chain _ ops)⟩
  · obtain ⟨more, rfl⟩ : ∃ more, count = 4 + more := ⟨count - 4, by omega⟩
    rw [Nat.add_sub_cancel_left]
    rw [take_append, take_of_length_le (by omega), header, Nat.add_sub_cancel_left,
      take_encodings] at length ⊢
    have whole_mem : ∀ entry ∈ wholeRecords WalEntry.frame more entries, entry ∈ entries :=
      fun entry mem => (wholeRecords_isPrefix more entries).subset mem
    -- what stands behind the whole frames is part of the next one, or nothing
    have torn : tornSymbols WalEntry.frame more entries = [] ∨
        ∃ (entry : WalEntry) (kept : Nat), entry.Typed ∧ entry.op.payloadSize ≤ maxWalEntrySize ∧
          kept < entry.frame.length ∧
          tornSymbols WalEntry.frame more entries = entry.frame.take kept := by
      unfold tornSymbols
      cases cut : cutRecord WalEntry.frame more entries with
      | none => exact .inl rfl
      | some found =>
        obtain ⟨⟨later, place⟩, incomplete⟩ := cutRecord_eq_some cut
        have mem : found.1 ∈ entries :=
          place ▸ mem_append_right _ mem_cons_self
        exact .inr ⟨found.1, found.2, typed _ mem, accepted _ mem, incomplete, rfl⟩
    generalize wholeRecords WalEntry.frame more entries = whole at *
    generalize tornSymbols WalEntry.frame more entries = tail at *
    constructor
    · rintro ⟨opened, recovers⟩
      refine ⟨?_, ?_⟩
      · by_contra refuses
        rw [not_or, not_not] at refuses
        obtain ⟨long, rfl⟩ := refuses
        rcases torn with rfl | ⟨entry, kept, typed, sized, cut, rfl⟩
        · simp only [flatMap_nil, append_nil, header] at length
          omega
        · rw [flatMap_nil, nil_append] at recovers length
          exact openPlaintext_refused typed sized cut rfl (by omega) opened recovers.succeeded
      · intro entry mem
        apply openPlaintext_keys recovers.succeeded
        rwa [recovers.recovered]
    · rintro ⟨tolerated, short⟩
      have readable : ∀ entry ∈ whole, entry.Readable := fun entry mem =>
        ⟨typed entry (whole_mem entry mem), accepted entry (whole_mem entry mem),
          short entry mem⟩
      have stops : nextFromSlice (walV3Header ++ (whole.flatMap WalEntry.frame ++ tail)).length
          (whole.foldl ScanPosition.behind ⟨0, 4⟩) tail = .stop := by
        rcases torn with rfl | ⟨entry, kept, typed, sized, cut, rfl⟩
        · rfl
        · rw [behind_foldl, nextFromSlice, readFrame_take typed sized cut, if_neg]
          rintro ⟨_, first, long⟩
          rw [length] at long
          have empty : whole = [] := by simpa using first
          rcases tolerated with small | some'
          · omega
          · contradiction
      have nonempty : walV3Header ++ (whole.flatMap WalEntry.frame ++ tail) ≠ [] := by
        simp [walV3Header]
      exact ⟨_, openPlaintext_frames readable stops, rfl, by rw [if_neg nonempty], rfl,
        by simp [nonempty], rfl, fun authentic ops => authentic.append (authentic_chain _ ops)⟩

def constantHmac : HmacFunction := fun _ _ => replicate 32 7

def twoEnds : List WalEntry :=
  Wal.chain (plainCodec constantHmac []) zeroHmac [(.txEnd 1 true, 1), (.txEnd 2 false, 2)]

theorem twoEnds_typed : ∀ entry ∈ twoEnds, entry.Typed := by
  simp only [twoEnds, Wal.chain, forall_mem_cons, not_mem_nil, false_imp_iff,
    implies_true, and_true]
  exact ⟨⟨by decide, by decide, rfl, rfl⟩, ⟨by decide, by decide, rfl, rfl⟩⟩

theorem plainPayload_twoEnds : plainPayload twoEnds = .ok (twoEnds.flatMap WalEntry.frame) :=
  plainPayload_eq_ok.mpr ⟨by decide +kernel, rfl⟩

/-- The second entry is cut, the first one is recovered. -/
theorem openPlaintext_prefix_iff_second :
    ∃ payload, plainPayload twoEnds = .ok payload ∧
      ∃ opened, Recovers constantHmac [] ((walV3Header ++ payload).take 100)
        (wholeRecords WalEntry.frame (100 - 4) twoEnds) opened := by
  refine ⟨_, plainPayload_twoEnds, ?_⟩
  apply (openPlaintext_prefix_iff twoEnds_typed plainPayload_twoEnds (by decide +kernel)).mpr
  exact ⟨.inr (by decide +kernel), by decide +kernel⟩

/-- Cut after 70 bytes the same file is refused, although no frame is complete in it. -/
theorem openPlaintext_refuses_torn_first :
    (∀ entry ∈ twoEnds, entry.Typed) ∧
      ∃ payload, plainPayload twoEnds = .ok payload ∧ 70 ≤ (walV3Header ++ payload).length ∧
        ¬ ∃ opened, Recovers constantHmac [] ((walV3Header ++ payload).take 70)
          (wholeRecords WalEntry.frame (70 - 4) twoEnds) opened := by
  have refused : openPlaintext constantHmac []
      ((walV3Header ++ twoEnds.flatMap WalEntry.frame).take 70) =
        .error (.corruption 4 (.exceedsFileSize 86 70)) := by decide +kernel
  refine ⟨twoEnds_typed, _, plainPayload_twoEnds, by decide +kernel, ?_⟩
  rintro ⟨opened, recovers⟩
  have succeeded := recovers.succeeded
  rw [refused] at succeeded
  contradiction

end Contextra.Store
