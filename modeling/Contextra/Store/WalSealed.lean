import Contextra.Store.WalAgreement
import Contextra.Store.WalTorn

/-!
# What the stream scanner finds in a sealed segment

With a key manager a frame holds encrypted entries, and the mapped scanner does not decrypt it.  The
text of a frame is shorter than the frame, so the scanners agree on a file exactly when neither
finds an entry and both or neither take it for empty.
-/

namespace Contextra.Store

open Library List

def IntegrityVerifier.behind (verifier : IntegrityVerifier) (entries : List WalEntry) :
    IntegrityVerifier :=
  entries.foldl (fun _ entry => ⟨entry.checksum, some entry.seqNo⟩) verifier

section Verified

variable {hmac : HmacFunction} {integrityKey : Bytes} {version : WalVersion}

theorem walChained_append {verifier : IntegrityVerifier} {first later : List WalEntry} :
    WalChained hmac integrityKey version verifier (first ++ later) ↔
      WalChained hmac integrityKey version verifier first ∧
        WalChained hmac integrityKey version (verifier.behind first) later := by
  induction first generalizing verifier with
  | nil => exact ⟨fun chained => ⟨trivial, chained⟩, fun both => both.2⟩
  | cons entry first ih =>
    rw [cons_append, WalChained, WalChained, ih, and_assoc]
    rfl

/-- The text of a batch: one after the other, the length and the bytes of an entry. -/
def InnerFrames : List WalEntry → Bytes → Prop
  | [], inner => inner = []
  | entry :: entries, inner =>
    ∃ bytes rest, inner = toLeBytes 4 bytes.length ++ (bytes ++ rest) ∧
      bytes.length < 256 ^ 4 ∧ WalEntry.fromBytes bytes = .ok entry ∧ InnerFrames entries rest

def endingAt (endOffset : Nat) (entries : List WalEntry) : List Replayed :=
  entries.map fun entry => ⟨entry, endOffset⟩

theorem map_endingAt (endOffset : Nat) (entries : List WalEntry) :
    (endingAt endOffset entries).map Replayed.entry = entries := by
  rw [endingAt, map_map]
  exact map_id entries

theorem length_endingAt (endOffset : Nat) (entries : List WalEntry) :
    (endingAt endOffset entries).length = entries.length :=
  length_map _

theorem innerEntries_sound {chunkStartPos endOffset fuel : Nat} {verifier next : IntegrityVerifier}
    {inner : Bytes} {records : List Replayed} (enough : inner.length ≤ fuel)
    (read : innerEntries hmac integrityKey version chunkStartPos endOffset fuel verifier inner =
      .ok (records, next)) :
    ∃ entries, InnerFrames entries inner ∧
      WalChained hmac integrityKey version verifier entries ∧
      records = endingAt endOffset entries ∧ next = verifier.behind entries := by
  induction fuel generalizing verifier inner records with
  | zero =>
    cases read
    exact ⟨[], length_eq_zero_iff.mp (Nat.le_zero.mp enough), trivial, rfl, rfl⟩
  | succ fuel ih =>
    unfold innerEntries at read
    split at read
    · rename_i empty
      cases read
      exact ⟨[], empty, trivial, rfl, rfl⟩
    split at read
    · contradiction
    rename_i lenBytes behind four
    obtain ⟨rfl, fourLong⟩ := takeField_eq_some.mp four
    split at read
    · contradiction
    rename_i bytes rest field
    obtain ⟨rfl, long⟩ := takeField_eq_some.mp field
    split at read
    · contradiction
    rename_i entry parsed
    split at read
    · contradiction
    rename_i verified found
    obtain ⟨links, rfl⟩ := verifyEntry_eq_ok.mp found
    split at read
    · contradiction
    rename_i later behindLater readLater
    cases read
    have fewer : rest.length ≤ fuel := by
      rw [length_append, length_append, fourLong] at enough
      omega
    obtain ⟨entries, frames, chained, rfl, rfl⟩ := ih fewer readLater
    refine ⟨entry :: entries, ⟨bytes, rest, ?_, ?_, parsed, frames⟩, ⟨links, chained⟩, rfl, rfl⟩
    · rw [long, ← fourLong, toLeBytes_fromLeBytes]
    · rw [long, ← fourLong]
      exact fromLeBytes_lt lenBytes

theorem innerEntries_complete {chunkStartPos endOffset fuel : Nat} {verifier : IntegrityVerifier}
    {inner : Bytes} {entries : List WalEntry} (enough : inner.length ≤ fuel)
    (frames : InnerFrames entries inner)
    (chained : WalChained hmac integrityKey version verifier entries) :
    innerEntries hmac integrityKey version chunkStartPos endOffset fuel verifier inner =
      .ok (endingAt endOffset entries, verifier.behind entries) := by
  induction entries generalizing fuel verifier inner with
  | nil =>
    obtain rfl : inner = [] := frames
    cases fuel <;> rfl
  | cons entry entries ih =>
    obtain ⟨bytes, rest, rfl, bounded, parsed, later⟩ := frames
    obtain ⟨links, chained⟩ := chained
    have four : (toLeBytes 4 bytes.length).length = 4 := length_toLeBytes 4 _
    rw [length_append, length_append, four] at enough
    obtain ⟨fuel, rfl⟩ : ∃ less, fuel = less + 1 := ⟨fuel - 1, by omega⟩
    have nonempty : toLeBytes 4 bytes.length ++ (bytes ++ rest) ≠ [] :=
      append_ne_nil_of_left_ne_nil (ne_nil_of_length_pos (by omega)) _
    rw [innerEntries, if_neg nonempty, takeField_toLeBytes]
    dsimp only
    rw [fromLeBytes_toLeBytes bounded, takeField_append]
    dsimp only
    rw [parsed]
    dsimp only
    rw [verifyEntry_eq_ok.mpr ⟨links, rfl⟩]
    dsimp only
    rw [ih (by omega) later chained]
    rfl

end Verified

def frameText (km : KeyManager) (raw : Bytes) : Option Bytes :=
  match takeField 12 raw with
  | none => none
  | some (nonce, sealed) => km.decrypt nonce sealed

structure SealedBatch where
  raw : Bytes
  entries : List WalEntry

namespace SealedBatch

def frame (batch : SealedBatch) : Bytes := toLeBytes 4 batch.raw.length ++ batch.raw

/-- What the text of a frame holds; in V1 that is the bytes of one entry. -/
def Content : WalVersion → List WalEntry → Bytes → Prop
  | .v1, entries, inner => ∃ entry, entries = [entry] ∧ WalEntry.fromBytes inner = .ok entry
  | _, entries, inner => InnerFrames entries inner

structure Holds (km : KeyManager) (version : WalVersion) (batch : SealedBatch) : Prop where
  sized : batch.raw.length ≤ maxWalEntrySize
  content : ∃ inner, frameText km batch.raw = some inner ∧ Content version batch.entries inner

end SealedBatch

/-- The last frame is taken for a torn one: it does not decrypt, or in V1 its text is no entry
although the checksum is right. -/
def LastUnread (km : KeyManager) : WalVersion → Bytes → Prop
  | .v1, raw => ∃ inner, frameText km raw = some inner ∧
      ∃ error, WalEntry.fromBytes inner = .error error ∧
        ∀ stored computed, error ≠ .crcMismatch stored computed
  | _, raw => frameText km raw = none

/-- The bytes behind the last batch are taken for a torn tail. -/
def SealedTornTail (km : KeyManager) (version : WalVersion) (first : Prop) (tail : Bytes) : Prop :=
  tail.length < 4 ∨ tail.length < 4 + fromLeBytes (tail.take 4) ∧ ¬ first ∨
    ∃ raw, tail = toLeBytes 4 raw.length ++ raw ∧ raw.length ≤ maxWalEntrySize ∧
      LastUnread km version raw

/-- Batches that are read one after the other, and a torn tail. -/
def SealedFrames (hmac : HmacFunction) (km : KeyManager) (version : WalVersion) (first : Prop)
    (verifier : IntegrityVerifier) (data : Bytes) (entries : List WalEntry) : Prop :=
  ∃ (batches : List SealedBatch) (tail : Bytes),
    data = batches.flatMap SealedBatch.frame ++ tail ∧
    (∀ batch ∈ batches, SealedBatch.Holds km version batch) ∧
    entries = batches.flatMap SealedBatch.entries ∧
    WalChained hmac km.integrityKey version verifier entries ∧
    SealedTornTail km version (entries = [] ∧ first) tail

/-- Behind its header the file is such batches, verified from its beginning on. -/
def SealedSegment (hmac : HmacFunction) (km : KeyManager) (file : Bytes)
    (entries : List WalEntry) : Prop :=
  SealedFrames hmac km (detectVersion file).1 (64 < file.length) .fresh
    (file.drop (detectVersion file).2) entries

section Turn

variable {hmac : HmacFunction} {km : KeyManager} {version : WalVersion} {fileSize : Nat}

variable {position : ScanPosition}

theorem readFrame_raw {raw : Bytes} (sized : raw.length ≤ maxWalEntrySize) (rest : Bytes) :
    readFrame fileSize position (toLeBytes 4 raw.length ++ (raw ++ rest)) = .frame raw rest := by
  have bounded : raw.length < 256 ^ 4 := Nat.lt_of_le_of_lt sized (by decide)
  have four : (toLeBytes 4 raw.length).length = 4 := length_toLeBytes 4 _
  have nonempty : toLeBytes 4 raw.length ++ (raw ++ rest) ≠ [] :=
    append_ne_nil_of_left_ne_nil (ne_nil_of_length_pos (by omega)) _
  rw [readFrame, if_neg nonempty, takeField_toLeBytes]
  dsimp only
  rw [fromLeBytes_toLeBytes bounded, if_neg (not_lt.mpr sized), takeField_append]

theorem readFrame_eq_stop_iff {data : Bytes} :
    readFrame fileSize position data = .stop ↔
      data.length < 4 ∨ data.length < 4 + fromLeBytes (data.take 4) ∧
        ¬ (position.entriesCount = 0 ∧ 64 < fileSize) := by
  by_cases short : data.length < 4
  · refine iff_of_true ?_ (Or.inl short)
    rw [readFrame, takeField_eq_none.mpr short]
    exact ite_self _
  · have four : (data.take 4).length = 4 := length_take_of_le (not_lt.mp short)
    have nonempty : data ≠ [] := by
      rintro rfl
      exact short (by decide)
    have taken : takeField 4 data = some (data.take 4, data.drop 4) :=
      takeField_eq_some.mpr ⟨(take_append_drop 4 data).symm, four⟩
    have behind : data.length = 4 + (data.drop 4).length := by
      rw [length_drop]
      omega
    rw [readFrame, if_neg nonempty, taken, or_iff_right short, behind,
      Nat.add_lt_add_iff_left]
    dsimp only
    generalize data.drop 4 = rest
    generalize fromLeBytes (data.take 4) = len
    by_cases missing : rest.length < len
    · rw [and_iff_right missing, if_pos missing, takeField_eq_none.mpr missing]
      by_cases first : position.entriesCount = 0 ∧ 64 < fileSize
      · rw [if_pos first, if_pos first]
        refine iff_of_false ?_ (not_not_intro first)
        split <;> exact FrameRead.noConfusion
      · rw [if_neg first, if_neg first]
        exact iff_of_true (ite_self _) first
    · refine iff_of_false ?_ fun both => missing both.1
      rw [if_neg missing]
      split
      · exact FrameRead.noConfusion
      · split
        · rename_i none
          exact absurd (takeField_eq_none.mp none) missing
        · exact FrameRead.noConfusion

theorem of_frameText {raw inner : Bytes} (text : frameText km raw = some inner) :
    ∃ nonce encrypted, takeField 12 raw = some (nonce, encrypted) ∧
      km.decrypt nonce encrypted = some inner := by
  rw [frameText] at text
  cases field : takeField 12 raw with
  | none =>
    rw [field] at text
    cases text
  | some found =>
    rw [field] at text
    exact ⟨found.1, found.2, rfl, text⟩

variable {verifier : IntegrityVerifier}

theorem nextFromStream_sealed {batch : SealedBatch} (holds : batch.Holds km version)
    (chained : WalChained hmac km.integrityKey version verifier batch.entries) (rest : Bytes) :
    nextFromStream hmac km.integrityKey (some km) version fileSize (position, verifier)
        (batch.frame ++ rest) =
      .record (endingAt (position.pos + (4 + batch.raw.length)) batch.entries)
        (⟨position.entriesCount + batch.entries.length, position.pos + (4 + batch.raw.length)⟩,
          verifier.behind batch.entries) rest := by
  obtain ⟨inner, unsealed, content⟩ := holds.content
  have read : readFrame fileSize position (batch.frame ++ rest) = .frame batch.raw rest := by
    rw [SealedBatch.frame, append_assoc]
    exact readFrame_raw holds.sized rest
  rw [nextFromStream]
  dsimp only
  rw [read]
  dsimp only
  obtain ⟨nonce, encrypted, field, decrypted⟩ := of_frameText unsealed
  cases version with
  | v1 =>
    obtain ⟨entry, single, parsed⟩ := content
    rw [single] at chained ⊢
    rw [if_pos rfl, field]
    dsimp only
    rw [decrypted]
    dsimp only
    rw [streamEntry, parsed]
    dsimp only
    rw [verifyEntry_eq_ok.mpr ⟨chained.1, rfl⟩]
    rfl
  | v2 =>
    rw [if_neg WalVersion.noConfusion, streamBatch, field]
    dsimp only
    rw [decrypted]
    dsimp only
    rw [innerEntries_complete le_rfl content chained]
    dsimp only
    rw [length_endingAt]
  | v3 =>
    rw [if_neg WalVersion.noConfusion, streamBatch, field]
    dsimp only
    rw [decrypted]
    dsimp only
    rw [innerEntries_complete le_rfl content chained]
    dsimp only
    rw [length_endingAt]

theorem frameText_eq_some {raw nonce encrypted inner : Bytes}
    (field : takeField 12 raw = some (nonce, encrypted))
    (decrypted : km.decrypt nonce encrypted = some inner) : frameText km raw = some inner := by
  rw [frameText, field]
  exact decrypted

theorem streamBatch_sound {endOffset : Nat} {raw rest rest' : Bytes} {records : List Replayed}
    {next : ScanPosition × IntegrityVerifier}
    (found : streamBatch hmac km.integrityKey km version position verifier endOffset raw rest =
      .record records next rest') :
    ∃ inner entries, frameText km raw = some inner ∧ InnerFrames entries inner ∧
      WalChained hmac km.integrityKey version verifier entries ∧
      records = endingAt endOffset entries ∧
      next = (⟨position.entriesCount + entries.length, endOffset⟩, verifier.behind entries) := by
  rw [streamBatch] at found
  split at found
  · split at found <;> cases found
  rename_i nonce encrypted field
  split at found
  · split at found <;> cases found
  rename_i inner decrypted
  split at found
  · cases found
  rename_i read behind readInner
  obtain ⟨entries, frames, chained, rfl, rfl⟩ := innerEntries_sound le_rfl readInner
  cases found
  rw [length_endingAt]
  exact ⟨inner, entries, frameText_eq_some field decrypted, frames, chained, rfl, rfl⟩

theorem nextFromStream_sound {data rest : Bytes} {records : List Replayed} {next : ScanPosition × IntegrityVerifier}
    (found : nextFromStream hmac km.integrityKey (some km) version fileSize (position, verifier)
      data = .record records next rest) :
    ∃ batch : SealedBatch, data = batch.frame ++ rest ∧ batch.Holds km version ∧
      WalChained hmac km.integrityKey version verifier batch.entries ∧
      records = endingAt (position.pos + (4 + batch.raw.length)) batch.entries ∧
      next = (⟨position.entriesCount + batch.entries.length,
        position.pos + (4 + batch.raw.length)⟩, verifier.behind batch.entries) := by
  obtain ⟨raw, read⟩ := nextFromStream_rest hmac km.integrityKey found
  obtain ⟨rfl, sized⟩ := readFrame_eq_frame read
  rw [nextFromStream] at found
  dsimp only at found read
  rw [read] at found
  dsimp only at found
  -- the frame has a text, and what is read of it is a batch
  have batched {inner : Bytes} {entries : List WalEntry} (text : frameText km raw = some inner)
      (content : SealedBatch.Content version entries inner)
      (chained : WalChained hmac km.integrityKey version verifier entries) :
      ∃ batch : SealedBatch, batch = ⟨raw, entries⟩ ∧
        toLeBytes 4 raw.length ++ raw ++ rest = batch.frame ++ rest ∧ batch.Holds km version ∧
        WalChained hmac km.integrityKey version verifier batch.entries :=
    ⟨⟨raw, entries⟩, rfl, rfl, ⟨sized, inner, text, content⟩, chained⟩
  cases version with
  | v1 =>
    rw [if_pos rfl] at found
    split at found
    · cases found
    rename_i nonce encrypted field
    split at found
    · cases found
    rename_i inner decrypted
    have text := frameText_eq_some field decrypted
    rw [streamEntry] at found
    split at found
    · split at found <;> cases found
    rename_i entry parsed
    split at found
    · cases found
    rename_i verified isVerified
    obtain ⟨links, rfl⟩ := verifyEntry_eq_ok.mp isVerified
    cases found
    obtain ⟨batch, rfl, same, holds, chained⟩ := batched text ⟨entry, rfl, parsed⟩ ⟨links, trivial⟩
    exact ⟨_, same, holds, chained, rfl, rfl⟩
  | v2 =>
    rw [if_neg WalVersion.noConfusion] at found
    obtain ⟨inner, entries, text, frames, links, rfl, rfl⟩ := streamBatch_sound found
    obtain ⟨batch, rfl, same, holds, chained⟩ := batched text frames links
    exact ⟨_, same, holds, chained, rfl, rfl⟩
  | v3 =>
    rw [if_neg WalVersion.noConfusion] at found
    obtain ⟨inner, entries, text, frames, links, rfl, rfl⟩ := streamBatch_sound found
    obtain ⟨batch, rfl, same, holds, chained⟩ := batched text frames links
    exact ⟨_, same, holds, chained, rfl, rfl⟩

theorem stop_of_ite {State Record : Type} {rest : Bytes} (error : WalError) :
    (if rest = [] then .stop else .refuse error : Found UInt8 State Record WalError) = .stop ↔
      rest = [] := by
  by_cases last : rest = []
  · rw [if_pos last]
    exact iff_of_true rfl last
  · rw [if_neg last]
    exact iff_of_false (fun impossible => by cases impossible) last

theorem nextFromStream_stop_of_frame {data raw rest : Bytes} (read : readFrame fileSize position data = .frame raw rest) :
    nextFromStream hmac km.integrityKey (some km) version fileSize (position, verifier) data =
        .stop ↔ rest = [] ∧ LastUnread km version raw := by
  have batch (version : WalVersion) : streamBatch hmac km.integrityKey km version position verifier
      (position.pos + (4 + raw.length)) raw rest = .stop ↔ rest = [] ∧ frameText km raw = none := by
    rw [streamBatch, frameText]
    cases takeField 12 raw with
    | none => exact (stop_of_ite _).trans (and_iff_left rfl).symm
    | some field =>
      obtain ⟨nonce, encrypted⟩ := field
      dsimp only
      cases km.decrypt nonce encrypted with
      | none => exact (stop_of_ite _).trans (and_iff_left rfl).symm
      | some inner =>
        dsimp only
        refine iff_of_false ?_ fun impossible => by cases impossible.2
        split <;> exact fun impossible => by cases impossible
  rw [nextFromStream]
  dsimp only
  rw [read]
  dsimp only
  cases version with
  | v1 =>
    rw [if_pos rfl, LastUnread, frameText]
    cases takeField 12 raw with
    | none =>
      refine iff_of_false (fun impossible => by cases impossible) ?_
      rintro ⟨_, inner, impossible, _⟩
      cases impossible
    | some field =>
      obtain ⟨nonce, encrypted⟩ := field
      dsimp only
      cases km.decrypt nonce encrypted with
      | none =>
        refine iff_of_false (fun impossible => by cases impossible) ?_
        rintro ⟨_, inner, impossible, _⟩
        cases impossible
      | some inner =>
        dsimp only
        rw [streamEntry]
        cases parsed : WalEntry.fromBytes inner with
        | ok entry =>
          dsimp only
          refine iff_of_false (by split <;> exact fun impossible => by cases impossible) ?_
          rintro ⟨_, _, same, error, failed, _⟩
          cases same
          rw [parsed] at failed
          cases failed
        | error error =>
          dsimp only
          split
          · rename_i refused tolerated
            refine iff_of_false (fun impossible => by cases impossible) ?_
            rintro ⟨last, _, same, other, failed, harmless⟩
            cases same
            rw [parsed] at failed
            cases failed
            rw [handleWalEntryParseError_eq_none_iff.mpr ⟨last, harmless⟩] at tolerated
            cases tolerated
          · rename_i tolerated
            obtain ⟨last, harmless⟩ := handleWalEntryParseError_eq_none_iff.mp tolerated
            exact iff_of_true rfl ⟨last, inner, rfl, error, parsed, harmless⟩
  | v2 =>
    rw [if_neg WalVersion.noConfusion]
    exact batch .v2
  | v3 =>
    rw [if_neg WalVersion.noConfusion]
    exact batch .v3

theorem nextFromStream_eq_stop_iff {data : Bytes} :
    nextFromStream hmac km.integrityKey (some km) version fileSize (position, verifier) data =
        .stop ↔ SealedTornTail km version (position.entriesCount = 0 ∧ 64 < fileSize) data := by
  have stops := @readFrame_eq_stop_iff fileSize position data
  rw [SealedTornTail, ← or_assoc, ← stops]
  cases read : readFrame fileSize position data with
  | stop =>
    refine iff_of_true ?_ (Or.inl rfl)
    rw [nextFromStream]
    dsimp only
    rw [read]
  | refuse error =>
    refine iff_of_false ?_ ?_
    · rw [nextFromStream]
      dsimp only
      rw [read]
      intro impossible
      cases impossible
    · rintro (impossible | ⟨raw, rfl, sized, _⟩)
      · cases impossible
      · have isFrame := @readFrame_raw fileSize position raw sized []
        rw [append_nil, read] at isFrame
        cases isFrame
  | frame raw rest =>
    rw [nextFromStream_stop_of_frame read]
    obtain ⟨rfl, sized⟩ := readFrame_eq_frame read
    constructor
    · rintro ⟨rfl, unread⟩
      exact Or.inr ⟨raw, append_nil _, sized, unread⟩
    · rintro (impossible | ⟨last, same, lastSized, unread⟩)
      · cases impossible
      · have isFrame := @readFrame_raw fileSize position last lastSized []
        rw [append_nil, ← same, read] at isFrame
        cases isFrame
        exact ⟨rfl, unread⟩

end Turn

section Scan

variable {hmac : HmacFunction} {km : KeyManager} {version : WalVersion} {fileSize : Nat}

theorem behind_batch (entries later : List WalEntry) (count : Nat) :
    (entries ++ later = [] ∧ count = 0 ∧ 64 < fileSize) =
      (later = [] ∧ count + entries.length = 0 ∧ 64 < fileSize) := by
  rw [append_eq_nil_iff, Nat.add_eq_zero_iff, length_eq_zero_iff]
  apply propext
  tauto

theorem sealedFrames_of_scanned {state : ScanPosition × IntegrityVerifier} {data : Bytes}
    {scanned : Library.Scan UInt8 (ScanPosition × IntegrityVerifier) (List Replayed)}
    (trace : Scanner.Scanned (streamScanner hmac km.integrityKey (some km) version fileSize) state
      data scanned) :
    SealedFrames hmac km version (state.1.entriesCount = 0 ∧ 64 < fileSize) state.2 data
      (scanned.records.flatten.map Replayed.entry) := by
  induction trace with
  | @stop state data found =>
    have torn := nextFromStream_eq_stop_iff.mp found
    have first : (([] : List WalEntry) = [] ∧ state.1.entriesCount = 0 ∧ 64 < fileSize) =
        (state.1.entriesCount = 0 ∧ 64 < fileSize) := propext (and_iff_right rfl)
    rw [← first] at torn
    exact ⟨[], _, rfl, fun _ impossible => absurd impossible not_mem_nil, rfl, trivial, torn⟩
  | @record state next data rest records scanned found _ ih =>
    obtain ⟨batch, rfl, holds, chained, rfl, rfl⟩ := nextFromStream_sound found
    obtain ⟨batches, tail, rfl, each, same, links, torn⟩ := ih
    have split : (Scan.prepend [endingAt (state.1.pos + (4 + batch.raw.length)) batch.entries]
        scanned).records.flatten.map Replayed.entry =
          batch.entries ++ scanned.records.flatten.map Replayed.entry := by
      rw [Scan.prepend]
      dsimp only
      rw [singleton_append, flatten_cons, map_append, map_endingAt]
    rw [split]
    refine ⟨batch :: batches, tail, ?_, forall_mem_cons.mpr ⟨holds, each⟩, ?_,
      walChained_append.mpr ⟨chained, links⟩, ?_⟩
    · rw [flatMap_cons, append_assoc]
    · rw [same, flatMap_cons]
    · rw [behind_batch]
      exact torn

theorem scanned_of_sealedFrames {state : ScanPosition × IntegrityVerifier} {data : Bytes}
    {entries : List WalEntry}
    (frames : SealedFrames hmac km version (state.1.entriesCount = 0 ∧ 64 < fileSize) state.2 data
      entries) :
    ∃ scanned, (streamScanner hmac km.integrityKey (some km) version fileSize).scan state data =
        .ok scanned ∧ scanned.records.flatten.map Replayed.entry = entries := by
  obtain ⟨batches, tail, rfl, each, rfl, chained, torn⟩ := frames
  induction batches generalizing state with
  | nil =>
    rw [flatMap_nil, propext (and_iff_right rfl)] at torn
    have stops : (streamScanner hmac km.integrityKey (some km) version fileSize).next state tail =
        .stop := nextFromStream_eq_stop_iff.mpr torn
    exact ⟨_, Scanner.scan_stop stops, rfl⟩
  | cons batch batches ih =>
    obtain ⟨holds, each⟩ := forall_mem_cons.mp each
    rw [flatMap_cons] at chained torn ⊢
    rw [flatMap_cons, append_assoc]
    obtain ⟨first, links⟩ := walChained_append.mp chained
    rw [behind_batch] at torn
    have found : (streamScanner hmac km.integrityKey (some km) version fileSize).next state
        (batch.frame ++ (batches.flatMap SealedBatch.frame ++ tail)) = _ :=
      nextFromStream_sealed holds first _
    obtain ⟨scanned, finished, same⟩ := @ih
      (⟨state.1.entriesCount + batch.entries.length, state.1.pos + (4 + batch.raw.length)⟩,
        state.2.behind batch.entries) each links torn
    rw [Scanner.scan_record found, finished]
    refine ⟨_, rfl, ?_⟩
    rw [Scan.prepend]
    dsimp only
    rw [singleton_append, flatten_cons, map_append, map_endingAt, same]

theorem scanStream_sealed_iff {file : Bytes} {entries : List WalEntry} :
    (∃ records, scanStream hmac km.integrityKey (some km) file =
        .ok (records, version) ∧ records.map Replayed.entry = entries) ↔
      version = (detectVersion file).1 ∧ SealedSegment hmac km file entries := by
  unfold scanStream SealedSegment
  generalize detectVersion file = detected
  obtain ⟨detected, start⟩ := detected
  dsimp only
  have first : (64 < file.length) = (0 = 0 ∧ 64 < file.length) :=
    (propext (and_iff_right rfl)).symm
  rw [first]
  constructor
  · rintro ⟨records, scans, rfl⟩
    obtain ⟨scanned, finished, same⟩ := map_eq_ok.mp scans
    cases same
    exact ⟨rfl, sealedFrames_of_scanned (Scanner.scan_eq_ok.mp finished)⟩
  · rintro ⟨rfl, frames⟩
    obtain ⟨scanned, finished, same⟩ := @scanned_of_sealedFrames hmac km version file.length
      (⟨0, start⟩, .fresh) _ _ frames
    exact ⟨_, map_eq_ok.mpr ⟨scanned, finished, rfl⟩, same⟩

end Scan

section Agreement

variable {hmac : HmacFunction}

theorem endOffset_gt {km : KeyManager} {version : WalVersion} {fileSize : Nat}
    {state : ScanPosition × IntegrityVerifier} {data : Bytes}
    {scanned : Library.Scan UInt8 (ScanPosition × IntegrityVerifier) (List Replayed)}
    (trace : Scanner.Scanned (streamScanner hmac km.integrityKey (some km) version fileSize) state
      data scanned) : ∀ replayed ∈ scanned.records.flatten, state.1.pos < replayed.endOffset := by
  induction trace with
  | stop found => exact fun _ impossible => absurd impossible not_mem_nil
  | @record state next data rest records scanned found _ ih =>
    obtain ⟨batch, rfl, holds, chained, rfl, rfl⟩ := nextFromStream_sound found
    intro replayed isReplayed
    rcases mem_append.mp isReplayed with isFirst | isLater
    · obtain ⟨entry, _, rfl⟩ := mem_map.mp isFirst
      dsimp only
      omega
    · have later := ih replayed isLater
      dsimp only at later
      omega

/-- The text of a frame is 16 bytes shorter than what is encrypted. -/
def KeyManager.KeepsLength (km : KeyManager) : Prop :=
  ∀ nonce encrypted text, km.decrypt nonce encrypted = some text →
    encrypted.length = text.length + 16

theorem length_frameText {km : KeyManager} (keeps : km.KeepsLength) {raw inner : Bytes}
    (text : frameText km raw = some inner) : raw.length = inner.length + 28 := by
  obtain ⟨nonce, encrypted, field, decrypted⟩ := of_frameText text
  obtain ⟨rfl, twelve⟩ := takeField_eq_some.mp field
  rw [length_append, twelve, keeps _ _ _ decrypted]
  omega

theorem content_shorter {km : KeyManager} (keeps : km.KeepsLength) {version : WalVersion}
    {raw inner : Bytes} {entry : WalEntry} {entries : List WalEntry}
    (text : frameText km raw = some inner)
    (isRaw : raw = toLeBytes 4 (crc32 entry.payload) ++ entry.payload) :
    ¬ SealedBatch.Content version (entry :: entries) inner := by
  have longer := length_frameText keeps text
  have batch : ¬ InnerFrames (entry :: entries) inner := by
    rintro ⟨bytes, rest, rfl, _, parsed, _⟩
    rw [(WalEntry.fromBytes_eq_ok parsed).1, ← isRaw, length_append, length_append] at longer
    omega
  cases version with
  | v1 =>
    rintro ⟨single, same, parsed⟩
    cases same
    rw [(WalEntry.fromBytes_eq_ok parsed).1, ← isRaw] at longer
    omega
  | v2 => exact batch
  | v3 => exact batch

theorem no_common_entry {km : KeyManager} (keeps : km.KeepsLength) {file : Bytes}
    {first : Replayed} {records : List Replayed} {version : WalVersion}
    (mapped : replayMmap file = .ok (first :: records, version)) :
    scanStream hmac km.integrityKey (some km) file ≠ .ok (first :: records, version) := by
  intro streamed
  obtain ⟨_, plain⟩ := plainSegment_of_replayMmap mapped
  have returned := replayMmap_of_plainSegment plain
  obtain ⟨readable, tail, content, _⟩ := plain
  unfold scanStream at streamed
  generalize detectVersion file = detected at *
  obtain ⟨detected, start⟩ := detected
  dsimp only at content returned streamed
  obtain ⟨scanned, finished, same⟩ := map_eq_ok.mp streamed
  obtain ⟨isRecords, rfl⟩ := Prod.mk.inj same
  rw [mapped] at returned
  have isFirst : first = ScanPosition.replayed ⟨0, start⟩ first.entry :=
    (List.cons.inj (Prod.mk.inj (Except.ok.inj returned)).1).1
  have endOffset : first.endOffset = start + first.entry.frame.length := congrArg Replayed.endOffset isFirst
  have trace := Scanner.scan_eq_ok.mp finished
  rw [map_cons, flatMap_cons, append_assoc] at content
  have firstReadable := readable first.entry mem_cons_self
  cases trace with
  | stop found => cases isRecords
  | record found later =>
    obtain ⟨batch, isData, holds, chained, rfl, rfl⟩ := nextFromStream_sound found
    rename_i rest behind
    -- both read the same frame
    have fromEntry := @readFrame_frame file.length ⟨0, start⟩ first.entry firstReadable.typed
      firstReadable.sized ((records.map Replayed.entry).flatMap WalEntry.frame ++ tail)
    have fromBatch := @readFrame_raw file.length ⟨0, start⟩ batch.raw holds.sized rest
    rw [← content, isData, SealedBatch.frame, append_assoc, fromBatch] at fromEntry
    have isRaw := (FrameRead.frame.inj fromEntry).1
    have size : first.entry.frame.length = 4 + batch.raw.length := by
      rw [WalEntry.frame, length_append, length_toLeBytes, ← isRaw]
    cases entries : batch.entries with
    | nil =>
      rw [entries] at isRecords
      have isLater : first ∈ behind.records.flatten := by
        change behind.records.flatten = first :: records at isRecords
        rw [isRecords]
        exact mem_cons_self
      have ends := endOffset_gt later first isLater
      dsimp only at ends
      omega
    | cons entry others =>
      obtain ⟨inner, text, inside⟩ := holds.content
      rw [entries] at inside isRecords
      have same := (List.cons.inj isRecords).1
      obtain rfl : entry = first.entry := congrArg Replayed.entry same
      exact content_shorter keeps text isRaw inside

/-- The scanners agree: without a key manager when the entries in the file are chained, with one
when neither finds an entry and both or neither take the file for empty. -/
def AgreesOn (hmac : HmacFunction) (fallback file : Bytes) : Option KeyManager → Prop
  | none => ∀ entries, PlainSegment file entries →
      WalChained hmac fallback (detectVersion file).1 .fresh entries
  | some km => (∀ entries, PlainSegment file entries → entries = []) ∧
      (∀ entries, SealedSegment hmac km file entries → entries = []) ∧
      (PlainSegment file [] ↔ SealedSegment hmac km file [])

theorem replaysAgree_plain {fallback file : Bytes} :
    ReplaysAgree hmac none fallback file ↔ AgreesOn hmac fallback file none := by
  have same : getIntegrityKey none fallback = fallback := rfl
  rw [ReplaysAgree, AgreesOn, same]
  constructor
  · intro agree entries plain
    have streamed := (agree _).mp (replayMmap_of_plainSegment plain)
    have chained := (scanStream_plain_iff.mp streamed).2
    rw [map_replayedFrom] at chained
    exact chained
  · rintro chained ⟨records, version⟩
    rw [scanStream_plain_iff]
    refine ⟨fun mapped => ⟨mapped, ?_⟩, fun both => both.1⟩
    obtain ⟨rfl, plain⟩ := plainSegment_of_replayMmap mapped
    exact chained _ plain

theorem replaysAgree_sealed {km : KeyManager} (keeps : km.KeepsLength) {fallback file : Bytes} :
    ReplaysAgree hmac (some km) fallback file ↔ AgreesOn hmac fallback file (some km) := by
  have same : getIntegrityKey (some km) fallback = km.integrityKey := rfl
  rw [ReplaysAgree, AgreesOn, same]
  constructor
  · intro agree
    have plainNone : ∀ entries, PlainSegment file entries → entries = [] := by
      intro entries plain
      have mapped := replayMmap_of_plainSegment plain
      have streamed := (agree _).mp mapped
      cases entries with
      | nil => rfl
      | cons entry entries => exact absurd streamed (no_common_entry keeps mapped)
    have sealedPlain : ∀ entries, SealedSegment hmac km file entries → PlainSegment file entries := by
      intro entries segment
      obtain ⟨records, streamed, rfl⟩ := scanStream_sealed_iff.mpr ⟨rfl, segment⟩
      exact (plainSegment_of_replayMmap ((agree _).mpr streamed)).2
    refine ⟨plainNone, fun entries segment => plainNone entries (sealedPlain entries segment), ?_⟩
    refine ⟨fun plain => ?_, sealedPlain []⟩
    have streamed := (agree _).mp (replayMmap_of_plainSegment plain)
    exact (scanStream_sealed_iff.mp ⟨_, streamed, rfl⟩).2
  · rintro ⟨plainNone, sealedNone, both⟩ ⟨records, version⟩
    constructor
    · intro mapped
      obtain ⟨rfl, plain⟩ := plainSegment_of_replayMmap mapped
      have nothing := map_eq_nil_iff.mp (plainNone _ plain)
      rw [nothing] at plain ⊢
      obtain ⟨found, streamed, none⟩ := scanStream_sealed_iff.mpr ⟨rfl, both.mp plain⟩
      rw [map_eq_nil_iff.mp none] at streamed
      exact streamed
    · intro streamed
      obtain ⟨rfl, segment⟩ := scanStream_sealed_iff.mp ⟨records, streamed, rfl⟩
      have nothing := map_eq_nil_iff.mp (sealedNone _ segment)
      rw [nothing] at segment ⊢
      exact replayMmap_of_plainSegment (both.mpr segment)

/-- Zeros in the place of a tag, which are looked for again. -/
def zeroTagged : KeyManager where
  integrityKey := []
  nonce counter := toLeBytes 12 counter
  encrypt _ text := text ++ replicate 16 0
  decrypt _ encrypted :=
    if encrypted = encrypted.take (encrypted.length - 16) ++ replicate 16 0 then
      some (encrypted.take (encrypted.length - 16))
    else none
  length_nonce counter := length_toLeBytes 12 counter
  length_encrypt _ text := by rw [length_append, length_replicate]
  decrypt_encrypt _ text := by
    have length : (text ++ replicate 16 (0 : UInt8)).length - 16 = text.length := by
      rw [length_append, length_replicate, Nat.add_sub_cancel]
    rw [length, take_left' rfl, if_pos rfl]

theorem zeroTagged_keepsLength : zeroTagged.KeepsLength := by
  intro nonce encrypted text decrypted
  change (if encrypted = encrypted.take (encrypted.length - 16) ++ replicate 16 0 then
    some (encrypted.take (encrypted.length - 16)) else none) = some text at decrypted
  split at decrypted
  · rename_i tagged
    cases decrypted
    have length := congrArg List.length tagged
    rw [length_append, length_replicate] at length
    exact length
  · cases decrypted

end Agreement

end Contextra.Store
