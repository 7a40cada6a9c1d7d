import Contextra.Store.ManifestBytes

/-!
# Reading back what was written

`from_bytes` accepts exactly the checksummed payloads of entries, each as its own entry.
The writer leaves out the rank and takes the lossy text of a path, so an entry is read back
as it was written: `asWritten`.
-/

namespace Contextra.Store.ManifestFile

open Library

variable {PathBuf : Type} (platform : Platform PathBuf)

@[simp] theorem fromUtf8_textBytes (text : String) : fromUtf8 (textBytes text) = some text := by
  have valid : (ByteArray.mk (textBytes text).toArray).IsValidUTF8 := by
    simpa [textBytes] using text.isValidUTF8
  simp only [fromUtf8, String.fromUTF8?, valid, dif_pos]
  congr 1

variable {data : Bytes}

theorem textBytes_of_fromUtf8 {text : String} (decoded : fromUtf8 data = some text) :
    textBytes text = data := by
  unfold fromUtf8 String.fromUTF8? at decoded
  split at decoded
  · rw [← Option.some.inj decoded]
    simp [textBytes, String.fromUTF8]
  · contradiction

@[simp] theorem length_u64Bytes (value : UInt64) : (u64Bytes value).length = 8 :=
  length_toLeBytes 8 value.toNat

@[simp] theorem u64Of_u64Bytes (value : UInt64) : u64Of (u64Bytes value) = value := by
  rw [u64Of, u64Bytes, fromLeBytes_toLeBytes (by simpa using value.toNat_lt), UInt64.ofNat_toNat]

theorem u64Bytes_u64Of (eight : data.length = 8) : u64Bytes (u64Of data) = data := by
  have bounded : fromLeBytes data < 2 ^ 64 := by
    have below := fromLeBytes_lt data
    rwa [eight] at below
  rw [u64Bytes, u64Of, UInt64.toNat_ofNat_of_lt' bounded]
  simpa [eight] using toLeBytes_fromLeBytes data

theorem takeField_u64Bytes (value : UInt64) (rest : Bytes) :
    takeField 8 (u64Bytes value ++ rest) = some (u64Bytes value, rest) :=
  takeField_toLeBytes 8 value.toNat rest

variable {platform}

namespace ManifestEntry

def paths : ManifestEntry PathBuf → List PathBuf
  | add path _ => [path]
  | remove path => [path]
  | rollbackComplete _ => []
  | replace removed added _ _ => added :: removed
  | walCheckpoint _ => []

def storedPayload (platform : Platform PathBuf) : ManifestEntry PathBuf → Bytes
  | replace removed added addedMaxTx rank =>
    3 :: (u64Bytes addedMaxTx ++ u64Bytes rank ++ pathBytes platform added ++
      toLeBytes 4 removed.length ++ removed.flatMap (pathBytes platform))
  | entry => entry.payload platform

/-- Checksum and payload of a frame, as `from_bytes` takes them. -/
def storedBody (platform : Platform PathBuf) (entry : ManifestEntry PathBuf) : Bytes :=
  toLeBytes 4 (crc32 (entry.storedPayload platform)) ++ entry.storedPayload platform

def storedFrame (platform : Platform PathBuf) (entry : ManifestEntry PathBuf) : Bytes :=
  toLeBytes 4 (entry.storedBody platform).length ++ entry.storedBody platform

/-- The entry as its frame records it: every path by its lossy text, no rank. -/
def asWritten (platform : Platform PathBuf) : ManifestEntry PathBuf → ManifestEntry PathBuf
  | add path maxTx => add (platform.fromText (platform.toStringLossy path)) maxTx
  | remove path => remove (platform.fromText (platform.toStringLossy path))
  | rollbackComplete targetTx => rollbackComplete targetTx
  | replace removed added addedMaxTx _ =>
    replace (removed.map fun path => platform.fromText (platform.toStringLossy path))
      (platform.fromText (platform.toStringLossy added)) addedMaxTx 0
  | walCheckpoint hmac => walCheckpoint hmac

/-- An entry that the loader can find in a file: its paths are texts, and its frame has a
size that `load` accepts. -/
structure Readable (platform : Platform PathBuf) (entry : ManifestEntry PathBuf) : Prop where
  texts : ∀ path ∈ entry.paths, platform.fromText (platform.toStringLossy path) = path
  sized : (entry.storedBody platform).length ≤ maxManifestEntrySize

/-- The payload is so short that its size does not wrap around in 32 bits. -/
def Fits (platform : Platform PathBuf) (entry : ManifestEntry PathBuf) : Prop :=
  4 + (entry.payload platform).length < 2 ^ 32

instance (entry : ManifestEntry PathBuf) : Decidable (entry.Fits platform) :=
  inferInstanceAs (Decidable (_ < _))

@[simp] theorem length_storedBody (entry : ManifestEntry PathBuf) :
    (entry.storedBody platform).length = 4 + (entry.storedPayload platform).length := by
  simp [storedBody]

theorem pathBytes_asText (path : PathBuf) :
    pathBytes platform (platform.fromText (platform.toStringLossy path)) =
      pathBytes platform path := by
  simp only [pathBytes, platform.toStringLossy_fromText]

theorem storedPayload_asWritten (entry : ManifestEntry PathBuf) :
    (entry.asWritten platform).storedPayload platform = entry.payload platform := by
  cases entry with
  | add path maxTx => simp [asWritten, storedPayload, payload, pathBytes_asText]
  | remove path => simp [asWritten, storedPayload, payload, pathBytes_asText]
  | rollbackComplete targetTx => rfl
  | replace removed added addedMaxTx rank =>
    simp [asWritten, storedPayload, payload, pathBytes_asText, List.flatMap_map]
  | walCheckpoint hmac => rfl

theorem asWritten_texts (entry : ManifestEntry PathBuf) :
    ∀ path ∈ (entry.asWritten platform).paths,
      platform.fromText (platform.toStringLossy path) = path := by
  have text : ∀ path : PathBuf, platform.fromText (platform.toStringLossy
      (platform.fromText (platform.toStringLossy path))) =
        platform.fromText (platform.toStringLossy path) := by
    intro path
    rw [platform.toStringLossy_fromText]
  intro path mem
  cases entry <;> simp only [asWritten, paths, List.mem_cons, List.not_mem_nil, or_false,
    List.mem_map] at mem
  · rw [mem, text]
  · rw [mem, text]
  · rcases mem with rfl | ⟨other, _, rfl⟩
    · exact text _
    · exact text other

variable {removed : List PathBuf}

theorem parseRemoved_append (rest : Bytes)
    (texts : ∀ path ∈ removed, platform.fromText (platform.toStringLossy path) = path)
    (sized : (removed.flatMap (pathBytes platform)).length < 256 ^ 4) :
    parseRemoved platform removed.length (removed.flatMap (pathBytes platform) ++ rest) =
      .ok (removed, rest) := by
  induction removed with
  | nil => rfl
  | cons path removed ih =>
    simp only [List.flatMap_cons, List.length_append] at sized
    have own : (textBytes (platform.toStringLossy path)).length < 256 ^ 4 := by
      simp only [pathBytes, List.length_append] at sized
      omega
    have later := ih
      (fun other mem => texts other (List.mem_cons_of_mem _ mem)) (by omega)
    simp only [List.length_cons, parseRemoved, List.flatMap_cons, pathBytes, List.append_assoc,
      takeField_toLeBytes, fromLeBytes_toLeBytes own, takeField_append, fromUtf8_textBytes, later,
      texts path List.mem_cons_self]

theorem parseRemoved_eq_ok {count : Nat} {data rest : Bytes}
    (parsed : parseRemoved platform count data = .ok (removed, rest)) :
    data = removed.flatMap (pathBytes platform) ++ rest ∧ removed.length = count ∧
      ∀ path ∈ removed, platform.fromText (platform.toStringLossy path) = path := by
  induction count generalizing data removed with
  | zero =>
    obtain ⟨rfl, rfl⟩ := Prod.mk.inj (Except.ok.inj parsed)
    simp
  | succ count ih =>
    unfold parseRemoved at parsed
    split at parsed
    · contradiction
    rename_i rLen behind four
    obtain ⟨rfl, fourLong⟩ := takeField_eq_some.mp four
    split at parsed
    · contradiction
    rename_i text behind' taken
    obtain ⟨rfl, textLong⟩ := takeField_eq_some.mp taken
    split at parsed
    · contradiction
    rename_i decoded utf8
    split at parsed
    · contradiction
    rename_i later rest' further
    obtain ⟨rfl, rfl⟩ := Prod.mk.inj (Except.ok.inj parsed)
    obtain ⟨rfl, rfl, texts⟩ := ih further
    have spelled := textBytes_of_fromUtf8 utf8
    have lengthField : toLeBytes 4 text.length = rLen := by
      rw [textLong, ← fourLong, toLeBytes_fromLeBytes]
    refine ⟨?_, rfl, ?_⟩
    · simp [pathBytes, platform.toStringLossy_fromText, spelled, lengthField]
    · intro path mem
      rcases List.mem_cons.mp mem with rfl | mem
      · rw [platform.toStringLossy_fromText]
      · exact texts path mem

theorem parseAdd_pathBytes {path : PathBuf} {maxTx : UInt64}
    (text : platform.fromText (platform.toStringLossy path) = path)
    (sized : (textBytes (platform.toStringLossy path)).length < 256 ^ 4) :
    parseAdd platform (u64Bytes maxTx ++ pathBytes platform path) = .ok (.add path maxTx) := by
  have total : (u64Bytes maxTx ++ pathBytes platform path).length =
      12 + (textBytes (platform.toStringLossy path)).length := by
    simp [pathBytes]
    omega
  rw [parseAdd, takeField_u64Bytes]
  simp only [pathBytes, takeField_toLeBytes, fromLeBytes_toLeBytes sized] at total ⊢
  rw [if_neg (by simpa using total), fromUtf8_textBytes]
  simp [text]

variable {entry : ManifestEntry PathBuf} {data : Bytes}

theorem parseAdd_eq_ok (parsed : parseAdd platform data = .ok entry) :
    (0 :: data : Bytes) = entry.storedPayload platform ∧
      ∀ path ∈ entry.paths, platform.fromText (platform.toStringLossy path) = path := by
  unfold parseAdd at parsed
  split at parsed
  · contradiction
  rename_i maxTx rest eight
  obtain ⟨rfl, eightLong⟩ := takeField_eq_some.mp eight
  split at parsed
  · contradiction
  rename_i pathLen path four
  obtain ⟨rfl, fourLong⟩ := takeField_eq_some.mp four
  split at parsed
  · contradiction
  rename_i total
  split at parsed
  · contradiction
  rename_i text utf8
  cases parsed
  have spelled := textBytes_of_fromUtf8 utf8
  have lengthField : toLeBytes 4 path.length = pathLen := by
    have measured : path.length = fromLeBytes pathLen := by
      simp only [List.length_append] at total
      omega
    rw [measured, ← fourLong, toLeBytes_fromLeBytes]
  simp [storedPayload, payload, paths, pathBytes, platform.toStringLossy_fromText, spelled,
    lengthField, u64Bytes_u64Of eightLong]

theorem parseRemove_pathBytes {path : PathBuf}
    (text : platform.fromText (platform.toStringLossy path) = path)
    (sized : (textBytes (platform.toStringLossy path)).length < 256 ^ 4) :
    parseRemove platform (pathBytes platform path) = .ok (.remove path) := by
  simp only [parseRemove, pathBytes, takeField_toLeBytes, fromLeBytes_toLeBytes sized]
  rw [if_neg (by simp), fromUtf8_textBytes]
  simp [text]

theorem parseRemove_eq_ok (parsed : parseRemove platform data = .ok entry) :
    (1 :: data : Bytes) = entry.storedPayload platform ∧
      ∀ path ∈ entry.paths, platform.fromText (platform.toStringLossy path) = path := by
  unfold parseRemove at parsed
  split at parsed
  · contradiction
  rename_i pathLen path four
  obtain ⟨rfl, fourLong⟩ := takeField_eq_some.mp four
  split at parsed
  · contradiction
  rename_i total
  split at parsed
  · contradiction
  rename_i text utf8
  cases parsed
  have spelled := textBytes_of_fromUtf8 utf8
  have lengthField : toLeBytes 4 path.length = pathLen := by
    have measured : path.length = fromLeBytes pathLen := by
      simp only [List.length_append] at total
      omega
    rw [measured, ← fourLong, toLeBytes_fromLeBytes]
  simp [storedPayload, payload, paths, pathBytes, platform.toStringLossy_fromText, spelled,
    lengthField]

theorem length_le_removedBytes (platform : Platform PathBuf) (removed : List PathBuf) :
    4 * removed.length ≤ (removed.flatMap (pathBytes platform)).length := by
  induction removed with
  | nil => simp
  | cons path removed ih =>
    simp only [List.flatMap_cons, List.length_append, List.length_cons, pathBytes,
      length_toLeBytes] at ih ⊢
    omega

theorem parseReplace_storedPayload (addedMaxTx rank : UInt64) {added : PathBuf}
    (texts : ∀ path ∈ added :: removed, platform.fromText (platform.toStringLossy path) = path)
    (sized : (pathBytes platform added).length +
      (removed.flatMap (pathBytes platform)).length < 256 ^ 4) :
    parseReplace platform (u64Bytes addedMaxTx ++ (u64Bytes rank ++ (pathBytes platform added ++
      (toLeBytes 4 removed.length ++ removed.flatMap (pathBytes platform))))) =
      .ok (.replace removed added addedMaxTx rank) := by
  have count := length_le_removedBytes platform removed
  have own : (textBytes (platform.toStringLossy added)).length < 256 ^ 4 := by
    simp only [pathBytes, List.length_append] at sized
    omega
  have parsed := parseRemoved_append []
    (fun path mem => texts path (List.mem_cons_of_mem _ mem))
    (show (removed.flatMap (pathBytes platform)).length < 256 ^ 4 by omega)
  rw [List.append_nil] at parsed
  rw [parseReplace, if_neg (by simp [pathBytes]; omega), takeField_u64Bytes]
  simp only [takeField_u64Bytes]
  rw [pathBytes, List.append_assoc]
  simp only [takeField_toLeBytes, fromLeBytes_toLeBytes own, takeField_append, fromUtf8_textBytes,
    fromLeBytes_toLeBytes (show removed.length < 256 ^ 4 by omega)]
  rw [if_neg (by omega), parsed]
  simp [texts added List.mem_cons_self]

theorem parseReplace_eq_ok (parsed : parseReplace platform data = .ok entry) :
    (3 :: data : Bytes) = entry.storedPayload platform ∧
      ∀ path ∈ entry.paths, platform.fromText (platform.toStringLossy path) = path := by
  unfold parseReplace at parsed
  split at parsed
  · contradiction
  split at parsed
  · contradiction
  rename_i addedMaxTx rest eight
  obtain ⟨rfl, eightLong⟩ := takeField_eq_some.mp eight
  split at parsed
  · contradiction
  rename_i rank rest eight'
  obtain ⟨rfl, eightLong'⟩ := takeField_eq_some.mp eight'
  split at parsed
  · contradiction
  rename_i addedPathLen rest four
  obtain ⟨rfl, fourLong⟩ := takeField_eq_some.mp four
  split at parsed
  · contradiction
  rename_i addedPath rest path
  obtain ⟨rfl, pathLong⟩ := takeField_eq_some.mp path
  split at parsed
  · contradiction
  rename_i added utf8
  split at parsed
  · contradiction
  rename_i removedCount rest four'
  obtain ⟨rfl, fourLong'⟩ := takeField_eq_some.mp four'
  split at parsed
  · contradiction
  split at parsed
  · contradiction
  · rename_i removed further
    cases parsed
    obtain ⟨rfl, counted, texts⟩ := parseRemoved_eq_ok further
    have spelled := textBytes_of_fromUtf8 utf8
    have lengthField : toLeBytes 4 addedPath.length = addedPathLen := by
      rw [pathLong, ← fourLong, toLeBytes_fromLeBytes]
    have countField : toLeBytes 4 removed.length = removedCount := by
      rw [counted, ← fourLong', toLeBytes_fromLeBytes]
    refine ⟨?_, ?_⟩
    · rw [storedPayload, u64Bytes_u64Of eightLong, u64Bytes_u64Of eightLong', countField]
      simp [pathBytes, platform.toStringLossy_fromText, spelled, lengthField]
    · intro other mem
      rcases List.mem_cons.mp mem with rfl | mem
      · rw [platform.toStringLossy_fromText]
      · exact texts other mem
  · contradiction

theorem fromBytes_storedBody (readable : entry.Readable platform) :
    fromBytes platform (entry.storedBody platform) = .ok entry := by
  have sized : (entry.storedPayload platform).length < 256 ^ 4 := by
    have bounded := readable.sized
    rw [length_storedBody, maxManifestEntrySize] at bounded
    omega
  have texts := readable.texts
  have nonempty : 1 ≤ (entry.storedPayload platform).length := by
    cases entry <;> simp [storedPayload, payload]
  rw [fromBytes, if_neg (by rw [length_storedBody]; omega)]
  simp only [storedBody, List.take_left' (length_toLeBytes 4 _),
    List.drop_left' (length_toLeBytes 4 _), fromLeBytes_toLeBytes (crc32_lt _)]
  rw [if_neg (by simp)]
  cases entry with
  | add path maxTx =>
    simp only [storedPayload, payload, pathBytes, List.length_cons, List.length_append] at sized
    exact parseAdd_pathBytes (texts path (by simp [paths])) (by omega)
  | remove path =>
    simp only [storedPayload, payload, pathBytes, List.length_cons, List.length_append] at sized
    exact parseRemove_pathBytes (texts path (by simp [paths])) (by omega)
  | rollbackComplete targetTx => simp [storedPayload, payload]
  | replace removed added addedMaxTx rank =>
    simp only [storedPayload, List.length_cons, List.length_append] at sized
    have parsed := parseReplace_storedPayload addedMaxTx rank texts (by omega)
    simpa [storedPayload] using parsed
  | walCheckpoint hmac => simp [storedPayload, payload, Vector.toList]

theorem fromBytes_eq_ok (read : fromBytes platform data = .ok entry) :
    data = entry.storedBody platform ∧
      ∀ path ∈ entry.paths, platform.fromText (platform.toStringLossy path) = path := by
  unfold fromBytes at read
  split at read
  · contradiction
  rename_i long
  simp only at read
  split at read
  · contradiction
  rename_i same
  push Not at same
  have checksum : toLeBytes 4 (crc32 (data.drop 4)) = data.take 4 := by
    have spelled := toLeBytes_fromLeBytes (data.take 4)
    rwa [List.length_take_of_le (by omega), same] at spelled
  have payloadOnly : ∀ entry : ManifestEntry PathBuf,
      data.drop 4 = entry.storedPayload platform → data = entry.storedBody platform := by
    intro entry payload
    rw [storedBody, ← payload, checksum, List.take_append_drop]
  split at read
  · contradiction
  rename_i opTag remaining payload
  have tagged : ∀ tag : UInt8, opTag.toNat = tag.toNat → data.drop 4 = tag :: remaining := by
    intro tag equal
    rw [payload, UInt8.toNat_inj.mp equal]
  split at read
  · rename_i tag
    obtain ⟨stored, texts⟩ := parseAdd_eq_ok read
    exact ⟨payloadOnly entry ((tagged 0 tag).trans stored), texts⟩
  · rename_i tag
    obtain ⟨stored, texts⟩ := parseRemove_eq_ok read
    exact ⟨payloadOnly entry ((tagged 1 tag).trans stored), texts⟩
  · rename_i tag
    split at read
    · contradiction
    rename_i eight
    cases read
    refine ⟨payloadOnly _ ((tagged 2 tag).trans ?_), by simp [paths]⟩
    rw [storedPayload, ManifestEntry.payload, u64Bytes_u64Of (by omega)]
    rintro _ _ _ _ ⟨⟩
  · rename_i tag
    obtain ⟨stored, texts⟩ := parseReplace_eq_ok read
    exact ⟨payloadOnly entry ((tagged 3 tag).trans stored), texts⟩
  · rename_i tag
    split at read
    · cases read
      refine ⟨payloadOnly _ ((tagged 4 tag).trans ?_), by simp [paths]⟩
      simp [storedPayload, ManifestEntry.payload, Vector.toList]
    · contradiction
  · contradiction

theorem storedFrame_length (entry : ManifestEntry PathBuf) :
    (entry.storedFrame platform).length = 8 + (entry.storedPayload platform).length := by
  simp [storedFrame]
  omega

theorem frame_eq_storedFrame (fits : entry.Fits platform) :
    entry.frame platform = (entry.asWritten platform).storedFrame platform := by
  have size : entry.totalPayloadSize platform = 4 + (entry.payload platform).length :=
    Nat.mod_eq_of_lt fits
  rw [frame, storedFrame, length_storedBody, storedBody, storedPayload_asWritten, size]

theorem toBytes_eq_ok {bytes : Bytes} :
    entry.toBytes platform = .ok bytes ↔
      entry.totalPayloadSize platform ≤ maxManifestEntrySize ∧ bytes = entry.frame platform := by
  unfold toBytes
  split
  · simp
    omega
  · rw [Except.ok.injEq]
    constructor
    · rintro rfl
      exact ⟨by omega, rfl⟩
    · rintro ⟨_, rfl⟩
      rfl

theorem asWritten_readable (fits : entry.Fits platform)
    (accepted : entry.totalPayloadSize platform ≤ maxManifestEntrySize) :
    (entry.asWritten platform).Readable platform := by
  refine ⟨asWritten_texts entry, ?_⟩
  rw [length_storedBody, storedPayload_asWritten]
  rwa [totalPayloadSize, Nat.mod_eq_of_lt fits] at accepted

end ManifestEntry

/-- What is left of a frame at the end of a file, as `load` tolerates it: an incomplete
length, or a length and bytes that may be the beginning of a frame. -/
def TornTail (data : Bytes) : Prop :=
  data.length < 4 ∨
    data.length < 4 + fromLeBytes (data.take 4) ∧
      isValidTailTruncationCandidate (fromLeBytes (data.take 4)) (data.drop 4) = true

instance (data : Bytes) : Decidable (TornTail data) := inferInstanceAs (Decidable (_ ∨ _ ∧ _))

theorem candidate_length {claimedLen : Nat} {part : Bytes}
    (candidate : isValidTailTruncationCandidate claimedLen part = true) :
    10 ≤ claimedLen ∧ claimedLen ≤ maxManifestEntrySize := by
  unfold isValidTailTruncationCandidate at candidate
  split at candidate
  · contradiction
  · omega

theorem nextEntry_storedFrame {entry : ManifestEntry PathBuf} (readable : entry.Readable platform)
    (pos : Nat) (rest : Bytes) :
    nextEntry platform pos (entry.storedFrame platform ++ rest) =
      .record entry (pos + (entry.storedFrame platform).length) rest := by
  have sized := readable.sized
  have positive : 5 ≤ (entry.storedBody platform).length := by
    rw [ManifestEntry.length_storedBody]
    cases entry <;> simp [ManifestEntry.storedPayload, ManifestEntry.payload] <;> omega
  have fourBytes : (entry.storedBody platform).length < 256 ^ 4 := by
    rw [maxManifestEntrySize] at sized
    omega
  unfold nextEntry
  rw [if_neg (by simp [ManifestEntry.storedFrame, toLeBytes])]
  simp only [ManifestEntry.storedFrame, List.append_assoc, takeField_toLeBytes,
    fromLeBytes_toLeBytes fourBytes]
  rw [if_neg (by omega), takeField_append]
  simp only [ManifestEntry.fromBytes_storedBody readable, List.length_append, length_toLeBytes]
  congr 1
  omega

theorem nextEntry_eq_record {pos pos' : Nat} {data rest : Bytes} {entry : ManifestEntry PathBuf}
    (found : nextEntry platform pos data = .record entry pos' rest) :
    data = entry.storedFrame platform ++ rest ∧ entry.Readable platform := by
  unfold nextEntry at found
  split at found
  · contradiction
  split at found
  · contradiction
  rename_i lenBytes behind taken
  obtain ⟨rfl, four⟩ := takeField_eq_some.mp taken
  simp only at found
  split at found
  · contradiction
  rename_i accepted
  split at found
  · rename_i entryRaw behind' taken'
    obtain ⟨rfl, long⟩ := takeField_eq_some.mp taken'
    split at found
    · contradiction
    rename_i read
    cases found
    obtain ⟨rfl, texts⟩ := ManifestEntry.fromBytes_eq_ok read
    refine ⟨?_, texts, by omega⟩
    rw [ManifestEntry.storedFrame, long, ← four, toLeBytes_fromLeBytes, List.append_assoc]
  · split at found <;> contradiction

theorem nextEntry_eq_stop_iff {pos : Nat} :
    nextEntry platform pos data = .stop ↔ TornTail data := by
  unfold nextEntry TornTail
  by_cases empty : data = []
  · simp [empty]
  rw [if_neg empty]
  cases taken : takeField 4 data with
  | none => simp [takeField_eq_none.mp taken]
  | some parts =>
    obtain ⟨lenBytes, rest⟩ := parts
    obtain ⟨rfl, four⟩ := takeField_eq_some.mp taken
    rw [List.take_left' four, List.drop_left' four]
    simp only [List.length_append, four]
    constructor
    · intro stopped
      split at stopped
      · contradiction
      split at stopped
      · split at stopped <;> contradiction
      · rename_i incomplete
        split at stopped
        · rename_i candidate
          exact .inr ⟨by have := takeField_eq_none.mp incomplete; omega, candidate⟩
        · contradiction
    · rintro (short | ⟨incomplete, candidate⟩)
      · omega
      · have bounds := candidate_length candidate
        rw [if_neg (by omega), takeField_eq_none.mpr (by omega)]
        simp [candidate]

theorem scan_records_iff {pos : Nat} {entries : List (ManifestEntry PathBuf)} :
    ((entryScanner platform).scan pos data).map Scan.records = .ok entries ↔
      (∀ entry ∈ entries, entry.Readable platform) ∧
        ∃ tail, data = entries.flatMap (ManifestEntry.storedFrame platform) ++ tail ∧
          TornTail tail := by
  constructor
  · intro scanned
    cases finished : (entryScanner platform).scan pos data with
    | error error => rw [finished] at scanned; contradiction
    | ok result =>
      rw [finished] at scanned
      obtain rfl := Except.ok.inj scanned
      have trace := Scanner.scan_eq_ok.mp finished
      refine ⟨?_, result.rest, ?_, ?_⟩
      · clear scanned finished
        induction trace with
        | stop found => simp
        | record found _ ih =>
          simp only [Scan.prepend, List.cons_append, List.nil_append, List.forall_mem_cons]
          exact ⟨(nextEntry_eq_record found).2, ih⟩
      · exact trace.log_eq fun _ _ _ _ _ found => (nextEntry_eq_record found).1
      · exact nextEntry_eq_stop_iff.mp trace.stops
  · rintro ⟨readable, tail, rfl, torn⟩
    rw [Scanner.scan_encodings (fun pos entry => pos + (entry.storedFrame platform).length)
        fun entry mem pos rest => nextEntry_storedFrame (readable entry mem) pos rest,
      Scanner.scan_stop (nextEntry_eq_stop_iff.mpr torn)]
    simp [Except.map, Scan.prepend]

end Contextra.Store.ManifestFile
