import Contextra.Store.ManifestFrames

/-!
# Torn writes of the MANIFEST

A crash leaves a prefix of the file.  The loader gives back the entries whose frames are
complete, unless it does not take what is left of the next frame for a torn tail.  Opening
the file again does not remove such a tail, and the next batch is written behind it.
-/

namespace Contextra.Store.ManifestFile

open Library

variable {PathBuf : Type} {platform : Platform PathBuf}

theorem u32At_take {offset kept : Nat} {data : Bytes} :
    u32At offset (data.take kept) = if offset + 4 ≤ kept then u32At offset data else none := by
  unfold u32At
  rw [fieldAt_take]
  split <;> rfl

theorem u32At_toLeBytes (before rest : Bytes) {offset value : Nat} (position : before.length = offset)
    (bounded : value < 256 ^ 4) :
    u32At offset (before ++ toLeBytes 4 value ++ rest) = some value := by
  rw [u32At, fieldAt_toLeBytes 4 value position, Option.map_some, fromLeBytes_toLeBytes bounded]

theorem calculatedLen_take (removed : List PathBuf) (before : Bytes) (kept calculated : Nat)
    {remOffset : Nat} (position : before.length = remOffset)
    (sized : (removed.flatMap (pathBytes platform)).length < 256 ^ 4) :
    let part := (before ++ removed.flatMap (pathBytes platform)).take kept
    calculatedLen part removed.length remOffset calculated = none ∨
      calculatedLen part removed.length remOffset calculated =
        some (calculated + (removed.flatMap (pathBytes platform)).length) := by
  induction removed generalizing before calculated remOffset with
  | nil => exact .inr (by simp [calculatedLen])
  | cons path removed ih =>
    simp only [List.flatMap_cons, List.length_append, List.length_cons] at sized ⊢
    have own : (textBytes (platform.toStringLossy path)).length < 256 ^ 4 := by
      simp only [pathBytes, List.length_append] at sized
      omega
    have field : u32At remOffset (before ++ (pathBytes platform path ++
        removed.flatMap (pathBytes platform))) =
          some (textBytes (platform.toStringLossy path)).length := by
      have found := u32At_toLeBytes before (textBytes (platform.toStringLossy path) ++
        removed.flatMap (pathBytes platform)) position own
      simpa [pathBytes] using found
    rw [calculatedLen, u32At_take, field]
    by_cases inside : remOffset + 4 ≤ kept
    · rw [if_pos inside]
      have later := ih (before ++ pathBytes platform path)
        (calculated + (4 + (textBytes (platform.toStringLossy path)).length))
        (show _ = remOffset + (4 + (textBytes (platform.toStringLossy path)).length) by
          simp [pathBytes, position]) (by omega)
      rw [List.append_assoc] at later
      have own : (pathBytes platform path).length =
          4 + (textBytes (platform.toStringLossy path)).length := by simp [pathBytes]
      simpa only [own, Nat.add_assoc] using later
    · rw [if_neg inside]
      exact .inl rfl

namespace ManifestEntry

/-- The frame, cut after `kept` bytes, is taken for a torn tail: its length and its tag,
where they are there, are those of an entry the rule knows. -/
def Recognised (platform : Platform PathBuf) (kept : Nat) : ManifestEntry PathBuf → Prop
  | add path _ => kept < 9 ∨ platform.toStringLossy path ≠ ""
  | remove path => kept < 4 ∨ platform.toStringLossy path ≠ ""
  | rollbackComplete _ => True
  | replace removed added _ _ => kept < 9 ∨ platform.toStringLossy added ≠ "" ∨ removed ≠ []
  | walCheckpoint _ => kept < 9

instance (kept : Nat) (entry : ManifestEntry PathBuf) : Decidable (entry.Recognised platform kept) :=
  match entry with
  | add _ _ => inferInstanceAs (Decidable (_ ∨ _))
  | remove _ => inferInstanceAs (Decidable (_ ∨ _))
  | rollbackComplete _ => inferInstanceAs (Decidable True)
  | replace removed _ _ _ =>
    have : Decidable (removed ≠ []) := by cases removed <;> exact inferInstance
    inferInstanceAs (Decidable (_ ∨ _ ∨ _))
  | walCheckpoint _ => inferInstanceAs (Decidable (_ < _))

theorem textBytes_length_pos (text : String) : 0 < (textBytes text).length ↔ text ≠ "" := by
  have empty : (textBytes text).length = 0 ↔ text = "" := by
    simp [textBytes, ← String.toByteArray_inj, ByteArray.ext_iff]
  rw [Nat.pos_iff_ne_zero, ne_eq, empty]

theorem candidate_cons {claimedLen kept : Nat} {crc fields : Bytes} {opTag : UInt8}
    (four : crc.length = 4) (long : 10 ≤ claimedLen) (short : claimedLen ≤ maxManifestEntrySize) :
    isValidTailTruncationCandidate claimedLen ((crc ++ opTag :: fields).take kept) =
      if kept < 5 then true
      else isValidTailTruncationCandidate claimedLen (crc ++ opTag :: fields.take (kept - 5)) := by
  by_cases tagLost : kept < 5
  · have nothing : ((crc ++ opTag :: fields).take kept).drop 4 = [] := by
      rw [List.drop_eq_nil_iff, List.length_take]
      omega
    rw [if_pos tagLost, isValidTailTruncationCandidate, if_neg (by omega), nothing]
  · obtain ⟨more, rfl⟩ : ∃ more, kept = 5 + more := ⟨kept - 5, by omega⟩
    rw [if_neg tagLost, List.take_append, List.take_of_length_le (by omega), four,
      show 5 + more - 4 = more + 1 by omega, List.take_succ_cons, Nat.add_sub_cancel_left]

theorem candidate_tag {claimedLen : Nat} {crc fields : Bytes} {opTag : UInt8} (tag : Nat)
    (tagged : opTag.toNat = tag) (four : crc.length = 4) (long : 10 ≤ claimedLen) (short : claimedLen ≤ maxManifestEntrySize) :
    isValidTailTruncationCandidate claimedLen (crc ++ opTag :: fields) =
      match tag with
      | 0 => !decide (claimedLen < 18) && (u32At 8 fields).all fun pathLen =>
        decide (claimedLen = 17 + pathLen)
      | 1 => (u32At 0 fields).all fun pathLen => decide (claimedLen = 9 + pathLen)
      | 2 => decide (claimedLen = 13)
      | 3 => !decide (claimedLen < 30) && (u32At 16 fields).all fun addedPathLen =>
        (u32At (20 + addedPathLen) fields).all fun removedCount =>
          (calculatedLen fields removedCount (24 + addedPathLen) (29 + addedPathLen)).all
            fun calculated => decide (claimedLen = calculated)
      | _ => false := by
  rw [isValidTailTruncationCandidate, if_neg (by omega), List.drop_left' four]
  simp only [tagged]
  match tag with
  | 0 =>
    cases u32At 8 fields <;> by_cases tooShort : claimedLen < 18 <;> simp [tooShort]
  | 1 =>
    have enough : ¬ claimedLen < 10 := by omega
    cases u32At 0 fields <;> simp [enough]
  | 2 => rfl
  | 3 =>
    by_cases tooShort : claimedLen < 30
    · simp [tooShort]
    cases added : u32At 16 fields with
    | none => simp [tooShort]
    | some addedPathLen =>
      have offset : 20 + addedPathLen + 4 = 24 + addedPathLen := by omega
      have fixed : 4 + 1 + 8 + 8 + 4 + addedPathLen + 4 = 29 + addedPathLen := by omega
      cases count : u32At (20 + addedPathLen) fields with
      | none => simp [tooShort, count]
      | some removedCount =>
        simp only [offset, fixed, Option.all_some, count]
        cases calculatedLen fields removedCount (24 + addedPathLen) (29 + addedPathLen) <;>
          simp [tooShort]
  | _ + 4 => rfl

theorem candidate_payload (entry : ManifestEntry PathBuf) {crc : Bytes} (kept : Nat)
    (four : crc.length = 4) (short : 4 + (entry.payload platform).length ≤ maxManifestEntrySize) :
    isValidTailTruncationCandidate (4 + (entry.payload platform).length)
      ((crc ++ entry.payload platform).take kept) = true ↔ entry.Recognised platform (4 + kept) := by
  have bound : 4 + (entry.payload platform).length < 256 ^ 4 := by
    rw [maxManifestEntrySize] at short
    omega
  cases entry with
  | add path maxTx =>
    have text := textBytes_length_pos (platform.toStringLossy path)
    have claimed : 4 + (payload platform (add path maxTx)).length =
        17 + (textBytes (platform.toStringLossy path)).length := by
      simp [payload, pathBytes]
      omega
    have field := u32At_toLeBytes (u64Bytes maxTx)
      (textBytes (platform.toStringLossy path)) (length_u64Bytes maxTx)
      (show (textBytes (platform.toStringLossy path)).length < 256 ^ 4 by omega)
    rw [List.append_assoc] at field
    rw [claimed] at short ⊢
    rw [payload, candidate_cons four (by omega) short, candidate_tag 0 rfl four (by omega) short]
    simp only [pathBytes, u32At_take, field, Recognised, ← text]
    generalize (textBytes (platform.toStringLossy path)).length = size
    split
    · simp
      omega
    · split <;> simp <;> omega
  | remove path =>
    have text := textBytes_length_pos (platform.toStringLossy path)
    have claimed : 4 + (payload platform (remove path)).length =
        9 + (textBytes (platform.toStringLossy path)).length := by
      simp [payload, pathBytes]
      omega
    have field := u32At_toLeBytes [] (textBytes (platform.toStringLossy path))
      (show _ = 0 from rfl) (show (textBytes (platform.toStringLossy path)).length < 256 ^ 4 by omega)
    rw [List.nil_append] at field
    rw [claimed] at short ⊢
    simp only [Recognised, ← text]
    by_cases long : 10 ≤ 9 + (textBytes (platform.toStringLossy path)).length
    · rw [payload, candidate_cons four long short, candidate_tag 1 rfl four long short]
      simp only [pathBytes, u32At_take, field]
      generalize (textBytes (platform.toStringLossy path)).length = size at long
      split
      · simp
        omega
      · split <;> simp <;> omega
    · rw [isValidTailTruncationCandidate, if_pos (.inl (by omega))]
      generalize (textBytes (platform.toStringLossy path)).length = size at long
      simp
      omega
  | rollbackComplete targetTx =>
    have claimed : 4 + (payload platform (rollbackComplete targetTx)).length = 13 := by
      simp [payload]
    rw [claimed] at short ⊢
    rw [payload, candidate_cons four (by omega) short, candidate_tag 2 rfl four (by omega) short]
    simp [Recognised]
  | replace removed added addedMaxTx rank =>
    have text := textBytes_length_pos (platform.toStringLossy added)
    have some' : removed ≠ [] ↔ 0 < (removed.flatMap (pathBytes platform)).length := by
      cases removed <;> simp [pathBytes, toLeBytes]
    have count := length_le_removedBytes platform removed
    have claimed : 4 + (payload platform (replace removed added addedMaxTx rank)).length =
        29 + (textBytes (platform.toStringLossy added)).length +
          (removed.flatMap (pathBytes platform)).length := by
      simp [payload, pathBytes]
      omega
    rw [claimed] at bound short ⊢
    -- the fields behind the tag, split at the length of the added path and at the count
    have addedField := u32At_toLeBytes (u64Bytes addedMaxTx ++ u64Bytes 0)
      (textBytes (platform.toStringLossy added) ++
        (toLeBytes 4 removed.length ++ removed.flatMap (pathBytes platform)))
      (show _ = 16 by simp)
      (show (textBytes (platform.toStringLossy added)).length < 256 ^ 4 by omega)
    have countField := u32At_toLeBytes
      (u64Bytes addedMaxTx ++ u64Bytes 0 ++ pathBytes platform added)
      (removed.flatMap (pathBytes platform))
      (show _ = 20 + (textBytes (platform.toStringLossy added)).length by
        simp [pathBytes]
        omega)
      (show removed.length < 256 ^ 4 by omega)
    have removedFields := calculatedLen_take removed
      (u64Bytes addedMaxTx ++ u64Bytes 0 ++ pathBytes platform added ++
        toLeBytes 4 removed.length) (kept - 5)
      (29 + (textBytes (platform.toStringLossy added)).length)
      (show _ = 24 + (textBytes (platform.toStringLossy added)).length by
        simp [pathBytes]
        omega)
      (show (removed.flatMap (pathBytes platform)).length < 256 ^ 4 by omega)
    simp only [pathBytes, List.append_assoc] at addedField countField removedFields ⊢
    rw [payload, candidate_cons four (by omega) short, candidate_tag 3 rfl four (by omega) short]
    simp only [pathBytes, List.append_assoc, u32At_take, addedField, Recognised, ← text, some']
    -- whatever is left of the fields, the lengths among them add up to the claimed one
    have agrees : ∀ left : Option Nat,
        (left = none ∨ left = some (29 + (textBytes (platform.toStringLossy added)).length +
          (removed.flatMap (pathBytes platform)).length)) →
        left.all (fun calculated => decide (29 +
          (textBytes (platform.toStringLossy added)).length +
          (removed.flatMap (pathBytes platform)).length = calculated)) = true := by
      rintro _ (rfl | rfl) <;> simp
    have parsed := agrees _ removedFields
    by_cases tagLost : kept < 5
    · simp only [tagLost, if_true, true_iff]
      omega
    rw [if_neg tagLost]
    by_cases addedThere : 16 + 4 ≤ kept - 5
    · simp only [addedThere, if_true, Option.all_some]
      by_cases countThere : 20 + (textBytes (platform.toStringLossy added)).length + 4 ≤ kept - 5
      · simp only [countThere, if_true, countField, Option.all_some, parsed, Bool.and_true]
        simp only [Bool.not_eq_true', decide_eq_false_iff_not]
        omega
      · simp only [countThere, if_false, Option.all_none, Bool.and_true]
        simp only [Bool.not_eq_true', decide_eq_false_iff_not]
        omega
    · simp only [addedThere, if_false, Option.all_none, Bool.and_true]
      simp only [Bool.not_eq_true', decide_eq_false_iff_not]
      omega
  | walCheckpoint hmac =>
    have claimed : 4 + (payload platform (walCheckpoint hmac)).length = 37 := by simp [payload]
    rw [claimed] at short ⊢
    rw [payload, candidate_cons four (by omega) short, candidate_tag 4 rfl four (by omega) short]
    change (if kept < 5 then true else false) = true ↔ 4 + kept < 9
    split <;> simp <;> omega

theorem tornTail_take_frame {entry : ManifestEntry PathBuf} {kept : Nat}
    (fits : entry.Fits platform) (accepted : entry.totalPayloadSize platform ≤ maxManifestEntrySize)
    (cut : kept < (entry.frame platform).length) :
    TornTail ((entry.frame platform).take kept) ↔ entry.Recognised platform kept := by
  have size : entry.totalPayloadSize platform = 4 + (entry.payload platform).length :=
    Nat.mod_eq_of_lt fits
  have bound : entry.totalPayloadSize platform < 256 ^ 4 := by
    rw [maxManifestEntrySize] at accepted
    omega
  have total : (entry.frame platform).length = 8 + (entry.payload platform).length := by
    simp [frame]
    omega
  by_cases lengthLost : kept < 4
  · have short : TornTail ((entry.frame platform).take kept) :=
      .inl (by rw [List.length_take]; omega)
    refine ⟨fun _ => ?_, fun _ => short⟩
    cases entry <;> simp only [Recognised] <;> first | trivial | omega
  have front : ((entry.frame platform).take kept).take 4 =
      toLeBytes 4 (entry.totalPayloadSize platform) := by
    rw [List.take_take, min_eq_left (by omega), frame, List.take_left' (length_toLeBytes 4 _)]
  have behind : ((entry.frame platform).take kept).drop 4 =
      (toLeBytes 4 (crc32 (entry.payload platform)) ++ entry.payload platform).take (kept - 4) := by
    rw [List.drop_take, frame, List.drop_left' (length_toLeBytes 4 _)]
  have rule : isValidTailTruncationCandidate (entry.totalPayloadSize platform)
      ((toLeBytes 4 (crc32 (entry.payload platform)) ++ entry.payload platform).take (kept - 4)) =
        true ↔ entry.Recognised platform kept := by
    have sized : 4 + (entry.payload platform).length ≤ maxManifestEntrySize := by omega
    have read := candidate_payload entry (kept - 4)
      (length_toLeBytes 4 (crc32 (entry.payload platform))) sized
    rwa [show 4 + (kept - 4) = kept by omega, ← size] at read
  rw [TornTail, front, behind, fromLeBytes_toLeBytes bound, List.length_take_of_le (by omega), rule]
  constructor
  · rintro (short | ⟨_, recognised⟩)
    · omega
    · exact recognised
  · exact fun recognised => .inr ⟨by omega, recognised⟩

/-- A crash may cut the frame after `kept` bytes: the loader takes the rest for a torn
tail.  Of an entry whose size wraps around nothing more is said than that. -/
def SurvivesCut (platform : Platform PathBuf) (entry : ManifestEntry PathBuf) (kept : Nat) : Prop :=
  entry.Fits platform ∧ entry.Recognised platform kept ∨
    ¬ entry.Fits platform ∧ TornTail ((entry.frame platform).take kept)

instance (entry : ManifestEntry PathBuf) (kept : Nat) :
    Decidable (entry.SurvivesCut platform kept) :=
  inferInstanceAs (Decidable (_ ∧ _ ∨ _ ∧ _))

end ManifestEntry

variable {entries : List (ManifestEntry PathBuf)}

theorem batchBytes_eq_ok {bytes : Bytes} :
    batchBytes platform entries = .ok bytes ↔
      (∀ entry ∈ entries, entry.totalPayloadSize platform ≤ maxManifestEntrySize) ∧
        bytes = entries.flatMap (ManifestEntry.frame platform) := by
  induction entries generalizing bytes with
  | nil =>
    simp [batchBytes, eq_comm]
  | cons entry entries ih =>
    rw [batchBytes, List.forall_mem_cons, List.flatMap_cons]
    cases encoded : entry.toBytes platform with
    | error error =>
      have refused : ¬ entry.totalPayloadSize platform ≤ maxManifestEntrySize := by
        intro accepted
        rw [ManifestEntry.toBytes_eq_ok.mpr ⟨accepted, rfl⟩] at encoded
        contradiction
      simp [refused]
    | ok frame =>
      obtain ⟨accepted, rfl⟩ := ManifestEntry.toBytes_eq_ok.mp encoded
      cases later : batchBytes platform entries with
      | error error =>
        have refused : ¬ ∀ entry ∈ entries,
            entry.totalPayloadSize platform ≤ maxManifestEntrySize := by
          intro all
          rw [ih.mpr ⟨all, rfl⟩] at later
          contradiction
        simp [refused]
      | ok frames =>
        obtain ⟨all, rfl⟩ := ih.mp later
        simp only [Except.ok.injEq]
        exact ⟨fun same => ⟨⟨accepted, all⟩, same.symm⟩, fun same => same.2.symm⟩

theorem appendBatch_eq_ok {file bytes : Bytes}
    (appended : appendBatch platform file entries = .ok bytes) :
    (∀ entry ∈ entries, entry.totalPayloadSize platform ≤ maxManifestEntrySize) ∧
      bytes = file ++ entries.flatMap (ManifestEntry.frame platform) := by
  unfold appendBatch at appended
  cases encoded : batchBytes platform entries with
  | error error => rw [encoded] at appended; contradiction
  | ok frames =>
    rw [encoded] at appended
    obtain ⟨accepted, rfl⟩ := batchBytes_eq_ok.mp encoded
    exact ⟨accepted, (Except.ok.inj appended).symm⟩

theorem entriesOffset_header (data : Bytes) : entriesOffset (header ++ data) = .ok 5 := by
  simp [entriesOffset, header, manifestHeaderMagic]

theorem flatMap_frame (fit : ∀ entry ∈ entries, entry.Fits platform) :
    entries.flatMap (ManifestEntry.frame platform) =
      (entries.map (ManifestEntry.asWritten platform)).flatMap
        (ManifestEntry.storedFrame platform) := by
  rw [List.flatMap_map]
  exact List.flatMap_congr fun entry mem =>
    ManifestEntry.frame_eq_storedFrame (fit entry mem)

theorem ManifestEntry.length_frame_pos (entry : ManifestEntry PathBuf) :
    0 < (entry.frame platform).length := by
  simp [ManifestEntry.frame]

theorem ManifestEntry.Readable.fits {entry : ManifestEntry PathBuf}
    (readable : (entry.asWritten platform).Readable platform) : entry.Fits platform := by
  have sized := readable.sized
  rw [ManifestEntry.length_storedBody, ManifestEntry.storedPayload_asWritten] at sized
  exact Nat.lt_of_le_of_lt sized (by decide)

theorem ManifestEntry.survivesCut_zero (entry : ManifestEntry PathBuf) :
    entry.SurvivesCut platform 0 := by
  by_cases fits : entry.Fits platform
  · refine .inl ⟨fits, ?_⟩
    cases entry <;> simp [Recognised]
  · exact .inr ⟨fits, .inl (by simp)⟩

theorem load_take_header {count : Nat} (short : count < 5) :
    load platform (some (header.take count)) = .ok [] ↔ count ≠ 4 := by
  by_cases magic : count = 4
  · have refused : load platform (some (header.take 4)) =
        .error (.invalidLength (fromLeBytes manifestHeaderMagic) 0) := rfl
    rw [magic, refused]
    simp
  · have tolerated : load platform (some (header.take count)) = .ok [] := by
      interval_cases count
      · rfl
      · rfl
      · rfl
      · rfl
      · contradiction
    exact iff_of_true tolerated magic

theorem load_header_append {data : Bytes} :
    load platform (some (header ++ data)) =
      ((entryScanner platform).scan 5 data).map Scan.records := by
  simp only [load, entriesOffset_header]
  rfl

/-- A prefix of the file loads with exactly the entries whose frames are complete in it, if
and only if it does not end with the four bytes of the magic, none of these entries has a
size that wraps around, and the entry whose frame is cut is recognised. -/
theorem load_prefix_iff {entries : List (ManifestEntry PathBuf)} {file : Bytes}
    (appended : appendBatch platform header entries = .ok file) (count : Nat) :
    load platform (some (file.take count)) =
        .ok ((wholeRecords (ManifestEntry.frame platform) (count - 5) entries).map
          (ManifestEntry.asWritten platform)) ↔
      count ≠ 4 ∧
        (∀ entry ∈ wholeRecords (ManifestEntry.frame platform) (count - 5) entries,
          entry.Fits platform) ∧
        ∀ entry kept,
          cutRecord (ManifestEntry.frame platform) (count - 5) entries = some (entry, kept) →
          entry.SurvivesCut platform kept := by
  obtain ⟨accepted, rfl⟩ := appendBatch_eq_ok appended
  have headerLong : header.length = 5 := rfl
  by_cases short : count < 5
  · have nothing : count - 5 = 0 := by omega
    rw [nothing, List.take_append_of_le_length (by omega)]
    have noneWhole : wholeRecords (ManifestEntry.frame platform) 0 entries = [] := by
      cases entries with
      | nil => rfl
      | cons entry entries =>
        exact if_neg (Nat.not_le_of_lt entry.length_frame_pos)
    rw [noneWhole, List.map_nil, load_take_header short]
    refine ⟨fun longer => ⟨longer, by simp, fun entry kept cut => ?_⟩, fun survives => survives.1⟩
    cases entries with
    | nil => contradiction
    | cons first entries =>
      rw [cutRecord, if_neg (Nat.not_le_of_lt first.length_frame_pos), Option.some.injEq,
        Prod.mk.injEq] at cut
      obtain ⟨rfl, rfl⟩ := cut
      exact first.survivesCut_zero
  · obtain ⟨more, rfl⟩ : ∃ more, count = 5 + more := ⟨count - 5, by omega⟩
    rw [List.take_append, List.take_of_length_le (by omega), headerLong, Nat.add_sub_cancel_left,
      take_encodings, load_header_append, scan_records_iff]
    have wholeAccepted : ∀ entry ∈ wholeRecords (ManifestEntry.frame platform) more entries,
        entry.totalPayloadSize platform ≤ maxManifestEntrySize := fun entry mem =>
      accepted entry ((wholeRecords_isPrefix more entries).subset mem)
    generalize wholeRecords (ManifestEntry.frame platform) more entries = whole at wholeAccepted
    -- the bytes behind the whole frames, and what the cut entry says about them
    have torn : TornTail (tornSymbols (ManifestEntry.frame platform) more entries) ↔
        ∀ entry kept, cutRecord (ManifestEntry.frame platform) more entries = some (entry, kept) →
          entry.SurvivesCut platform kept := by
      unfold tornSymbols
      cases cut : cutRecord (ManifestEntry.frame platform) more entries with
      | none => simp [TornTail]
      | some found =>
        obtain ⟨entry, kept⟩ := found
        obtain ⟨⟨later, place⟩, incomplete⟩ := cutRecord_eq_some cut
        have own : entry.totalPayloadSize platform ≤ maxManifestEntrySize :=
          accepted entry (place ▸ List.mem_append_right _ List.mem_cons_self)
        simp only [Option.some.injEq, Prod.mk.injEq, and_imp, forall_eq', forall_apply_eq_imp_iff]
        unfold ManifestEntry.SurvivesCut
        by_cases fits : entry.Fits platform
        · simp [fits, ManifestEntry.tornTail_take_frame fits own incomplete]
        · simp [fits]
    rw [← torn]
    constructor
    · rintro ⟨readable, tail, same, tolerated⟩
      have fit : ∀ entry ∈ whole, entry.Fits platform := fun entry mem =>
        (readable _ (List.mem_map_of_mem mem)).fits
      rw [flatMap_frame fit, List.append_cancel_left_eq] at same
      exact ⟨by omega, fit, same ▸ tolerated⟩
    · rintro ⟨_, fit, tolerated⟩
      refine ⟨?_, _, by rw [flatMap_frame fit], tolerated⟩
      intro entry mem
      obtain ⟨original, original_mem, rfl⟩ := List.mem_map.mp mem
      exact ManifestEntry.asWritten_readable (fit original original_mem)
        (wholeAccepted original original_mem)

def textPaths : Platform String where
  fromText text := text
  toStringLossy path := path
  toStringLossy_fromText _ := rfl

/-- A flush: the table is added, and the checkpoint is cut after its length and checksum. -/
theorem load_prefix_iff_flush :
    let entries : List (ManifestEntry String) :=
      [.add "t" 7, .walCheckpoint (Vector.replicate 32 9)]
    ∃ file, appendBatch textPaths header entries = .ok file ∧
      load textPaths (some (file.take 35)) = .ok [.add "t" 7] := by
  intro entries
  have appended : appendBatch textPaths header entries =
      .ok (header ++ entries.flatMap (ManifestEntry.frame textPaths)) := by decide +kernel
  refine ⟨_, appended, ?_⟩
  have loaded := (load_prefix_iff appended 35).mpr
  refine (loaded ⟨by decide, by decide +kernel, ?_⟩).trans (by decide +kernel)
  have cut : cutRecord (ManifestEntry.frame textPaths) (35 - 5) entries =
      some (.walCheckpoint (Vector.replicate 32 9), 8) := by decide +kernel
  rw [cut]
  rintro entry kept ⟨⟩
  exact .inl (by decide +kernel)

/-- The file of one checkpoint does not load when the crash leaves the magic without the
version, or the checkpoint's tag. -/
theorem load_refuses_torn_checkpoint :
    let entries : List (ManifestEntry String) := [.walCheckpoint (Vector.replicate 32 9)]
    ∃ file, appendBatch textPaths header entries = .ok file ∧
      load textPaths (some (file.take 4)) ≠
        .ok (wholeRecords (ManifestEntry.frame textPaths) (4 - 5) entries) ∧
      load textPaths (some (file.take 14)) ≠
        .ok (wholeRecords (ManifestEntry.frame textPaths) (14 - 5) entries) := by
  intro entries
  have appended : appendBatch textPaths header entries =
      .ok (header ++ entries.flatMap (ManifestEntry.frame textPaths)) := by decide +kernel
  exact ⟨_, appended, by decide +kernel, by decide +kernel⟩

end Contextra.Store.ManifestFile
