import Contextra.Store.ManifestTorn

/-!
# Appending to a MANIFEST that was torn

`open` leaves the file as it is, so the frames of the next batch stand behind whatever the
crash left of the last frame.  The file is read back with the batch only where these
leftover bytes do not take part in the reading.
-/

namespace Contextra.Store.ManifestFile

open Library List

variable {PathBuf : Type} {platform : Platform PathBuf}

def body (file : Bytes) : Bytes :=
  if 5 ≤ file.length ∧ file.take 4 = manifestHeaderMagic then file.drop 5 else file

def leftoverWithin : Nat → Bytes → Bytes
  | 0, data => data
  | fuel + 1, data =>
    let frameLen := 4 + fromLeBytes (data.take 4)
    if frameLen ≤ data.length then leftoverWithin fuel (data.drop frameLen) else data

/-- The bytes behind the last complete frame, going by the lengths alone. -/
def leftover (data : Bytes) : Bytes := leftoverWithin data.length data

variable {entries : List (ManifestEntry PathBuf)} {tail : Bytes}

theorem leftoverWithin_frames {fuel : Nat}
    (readable : ∀ entry ∈ entries, entry.Readable platform) (torn : TornTail tail)
    (enough : entries.length ≤ fuel) :
    leftoverWithin fuel (entries.flatMap (ManifestEntry.storedFrame platform) ++ tail) = tail := by
  induction entries generalizing fuel with
  | nil =>
    cases fuel with
    | zero => rfl
    | succ fuel =>
      simp only [flatMap_nil, nil_append, leftoverWithin]
      rw [if_neg]
      rcases torn with short | ⟨incomplete, _⟩ <;> omega
  | cons entry entries ih =>
    obtain ⟨fuel, rfl⟩ : ∃ less, fuel = less + 1 :=
      ⟨fuel - 1, by rw [length_cons] at enough; omega⟩
    have sized := (readable entry mem_cons_self).sized
    have bound : (entry.storedBody platform).length < 256 ^ 4 :=
      Nat.lt_of_le_of_lt sized (by decide)
    have later := ih
      (fun other mem => readable other (mem_cons_of_mem _ mem))
      (Nat.le_of_succ_le_succ enough)
    have frameLong : (entry.storedFrame platform).length =
        4 + (entry.storedBody platform).length := by simp [ManifestEntry.storedFrame]
    have front : (entry.storedFrame platform ++
        (entries.flatMap (ManifestEntry.storedFrame platform) ++ tail)).take 4 =
          toLeBytes 4 (entry.storedBody platform).length := by
      rw [ManifestEntry.storedFrame, append_assoc, take_left' (length_toLeBytes 4 _)]
    rw [flatMap_cons, append_assoc, leftoverWithin, front, fromLeBytes_toLeBytes bound,
      if_pos (by rw [length_append]; omega), drop_left' frameLong, later]

theorem leftover_frames (readable : ∀ entry ∈ entries, entry.Readable platform) (torn : TornTail tail) :
    leftover (entries.flatMap (ManifestEntry.storedFrame platform) ++ tail) = tail := by
  apply leftoverWithin_frames readable torn
  have counted : entries.length ≤
      (entries.flatMap (ManifestEntry.storedFrame platform)).length := by
    clear readable
    induction entries with
    | nil => simp
    | cons entry entries ih =>
      rw [flatMap_cons, length_append, length_cons,
        ManifestEntry.storedFrame_length]
      omega
  rw [length_append]
  omega

theorem drop_entriesOffset {file : Bytes} {offset : Nat} (found : entriesOffset file = .ok offset) :
    file.drop offset = body file := by
  unfold entriesOffset at found
  unfold body
  split at found
  · rename_i long
    split at found
    · rename_i magic
      rw [if_pos ⟨long, magic⟩]
      split at found
      · rename_i nothing
        rw [drop_eq_nil_iff] at nothing
        omega
      · split at found
        · contradiction
        · rw [← Except.ok.inj found]
    · rename_i legacy
      rw [if_neg (fun headed => legacy headed.2), ← Except.ok.inj found, drop_zero]
  · rename_i short
    rw [if_neg (fun headed => short headed.1), ← Except.ok.inj found, drop_zero]

theorem load_some_iff {file : Bytes} :
    load platform (some file) = .ok entries ↔
      (∃ offset, entriesOffset file = .ok offset) ∧
        (∀ entry ∈ entries, entry.Readable platform) ∧
        ∃ tail, body file = entries.flatMap (ManifestEntry.storedFrame platform) ++ tail ∧
          TornTail tail := by
  cases found : entriesOffset file with
  | error error => simp [load, found]
  | ok offset =>
    simp only [load, found, drop_entriesOffset found, scan_records_iff]
    exact ⟨fun read => ⟨⟨offset, rfl⟩, read⟩, fun read => read.2⟩

/-- A file of at least five bytes keeps its header, or its lack of one, when bytes are
written behind it; so does a shorter one that they do not complete to a magic. -/
theorem body_append {file bytes : Bytes}
    (headed : 5 ≤ file.length ∨ (file ++ bytes).take 4 ≠ manifestHeaderMagic) :
    body (file ++ bytes) = body file ++ bytes ∧
      ((∃ offset, entriesOffset (file ++ bytes) = .ok offset) ↔
        ∃ offset, entriesOffset file = .ok offset) := by
  by_cases long : 5 ≤ file.length
  · have front : (file ++ bytes).take 4 = file.take 4 := take_append_of_le_length (by omega)
    have version : (file ++ bytes).drop 4 = file.drop 4 ++ bytes :=
      drop_append_of_le_length (by omega)
    have longer : 5 ≤ (file ++ bytes).length := by rw [length_append]; omega
    constructor
    · unfold body
      rw [front]
      by_cases magic : file.take 4 = manifestHeaderMagic
      · rw [if_pos ⟨longer, magic⟩, if_pos ⟨long, magic⟩, drop_append_of_le_length (by omega)]
      · rw [if_neg fun headed => magic headed.2, if_neg fun headed => magic headed.2]
    · unfold entriesOffset
      rw [if_pos longer, if_pos long, front, version]
      cases rest : file.drop 4 with
      | nil => rw [drop_eq_nil_iff] at rest; omega
      | cons first rest => rfl
  · have legacy := headed.resolve_left long
    have headless : entriesOffset (file ++ bytes) = .ok 0 ∧ entriesOffset file = .ok 0 := by
      unfold entriesOffset
      exact ⟨by simp [legacy], if_neg long⟩
    constructor
    · unfold body
      rw [if_neg fun headed => legacy headed.2, if_neg fun headed => long headed.1]
    · simp [headless]

theorem frames_not_magic {entry : ManifestEntry PathBuf} {later : Bytes}
    (accepted : entry.totalPayloadSize platform ≤ maxManifestEntrySize) :
    (entry.frame platform ++ later).take 4 ≠ manifestHeaderMagic := by
  intro magic
  have bound : entry.totalPayloadSize platform < 256 ^ 4 := Nat.lt_of_le_of_lt accepted (by decide)
  rw [ManifestEntry.frame, append_assoc, take_left' (length_toLeBytes 4 _)] at magic
  have size := fromLeBytes_toLeBytes bound
  rw [magic] at size
  have large : maxManifestEntrySize < fromLeBytes manifestHeaderMagic := by decide
  omega

theorem load_openFile {file : Option Bytes} (loaded : load platform file = .ok entries) :
    load platform (some (openFile file)) = .ok entries := by
  cases file with
  | none =>
    rw [← Except.ok.inj loaded]
    rfl
  | some file => exact loaded

/-- Reading `batch` behind what was loaded, in the bytes that stand behind the loaded
frames. -/
theorem readable_batch_iff {batch : List (ManifestEntry PathBuf)}
    (accepted : ∀ entry ∈ batch, entry.totalPayloadSize platform ≤ maxManifestEntrySize) :
    ((∀ entry ∈ batch.map (ManifestEntry.asWritten platform), entry.Readable platform) ∧
        ∃ after, tail ++ batch.flatMap (ManifestEntry.frame platform) =
          (batch.map (ManifestEntry.asWritten platform)).flatMap
            (ManifestEntry.storedFrame platform) ++ after ∧ TornTail after) ↔
      (∀ entry ∈ batch, entry.Fits platform) ∧
        ∃ after, tail ++ batch.flatMap (ManifestEntry.frame platform) =
          batch.flatMap (ManifestEntry.frame platform) ++ after ∧ TornTail after := by
  constructor
  · rintro ⟨readable, after, same, torn⟩
    have fit : ∀ entry ∈ batch, entry.Fits platform := fun entry mem =>
      (readable _ (mem_map_of_mem mem)).fits
    exact ⟨fit, after, by rw [same, flatMap_frame fit], torn⟩
  · rintro ⟨fit, after, same, torn⟩
    refine ⟨?_, after, by rw [same, flatMap_frame fit], torn⟩
    intro entry mem
    obtain ⟨original, original_mem, rfl⟩ := mem_map.mp mem
    exact ManifestEntry.asWritten_readable (fit original original_mem)
      (accepted original original_mem)

/-- Opened and appended to, the file loads with the batch behind its entries if and only if no size
of the batch wraps around and the leftover bytes, followed by the frames of the batch, are these
frames followed by another torn tail. -/
theorem load_appendBatch_iff {file : Option Bytes} {entries batch : List (ManifestEntry PathBuf)}
    {bytes : Bytes} (loaded : load platform file = .ok entries)
    (appended : appendBatch platform (openFile file) batch = .ok bytes) :
    load platform (some bytes) =
        .ok (entries ++ batch.map (ManifestEntry.asWritten platform)) ↔
      (∀ entry ∈ batch, entry.Fits platform) ∧
        ∃ after, leftover (body (openFile file)) ++
            batch.flatMap (ManifestEntry.frame platform) =
              batch.flatMap (ManifestEntry.frame platform) ++ after ∧ TornTail after := by
  obtain ⟨accepted, rfl⟩ := appendBatch_eq_ok appended
  obtain ⟨headed, readable, tail, found, torn⟩ := load_some_iff.mp (load_openFile loaded)
  rw [found, leftover_frames readable torn, ← readable_batch_iff accepted]
  generalize openFile file = content at headed found ⊢
  by_cases split : 5 ≤ content.length ∨
      (content ++ batch.flatMap (ManifestEntry.frame platform)).take 4 ≠ manifestHeaderMagic
  · obtain ⟨sameBody, sameHeader⟩ := body_append split
    rw [load_some_iff, sameHeader, sameBody, found]
    simp only [mem_append, or_imp, forall_and, flatMap_append, append_assoc,
      append_cancel_left_eq]
    exact ⟨fun read => ⟨read.2.1.2, read.2.2⟩, fun read => ⟨headed, ⟨readable, read.1⟩, read.2⟩⟩
  · push Not at split
    obtain ⟨short, magic⟩ := split
    -- the batch completes the content to a magic, and its first bytes are lost in the header
    have unheaded : body content = content := if_neg fun headed => absurd headed.1 (by omega)
    rw [unheaded] at found
    have nothing : entries = [] := by
      cases entries with
      | nil => rfl
      | cons entry entries =>
        rw [found, flatMap_cons, append_assoc, length_append,
          ManifestEntry.storedFrame_length] at short
        omega
    obtain rfl : content = tail := by simpa [nothing] using found
    cases batch with
    | nil =>
      rw [flatMap_nil, append_nil] at magic
      rcases torn with shorter | ⟨_, candidate⟩
      · have four := congrArg List.length magic
        rw [length_take, manifestHeaderMagic] at four
        simp only [length_cons, length_nil] at four
        omega
      · rw [magic] at candidate
        have large := candidate_length candidate
        exact absurd large.2 (by decide)
    | cons entry batch =>
      have framesLong :
          8 ≤ ((entry :: batch).flatMap (ManifestEntry.frame platform)).length := by
        rw [flatMap_cons, length_append, ManifestEntry.frame]
        simp only [length_append, length_toLeBytes]
        omega
      rw [readable_batch_iff accepted]
      apply iff_of_false
      · intro read
        obtain ⟨_, readable', after, place, _⟩ := load_some_iff.mp read
        have fit : ∀ other ∈ entry :: batch, other.Fits platform := fun other mem =>
          (readable' _ (mem_append_right _ (mem_map_of_mem mem))).fits
        have long := congrArg List.length place
        rw [nothing, nil_append, ← flatMap_frame fit, body,
          if_pos ⟨by rw [length_append]; omega, magic⟩, length_drop, length_append,
          length_append] at long
        omega
      · rintro ⟨_, after, same, _⟩
        rw [same, flatMap_cons, append_assoc] at magic
        exact frames_not_magic (accepted entry mem_cons_self) magic

theorem load_appendBatch_iff_complete :
    let file : Option Bytes := some (header ++ (ManifestEntry.add "t" 7).frame textPaths)
    let batch : List (ManifestEntry String) := [.remove "t", .rollbackComplete 3]
    ∃ bytes, appendBatch textPaths (openFile file) batch = .ok bytes ∧
      load textPaths (some bytes) = .ok [.add "t" 7, .remove "t", .rollbackComplete 3] := by
  intro file batch
  have loaded : load textPaths file = .ok [.add "t" 7] := by
    rw [load_header_append, scan_records_iff]
    refine ⟨by simpa using ⟨fun _ _ => rfl, by decide⟩, [], ?_, .inl (by decide)⟩
    decide +kernel
  have appended : appendBatch textPaths (openFile file) batch =
      .ok (openFile file ++ batch.flatMap (ManifestEntry.frame textPaths)) := by decide +kernel
  refine ⟨_, appended, ((load_appendBatch_iff loaded appended).mpr ?_).trans (by decide +kernel)⟩
  exact ⟨by decide +kernel, [], by decide +kernel, by decide⟩

/-- Behind ten bytes of a torn frame, a batch makes the file unreadable. -/
theorem load_appendBatch_behind_torn :
    let file : Option Bytes := some (header ++ ((ManifestEntry.add "t" 7).frame textPaths).take 10)
    let batch : List (ManifestEntry String) := [.rollbackComplete 3]
    load textPaths file = .ok [] ∧
      ∃ bytes, appendBatch textPaths (openFile file) batch = .ok bytes ∧
        load textPaths (some bytes) ≠ .ok ([] ++ batch) := by
  intro file batch
  have appended : appendBatch textPaths (openFile file) batch =
      .ok (openFile file ++ batch.flatMap (ManifestEntry.frame textPaths)) := by decide +kernel
  exact ⟨by decide +kernel, _, appended, by decide +kernel⟩

end Contextra.Store.ManifestFile
