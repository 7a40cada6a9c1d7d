import Contextra.Store.WalAuthentic

/-!
# Mapped and streamed replay

The stream scanner of a file without a key manager does what the memory-mapped one does and
verifies every entry besides.  So the two agree on a file exactly when the entries that stand in it
are chained as its version asks.
-/

namespace Contextra.Store

open Library

/-- Both scanners return the same version and entries, or both refuse the file. -/
def ReplaysAgree (hmac : HmacFunction) (km : Option KeyManager) (fallback file : Bytes) : Prop :=
  ∀ replayed, replayMmap file = .ok replayed ↔
    scanStream hmac (getIntegrityKey km fallback) km file = .ok replayed

section Chain

variable (hmac : HmacFunction) (integrityKey : Bytes)

/-- The entry goes on from where the verifier stands. -/
def LinksTo (compute : WalOp → Nat → Hmac → Hmac) (verifier : IntegrityVerifier)
    (entry : WalEntry) : Prop :=
  entry.prevHmac = verifier.lastHmac ∧
    entry.checksum = compute entry.op entry.seqNo verifier.lastHmac ∧
    ∀ last ∈ verifier.lastSeqNo, entry.seqNo = last + 1

def Links (version : WalVersion) (verifier : IntegrityVerifier) (entry : WalEntry) : Prop :=
  match version with
  | .v1 => True
  | .v2 => LinksTo (computeChecksumV2 hmac integrityKey) verifier entry
  | .v3 => LinksTo (computeChecksumV3 hmac integrityKey) verifier entry

def WalChained (version : WalVersion) : IntegrityVerifier → List WalEntry → Prop
  | _, [] => True
  | verifier, entry :: entries =>
    Links hmac integrityKey version verifier entry ∧
      WalChained version ⟨entry.checksum, some entry.seqNo⟩ entries

variable {hmac integrityKey}

theorem verifyAndUpdate_eq_ok {compute : WalOp → Nat → Hmac → Hmac}
    {verifier next : IntegrityVerifier} {entry : WalEntry} {offset : Nat} :
    verifier.verifyAndUpdate compute entry offset = .ok next ↔
      LinksTo compute verifier entry ∧ next = ⟨entry.checksum, some entry.seqNo⟩ := by
  have linked : ((if compute entry.op entry.seqNo verifier.lastHmac ≠ entry.checksum ∨
        entry.prevHmac ≠ verifier.lastHmac then
          .error (.corruption offset (.hmacMismatch entry.seqNo))
      else .ok ⟨compute entry.op entry.seqNo verifier.lastHmac, some entry.seqNo⟩ :
        Except WalError IntegrityVerifier) = .ok next) ↔
      (entry.prevHmac = verifier.lastHmac ∧
        entry.checksum = compute entry.op entry.seqNo verifier.lastHmac) ∧
        next = ⟨entry.checksum, some entry.seqNo⟩ := by
    split
    · rename_i mismatch
      refine iff_of_false (fun impossible => by cases impossible) ?_
      rintro ⟨⟨prev, checksum⟩, _⟩
      exact mismatch.elim (fun differs => differs checksum.symm) fun differs => differs prev
    · rename_i matching
      rw [not_or, not_not, not_not] at matching
      rw [matching.1, Except.ok.injEq]
      exact ⟨fun same => ⟨⟨matching.2, rfl⟩, same.symm⟩, fun both => both.2.symm⟩
  rw [IntegrityVerifier.verifyAndUpdate, LinksTo]
  cases isLast : verifier.lastSeqNo with
  | none =>
    refine linked.trans (and_congr_left fun _ => ?_)
    exact ⟨fun both => ⟨both.1, both.2, fun last impossible => by cases impossible⟩,
      fun all => ⟨all.1, all.2.1⟩⟩
  | some last =>
    have next_iff : (∀ other ∈ some last, entry.seqNo = other + 1) ↔ entry.seqNo = last + 1 :=
      ⟨fun all => all last rfl, fun same other isOther => by rw [← Option.some.inj isOther, same]⟩
    rw [next_iff]
    dsimp only
    split
    · rename_i notLater
      refine iff_of_false (fun impossible => by cases impossible) ?_
      rintro ⟨⟨_, _, same⟩, _⟩
      omega
    · split
      · rename_i gap
        refine iff_of_false (fun impossible => by cases impossible) ?_
        rintro ⟨⟨_, _, same⟩, _⟩
        omega
      · have same : entry.seqNo = last + 1 := by omega
        refine linked.trans (and_congr_left fun _ => ?_)
        exact ⟨fun both => ⟨both.1, both.2, same⟩, fun all => ⟨all.1, all.2.1⟩⟩

theorem verifyEntry_eq_ok {version : WalVersion} {verifier next : IntegrityVerifier}
    {entry : WalEntry} {offset : Nat} :
    verifier.verifyEntry hmac integrityKey version entry offset = .ok next ↔
      Links hmac integrityKey version verifier entry ∧
        next = ⟨entry.checksum, some entry.seqNo⟩ := by
  cases version with
  | v1 =>
    rw [IntegrityVerifier.verifyEntry, IntegrityVerifier.skipHmacVerifyLegacy, Except.ok.injEq]
    exact ⟨fun same => ⟨trivial, same.symm⟩, fun both => both.2.symm⟩
  | v2 => exact verifyAndUpdate_eq_ok
  | v3 => exact verifyAndUpdate_eq_ok

end Chain

section Plain

variable {hmac : HmacFunction} {integrityKey : Bytes}

theorem nextFromStream_plain (version : WalVersion) (fileSize : Nat) (position : ScanPosition)
    (verifier : IntegrityVerifier) (data : Bytes) :
    nextFromStream hmac integrityKey none version fileSize (position, verifier) data =
      match nextFromSlice fileSize position data with
      | .stop => .stop
      | .refuse error => .refuse error
      | .record replayed position' rest =>
        match verifier.verifyEntry hmac integrityKey version replayed.entry position.pos with
        | .error error => .refuse error
        | .ok next => .record [replayed] (position', next) rest := by
  rw [nextFromStream, nextFromSlice]
  cases readFrame fileSize position data with
  | stop => rfl
  | refuse error => rfl
  | frame raw rest =>
    dsimp only
    rw [streamEntry]
    cases WalEntry.fromBytes raw with
    | ok entry => rfl
    | error error =>
      dsimp only
      cases handleWalEntryParseError error position.pos rest <;> rfl

theorem streamScan_iff {version : WalVersion} {fileSize : Nat} {position : ScanPosition}
    {verifier : IntegrityVerifier} {data : Bytes} {records : List Replayed} :
    (∃ scanned, (streamScanner hmac integrityKey none version fileSize).scan (position, verifier)
        data = .ok scanned ∧ scanned.records.flatten = records) ↔
      ∃ scanned, (sliceScanner fileSize).scan position data = .ok scanned ∧
        scanned.records = records ∧
        WalChained hmac integrityKey version verifier (records.map Replayed.entry) := by
  induction size : data.length using Nat.strong_induction_on
    generalizing data position verifier records with
  | _ size ih =>
    let stream := streamScanner hmac integrityKey none version fileSize
    have turn : stream.next (position, verifier) data = _ :=
      nextFromStream_plain version fileSize position verifier data
    cases slice : nextFromSlice fileSize position data with
    | stop =>
      rw [slice] at turn
      refine (stream.exists_scan_stop turn (P := fun found => found.flatten = records)).trans
        (Iff.trans ?_ ((sliceScanner fileSize).exists_scan_stop slice (P := fun found =>
          found = records ∧ WalChained hmac integrityKey version verifier
            (records.map Replayed.entry))).symm)
      constructor
      · rintro rfl
        exact ⟨rfl, trivial⟩
      · exact fun both => both.1
    | refuse error =>
      rw [slice] at turn
      exact iff_of_false
        (stream.not_exists_scan_refuse turn (P := fun found => found.flatten = records))
        ((sliceScanner fileSize).not_exists_scan_refuse slice (P := fun found =>
          found = records ∧ WalChained hmac integrityKey version verifier
            (records.map Replayed.entry)))
    | record replayed position' rest =>
      have shorter := (sliceScanner fileSize).shrinks slice
      have sliceBehind := (sliceScanner fileSize).exists_scan_record slice (P := fun found =>
        found = records ∧ WalChained hmac integrityKey version verifier
          (records.map Replayed.entry))
      rw [slice] at turn
      dsimp only at turn
      cases verified : verifier.verifyEntry hmac integrityKey version replayed.entry
          position.pos with
      | error error =>
        rw [verified] at turn
        refine iff_of_false
          (stream.not_exists_scan_refuse turn (P := fun found => found.flatten = records)) ?_
        rw [sliceBehind]
        rintro ⟨behind, _, rfl, links, _⟩
        rw [verifyEntry_eq_ok.mpr ⟨links, rfl⟩] at verified
        cases verified
      | ok next =>
        obtain ⟨links, rfl⟩ := verifyEntry_eq_ok.mp verified
        rw [verified] at turn
        refine (stream.exists_scan_record turn (P := fun found =>
          found.flatten = records)).trans (Iff.trans ?_ sliceBehind.symm)
        constructor
        · rintro ⟨scanned, finished, rfl⟩
          obtain ⟨behind, sliced, same, chained⟩ :=
            (ih rest.length (size ▸ shorter) rfl).mp ⟨scanned, finished, rfl⟩
          refine ⟨behind, sliced, ?_, links, chained⟩
          rw [same]
          rfl
        · rintro ⟨behind, sliced, rfl, _, chained⟩
          obtain ⟨scanned, finished, same⟩ :=
            (ih rest.length (size ▸ shorter) rfl).mpr
              ⟨behind, sliced, rfl, chained⟩
          exact ⟨scanned, finished, congrArg (replayed :: ·) same⟩

theorem map_eq_ok {ε α β : Type} {result : Except ε α} {f : α → β} {image : β} :
    result.map f = .ok image ↔ ∃ value, result = .ok value ∧ f value = image := by
  cases result with
  | error error =>
    refine iff_of_false (fun impossible => by cases impossible) ?_
    rintro ⟨value, impossible, _⟩
    cases impossible
  | ok value =>
    constructor
    · intro same
      exact ⟨value, rfl, Except.ok.inj same⟩
    · rintro ⟨other, same, rfl⟩
      cases same
      rfl

theorem scanStream_plain_iff {file : Bytes} {replayed : List Replayed × WalVersion} :
    scanStream hmac integrityKey none file = .ok replayed ↔
      replayMmap file = .ok replayed ∧
        WalChained hmac integrityKey replayed.2 .fresh (replayed.1.map Replayed.entry) := by
  obtain ⟨records, version⟩ := replayed
  unfold scanStream replayMmap
  generalize detectVersion file = detected
  obtain ⟨detected, start⟩ := detected
  dsimp only
  rw [map_eq_ok, map_eq_ok]
  have scans := @streamScan_iff hmac integrityKey detected file.length ⟨0, start⟩ .fresh
    (file.drop start) records
  constructor
  · rintro ⟨scanned, finished, same⟩
    cases same
    obtain ⟨slice, sliced, same, chained⟩ := scans.mp ⟨scanned, finished, rfl⟩
    exact ⟨⟨slice, sliced, by rw [same]⟩, chained⟩
  · rintro ⟨⟨slice, sliced, same⟩, chained⟩
    cases same
    obtain ⟨scanned, finished, same⟩ := scans.mpr ⟨slice, sliced, rfl, chained⟩
    exact ⟨scanned, finished, by rw [same]⟩

end Plain

/-- Behind its header the file is the frames of the entries and a torn tail. -/
def PlainSegment (file : Bytes) (entries : List WalEntry) : Prop :=
  (∀ entry ∈ entries, entry.Readable) ∧
    ∃ tail, file.drop (detectVersion file).2 = entries.flatMap WalEntry.frame ++ tail ∧
      WalTornTail (entries = [] ∧ 64 < file.length) tail

theorem plainSegment_of_replayMmap {file : Bytes} {records : List Replayed} {version : WalVersion}
    (replayed : replayMmap file = .ok (records, version)) :
    version = (detectVersion file).1 ∧ PlainSegment file (records.map Replayed.entry) := by
  unfold replayMmap at replayed
  unfold PlainSegment
  generalize detectVersion file = detected at *
  obtain ⟨detected, start⟩ := detected
  obtain ⟨scanned, finished, same⟩ := map_eq_ok.mp replayed
  cases same
  exact ⟨rfl, sliceScan_iff.mp ⟨scanned, finished, rfl⟩⟩

theorem replayMmap_of_plainSegment {file : Bytes} {entries : List WalEntry}
    (plain : PlainSegment file entries) :
    replayMmap file =
      .ok (replayedFrom ⟨0, (detectVersion file).2⟩ entries, (detectVersion file).1) := by
  unfold PlainSegment at plain
  unfold replayMmap
  generalize detectVersion file = detected at *
  obtain ⟨detected, start⟩ := detected
  obtain ⟨readable, tail, content, torn⟩ := plain
  dsimp only at content ⊢
  rw [← tornTail_behind entries start] at torn
  have stops : (sliceScanner file.length).next (entries.foldl ScanPosition.behind ⟨0, start⟩) tail =
      .stop := nextFromSlice_eq_stop_iff.mpr torn
  rw [content, scan_frames readable, Scanner.scan_stop stops]
  change Except.ok (replayedFrom ⟨0, start⟩ entries ++ [], detected) = _
  rw [List.append_nil]

end Contextra.Store
