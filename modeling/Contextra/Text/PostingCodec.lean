import Contextra.Text.PostingList

/-!
# The compact format of posting lists

A magic number, the number of postings as a varint, and for each posting three varints: the
distance of its document id from the one before it, its frequency and its length.
-/

namespace Contextra.Text

open List

abbrev Bytes := List UInt8

inductive Failure where
  | storage (message : String)
  | panicked
  deriving DecidableEq, Repr

/-- `encode_varint`, without the buffer it appends to. -/
def encodeVarint (val : Nat) : Bytes :=
  if 0x80 ≤ val then (UInt8.ofNat val &&& 0x7f ||| 0x80) :: encodeVarint (val >>> 7)
  else [UInt8.ofNat val]
termination_by val
decreasing_by
  rw [Nat.shiftRight_eq_div_pow]
  omega

/-- The loop of `decode_varint`: the value and the offset behind it.  A shift by 64 panics, and
the bits that are shifted out are lost. -/
def decodeVarintLoop (bytes : Bytes) (result shift offset : Nat) : Except Failure (Nat × Nat) :=
  if _ : offset < bytes.length then
    let byte := bytes[offset]
    if 64 ≤ shift then .error .panicked
    else
      let next := result ||| ((byte &&& 0x7f).toNat <<< shift) % 2 ^ 64
      if byte &&& 0x80 = 0 then .ok (next, offset + 1)
      else if 64 ≤ shift + 7 then .error (.storage "Varint overflow")
      else decodeVarintLoop bytes next (shift + 7) (offset + 1)
  else .error (.storage "Unexpected EOF while decoding varint")
termination_by bytes.length - offset

def decodeVarint (bytes : Bytes) (offset : Nat) : Except Failure (Nat × Nat) :=
  decodeVarintLoop bytes 0 0 offset

theorem payload_toNat (byte : UInt8) : (byte &&& 0x7f).toNat = byte.toNat % 128 :=
  Nat.and_two_pow_sub_one_eq_mod byte.toNat 7

theorem continues_iff (byte : UInt8) : byte &&& 0x80 = 0 ↔ byte.toNat < 128 := by
  have every : ∀ value : Fin 256,
      UInt8.ofNat value &&& 0x80 = 0 ↔ (UInt8.ofNat value).toNat < 128 := by decide +kernel
  simpa using every ⟨byte.toNat, byte.toNat_lt⟩

theorem continued_toNat (val : Nat) :
    (UInt8.ofNat val &&& 0x7f ||| 0x80).toNat = val % 128 + 128 := by
  have low : (UInt8.ofNat val &&& 0x7f).toNat = val % 128 := by
    rw [payload_toNat, UInt8.toNat_ofNat']
    omega
  have bits := Nat.two_pow_add_eq_or_of_lt (show val % 128 < 2 ^ 7 by omega) 1
  rw [UInt8.toNat_or, low, Nat.add_comm, Nat.or_comm]
  exact bits.symm

theorem encodeVarint_continued {val : Nat} (long : 0x80 ≤ val) :
    ∃ byte, encodeVarint val = byte :: encodeVarint (val / 128) ∧
      (byte &&& 0x7f).toNat = val % 128 ∧ byte &&& 0x80 ≠ 0 := by
  refine ⟨UInt8.ofNat val &&& 0x7f ||| 0x80, ?_, ?_, ?_⟩
  · rw [encodeVarint, if_pos long, Nat.shiftRight_eq_div_pow]
  · rw [payload_toNat, continued_toNat]
    omega
  · rw [ne_eq, continues_iff, continued_toNat]
    omega

theorem encodeVarint_last {val : Nat} (short : val < 0x80) :
    ∃ byte, encodeVarint val = [byte] ∧ (byte &&& 0x7f).toNat = val ∧ byte &&& 0x80 = 0 := by
  have value : (UInt8.ofNat val).toNat = val := by
    rw [UInt8.toNat_ofNat']
    omega
  refine ⟨UInt8.ofNat val, ?_, ?_, ?_⟩
  · rw [encodeVarint, if_neg (by omega)]
  · rw [payload_toNat, value]
    omega
  · rw [continues_iff, value]
    exact short

theorem or_shifted {result payload shift : Nat} (small : result < 2 ^ shift)
    (fits : payload * 2 ^ shift < 2 ^ 64) :
    result ||| (payload <<< shift) % 2 ^ 64 = result + payload * 2 ^ shift := by
  rw [Nat.shiftLeft_eq, Nat.mod_eq_of_lt fits, Nat.or_comm, Nat.mul_comm,
    ← Nat.two_pow_add_eq_or_of_lt small, Nat.add_comm]

variable {offset : Nat}

theorem unread_cons {bytes rest : Bytes} {byte : UInt8}
    (unread : bytes.drop offset = byte :: rest) :
    ∃ inside : offset < bytes.length, bytes[offset] = byte ∧ bytes.drop (offset + 1) = rest := by
  have inside : offset < bytes.length := by
    by_contra outside
    rw [drop_eq_nil_of_le (by omega)] at unread
    cases unread
  rw [← getElem_cons_drop inside] at unread
  exact ⟨inside, (List.cons.inj unread).1, (List.cons.inj unread).2⟩

theorem decodeVarintLoop_encodeVarint {bytes rest : Bytes} {val result shift offset : Nat}
    (unread : bytes.drop offset = encodeVarint val ++ rest) (small : result < 2 ^ shift)
    (fits : val * 2 ^ shift < 2 ^ 64) (inWord : shift < 64) :
    decodeVarintLoop bytes result shift offset =
      .ok (result + val * 2 ^ shift, offset + (encodeVarint val).length) := by
  induction val using Nat.strong_induction_on generalizing result shift offset with
  | _ val ih =>
  have power : 0 < 2 ^ shift := Nat.two_pow_pos shift
  rcases Nat.lt_or_ge val 0x80 with short | long
  · obtain ⟨byte, encoded, payload, last⟩ := encodeVarint_last short
    rw [encoded] at unread
    obtain ⟨inside, isByte, -⟩ := unread_cons unread
    rw [decodeVarintLoop, dif_pos inside]
    simp only [isByte]
    rw [if_neg (by omega), if_pos last, payload, or_shifted small fits, encoded]
    rfl
  · obtain ⟨byte, encoded, payload, continued⟩ := encodeVarint_continued long
    rw [encoded, cons_append] at unread
    obtain ⟨inside, isByte, unreadRest⟩ := unread_cons unread
    have split : val * 2 ^ shift = val % 128 * 2 ^ shift + val / 128 * 2 ^ (shift + 7) := by
      have parts := Nat.mod_add_div val 128
      calc val * 2 ^ shift = (val % 128 + 128 * (val / 128)) * 2 ^ shift := by rw [parts]
        _ = val % 128 * 2 ^ shift + val / 128 * 2 ^ (shift + 7) := by rw [Nat.pow_add]; ring
    have moreBits : 2 ^ (shift + 7) < 2 ^ 64 := by
      have : 1 ≤ val / 128 := by omega
      have := Nat.mul_le_mul_right (2 ^ (shift + 7)) this
      omega
    have inWord' : shift + 7 < 64 := (Nat.pow_lt_pow_iff_right (by decide)).mp moreBits
    have small' : result + val % 128 * 2 ^ shift < 2 ^ (shift + 7) := by
      have : val % 128 ≤ 127 := by omega
      have := Nat.mul_le_mul_right (2 ^ shift) this
      rw [Nat.pow_add]
      omega
    rw [decodeVarintLoop, dif_pos inside]
    simp only [isByte]
    rw [if_neg (by omega), if_neg continued, if_neg (by omega), payload,
      or_shifted small (by omega),
      ih (val / 128) (by omega) unreadRest small' (by omega) inWord', encoded,
      length_cons, split, Nat.add_assoc, Nat.add_right_comm offset, Nat.add_assoc offset]

theorem decodeVarint_encodeVarint {bytes rest : Bytes} {val offset : Nat}
    (unread : bytes.drop offset = encodeVarint val ++ rest) (fits : val < 2 ^ 64) :
    decodeVarint bytes offset = .ok (val, offset + (encodeVarint val).length) := by
  have read : decodeVarintLoop bytes 0 0 offset =
      .ok (0 + val * 2 ^ 0, offset + (encodeVarint val).length) :=
    decodeVarintLoop_encodeVarint unread (by decide) (by omega) (by decide)
  rw [decodeVarint, read, Nat.zero_add, Nat.pow_zero, Nat.mul_one]

theorem unread_append {bytes rest front : Bytes}
    (unread : bytes.drop offset = front ++ rest) : bytes.drop (offset + front.length) = rest := by
  rw [← drop_drop, unread, drop_left]

/-- The three varints of a posting. -/
structure Entry where
  delta : Nat
  tf : Nat
  docLen : Nat
  deriving DecidableEq, Repr

/-- `POSTING_LIST_V2_MAGIC`: `PL\x02\x00`. -/
def postingListV2Magic : Bytes := [0x50, 0x4C, 0x02, 0x00]

/-- The limit of `decode_compact` on the number of postings. -/
def maxPostingCount : Nat := 100000000

def encodeEntry (entry : Entry) : Bytes :=
  encodeVarint entry.delta ++ encodeVarint entry.tf ++ encodeVarint entry.docLen

/-- The loop of `encode_compact`. -/
def encodePostings : Nat → List Posting → Except Failure Bytes
  | _, [] => .ok []
  | prevDocId, posting :: postings =>
    if posting.docId < prevDocId then
      .error (.storage "Unsorted or overflow doc_id in posting list")
    else do
      let rest ← encodePostings posting.docId postings
      .ok (encodeEntry ⟨posting.docId - prevDocId, posting.tf, posting.docLen⟩ ++ rest)

def encodeCompact (list : PostingList) : Except Failure Bytes := do
  let body ← encodePostings 0 list.postings
  .ok (postingListV2Magic ++ encodeVarint list.postings.length ++ body)

def decodeEntry (bytes : Bytes) (offset : Nat) : Except Failure (Entry × Nat) := do
  let (delta, offset) ← decodeVarint bytes offset
  let (tf, offset) ← decodeVarint bytes offset
  let (docLen, offset) ← decodeVarint bytes offset
  .ok (⟨delta, tf, docLen⟩, offset)

def checkEntry (prevDocId : Nat) (entry : Entry) : Except Failure Posting :=
  if docIdFits : prevDocId + entry.delta < 2 ^ 64 then
    if tfFits : entry.tf < 2 ^ 32 then
      if docLenFits : entry.docLen < 2 ^ 32 then
        .ok ⟨⟨prevDocId + entry.delta, docIdFits⟩, ⟨entry.tf, tfFits⟩, ⟨entry.docLen, docLenFits⟩⟩
      else .error (.storage "DocLen overflow in varint")
    else .error (.storage "TF overflow in varint")
  else .error (.storage "DocId overflow during delta decoding")

/-- The loop of `decode_compact`, and the offset behind it. -/
def decodePostings (bytes : Bytes) : Nat → Nat → Nat → Except Failure (List Posting × Nat)
  | 0, _, offset => .ok ([], offset)
  | count + 1, prevDocId, offset => do
      let (entry, offset) ← decodeEntry bytes offset
      let posting ← checkEntry prevDocId entry
      let (postings, offset) ← decodePostings bytes count posting.docId offset
      .ok (posting :: postings, offset)

/-- `decode_compact` behind the magic number. -/
def decodeV2 (bytes : Bytes) : Except Failure PostingList := do
  let (count, offset) ← decodeVarint bytes postingListV2Magic.length
  if count > maxPostingCount then
    .error (.storage ("Oversized posting list count: " ++ toString count))
  else
    let (postings, offset) ← decodePostings bytes count 0 offset
    if offset ≠ bytes.length then
      -- the number of bytes that remain
      if bytes.length < offset then .error .panicked
      else .error (.storage ("Extra trailing bytes after posting list decoding: " ++
        toString (bytes.length - offset) ++ " remaining"))
    else .ok (.ofPostings postings)

/-- `decode_compact`; lists without the magic number are read by `bincode::deserialize`. -/
def decodeCompact (bincode : Bytes → Except Failure PostingList) (bytes : Bytes) :
    Except Failure PostingList :=
  if postingListV2Magic.isPrefixOf bytes then decodeV2 bytes
  else
    match bincode bytes with
    | .ok list => .ok list
    | .error (.storage message) => .error (.storage ("bincode legacy decode error: " ++ message))
    | .error .panicked => .error .panicked

theorem bind_eq_ok {α β : Type} {call : Except Failure α} {next : α → Except Failure β}
    {result : β} :
    (call >>= next) = .ok result ↔ ∃ value, call = .ok value ∧ next value = .ok result := by
  cases call with
  | error failure => simp [bind, Except.bind]
  | ok value => simp [bind, Except.bind]

theorem bind_eq_panicked {α β : Type} {call : Except Failure α} {next : α → Except Failure β} :
    (call >>= next) = .error .panicked ↔
      call = .error .panicked ∨ ∃ value, call = .ok value ∧ next value = .error .panicked := by
  cases call with
  | error failure => simp [bind, Except.bind]
  | ok value => simp [bind, Except.bind]

variable {bytes : Bytes}

theorem decodeVarintLoop_sound {result shift offset : Nat} (inWord : shift < 64) :
    decodeVarintLoop bytes result shift offset ≠ .error .panicked ∧
      ∀ value next, decodeVarintLoop bytes result shift offset = .ok (value, next) →
        next ≤ bytes.length := by
  fun_induction decodeVarintLoop bytes result shift offset with
  | case1 result shift offset inside tooFar => omega
  | case2 result shift offset inside byte inWord' next last =>
    refine ⟨by simp, fun value behind read => ?_⟩
    obtain ⟨rfl, rfl⟩ := Prod.mk.inj (Except.ok.inj read)
    exact inside
  | case3 result shift offset inside byte inWord' continued tooFar =>
    exact ⟨by simp, fun value behind read => by cases read⟩
  | case4 result shift offset inside byte inWord' next continued more ih =>
    exact ih (by omega)
  | case5 result shift offset outside => exact ⟨by simp, fun value behind read => by cases read⟩

theorem decodeVarint_returns (bytes : Bytes) (offset : Nat) :
    decodeVarint bytes offset ≠ .error .panicked :=
  (decodeVarintLoop_sound (by decide)).1

theorem decodeVarint_inside {offset value next : Nat}
    (read : decodeVarint bytes offset = .ok (value, next)) : next ≤ bytes.length :=
  (decodeVarintLoop_sound (by decide)).2 value next read

theorem decodeEntry_returns (bytes : Bytes) (offset : Nat) :
    decodeEntry bytes offset ≠ .error .panicked := by
  simp [decodeEntry, bind_eq_panicked, decodeVarint_returns]

variable {entry : Entry}

theorem decodeEntry_inside {offset next : Nat}
    (read : decodeEntry bytes offset = .ok (entry, next)) : next ≤ bytes.length := by
  simp only [decodeEntry, bind_eq_ok, Prod.exists] at read
  obtain ⟨delta, _, -, tf, _, -, docLen, behind, last, same⟩ := read
  obtain ⟨-, rfl⟩ := Prod.mk.inj (Except.ok.inj same)
  exact decodeVarint_inside last

theorem checkEntry_returns (prevDocId : Nat) (entry : Entry) :
    checkEntry prevDocId entry ≠ .error .panicked := by
  unfold checkEntry
  split_ifs <;> simp

theorem checkEntry_eq_ok {prevDocId : Nat} {posting : Posting} :
    checkEntry prevDocId entry = .ok posting ↔
      posting.docId = prevDocId + entry.delta ∧ posting.tf = entry.tf ∧
        posting.docLen = entry.docLen := by
  obtain ⟨⟨docId, docIdFits⟩, ⟨tf, tfFits⟩, ⟨docLen, docLenFits⟩⟩ := posting
  unfold checkEntry
  split_ifs <;> simp <;> omega

theorem decodePostings_returns (bytes : Bytes) (count prevDocId offset : Nat) :
    decodePostings bytes count prevDocId offset ≠ .error .panicked := by
  induction count generalizing prevDocId offset with
  | zero => simp [decodePostings]
  | succ count ih =>
    simp [decodePostings, bind_eq_panicked, decodeEntry_returns, checkEntry_returns,
      ih]

variable {postings : List Posting}

theorem decodePostings_inside {count prevDocId offset next : Nat} (inside : offset ≤ bytes.length)
    (read : decodePostings bytes count prevDocId offset = .ok (postings, next)) :
    next ≤ bytes.length := by
  induction count generalizing prevDocId offset postings with
  | zero =>
    obtain ⟨-, rfl⟩ := Prod.mk.inj (Except.ok.inj read)
    exact inside
  | succ count ih =>
    simp only [decodePostings, bind_eq_ok, Prod.exists] at read
    obtain ⟨entry, middle, readEntry, posting, -, rest, behind, readRest, same⟩ := read
    obtain ⟨-, rfl⟩ := Prod.mk.inj (Except.ok.inj same)
    exact ih (decodeEntry_inside readEntry) readRest

theorem decodeCompact_returns {bincode : Bytes → Except Failure PostingList}
    (returns : ∀ bytes, bincode bytes ≠ .error .panicked) (bytes : Bytes) :
    decodeCompact bincode bytes ≠ .error .panicked := by
  unfold decodeCompact
  split
  · unfold decodeV2
    rw [ne_eq, bind_eq_panicked]
    rintro (panicked | ⟨⟨count, offset⟩, readCount, panicked⟩)
    · exact decodeVarint_returns _ _ panicked
    · by_cases oversized : count > maxPostingCount
      · simp [oversized] at panicked
      · simp only [oversized, if_false, bind_eq_panicked] at panicked
        rcases panicked with panicked | ⟨⟨postings, behind⟩, readPostings, panicked⟩
        · exact decodePostings_returns _ _ _ _ panicked
        · have inside := decodePostings_inside (decodeVarint_inside readCount) readPostings
          by_cases atEnd : behind = bytes.length
          · simp [atEnd] at panicked
          · simp [atEnd, inside.not_gt] at panicked
  · have returned := returns bytes
    cases read : bincode bytes with
    | ok list => simp
    | error failure =>
      cases failure with
      | storage message => simp
      | panicked => exact absurd read returned

theorem decodeEntry_encodeEntry {bytes rest : Bytes} (unread : bytes.drop offset = encodeEntry entry ++ rest) (delta : entry.delta < 2 ^ 64)
    (tf : entry.tf < 2 ^ 64) (docLen : entry.docLen < 2 ^ 64) :
    decodeEntry bytes offset = .ok (entry, offset + (encodeEntry entry).length) := by
  simp only [encodeEntry, append_assoc] at unread
  have unreadTf := unread_append unread
  have unreadDocLen := unread_append unreadTf
  unfold decodeEntry
  rw [decodeVarint_encodeVarint unread delta]
  change (decodeVarint bytes _ >>= _) = _
  rw [decodeVarint_encodeVarint unreadTf tf]
  change (decodeVarint bytes _ >>= _) = _
  rw [decodeVarint_encodeVarint unreadDocLen docLen, encodeEntry, length_append,
    length_append, ← Nat.add_assoc, ← Nat.add_assoc]
  rfl

theorem encodePostings_decodes (bytes rest : Bytes) (sorted : Sorted postings) {prevDocId : Nat}
    (above : ∀ posting ∈ postings, prevDocId ≤ posting.docId) :
    ∃ body, encodePostings prevDocId postings = .ok body ∧
      ∀ offset, bytes.drop offset = body ++ rest →
        decodePostings bytes postings.length prevDocId offset =
          .ok (postings, offset + body.length) := by
  induction postings generalizing prevDocId with
  | nil => exact ⟨[], rfl, fun offset _ => rfl⟩
  | cons posting postings ih =>
    obtain ⟨aboveFirst, sortedRest⟩ := pairwise_cons.mp sorted
    have isAbove := above posting mem_cons_self
    obtain ⟨body, encoded, decodes⟩ := ih sortedRest aboveFirst
    let entry : Entry := ⟨posting.docId - prevDocId, posting.tf, posting.docLen⟩
    refine ⟨encodeEntry entry ++ body, ?_, ?_⟩
    · rw [encodePostings, if_neg (by omega), encoded]
      rfl
    · intro offset unread
      rw [append_assoc] at unread
      have readEntry := decodeEntry_encodeEntry unread (show _ < _ by simp only [entry]; omega)
        (show _ < _ by simp only [entry]; omega) (show _ < _ by simp only [entry]; omega)
      have checked : checkEntry prevDocId entry = .ok posting :=
        checkEntry_eq_ok.mpr ⟨(Nat.add_sub_of_le isAbove).symm, rfl, rfl⟩
      have readRest := decodes _ (unread_append unread)
      rw [length_cons, decodePostings, readEntry]
      change (checkEntry _ _ >>= _) = _
      rw [checked]
      change (decodePostings bytes _ _ _ >>= _) = _
      rw [readRest, length_append, Nat.add_assoc]
      rfl

theorem decodeCompact_encodeCompact (bincode : Bytes → Except Failure PostingList)
    (sorted : Sorted postings) (short : postings.length ≤ maxPostingCount) :
    ∃ bytes, encodeCompact (.ofPostings postings) = .ok bytes ∧
      decodeCompact bincode bytes = .ok (.ofPostings postings) := by
  let header := postingListV2Magic ++ encodeVarint postings.length
  have limit : maxPostingCount = 100000000 := rfl
  have above (posting : Posting) (_ : posting ∈ postings) : 0 ≤ posting.docId.val := Nat.zero_le _
  obtain ⟨body, encoded, -⟩ := encodePostings_decodes [] [] sorted above
  obtain ⟨body', encoded', decodes⟩ := encodePostings_decodes (header ++ body) [] sorted above
  obtain rfl : body = body' := Except.ok.inj (encoded.symm.trans encoded')
  refine ⟨header ++ body, ?_, ?_⟩
  · simp only [encodeCompact, PostingList.ofPostings, encoded]
    rfl
  · have isCompact : postingListV2Magic.isPrefixOf (header ++ body) = true := by
      rw [List.isPrefixOf_iff_prefix]
      exact ⟨encodeVarint postings.length ++ body, by simp [header]⟩
    have unread : (header ++ body).drop postingListV2Magic.length =
        encodeVarint postings.length ++ body := by simp [header]
    have readCount := decodeVarint_encodeVarint unread (by omega)
    have readPostings := decodes header.length (by simp)
    have headerLength : postingListV2Magic.length + (encodeVarint postings.length).length =
        header.length := (length_append ..).symm
    rw [decodeCompact, if_pos isCompact, decodeV2, readCount, headerLength]
    change (if _ then _ else _) = _
    rw [if_neg (by omega), readPostings]
    change (if _ then _ else _) = _
    rw [if_neg (by simp)]

end Contextra.Text
