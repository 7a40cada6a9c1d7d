import Contextra.Store.WalTorn

/-!
# The codec of a WAL entry

`to_bytes` and `from_bytes_classified` undo each other where their limits agree.  The writer
limits the whole entry and the reader limits the key and the value, so a long key is written
and not read, and a long value is read and not written.
-/

namespace Contextra.Store.WalEntry

open Library List

/-- What is written is a length and what `from_bytes` reads as the entry. -/
def ReadsBack (entry : WalEntry) : Prop :=
  ∀ bytes, entry.toBytes = .ok bytes →
    bytes.take 4 = toLeBytes 4 (bytes.drop 4).length ∧ fromBytes (bytes.drop 4) = .ok entry

theorem take_frame (entry : WalEntry) : entry.frame.take 4 = toLeBytes 4 entry.op.payloadSize :=
  take_left' (length_toLeBytes 4 _)

theorem drop_frame (entry : WalEntry) :
    entry.frame.drop 4 = toLeBytes 4 (crc32 entry.payload) ++ entry.payload :=
  drop_left' (length_toLeBytes 4 _)

theorem readsBack_iff {entry : WalEntry} (typed : entry.Typed) :
    entry.ReadsBack ↔
      (entry.op.payloadSize ≤ maxWalEntrySize → entry.op.key.length ≤ maxWalKeyLen) := by
  constructor
  · intro readsBack sized
    have read := (readsBack entry.frame (toBytes_eq_ok.mpr ⟨sized, rfl⟩)).2
    rw [drop_frame, fromBytes_payload typed sized] at read
    split at read
    · cases read
    · rename_i short
      exact not_lt.mp short
  · intro short bytes written
    obtain ⟨sized, rfl⟩ := toBytes_eq_ok.mp written
    constructor
    · rw [take_frame, drop_frame, length_append, length_toLeBytes, typed.length_payload]
    · rw [drop_frame, fromBytes_payload typed sized, if_neg (not_lt.mpr (short sized))]

theorem toBytes_of_fromBytes {data : Bytes} {entry : WalEntry}
    (read : fromBytes data = .ok entry) :
    entry.toBytes = .ok (toLeBytes 4 data.length ++ data) ↔ data.length ≤ maxWalEntrySize := by
  obtain ⟨rfl, typed, _⟩ := fromBytes_eq_ok read
  have size : (toLeBytes 4 (crc32 entry.payload) ++ entry.payload).length =
      entry.op.payloadSize := by
    rw [length_append, length_toLeBytes, typed.length_payload]
  rw [toBytes_eq_ok, size]
  exact and_iff_left rfl

/-- The codec is a bijection up to its limits: on the keys that are written, and on the length
of what is read. -/
theorem codec_iff (entry : WalEntry) (data : Bytes) :
    (entry.Typed → (entry.ReadsBack ↔
      (entry.op.payloadSize ≤ maxWalEntrySize → entry.op.key.length ≤ maxWalKeyLen))) ∧
    ∀ read, fromBytes data = .ok read →
      (read.toBytes = .ok (toLeBytes 4 data.length ++ data) ↔ data.length ≤ maxWalEntrySize) :=
  ⟨fun typed => readsBack_iff typed, fun _ read => toBytes_of_fromBytes read⟩

def deletionOf (key : Bytes) : WalEntry := ⟨.delete 1 key, 1, zeroHmac, zeroHmac⟩

theorem deletionOf_typed (key : Bytes) : (deletionOf key).Typed where
  tx := Nat.one_lt_two_pow (by decide)
  seq := Nat.one_lt_two_pow (by decide)
  checksum := length_replicate
  prevHmac := length_replicate

theorem codec_iff_deletion : (deletionOf [7]).ReadsBack :=
  ((codec_iff (deletionOf [7]) []).1 (deletionOf_typed [7])).mpr (by decide)

theorem deletionOf_unread {key : Bytes} (long : key.length = maxWalKeyLen + 1) :
    ¬ (deletionOf key).ReadsBack := by
  intro readsBack
  have sized : (deletionOf key).op.payloadSize ≤ maxWalEntrySize := by
    rw [deletionOf, WalOp.payloadSize, long]
    decide
  have short := (readsBack_iff (deletionOf_typed key)).mp readsBack sized
  rw [deletionOf, WalOp.key, long] at short
  exact Nat.not_succ_le_self _ short

/-- A key of one byte more than the reader allows is written and not read. -/
theorem longKey_unread :
    ¬ ((∀ entry : WalEntry, entry.Typed → entry.ReadsBack) ∧
      ∀ (data : Bytes) (entry : WalEntry), fromBytes data = .ok entry →
        entry.toBytes = .ok (toLeBytes 4 data.length ++ data)) := by
  rintro ⟨readsBack, -⟩
  exact deletionOf_unread length_replicate
    (readsBack (deletionOf (replicate (maxWalKeyLen + 1) 0)) (deletionOf_typed _))

end Contextra.Store.WalEntry
