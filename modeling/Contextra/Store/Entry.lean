import Contextra.Library.Versions
import Contextra.Types

/-!
# Versions of keys

The entries that memtables, SSTables and compaction streams hold.  A `Key` has
passed `validate_key`, so the store never sees another one.  Entries are stored by
key, and for one key from the newest sequence to the oldest.
-/

namespace Contextra.Store

open Library List

def maxKeySize : Nat := 65535

def maxValueSize : Nat := 134217728

/-- `u64::MAX`, the retention floor when no snapshot is registered. -/
def u64Max : Nat := 2 ^ 64 - 1

structure Key where
  bytes : Bytes
  nonempty : bytes ≠ []
  short : bytes.length ≤ maxKeySize
  deriving DecidableEq

namespace Key

/-- The unsigned byte values, whose lexicographic order is the order of keys. -/
def nats (key : Key) : List Nat := key.bytes.map UInt8.toNat

theorem nats_injective : Function.Injective nats := by
  intro left right same
  have bytes : left.bytes = right.bytes :=
    map_injective_iff.mpr (fun _ _ => UInt8.toNat_inj.mp) same
  cases left
  cases right
  simp_all

instance : LinearOrder Key := LinearOrder.lift' nats nats_injective

def ofByte (byte : UInt8) : Key := ⟨[byte], by simp, by simp [maxKeySize]⟩

end Key

/-- A version as a stream yields it: `(key, value, seq, tx)`. -/
structure Entry where
  key : Key
  value : Bytes
  seq : SeqNo
  tx : TxId
  deriving DecidableEq

namespace Entry

/-- The version a `Put` writes. -/
def put (key : Key) (value : Bytes) (raw : Nat) (tx : TxId) : Entry := ⟨key, value, ⟨raw, false⟩, tx⟩

/-- The version a `Delete` writes. -/
def delete (key : Key) (raw : Nat) (tx : TxId) : Entry := ⟨key, [], ⟨raw, true⟩, tx⟩

def raw (entry : Entry) : Nat := entry.seq.raw

/-- The value a read finds in this version, nothing for a tombstone. -/
def live (entry : Entry) : Option Bytes :=
  if entry.seq.tombstone then none else some entry.value

theorem live_eq_none {entry : Entry} (tombstone : entry.seq.tombstone = true) :
    entry.live = none := by simp [live, tombstone]

/-- Storage order: by key, and newest version first. -/
def Before (left right : Entry) : Prop :=
  left.key < right.key ∨ (left.key = right.key ∧ right.raw < left.raw)

instance : DecidableRel Before := fun left right =>
  inferInstanceAs (Decidable (left.key < right.key ∨ (left.key = right.key ∧ right.raw < left.raw)))

theorem before_irrefl (entry : Entry) : ¬ entry.Before entry := by
  rintro (impossible | ⟨-, impossible⟩)
  · exact lt_irrefl _ impossible
  · exact lt_irrefl _ impossible

theorem before_trans (first second third : Entry) (left : first.Before second)
    (right : second.Before third) : first.Before third := by
  rcases left with left | ⟨sameLeft, left⟩
  · rcases right with right | ⟨sameRight, -⟩
    · exact .inl (left.trans right)
    · exact .inl (sameRight ▸ left)
  · rcases right with right | ⟨sameRight, right⟩
    · exact .inl (sameLeft ▸ right)
    · exact .inr ⟨sameLeft.trans sameRight, right.trans left⟩

theorem before_total {left right : Entry} (notBefore : ¬ right.Before left)
    (different : left.key = right.key → left.raw ≠ right.raw) : left.Before right := by
  rcases lt_trichotomy left.key right.key with less | same | more
  · exact .inl less
  · rcases lt_trichotomy left.raw right.raw with older | equal | newer
    · exact absurd (.inr ⟨same.symm, older⟩) notBefore
    · exact absurd equal (different same)
    · exact .inr ⟨same, newer⟩
  · exact absurd (.inl more) notBefore

theorem raw_lt_of_before {left right : Entry} (ordered : left.Before right)
    (same : left.key = right.key) : right.raw < left.raw := by
  rcases ordered with less | ⟨-, newer⟩
  · exact absurd (same ▸ less) (lt_irrefl _)
  · exact newer

end Entry

def versionsOf (entries : List Entry) (key : Key) : List Entry :=
  entries.filter (fun entry => entry.key = key)

@[simp] theorem mem_versionsOf {entries : List Entry} {key : Key} {entry : Entry} :
    entry ∈ versionsOf entries key ↔ entry ∈ entries ∧ entry.key = key := by
  simp [versionsOf]

def newestAt (entries : List Entry) (key : Key) (bound : Nat) : Option Entry :=
  ((versionsOf entries key).filter (fun entry => entry.raw ≤ bound)).argmax Entry.raw

def readAt (entries : List Entry) (key : Key) (bound : Nat) : Option Bytes :=
  (newestAt entries key bound).bind Entry.live

def versionSet (entries : List Entry) (key : Key) : Set Entry :=
  {entry | entry ∈ entries ∧ entry.key = key}

@[simp] theorem mem_versionSet {entries : List Entry} {key : Key} {entry : Entry} :
    entry ∈ versionSet entries key ↔ entry ∈ entries ∧ entry.key = key := Iff.rfl

def Entry.Apart (left right : Entry) : Prop := left.key = right.key → left.raw ≠ right.raw

instance : DecidableRel Entry.Apart := fun left right =>
  inferInstanceAs (Decidable (left.key = right.key → left.raw ≠ right.raw))

instance : Std.Symm Entry.Apart where
  symm _ _ apart same := (apart same.symm).symm

/-- No two entries of one key have the same sequence number. -/
def DistinctVersions (entries : List Entry) : Prop := entries.Pairwise Entry.Apart

instance (entries : List Entry) : Decidable (DistinctVersions entries) :=
  inferInstanceAs (Decidable (entries.Pairwise Entry.Apart))

variable {entries : List Entry}

theorem DistinctVersions.injOn (distinct : DistinctVersions entries)
    (key : Key) : Set.InjOn Entry.raw (versionSet entries key) := by
  rintro left ⟨inLeft, leftKey⟩ right ⟨inRight, rightKey⟩ same
  by_contra different
  exact distinct.forall inLeft inRight different (leftKey.trans rightKey.symm) same

variable {key : Key} {bound : Nat}

theorem isNewest_of_newestAt {entry : Entry} (found : newestAt entries key bound = some entry) :
    IsNewest Entry.raw (versionSet entries key) bound entry := by
  obtain ⟨mem, largest, -⟩ := argmax_eq_some_iff.mp found
  simp only [mem_filter, mem_versionsOf, decide_eq_true_eq] at mem largest
  exact ⟨mem.1, mem.2, fun other inEntries below => largest other ⟨inEntries, below⟩⟩

theorem newestAt_eq_none :
    newestAt entries key bound = none ↔ ∀ entry ∈ versionSet entries key, bound < entry.raw := by
  simp only [newestAt, argmax_eq_none, filter_eq_nil_iff, mem_versionsOf,
    decide_eq_true_eq, not_le, mem_versionSet]

theorem newestAt_eq_some (distinct : DistinctVersions entries) {entry : Entry} :
    newestAt entries key bound = some entry ↔
      IsNewest Entry.raw (versionSet entries key) bound entry := by
  refine ⟨isNewest_of_newestAt, fun newest => ?_⟩
  cases found : newestAt entries key bound with
  | none => exact absurd newest.le (not_le.mpr (newestAt_eq_none.mp found entry newest.mem))
  | some other =>
    rw [(isNewest_of_newestAt found).unique (distinct.injOn key) newest]

theorem readAt_reads (entries : List Entry) (key : Key) (bound : Nat) :
    ReadsAs Entry.raw Entry.live (versionSet entries key) bound (readAt entries key bound) := by
  unfold readAt
  cases found : newestAt entries key bound with
  | none => exact .inr ⟨newestAt_eq_none.mp found, rfl⟩
  | some entry => exact .inl ⟨entry, isNewest_of_newestAt found, rfl⟩

theorem readAt_eq_of_sameReads {left right : List Entry} {floor bound : Nat}
    (distinct : Set.InjOn Entry.raw (versionSet right key))
    (same : SameReads Entry.raw Entry.live (versionSet left key) (versionSet right key) floor)
    (above : floor ≤ bound) : readAt left key bound = readAt right key bound :=
  ((same bound above _).mp (readAt_reads left key bound)).unique distinct
    (readAt_reads right key bound)

end Contextra.Store
