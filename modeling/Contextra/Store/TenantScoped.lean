import Contextra.Store.OrderedStore

/-!
# Tenant-scoped storage

A wrapper of a tenant puts the decimal prefix of the tenant in front of every key, prefix,
bound and cursor, and strips it from what comes back.  The prefixes of two tenants, and the
keys outside `t:`, have nothing in common.
-/

namespace Contextra.Store

open Library List
open scoped Library.ByteOrder

def decimal (number : Nat) : Bytes :=
  (Nat.toDigits 10 number).map fun digit => UInt8.ofNat digit.toNat

def tenantMark : Bytes := [0x74, 0x3A]

namespace TenantKeyCodec

/-- `scan_prefix`, the bytes of `t:{tenant}:`. -/
def scanPrefix (tenant : TenantId) : Bytes := tenantMark ++ (decimal tenant ++ [0x3A])

end TenantKeyCodec

/-- `upper_bound_for_prefix`, on the bytes from the last to the first. -/
def raiseLast : Bytes → Option Bytes
  | [] => none
  | last :: before => if last < 0xFF then some ((last + 1) :: before) else raiseLast before

def upperBoundForPrefix (start : Bytes) : Option Bytes := (raiseLast start.reverse).map List.reverse

namespace TenantScopedStorage

variable (tenant : TenantId)

def makeKey (key : Bytes) : Bytes := TenantKeyCodec.scanPrefix tenant ++ key

def stripKey (key : Bytes) : Option Bytes :=
  if TenantKeyCodec.scanPrefix tenant <+: key then
    some (key.drop (TenantKeyCodec.scanPrefix tenant).length)
  else none

def filterStripBatch (batch : List KeyValue) : List KeyValue :=
  batch.filterMap fun entry => (stripKey tenant entry.1).map fun key => (key, entry.2)

/-- `physical_start` of the range scans. -/
def physicalStart : Bound → Bound
  | .included key => .included (makeKey tenant key)
  | .excluded key => .excluded (makeKey tenant key)
  | .unbounded => .included (TenantKeyCodec.scanPrefix tenant)

/-- `physical_end` of the range scans. -/
def physicalEnd : Bound → Bound
  | .included key => .included (makeKey tenant key)
  | .excluded key => .excluded (makeKey tenant key)
  | .unbounded =>
    match upperBoundForPrefix (TenantKeyCodec.scanPrefix tenant) with
    | some upper => .excluded upper
    | none => .unbounded

/-- The call each method of the wrapper makes on the inner store. -/
def physicalOp : StorageOp → StorageOp
  | .get key => .get (makeKey tenant key)
  | .put tx key value => .put tx (makeKey tenant key) value
  | .putIfAbsent tx key value => .putIfAbsent tx (makeKey tenant key) value
  | .putBatch tx batch => .putBatch tx (batch.map fun entry => (makeKey tenant entry.1, entry.2))
  | .delete tx key => .delete tx (makeKey tenant key)
  | .deleteMany tx keys => .deleteMany tx (keys.map (makeKey tenant))
  | .deletePrefix tx start => .deletePrefix tx (makeKey tenant start)
  | .commit tx => .commit tx
  | .rollback tx => .rollback tx
  | .rollbackToTx target => .rollbackToTx target
  | .scanPrefix start => .scanPrefix (makeKey tenant start)
  | .scanPrefixBounded start limit cursor =>
    .scanPrefixBounded (makeKey tenant start) limit (cursor.map (makeKey tenant))
  | .scan start finish limit => .scan (physicalStart tenant start) (physicalEnd tenant finish) limit
  | .scanBounded start finish limit cursor =>
    .scanBounded (physicalStart tenant start) (physicalEnd tenant finish) limit
      (cursor.map (makeKey tenant))

def stripResult : OpResult → OpResult
  | .entries batch => .entries (filterStripBatch tenant batch)
  | .page batch nextCursor => .page (filterStripBatch tenant batch) (nextCursor.bind (stripKey tenant))
  | result => result

def call (store : OrderedStore) (op : StorageOp) : OpResult × OrderedStore :=
  (stripResult tenant (store.call (physicalOp tenant op)).1, (store.call (physicalOp tenant op)).2)

end TenantScopedStorage

inductive User where
  | tenant (id : TenantId)
  | direct
  deriving DecidableEq, Repr

namespace User

def physicalOp : User → StorageOp → StorageOp
  | tenant id, op => TenantScopedStorage.physicalOp id op
  | direct, op => op

def Owns (key : Bytes) : User → Prop
  | tenant id => TenantKeyCodec.scanPrefix id <+: key
  | direct => ¬ tenantMark <+: key

end User

structure UserCall where
  user : User
  op : StorageOp
  deriving DecidableEq, Repr

namespace UserCall

/-- Every transaction has one user, and direct users write keys outside `t:` only. -/
structure Admissible (owner : TxId → User) (call : UserCall) : Prop where
  owned : ∀ tx ∈ call.op.tx, owner tx = call.user
  outside : call.user = .direct → ∀ key, call.op.Writes key → User.direct.Owns key

end UserCall

def sharedRun (calls : List UserCall) : OrderedStore :=
  calls.foldl (fun store call => (store.call (call.user.physicalOp call.op)).2) .empty

def privateRun (ops : List StorageOp) : OrderedStore :=
  ops.foldl (fun store op => (store.call op).2) .empty

def ownOp (tenant : TenantId) (call : UserCall) : Option StorageOp :=
  if call.user = .tenant tenant then some call.op else none

/-- A tenant's own operations and every `rollback_to_tx`, which is one of the whole store. -/
def seenOp (tenant : TenantId) (call : UserCall) : Option StorageOp :=
  match call.op with
  | .rollbackToTx target => some (.rollbackToTx target)
  | op => if call.user = .tenant tenant then some op else none

theorem upperBoundForPrefix_bound {start upper : Bytes}
    (raised : upperBoundForPrefix start = some upper) (key : Bytes) :
    start <+: key ↔ start ≤ key ∧ key < upper := by
  induction start using reverseRecOn generalizing upper with
  | nil => contradiction
  | append_singleton before last ih =>
    unfold upperBoundForPrefix at raised
    rw [reverse_append, reverse_singleton, singleton_append, raiseLast] at raised
    by_cases top : last < 0xFF
    · rw [if_pos top, Option.map_some, Option.some.injEq, reverse_cons,
        reverse_reverse] at raised
      subst raised
      have next : ∀ byte : UInt8, byte < last + 1 ↔ byte ≤ last := by
        intro byte
        have small : last.toNat < 255 := UInt8.lt_iff_toNat_lt.mp top
        have one : (1 : UInt8).toNat = 1 := rfl
        rw [UInt8.lt_iff_toNat_lt, UInt8.le_iff_toNat_le, UInt8.toNat_add, one]
        omega
      constructor
      · rintro ⟨after, rfl⟩
        refine ⟨le_append _ _, ?_⟩
        rw [append_assoc, append_lt_append_iff, singleton_append,
          cons_lt_cons_iff]
        exact .inl ((next last).mpr (UInt8.le_refl last))
      · rintro ⟨low, high⟩
        obtain ⟨after, rfl⟩ := prefix_of_between low high.le
        rw [append_le_append_iff] at low
        rw [append_lt_append_iff] at high
        obtain ⟨head, tail, rfl, above⟩ := singleton_le_iff.mp low
        rw [cons_lt_cons_iff] at high
        rcases high with below | ⟨_, nothing⟩
        · have same : head = last := UInt8.le_antisymm ((next head).mp below) above
          exact ⟨tail, by simp [same]⟩
        · exact absurd nothing (not_lt_nil tail)
    · rw [if_neg top] at raised
      have whole := ih raised
      constructor
      · rintro ⟨after, rfl⟩
        refine ⟨le_append _ _, ?_⟩
        have starts : before <+: before ++ [last] ++ after := by
          rw [append_assoc]
          exact prefix_append before _
        exact (whole.mp starts).2
      · rintro ⟨low, high⟩
        obtain ⟨after, rfl⟩ := whole.mpr ⟨(le_append before [last]).trans low, high⟩
        rw [append_le_append_iff] at low
        obtain ⟨head, tail, rfl, above⟩ := singleton_le_iff.mp low
        have same : head = last := by
          rw [not_lt] at top
          apply UInt8.toNat_inj.mp
          have largest := head.toNat_lt
          have topNat : 255 ≤ last.toNat := UInt8.le_iff_toNat_le.mp top
          have aboveNat := UInt8.le_iff_toNat_le.mp above
          omega
        exact ⟨tail, by simp [same]⟩

theorem digit_toNat {number : Nat} {digit : Char} (mem : digit ∈ Nat.toDigits 10 number) :
    48 ≤ digit.toNat ∧ digit.toNat ≤ 57 := by
  have isDigit := Nat.isDigit_of_mem_toDigits (by decide) (by decide) mem
  rw [Char.isDigit, Bool.and_eq_true, decide_eq_true_eq, decide_eq_true_eq] at isDigit
  exact ⟨UInt32.le_iff_toNat_le.mp isDigit.1, UInt32.le_iff_toNat_le.mp isDigit.2⟩

theorem colon_not_mem_decimal (number : Nat) : (0x3A : UInt8) ∉ decimal number := by
  intro mem
  obtain ⟨digit, digit_mem, same⟩ := mem_map.mp mem
  have bounds := digit_toNat digit_mem
  have code := congrArg UInt8.toNat same
  have colon : (0x3A : UInt8).toNat = 58 := rfl
  rw [UInt8.toNat_ofNat', colon] at code
  omega

theorem decimal_injective : Function.Injective decimal := by
  have readBack : ∀ number, (decimal number).map (fun byte => Char.ofNat byte.toNat) =
      Nat.toDigits 10 number := by
    intro number
    rw [decimal, map_map]
    have each : ∀ digit ∈ Nat.toDigits 10 number,
        ((fun byte : UInt8 => Char.ofNat byte.toNat) ∘ fun digit => UInt8.ofNat digit.toNat) digit =
          digit := by
      intro digit mem
      have bounds := digit_toNat mem
      have small : (UInt8.ofNat digit.toNat).toNat = digit.toNat := by
        rw [UInt8.toNat_ofNat']
        omega
      rw [Function.comp_apply, small, Char.ofNat_toNat]
    rw [map_congr_left each, map_id']
  intro left right same
  have digits : Nat.toDigits 10 left = Nat.toDigits 10 right := by
    rw [← readBack, same, readBack]
  have number := congrArg (Nat.ofDigitChars 10 · 0) digits
  simpa only [Nat.ofDigitChars_toDigits (by decide : 1 < 10) (by decide : 10 ≤ 10)] using number

theorem scanPrefix_disjoint {left right : TenantId} {key : Bytes}
    (inLeft : TenantKeyCodec.scanPrefix left <+: key)
    (inRight : TenantKeyCodec.scanPrefix right <+: key) : left = right := by
  obtain ⟨later, rfl⟩ := inLeft
  obtain ⟨other, same⟩ := inRight
  simp only [TenantKeyCodec.scanPrefix, append_assoc, append_cancel_left_eq,
    singleton_append] at same
  have digits : ∀ (number : Nat) (behind : Bytes),
      (decimal number ++ 0x3A :: behind).takeWhile (· ≠ 0x3A) = decimal number := by
    intro number behind
    rw [takeWhile_append_of_pos, takeWhile_cons_of_neg (by simp), append_nil]
    intro byte mem
    rw [decide_eq_true_eq]
    rintro rfl
    exact colon_not_mem_decimal number mem
  have again := congrArg (List.takeWhile (· ≠ 0x3A)) same
  rw [digits, digits] at again
  exact (decimal_injective again).symm

theorem User.owns_unique {left right : User} {key : Bytes} (inLeft : left.Owns key)
    (inRight : right.Owns key) : left = right := by
  have marked : ∀ id, TenantKeyCodec.scanPrefix id <+: key → tenantMark <+: key :=
    fun id starts => (prefix_append tenantMark _).trans starts
  cases left with
  | tenant left =>
    cases right with
    | tenant right => rw [scanPrefix_disjoint inLeft inRight]
    | direct => exact absurd (marked left inLeft) inRight
  | direct =>
    cases right with
    | tenant right => exact absurd (marked right inRight) inLeft
    | direct => rfl

end Contextra.Store
