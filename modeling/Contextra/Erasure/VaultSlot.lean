import Contextra.Erasure.Types
import Contextra.Library.Bytes

/-!
# Slots of the key vault

A slot of `slot.rs` is 64 bytes: type, status, a 48-bit generation, a tag of 16 bytes, a payload
of 32 bytes and 8 bytes of an HMAC over all that.  BLAKE3 and HMAC-SHA256 are parameters.
-/

namespace Contextra.Erasure

open Library List

abbrev Tag := FixedBytes 16
abbrev Payload := FixedBytes 32
abbrev VaultId := FixedBytes 16
abbrev MacKey := FixedBytes 32

abbrev HmacSha256 := Bytes → Bytes → FixedBytes 32

abbrev Blake3 := Bytes → FixedBytes 32

inductive SlotType where
  | tenant
  | collection
  | subject
  | document
  | file
  | epoch
  deriving DecidableEq, Repr

def SlotType.toU8 : SlotType → UInt8
  | .tenant => 0x01
  | .collection => 0x02
  | .subject => 0x03
  | .document => 0x04
  | .file => 0x05
  | .epoch => 0x06

def SlotType.fromU8 (byte : UInt8) : Option SlotType :=
  if byte = 0x01 then some .tenant
  else if byte = 0x02 then some .collection
  else if byte = 0x03 then some .subject
  else if byte = 0x04 then some .document
  else if byte = 0x05 then some .file
  else if byte = 0x06 then some .epoch
  else none

@[simp] theorem SlotType.fromU8_toU8 (slotType : SlotType) :
    SlotType.fromU8 slotType.toU8 = some slotType := by
  cases slotType <;> decide

theorem SlotType.toU8_inj {slotType other : SlotType} :
    slotType.toU8 = other.toU8 ↔ slotType = other := by
  cases slotType <;> cases other <;> decide

def vaultSlotSize : Nat := 64

def statusEmpty : UInt8 := 0x00
def statusActive : UInt8 := 0x01
def statusTombstone : UInt8 := 0x02

structure SlotData where
  slotType : SlotType
  tag : Tag
  payload : Payload
  gen : Nat
  deriving DecidableEq

abbrev SlotKey := SlotType × Tag

def SlotData.key (slot : SlotData) : SlotKey := (slot.slotType, slot.tag)

/-- The six low bytes of the generation, most significant first. -/
def genBytes (gen : Nat) : Bytes := (toLeBytes 6 gen).reverse

def encodeSlotBody (slot : SlotData) : Bytes :=
  [slot.slotType.toU8, statusActive] ++ genBytes slot.gen ++ slot.tag.val ++ slot.payload.val

def computeSlotMac (hmac : HmacSha256) (macKey : MacKey) (vaultId : VaultId) (preMac : Bytes) :
    Bytes :=
  (hmac macKey.val (vaultId.val ++ preMac)).val.take 8

/-- The bytes that `write_slot` puts into the table. -/
def encodeSlot (hmac : HmacSha256) (macKey : MacKey) (vaultId : VaultId) (slot : SlotData) : Bytes :=
  encodeSlotBody slot ++ computeSlotMac hmac macKey vaultId (encodeSlotBody slot)

def tombstoneBody : Bytes := 0 :: statusTombstone :: replicate 54 0

def tombstoneImage (hmac : HmacSha256) (macKey : MacKey) (vaultId : VaultId) : Bytes :=
  tombstoneBody ++ computeSlotMac hmac macKey vaultId tombstoneBody

def emptySlot : Bytes := replicate vaultSlotSize 0

/-- `decode_slot`; a slot whose status is unknown, or whose MAC does not match, is corrupt. -/
def decodeSlot (hmac : HmacSha256) (macKey : MacKey) (vaultId : VaultId) (raw : Bytes) :
    Except ErasureError (Option SlotData) :=
  match raw[1]? with
  | none => .error .corrupt
  | some status =>
    let macMatches :=
      (raw.drop 56).take 8 = computeSlotMac hmac macKey vaultId (raw.take 56)
    if status = statusEmpty then
      if raw.all (· == 0) then .ok none else .error .corrupt
    else if status = statusTombstone then
      if ¬ macMatches then .error .corrupt
      else if raw[0]? ≠ some 0 then .error .corrupt
      else if ((raw.drop 2).take 54).any (· != 0) then .error .corrupt
      else .ok none
    else if status = statusActive then
      if ¬ macMatches then .error .corrupt
      else
        match raw[0]?.bind SlotType.fromU8 with
        | none => .error .corrupt
        | some slotType =>
          .ok (some {
            slotType := slotType
            tag := .copied raw 8 16
            payload := .copied raw 24 32
            gen := fromLeBytes ((raw.drop 2).take 6).reverse })
    else .error .corrupt

/-- `slot_probe_start`: the shard, and the first index of the probe in a table. -/
def slotProbeStart (blake3 : Blake3) (key : SlotKey) (capacity : Nat) : UInt8 × Nat :=
  if capacity = 0 then (0, 0)
  else
    let hash := (blake3 (key.1.toU8 :: key.2.val)).val
    ((hash[0]?.getD 0) >>> 4, fromLeBytes ((hash.drop 1).take 8).reverse % capacity)

section Layout

variable {hmac : HmacSha256} {macKey : MacKey} {vaultId : VaultId} {slot : SlotData}

theorem length_genBytes (gen : Nat) : (genBytes gen).length = 6 := by simp [genBytes]

theorem length_encodeSlotBody (slot : SlotData) : (encodeSlotBody slot).length = 56 := by
  simp [encodeSlotBody, length_genBytes, slot.tag.property, slot.payload.property]

theorem length_computeSlotMac (preMac : Bytes) :
    (computeSlotMac hmac macKey vaultId preMac).length = 8 := by
  rw [computeSlotMac, length_take, (hmac _ _).property]
  rfl

theorem encodeSlot_eq : encodeSlot hmac macKey vaultId slot =
    slot.slotType.toU8 :: statusActive :: (genBytes slot.gen ++ (slot.tag.val ++
      (slot.payload.val ++ computeSlotMac hmac macKey vaultId (encodeSlotBody slot)))) := by
  simp [encodeSlot, encodeSlotBody]

theorem encodeSlot_status : (encodeSlot hmac macKey vaultId slot)[1]? = some statusActive := rfl

theorem encodeSlot_tag :
    ((encodeSlot hmac macKey vaultId slot).drop 8).take 16 = slot.tag.val := by
  have header : (slot.slotType.toU8 :: statusActive :: genBytes slot.gen).length = 8 := by
    simp [length_genBytes]
  rw [encodeSlot_eq, ← cons_append, ← cons_append, drop_left' header,
    take_left' slot.tag.property]

theorem encodeSlot_payload :
    ((encodeSlot hmac macKey vaultId slot).drop 24).take 32 = slot.payload.val := by
  have header : (slot.slotType.toU8 :: statusActive :: (genBytes slot.gen ++ slot.tag.val)).length =
      24 := by
    simp [length_genBytes, slot.tag.property]
  have grouped : encodeSlot hmac macKey vaultId slot =
      (slot.slotType.toU8 :: statusActive :: (genBytes slot.gen ++ slot.tag.val)) ++
        (slot.payload.val ++ computeSlotMac hmac macKey vaultId (encodeSlotBody slot)) := by
    simp [encodeSlot_eq]
  rw [grouped, drop_left' header, take_left' slot.payload.property]

theorem encodeSlot_gen : fromLeBytes
    (((encodeSlot hmac macKey vaultId slot).drop 2).take 6).reverse = slot.gen % 256 ^ 6 := by
  rw [encodeSlot_eq, drop_succ_cons, drop_succ_cons, drop_zero,
    take_left' (length_genBytes slot.gen), genBytes, reverse_reverse,
    fromLeBytes_toLeBytes_mod]

theorem mac_matches {body : Bytes} (width : body.length = 56) :
    ((body ++ computeSlotMac hmac macKey vaultId body).drop 56).take 8 =
      computeSlotMac hmac macKey vaultId
        ((body ++ computeSlotMac hmac macKey vaultId body).take 56) := by
  rw [drop_left' width, take_left' width,
    take_of_length_le (length_computeSlotMac _).le]

theorem decodeSlot_encodeSlot :
    decodeSlot hmac macKey vaultId (encodeSlot hmac macKey vaultId slot) =
      .ok (some { slot with gen := slot.gen % 256 ^ 6 }) := by
  have typeByte : (encodeSlot hmac macKey vaultId slot)[0]?.bind SlotType.fromU8 =
      some slot.slotType := SlotType.fromU8_toU8 slot.slotType
  have matching : ((encodeSlot hmac macKey vaultId slot).drop 56).take 8 =
      computeSlotMac hmac macKey vaultId ((encodeSlot hmac macKey vaultId slot).take 56) :=
    mac_matches (length_encodeSlotBody slot)
  rw [decodeSlot, encodeSlot_status]
  simp only [typeByte, FixedBytes.copied_eq encodeSlot_tag, FixedBytes.copied_eq encodeSlot_payload,
    encodeSlot_gen]
  rw [if_neg (by decide), if_neg (by decide), if_pos trivial,
    if_neg (not_not_intro matching)]

theorem tombstoneImage_status : (tombstoneImage hmac macKey vaultId)[1]? = some statusTombstone :=
  rfl

end Layout

end Contextra.Erasure
