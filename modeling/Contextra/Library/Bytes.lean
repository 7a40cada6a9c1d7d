import Mathlib

/-!
# Byte formats

Fixed-width numbers as byte lists, least or most significant byte first; the reading of
fields out of a byte list, `takeField` and `takeFixed` at its front and `fieldAt` at an
offset; and the CRC-32.
-/

namespace Contextra.Library

open List

/-- The low `width` bytes of a number. -/
def toLeBytes : Nat → Nat → List UInt8
  | 0, _ => []
  | width + 1, value => UInt8.ofNat value :: toLeBytes width (value / 256)

def fromLeBytes : List UInt8 → Nat
  | [] => 0
  | byte :: bytes => byte.toNat + 256 * fromLeBytes bytes

@[simp] theorem length_toLeBytes (width value : Nat) : (toLeBytes width value).length = width := by
  induction width generalizing value with
  | zero => rfl
  | succ width ih => simp [toLeBytes, ih]

theorem fromLeBytes_toLeBytes {width value : Nat} (bounded : value < 256 ^ width) :
    fromLeBytes (toLeBytes width value) = value := by
  induction width generalizing value with
  | zero =>
    have zero : value = 0 := by simpa using bounded
    rw [zero]
    rfl
  | succ width ih =>
    have quotient : value / 256 < 256 ^ width := by
      rw [Nat.div_lt_iff_lt_mul (by decide)]
      rwa [pow_succ] at bounded
    have low : (UInt8.ofNat value).toNat = value % 256 := by simp
    rw [toLeBytes, fromLeBytes, ih quotient, low]
    omega

theorem fromLeBytes_toLeBytes_mod (width value : Nat) :
    fromLeBytes (toLeBytes width value) = value % 256 ^ width := by
  induction width generalizing value with
  | zero => rw [pow_zero, Nat.mod_one, toLeBytes, fromLeBytes]
  | succ width ih =>
    have low : (UInt8.ofNat value).toNat = value % 256 := by simp
    rw [toLeBytes, fromLeBytes, ih, low, pow_succ', Nat.mod_mul]

theorem fromLeBytes_lt (bytes : List UInt8) : fromLeBytes bytes < 256 ^ bytes.length := by
  induction bytes with
  | nil => simp [fromLeBytes]
  | cons byte bytes ih =>
    have small : byte.toNat < 256 := byte.toNat_lt
    rw [fromLeBytes, length_cons, pow_succ]
    omega

theorem toLeBytes_fromLeBytes (bytes : List UInt8) :
    toLeBytes bytes.length (fromLeBytes bytes) = bytes := by
  induction bytes with
  | nil => rfl
  | cons byte bytes ih =>
    have small : byte.toNat < 256 := byte.toNat_lt
    have quotient : (byte.toNat + 256 * fromLeBytes bytes) / 256 = fromLeBytes bytes := by omega
    have low : UInt8.ofNat (byte.toNat + 256 * fromLeBytes bytes) = byte := by
      apply UInt8.toNat_inj.mp
      rw [UInt8.toNat_ofNat']
      omega
    rw [length_cons, fromLeBytes, toLeBytes, quotient, low, ih]

/-- The low `width` bytes of a number, most significant byte first. -/
def toBeBytes (width value : Nat) : List UInt8 := (toLeBytes width value).reverse

def fromBeBytes (bytes : List UInt8) : Nat := fromLeBytes bytes.reverse

@[simp] theorem length_toBeBytes (width value : Nat) : (toBeBytes width value).length = width := by
  rw [toBeBytes, length_reverse, length_toLeBytes]

theorem fromBeBytes_toBeBytes {width value : Nat} (bounded : value < 256 ^ width) :
    fromBeBytes (toBeBytes width value) = value := by
  rw [fromBeBytes, toBeBytes, reverse_reverse, fromLeBytes_toLeBytes bounded]

theorem fromBeBytes_lt (bytes : List UInt8) : fromBeBytes bytes < 256 ^ bytes.length := by
  have bounded := fromLeBytes_lt bytes.reverse
  rwa [length_reverse] at bounded

section Fields

variable {α : Type*}

/-- The first `count` elements and the rest, when there are that many. -/
def takeField (count : Nat) (data : List α) : Option (List α × List α) :=
  if count ≤ data.length then some (data.take count, data.drop count) else none

/-- The `count` elements from `offset` on. -/
def fieldAt (offset count : Nat) (data : List α) : Option (List α) :=
  if offset + count ≤ data.length then some ((data.drop offset).take count) else none

theorem takeField_eq_some {count : Nat} {data field rest : List α} :
    takeField count data = some (field, rest) ↔ data = field ++ rest ∧ field.length = count := by
  unfold takeField
  constructor
  · split
    · rename_i enough
      intro found
      obtain ⟨rfl, rfl⟩ := Prod.mk.inj (Option.some.inj found)
      exact ⟨(take_append_drop count data).symm, length_take_of_le enough⟩
    · simp
  · rintro ⟨rfl, rfl⟩
    simp

theorem takeField_eq_none {count : Nat} {data : List α} :
    takeField count data = none ↔ data.length < count := by
  unfold takeField
  split <;> simp <;> omega

@[simp] theorem takeField_append {field rest : List α} :
    takeField field.length (field ++ rest) = some (field, rest) :=
  takeField_eq_some.mpr ⟨rfl, rfl⟩

theorem takeField_toLeBytes (width value : Nat) (rest : List UInt8) :
    takeField width (toLeBytes width value ++ rest) = some (toLeBytes width value, rest) :=
  takeField_eq_some.mpr ⟨rfl, length_toLeBytes width value⟩

theorem takeField_toBeBytes (width value : Nat) (rest : List UInt8) :
    takeField width (toBeBytes width value ++ rest) = some (toBeBytes width value, rest) :=
  takeField_eq_some.mpr ⟨rfl, length_toBeBytes width value⟩

/-- A field at the front whose length its type carries. -/
def takeFixed (size : Nat) (data : List α) :
    Option ({ field : List α // field.length = size } × List α) :=
  if enough : size ≤ data.length then
    some (⟨data.take size, length_take_of_le enough⟩, data.drop size)
  else none

@[simp] theorem takeFixed_append {size : Nat} (field : { field : List α // field.length = size })
    (rest : List α) : takeFixed size (field.val ++ rest) = some (field, rest) := by
  have enough : size ≤ (field.val ++ rest).length := by
    rw [length_append, field.property]
    omega
  rw [takeFixed, dif_pos enough]
  congr 2
  · exact Subtype.ext (take_left' field.property)
  · exact drop_left' field.property

theorem fieldAt_append (before field rest : List α) :
    fieldAt before.length field.length (before ++ field ++ rest) = some field := by
  unfold fieldAt
  rw [if_pos (by simp)]
  simp

theorem fieldAt_toLeBytes {before rest : List UInt8} {offset : Nat} (width value : Nat)
    (position : before.length = offset) :
    fieldAt offset width (before ++ toLeBytes width value ++ rest) =
      some (toLeBytes width value) := by
  have found := fieldAt_append before (toLeBytes width value) rest
  rwa [position, length_toLeBytes] at found

theorem fieldAt_take {offset count kept : Nat} {data : List α} :
    fieldAt offset count (data.take kept) =
      if offset + count ≤ kept then fieldAt offset count data else none := by
  unfold fieldAt
  by_cases inside : offset + count ≤ kept
  · rw [if_pos inside]
    by_cases enough : offset + count ≤ data.length
    · rw [if_pos enough, if_pos (by rw [length_take]; omega), drop_take, take_take,
        min_eq_left (by omega)]
    · rw [if_neg enough, if_neg (by rw [length_take]; omega)]
  · rw [if_neg inside, if_neg (by rw [length_take]; omega)]

end Fields

def crc32Bit (crc : UInt32) : UInt32 :=
  if crc &&& 1 = 1 then (crc >>> 1) ^^^ 0xEDB88320 else crc >>> 1

def crc32Byte (crc : UInt32) (byte : UInt8) : UInt32 :=
  (crc32Bit ∘ crc32Bit ∘ crc32Bit ∘ crc32Bit ∘ crc32Bit ∘ crc32Bit ∘ crc32Bit ∘ crc32Bit)
    (crc ^^^ byte.toUInt32)

/-- The IEEE CRC-32 of a byte string. -/
def crc32 (data : List UInt8) : Nat := (~~~ data.foldl crc32Byte 0xFFFFFFFF).toNat

theorem crc32_lt (data : List UInt8) : crc32 data < 256 ^ 4 := UInt32.toNat_lt _

/-- The check value of CRC-32, for the text 123456789. -/
example : crc32 [0x31, 0x32, 0x33, 0x34, 0x35, 0x36, 0x37, 0x38, 0x39] = 0xCBF43926 := by
  decide +kernel

end Contextra.Library
