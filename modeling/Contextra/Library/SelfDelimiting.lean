import Contextra.Library.Bytes

/-!
# Self-delimiting codes

Codes that can be written one behind the other: what follows a code cannot change how it is read.
Codes of one length are of this kind, and so are pairs, tagged alternatives and counted lists of
such codes.
-/

namespace Contextra.Library

open List

variable {α β γ δ : Type*}

/-- Equal texts that begin with codes begin with the same one. -/
def SelfDelimiting (encode : α → List β) : Prop :=
  ∀ ⦃first second : α⦄ ⦃rest rest' : List β⦄,
    encode first ++ rest = encode second ++ rest' → first = second ∧ rest = rest'

namespace SelfDelimiting

variable {encode : α → List β} {encode' : γ → List β}

theorem injective (delimits : SelfDelimiting encode) : Function.Injective encode := by
  intro first second same
  exact (delimits (congrArg (· ++ []) same)).1

theorem of_length {size : Nat} (length : ∀ value, (encode value).length = size)
    (injective : Function.Injective encode) : SelfDelimiting encode := by
  intro first second rest rest' same
  obtain ⟨sameCode, sameRest⟩ :=
    append_inj same ((length first).trans (length second).symm)
  exact ⟨injective sameCode, sameRest⟩

theorem comp (delimits : SelfDelimiting encode) {pack : δ → α}
    (injective : Function.Injective pack) : SelfDelimiting fun value => encode (pack value) := by
  intro first second rest rest' same
  obtain ⟨samePack, sameRest⟩ := delimits same
  exact ⟨injective samePack, sameRest⟩

theorem append (left : SelfDelimiting encode) (right : SelfDelimiting encode') :
    SelfDelimiting fun pair : α × γ => encode pair.1 ++ encode' pair.2 := by
  rintro ⟨first, first'⟩ ⟨second, second'⟩ rest rest' same
  rw [append_assoc, append_assoc] at same
  obtain ⟨rfl, sameTail⟩ := left same
  obtain ⟨rfl, sameRest⟩ := right sameTail
  exact ⟨rfl, sameRest⟩

theorem tagged (tags : SelfDelimiting encode') {tag : α → γ} {body : α → List β}
    (bodies : ∀ ⦃first second⦄ ⦃rest rest' : List β⦄, tag first = tag second →
      body first ++ rest = body second ++ rest' → first = second ∧ rest = rest') :
    SelfDelimiting fun value => encode' (tag value) ++ body value := by
  intro first second rest rest' same
  simp only [append_assoc] at same
  obtain ⟨sameTag, sameBody⟩ := tags same
  exact bodies sameTag sameBody

theorem flatMap (delimits : SelfDelimiting encode) {first second : List α} {rest rest' : List β}
    (sameLength : first.length = second.length)
    (same : first.flatMap encode ++ rest = second.flatMap encode ++ rest') :
    first = second ∧ rest = rest' := by
  induction first generalizing second with
  | nil =>
    obtain rfl := length_eq_zero_iff.mp sameLength.symm
    exact ⟨rfl, same⟩
  | cons head first ih =>
    cases second with
    | nil => cases sameLength
    | cons head' second =>
      rw [flatMap_cons, flatMap_cons, append_assoc, append_assoc] at same
      obtain ⟨rfl, sameTail⟩ := delimits same
      obtain ⟨rfl, sameRest⟩ := ih (Nat.succ.inj sameLength) sameTail
      exact ⟨rfl, sameRest⟩

end SelfDelimiting

def u8Code (value : UInt8) : List UInt8 := [value]

def u32Code (value : UInt32) : List UInt8 := toLeBytes 4 value.toNat

def u64Code (value : UInt64) : List UInt8 := toLeBytes 8 value.toNat

theorem toLeBytes_injOn {width value value' : Nat} (bounded : value < 256 ^ width)
    (bounded' : value' < 256 ^ width) (same : toLeBytes width value = toLeBytes width value') :
    value = value' := by
  rw [← fromLeBytes_toLeBytes bounded, same, fromLeBytes_toLeBytes bounded']

theorem u8Code_selfDelimiting : SelfDelimiting u8Code :=
  .of_length (fun _ => rfl) fun _ _ same => singleton_injective same

/-- A truth value as one byte. -/
def boolCode (flag : Bool) : List UInt8 := u8Code (if flag then 1 else 0)

theorem boolCode_selfDelimiting : SelfDelimiting boolCode := by
  have length : ∀ flag, (boolCode flag).length = 1 := fun _ => rfl
  apply SelfDelimiting.of_length length
  decide

theorem u32Code_selfDelimiting : SelfDelimiting u32Code := by
  apply SelfDelimiting.of_length
  · intro value
    exact length_toLeBytes 4 _
  · intro first second same
    exact UInt32.toNat_inj.mp (toLeBytes_injOn first.toNat_lt second.toNat_lt same)

@[simp] theorem u64Code_length (value : UInt64) : (u64Code value).length = 8 :=
  length_toLeBytes 8 _

theorem u64Code_selfDelimiting : SelfDelimiting u64Code := by
  apply SelfDelimiting.of_length u64Code_length
  intro first second same
  exact UInt64.toNat_inj.mp (toLeBytes_injOn first.toNat_lt second.toNat_lt same)

/-- A list whose length a 64-bit count can hold. -/
structure Vec (α : Type*) where
  toList : List α
  bounded : toList.length < 2 ^ 64

namespace Vec

instance [DecidableEq α] : DecidableEq (Vec α) := fun first second =>
  decidable_of_iff (first.toList = second.toList) ⟨fun same => by
    cases first
    cases second
    cases same
    rfl, congrArg toList⟩

theorem toList_injective : Function.Injective (toList : Vec α → List α) := by
  rintro ⟨first, _⟩ ⟨second, _⟩ same
  cases same
  rfl

def empty : Vec α := ⟨[], Nat.two_pow_pos 64⟩

def map (f : α → β) (values : Vec α) : Vec β :=
  ⟨values.toList.map f, by
    rw [length_map]
    exact values.bounded⟩

end Vec

def vecCode (encode : α → List UInt8) (values : Vec α) : List UInt8 :=
  toLeBytes 8 values.toList.length ++ values.toList.flatMap encode

theorem vecCode_selfDelimiting {encode : α → List UInt8} (delimits : SelfDelimiting encode) :
    SelfDelimiting (vecCode encode) := by
  intro first second rest rest' same
  unfold vecCode at same
  rw [append_assoc, append_assoc] at same
  have counts : (toLeBytes 8 first.toList.length).length =
      (toLeBytes 8 second.toList.length).length := by
    rw [length_toLeBytes, length_toLeBytes]
  obtain ⟨sameCount, sameTail⟩ := append_inj same counts
  have sameLength := toLeBytes_injOn first.bounded second.bounded sameCount
  obtain ⟨sameList, sameRest⟩ := delimits.flatMap sameLength sameTail
  exact ⟨Vec.toList_injective sameList, sameRest⟩

theorem vecCode_ne_nil {encode : α → List UInt8} (values : Vec α) (rest : List UInt8) :
    vecCode encode values ++ rest ≠ [] := by
  apply ne_nil_of_length_pos
  unfold vecCode
  rw [append_assoc, length_append, length_toLeBytes]
  exact Nat.add_pos_left (by decide) _

end Contextra.Library
