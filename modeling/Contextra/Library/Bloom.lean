import Mathlib

/-!
# Bloom filters

Bits stored in words of a fixed width, set one at a time, and the filter over them: a key
sets the bits of its probes, and may be present when all of them are set.  A key that was
inserted is never reported absent.
-/

namespace Contextra.Library

open List Option

def setBit (width : Nat) (words : List Nat) (bit : Nat) : List Nat :=
  words.modify (bit / width) (· ||| 1 <<< (bit % width))

/-- `words[bit / width] & (1 << (bit % width)) != 0`; a bit behind the words is not set. -/
def testBit (width : Nat) (words : List Nat) (bit : Nat) : Bool :=
  match words[bit / width]? with
  | some word => word.testBit (bit % width)
  | none => false

def setBits (width : Nat) (words : List Nat) (bits : List Nat) : List Nat :=
  bits.foldl (setBit width) words

section Bits

variable {width : Nat} {words : List Nat}

@[simp] theorem length_setBit (bit : Nat) : (setBit width words bit).length = words.length :=
  length_modify _ _ _

@[simp] theorem length_setBits (bits : List Nat) :
    (setBits width words bits).length = words.length := by
  induction bits generalizing words with
  | nil => rfl
  | cons bit bits ih =>
    rw [setBits, foldl_cons]
    exact ih.trans (length_setBit bit)

variable {bit : Nat}

theorem testBit_setBit_self (inside : bit / width < words.length) :
    testBit width (setBit width words bit) bit = true := by
  unfold testBit setBit
  rw [getElem?_modify_eq, getElem?_eq_getElem inside]
  simp [Nat.testBit_or]

theorem testBit_setBit {bit other : Nat} (set : testBit width words other = true) :
    testBit width (setBit width words bit) other = true := by
  unfold testBit setBit at *
  rw [getElem?_modify]
  cases found : words[other / width]? with
  | none => simp [found] at set
  | some word =>
    simp only [found] at set
    simp only [Option.map_eq_map, map_some]
    split
    · rw [Nat.testBit_or, set, Bool.true_or]
    · exact set

variable {bits : List Nat}

theorem testBit_setBits_of_set {other : Nat} (set : testBit width words other = true) :
    testBit width (setBits width words bits) other = true := by
  induction bits generalizing words with
  | nil => exact set
  | cons bit bits ih => exact ih (testBit_setBit set)

theorem testBit_setBits (mem : bit ∈ bits)
    (inside : bit / width < words.length) : testBit width (setBits width words bits) bit = true := by
  induction bits generalizing words with
  | nil => cases mem
  | cons first bits ih =>
    rcases mem_cons.mp mem with rfl | later
    · rw [setBits, foldl_cons]
      exact testBit_setBits_of_set (testBit_setBit_self inside)
    · exact ih later (by simpa using inside)

theorem setBit_lt (positive : 0 < width) (bounded : ∀ word ∈ words, word < 2 ^ width) :
    ∀ word ∈ setBit width words bit, word < 2 ^ width := by
  intro word mem
  obtain ⟨position, found⟩ := mem_iff_getElem?.mp mem
  rw [setBit, getElem?_modify] at found
  cases old : words[position]? with
  | none => simp [old] at found
  | some before =>
    have small := bounded before (mem_of_getElem? old)
    simp only [old, Option.map_eq_map, map_some, Option.some.injEq] at found
    split at found
    · rw [← found]
      apply Nat.or_lt_two_pow small
      rw [Nat.one_shiftLeft]
      exact Nat.pow_lt_pow_right (by decide) (Nat.mod_lt _ positive)
    · rwa [← found]

theorem setBits_lt (positive : 0 < width) (bounded : ∀ word ∈ words, word < 2 ^ width) :
    ∀ word ∈ setBits width words bits, word < 2 ^ width := by
  induction bits generalizing words with
  | nil => exact bounded
  | cons bit bits ih => exact ih (setBit_lt positive bounded)

end Bits

/-- The bits of double hashing: `(h1 + i * h2) mod 2^64 mod numBits`. -/
def probes (hash : Nat × Nat) (numHashes numBits : Nat) : List Nat :=
  (List.range numHashes).map fun i => (hash.1 + i * hash.2) % 2 ^ 64 % numBits

theorem probes_lt {hash : Nat × Nat} {numHashes numBits bit : Nat} (positive : 0 < numBits)
    (mem : bit ∈ probes hash numHashes numBits) : bit < numBits := by
  obtain ⟨i, -, rfl⟩ := List.mem_map.mp mem
  exact Nat.mod_lt _ positive

def insertAll (width numHashes numBits : Nat) (words : List Nat) (hashes : List (Nat × Nat)) :
    List Nat :=
  hashes.foldl (fun words hash => setBits width words (probes hash numHashes numBits)) words

def mayContain (width numHashes numBits : Nat) (words : List Nat) (hash : Nat × Nat) : Bool :=
  (probes hash numHashes numBits).all (testBit width words)

section Probes

variable {width numHashes numBits : Nat} {words : List Nat}

@[simp] theorem length_insertAll (hashes : List (Nat × Nat)) :
    (insertAll width numHashes numBits words hashes).length = words.length := by
  induction hashes generalizing words with
  | nil => rfl
  | cons hash hashes ih =>
    rw [insertAll, foldl_cons]
    exact ih.trans (length_setBits _)

variable {hashes : List (Nat × Nat)}

theorem insertAll_lt (positive : 0 < width) (bounded : ∀ word ∈ words, word < 2 ^ width) :
    ∀ word ∈ insertAll width numHashes numBits words hashes, word < 2 ^ width := by
  induction hashes generalizing words with
  | nil => exact bounded
  | cons hash hashes ih => exact ih (setBits_lt positive bounded)

theorem testBit_insertAll_of_set {bit : Nat} (set : testBit width words bit = true) :
    testBit width (insertAll width numHashes numBits words hashes) bit = true := by
  induction hashes generalizing words with
  | nil => exact set
  | cons hash hashes ih => exact ih (testBit_setBits_of_set set)

theorem mayContain_insertAll (positive : 0 < numBits) (enough : numBits ≤ width * words.length)
    {hash : Nat × Nat} (inserted : hash ∈ hashes) :
    mayContain width numHashes numBits (insertAll width numHashes numBits words hashes) hash =
      true := by
  apply List.all_eq_true.mpr
  intro bit mem
  have inside : bit / width < words.length :=
    Nat.div_lt_of_lt_mul ((probes_lt positive mem).trans_le enough)
  induction hashes generalizing words with
  | nil => cases inserted
  | cons first hashes ih =>
    rcases mem_cons.mp inserted with rfl | later
    · rw [insertAll, foldl_cons]
      exact testBit_insertAll_of_set (testBit_setBits mem inside)
    · apply ih _ later
      · simpa using inside
      · simpa using enough

end Probes

end Contextra.Library
