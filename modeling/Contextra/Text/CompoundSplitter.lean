import Contextra.Text.SegmentPaths

/-!
# The splitter of German compounds

A token is split into words of the dictionary, all but the last with a linking element where they
need one.  Texts are lists of characters; positions are byte offsets of their UTF-8.
-/

namespace Contextra.Text

open List Option

def utf8Len (text : List Char) : Nat := (text.map Char.utf8Size).sum

/-- The text before a byte offset and the text behind it, where the offset is the boundary of a
character. -/
def splitBytes : List Char → Nat → Option (List Char × List Char)
  | text, 0 => some ([], text)
  | [], _ + 1 => none
  | char :: text, offset + 1 =>
    if char.utf8Size ≤ offset + 1 then
      (splitBytes text (offset + 1 - char.utf8Size)).map fun (front, rest) => (char :: front, rest)
    else none

/-- `&text[start..stop]`, between boundaries of characters. -/
def sliceAt (text : List Char) (start stop : Nat) : Option (List Char) :=
  if start < stop then
    (splitBytes text start).bind fun (_, rest) => (splitBytes rest (stop - start)).map Prod.fst
  else none

@[simp] theorem utf8Len_nil : utf8Len [] = 0 := rfl

@[simp] theorem utf8Len_cons (char : Char) (text : List Char) :
    utf8Len (char :: text) = char.utf8Size + utf8Len text := by
  rw [utf8Len, map_cons, sum_cons]
  rfl

@[simp] theorem utf8Len_append (front rest : List Char) :
    utf8Len (front ++ rest) = utf8Len front + utf8Len rest := by
  rw [utf8Len, map_append, sum_append]
  rfl

theorem utf8Len_pos {text : List Char} (nonempty : text ≠ []) : 0 < utf8Len text := by
  cases text with
  | nil => exact absurd rfl nonempty
  | cons char text =>
    rw [utf8Len_cons]
    exact Nat.add_pos_left char.utf8Size_pos _

theorem length_le_utf8Len (text : List Char) : text.length ≤ utf8Len text := by
  induction text with
  | nil => exact le_rfl
  | cons char text ih =>
    have positive := char.utf8Size_pos
    rw [length_cons, utf8Len_cons]
    omega

theorem splitBytes_eq_some {text front rest : List Char} {offset : Nat} :
    splitBytes text offset = some (front, rest) ↔ text = front ++ rest ∧ utf8Len front = offset := by
  induction text generalizing front rest offset with
  | nil =>
    cases offset with
    | zero =>
      simp only [splitBytes, Option.some.injEq, Prod.mk.injEq, nil_eq,
        append_eq_nil_iff]
      constructor
      · rintro ⟨rfl, rfl⟩
        exact ⟨⟨rfl, rfl⟩, rfl⟩
      · rintro ⟨⟨rfl, rfl⟩, -⟩
        exact ⟨rfl, rfl⟩
    | succ offset =>
      simp only [splitBytes, nil_eq, append_eq_nil_iff]
      constructor
      · intro impossible
        cases impossible
      · rintro ⟨⟨rfl, rfl⟩, impossible⟩
        cases impossible
  | cons char text ih =>
    have positive := char.utf8Size_pos
    cases offset with
    | zero =>
      simp only [splitBytes, Option.some.injEq, Prod.mk.injEq]
      constructor
      · rintro ⟨rfl, rfl⟩
        exact ⟨rfl, rfl⟩
      · rintro ⟨same, empty⟩
        cases front with
        | nil => exact ⟨rfl, same⟩
        | cons other front =>
          have := other.utf8Size_pos
          rw [utf8Len_cons] at empty
          omega
    | succ offset =>
      rw [splitBytes]
      constructor
      · intro found
        split at found
        · obtain ⟨⟨front', rest'⟩, split, same⟩ := map_eq_some_iff.mp found
          obtain ⟨rfl, rfl⟩ := Prod.mk.inj same
          obtain ⟨rfl, length⟩ := ih.mp split
          refine ⟨rfl, ?_⟩
          rw [utf8Len_cons, length]
          omega
        · cases found
      · rintro ⟨same, length⟩
        cases front with
        | nil => cases length
        | cons other front =>
          obtain ⟨rfl, rfl⟩ := List.cons.inj same
          rw [utf8Len_cons] at length
          rw [if_pos (by omega), ih.mpr ⟨rfl, by omega⟩]
          rfl

theorem sliceAt_eq_some {text piece : List Char} {start stop : Nat} :
    sliceAt text start stop = some piece ↔ piece ≠ [] ∧
      ∃ front rest, text = front ++ piece ++ rest ∧ utf8Len front = start ∧
        utf8Len front + utf8Len piece = stop := by
  unfold sliceAt
  constructor
  · intro found
    split at found
    · rename_i ordered
      obtain ⟨⟨front, tail⟩, split, found⟩ := bind_eq_some_iff.mp found
      obtain ⟨⟨middle, rest⟩, split', rfl⟩ := map_eq_some_iff.mp found
      obtain ⟨rfl, length⟩ := splitBytes_eq_some.mp split
      obtain ⟨rfl, length'⟩ := splitBytes_eq_some.mp split'
      refine ⟨?_, front, rest, (append_assoc ..).symm, length, by simp only; omega⟩
      rintro rfl
      rw [utf8Len_nil] at length'
      omega
    · cases found
  · rintro ⟨nonempty, front, rest, rfl, rfl, rfl⟩
    have positive := utf8Len_pos nonempty
    have outer : splitBytes (front ++ piece ++ rest) (utf8Len front) =
        some (front, piece ++ rest) := splitBytes_eq_some.mpr ⟨append_assoc .., rfl⟩
    have inner : splitBytes (piece ++ rest) (utf8Len front + utf8Len piece - utf8Len front) =
        some (piece, rest) := splitBytes_eq_some.mpr ⟨rfl, by omega⟩
    rw [if_pos (by omega), outer]
    simp only [bind_some, inner, map_some]

/-- What the splitter uses of Unicode: `str::to_lowercase` and `char::is_uppercase`. -/
structure UnicodeCase where
  toLowercase : List Char → List Char
  isUppercase : Char → Bool
  nil : toLowercase [] = []
  ascii : ∀ char : Char, char.utf8Size = 1 → toLowercase [char] = [char.toLower]

section Splitter

variable (unicode : UnicodeCase)

def replaceChar (old : Char) (new : String) (text : List Char) : List Char :=
  text.flatMap fun char => if char = old then new.toList else [char]

def normalizeUmlauts (input : List Char) : List Char :=
  replaceChar 'ß' "ss" (replaceChar 'ü' "ue" (replaceChar 'ö' "oe"
    (replaceChar 'ä' "ae" (unicode.toLowercase input))))

structure GermanCompoundSplitter where
  minComponentLen : Nat
  trie : List (List Char)

/-- `INTERFIXES`, the linking elements. -/
def interfixes : List (List Char) :=
  ["en".toList, "er".toList, "es".toList, "e".toList, "n".toList, "s".toList]

variable (splitter : GermanCompoundSplitter)

def isValidComponent (sub : List Char) (isLast : Bool) : Bool :=
  let normSub := normalizeUmlauts unicode sub
  if utf8Len normSub < 2 then false
  else if normSub ∈ splitter.trie then true
  else if !isLast then
    interfixes.any fun fuge =>
      fuge.isSuffixOf normSub && utf8Len fuge < utf8Len normSub &&
        match splitBytes normSub (utf8Len normSub - utf8Len fuge) with
        | some (normStem, _) => 2 ≤ utf8Len normStem && normStem ∈ splitter.trie
        | none => false
  else false

/-- The number of characters between two boundaries of the token that enclose a component. -/
def componentAt (token : List Char) (start stop : Nat) : Option Nat :=
  match sliceAt token start stop with
  | some sub =>
    if isValidComponent unicode splitter sub (stop = utf8Len token) then some sub.length else none
  | none => none

/-- The way back from a position, for as many segments as there is fuel. -/
def backtrack (table : PathTable) (token : List Char) :
    Nat → Nat → List (List Char) → List (List Char)
  | 0, _, path => path
  | fuel + 1, curr, path =>
    if curr = 0 then path
    else
      match table curr with
      | some node =>
        match sliceAt token node.prev curr with
        | some piece => backtrack table token fuel node.prev (piece :: path)
        | none => path
      | none => path

def decompose (token : List Char) : List (List Char) :=
  if token.any unicode.isUppercase ∨ utf8Len token ≤ splitter.minComponentLen ∨
      128 < utf8Len token then [token]
  else
    let size := utf8Len token
    let table := pathTable (componentAt unicode splitter token) size
    match table size with
    | some target =>
      if 2 ≤ target.segmentCount then backtrack table token size size [] else [token]
    | none => [token]

end Splitter

end Contextra.Text
