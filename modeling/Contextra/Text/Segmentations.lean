import Contextra.Text.CompoundSplitter

/-!
# The splitter finds the best segmentation

A segmentation of a token is a list of components that make it up, the last of them accepted
without a linking element.  The segmentations are the ways of the dynamic program, and the way
back from the end of the token is a segmentation that no other is better than.
-/

namespace Contextra.Text

open List

section Segmentations

variable (unicode : UnicodeCase) (splitter : GermanCompoundSplitter)

/-- The components make up the token, and each is accepted where it stands. -/
def IsSegmentation (token : List Char) (parts : List (List Char)) : Prop :=
  parts.flatten = token ∧ ∃ init last, parts = init ++ [last] ∧
    (∀ part ∈ init, isValidComponent unicode splitter part false = true) ∧
    isValidComponent unicode splitter last true = true

/-- No component of the second list is shorter than the shortest of the first. -/
def ShortestAtMost (parts others : List (List Char)) : Prop :=
  ∃ part ∈ parts, ∀ other ∈ others, part.length ≤ other.length

end Segmentations

def shortestLen (parts : List (List Char)) : Nat :=
  parts.foldl (fun shortest part => min shortest part.length) usizeMax

@[simp] theorem shortestLen_append (parts : List (List Char)) (part : List Char) :
    shortestLen (parts ++ [part]) = min (shortestLen parts) part.length := by
  rw [shortestLen, foldl_append]
  rfl

theorem shortestLen_le {parts : List (List Char)} {part : List Char} (mem : part ∈ parts) :
    shortestLen parts ≤ part.length := by
  induction parts using reverseRecOn with
  | nil => cases mem
  | append_singleton parts last ih =>
    rw [shortestLen_append]
    rcases mem_append.mp mem with inside | isLast
    · exact (min_le_left _ _).trans (ih inside)
    · obtain rfl := mem_singleton.mp isLast
      exact min_le_right _ _

theorem shortestLen_attained (parts : List (List Char)) :
    shortestLen parts = usizeMax ∨ ∃ part ∈ parts, part.length = shortestLen parts := by
  induction parts using reverseRecOn with
  | nil => exact Or.inl rfl
  | append_singleton parts last ih =>
    rw [shortestLen_append]
    rcases le_total (shortestLen parts) last.length with left | right
    · rw [min_eq_left left]
      rcases ih with largest | ⟨part, mem, attained⟩
      · exact Or.inl largest
      · exact Or.inr ⟨part, mem_append_left _ mem, attained⟩
    · rw [min_eq_right right]
      exact Or.inr ⟨last, mem_append_right _ (mem_singleton_self _), rfl⟩

theorem utf8Len_le_of_mem {part : List Char} {parts : List (List Char)}
    (mem : part ∈ parts) : utf8Len part ≤ utf8Len parts.flatten := by
  obtain ⟨front, rest, rfl⟩ := append_of_mem mem
  rw [flatten_append, flatten_cons, utf8Len_append, utf8Len_append]
  omega

theorem shortestAtMost_of_le {parts others : List (List Char)} (nonempty : parts ≠ [])
    (short : utf8Len parts.flatten < usizeMax) (le : shortestLen parts ≤ shortestLen others) :
    ShortestAtMost parts others := by
  have attained : ∃ part ∈ parts, part.length = shortestLen parts := by
    rcases shortestLen_attained parts with largest | attained
    · obtain ⟨part, mem⟩ := exists_mem_of_ne_nil parts nonempty
      have lower := shortestLen_le mem
      have upper := (length_le_utf8Len part).trans (utf8Len_le_of_mem mem)
      omega
    · exact attained
  obtain ⟨part, mem, same⟩ := attained
  refine ⟨part, mem, fun other inside => ?_⟩
  rw [same]
  exact le.trans (shortestLen_le inside)

section Splitter

variable {unicode : UnicodeCase} {splitter : GermanCompoundSplitter}

theorem replaceChar_singleton {old char : Char} {new : String} (other : char ≠ old) :
    replaceChar old new [char] = [char] := by
  rw [replaceChar, flatMap_singleton, if_neg other]

theorem toLower_ascii {char : Char} (single : char.utf8Size = 1) :
    char.toLower.utf8Size = 1 ∧ char.toLower ≠ 'ä' ∧ char.toLower ≠ 'ö' ∧ char.toLower ≠ 'ü' ∧
      char.toLower ≠ 'ß' := by
  have table : ∀ code : Fin 128, (Char.ofNat code).toLower.utf8Size = 1 ∧
      (Char.ofNat code).toLower ≠ 'ä' ∧ (Char.ofNat code).toLower ≠ 'ö' ∧
      (Char.ofNat code).toLower ≠ 'ü' ∧ (Char.ofNat code).toLower ≠ 'ß' := by decide +kernel
  have small : char.toNat < 128 := by
    rw [Char.utf8Size_eq_one_iff, UInt32.le_iff_toNat_le] at single
    exact Nat.lt_succ_of_le single
  have row := table ⟨char.toNat, small⟩
  rw [Char.ofNat_toNat] at row
  exact row

theorem two_le_utf8Len {sub : List Char} {isLast : Bool}
    (valid : isValidComponent unicode splitter sub isLast = true) : 2 ≤ utf8Len sub := by
  by_contra short
  have oneByte : utf8Len (normalizeUmlauts unicode sub) < 2 := by
    cases sub with
    | nil =>
      rw [normalizeUmlauts, unicode.nil]
      exact Nat.zero_lt_two
    | cons char sub =>
      have positive := char.utf8Size_pos
      rw [utf8Len_cons] at short
      have empty : sub = [] := by
        by_contra nonempty
        have := utf8Len_pos nonempty
        omega
      subst empty
      have single : char.utf8Size = 1 := by
        rw [utf8Len_nil] at short
        omega
      obtain ⟨size, notA, notO, notU, notS⟩ := toLower_ascii single
      rw [normalizeUmlauts, unicode.ascii char single, replaceChar_singleton notA,
        replaceChar_singleton notO, replaceChar_singleton notU, replaceChar_singleton notS,
        utf8Len_cons, utf8Len_nil, size]
      exact Nat.one_lt_two
  rw [isValidComponent, if_pos oneByte] at valid
  cases valid

variable {token : List Char}

theorem componentAt_eq_some {start stop length : Nat} :
    componentAt unicode splitter token start stop = some length ↔
      ∃ sub, sliceAt token start stop = some sub ∧
        isValidComponent unicode splitter sub (stop = utf8Len token) = true ∧
        sub.length = length := by
  unfold componentAt
  cases sliceAt token start stop with
  | none =>
    constructor
    · intro impossible
      cases impossible
    · rintro ⟨sub, impossible, -⟩
      cases impossible
  | some sub =>
    by_cases valid : isValidComponent unicode splitter sub (stop = utf8Len token) = true
    · simp only [valid, if_true, Option.some.injEq]
      constructor
      · exact fun same => ⟨sub, rfl, valid, same⟩
      · rintro ⟨other, rfl, -, same⟩
        exact same
    · simp only [valid]
      constructor
      · intro impossible
        cases impossible
      · rintro ⟨other, same, accepted, -⟩
        obtain rfl := Option.some.inj same
        exact absurd accepted valid

theorem fits_componentAt (token : List Char) :
    Fits (componentAt unicode splitter token) (utf8Len token) := by
  intro position target length accepted
  obtain ⟨sub, isSlice, valid, -⟩ := componentAt_eq_some.mp accepted
  obtain ⟨-, front, rest, same, rfl, rfl⟩ := sliceAt_eq_some.mp isSlice
  have bytes := congrArg utf8Len same
  rw [utf8Len_append, utf8Len_append] at bytes
  have := two_le_utf8Len valid
  omega

theorem componentAt_behind {front part rest : List Char}
    (valid : isValidComponent unicode splitter part (decide (rest = [])) = true) :
    componentAt unicode splitter (front ++ part ++ rest) (utf8Len front) (utf8Len (front ++ part)) =
      some part.length := by
  have nonempty : part ≠ [] := by
    rintro rfl
    have := two_le_utf8Len valid
    rw [utf8Len_nil] at this
    omega
  have atEnd : utf8Len (front ++ part) = utf8Len (front ++ part ++ rest) ↔ rest = [] := by
    rw [utf8Len_append (front ++ part)]
    constructor
    · intro same
      by_contra remaining
      have := utf8Len_pos remaining
      omega
    · rintro rfl
      rfl
  refine componentAt_eq_some.mpr ⟨part, sliceAt_eq_some.mpr
    ⟨nonempty, front, rest, rfl, rfl, (utf8Len_append ..).symm⟩, ?_, rfl⟩
  simp only [atEnd]
  exact valid

variable {parts : List (List Char)}

theorem way_of_parts {token rest : List Char}
    (valid : ∀ part ∈ parts, isValidComponent unicode splitter part false = true)
    (remaining : rest ≠ []) (same : token = parts.flatten ++ rest) :
    Way (componentAt unicode splitter token) (utf8Len parts.flatten) parts.length
      (shortestLen parts) := by
  induction parts using reverseRecOn generalizing rest with
  | nil => exact Way.start
  | append_singleton parts part ih =>
    have isValid := valid part (mem_append_right _ (mem_singleton_self _))
    have flat : (parts ++ [part]).flatten = parts.flatten ++ part := by
      rw [flatten_append, flatten_singleton]
    rw [flat] at same ⊢
    rw [shortestLen_append, length_append]
    have before : Way (componentAt unicode splitter token) (utf8Len parts.flatten) parts.length
        (shortestLen parts) :=
      ih (fun part inside => valid part (mem_append_left _ inside))
        (append_ne_nil_of_right_ne_nil part remaining)
        (same.trans (append_assoc ..))
    refine before.extend ?_
    rw [same]
    refine componentAt_behind ?_
    rw [decide_eq_false remaining]
    exact isValid

theorem IsSegmentation.way (segmentation : IsSegmentation unicode splitter token parts) :
    Way (componentAt unicode splitter token) (utf8Len token) parts.length (shortestLen parts) := by
  obtain ⟨rfl, init, last, rfl, valid, validLast⟩ := segmentation
  have flat : (init ++ [last]).flatten = init.flatten ++ last := by
    rw [flatten_append, flatten_singleton]
  have nonempty : last ≠ [] := by
    rintro rfl
    have := two_le_utf8Len validLast
    rw [utf8Len_nil] at this
    omega
  rw [shortestLen_append, length_append, flat]
  refine (way_of_parts valid nonempty rfl).extend ?_
  have isLast := @componentAt_behind unicode splitter init.flatten last [] validLast
  rw [append_nil] at isLast
  exact isLast

/-- The pieces that lead to a position are accepted, the last of them as the end of the token where
it is. -/
def Accepted (unicode : UnicodeCase) (splitter : GermanCompoundSplitter) (atEnd : Bool)
    (pieces : List (List Char)) : Prop :=
  ∀ init last, pieces = init ++ [last] →
    (∀ part ∈ init, isValidComponent unicode splitter part false = true) ∧
    isValidComponent unicode splitter last atEnd = true

theorem Accepted.all {pieces : List (List Char)} (accepted : Accepted unicode splitter false pieces) :
    ∀ part ∈ pieces, isValidComponent unicode splitter part false = true := by
  intro part mem
  obtain ⟨init, last, rfl⟩ := (eq_nil_or_concat' pieces).resolve_left
    (ne_nil_of_mem mem)
  obtain ⟨valid, validLast⟩ := accepted init last rfl
  rcases mem_append.mp mem with inside | isLast
  · exact valid part inside
  · obtain rfl := mem_singleton.mp isLast
    exact validLast

theorem Accepted.snoc {pieces : List (List Char)} {piece : List Char} {atEnd : Bool}
    (accepted : Accepted unicode splitter false pieces)
    (valid : isValidComponent unicode splitter piece atEnd = true) :
    Accepted unicode splitter atEnd (pieces ++ [piece]) := by
  intro init last same
  obtain ⟨rfl, rfl⟩ := append_singleton_inj.mp same
  exact ⟨accepted.all, valid⟩

theorem backtrack_spec {table : PathTable}
    (scanned : Scanned (componentAt unicode splitter token) (utf8Len token) table)
    {fuel curr : Nat} {node : PathNode} (enough : curr ≤ fuel) (within : curr ≤ utf8Len token)
    (isNode : table curr = some node) (path : List (List Char)) :
    ∃ pieces rest, backtrack table token fuel curr path = pieces ++ path ∧
      token = pieces.flatten ++ rest ∧ utf8Len pieces.flatten = curr ∧
      pieces.length = node.segmentCount ∧ shortestLen pieces = node.minSegmentLen ∧
      Accepted unicode splitter (decide (curr = utf8Len token)) pieces := by
  induction fuel generalizing curr node path with
  | zero =>
    obtain rfl := Nat.le_zero.mp enough
    rw [scanned.start] at isNode
    obtain rfl := Option.some.inj isNode
    refine ⟨[], token, rfl, rfl, rfl, rfl, rfl, fun init last impossible => ?_⟩
    exact absurd impossible.symm (append_ne_nil_of_right_ne_nil _ (cons_ne_nil _ _))
  | succ fuel ih =>
    by_cases atStart : curr = 0
    · subst atStart
      rw [scanned.start] at isNode
      obtain rfl := Option.some.inj isNode
      refine ⟨[], token, rfl, rfl, rfl, rfl, rfl, fun init last impossible => ?_⟩
      exact absurd impossible.symm (append_ne_nil_of_right_ne_nil _ (cons_ne_nil _ _))
    · obtain ⟨-, earlier, before, length, isBefore, accepted, same⟩ :=
        scanned.derived curr node isNode atStart
      obtain ⟨sub, isSlice, valid, rfl⟩ := componentAt_eq_some.mp accepted
      obtain ⟨pieces, rest, walked, split, bytes, count, shortest, isAccepted⟩ :=
        ih (by omega) (by omega) isBefore (sub :: path)
      obtain ⟨-, front, tail, split', frontBytes, total⟩ := sliceAt_eq_some.mp isSlice
      -- both ways to cut the token at the previous position are the same
      have cut : splitBytes token node.prev = some (pieces.flatten, rest) :=
        splitBytes_eq_some.mpr ⟨split, bytes⟩
      rw [splitBytes_eq_some.mpr ⟨split'.trans (append_assoc ..), frontBytes⟩] at cut
      obtain ⟨rfl, rfl⟩ := Prod.mk.inj (Option.some.inj cut)
      have notLast : decide (node.prev = utf8Len token) = false :=
        decide_eq_false (by omega)
      rw [notLast] at isAccepted
      refine ⟨pieces ++ [sub], tail, ?_, ?_, ?_, ?_, ?_, isAccepted.snoc valid⟩
      · rw [backtrack, if_neg atStart, isNode]
        simp only [isSlice]
        rw [walked, append_assoc]
        rfl
      · rw [flatten_append, flatten_singleton]
        exact split'
      · rw [flatten_append, flatten_singleton, utf8Len_append]
        exact total
      · rw [length_append, count, same]
        rfl
      · rw [shortestLen_append, shortest, same]
        rfl

theorem backtrack_best {target : PathNode} (positive : 0 < utf8Len token)
    (isTarget : pathTable (componentAt unicode splitter token) (utf8Len token) (utf8Len token) =
      some target) :
    ∃ pieces, backtrack (pathTable (componentAt unicode splitter token) (utf8Len token)) token
        (utf8Len token) (utf8Len token) [] = pieces ∧
      IsSegmentation unicode splitter token pieces ∧ pieces.length = target.segmentCount ∧
      shortestLen pieces = target.minSegmentLen := by
  obtain ⟨pieces, rest, walked, split, bytes, count, shortest, accepted⟩ :=
    backtrack_spec (scanned_pathTable (fits_componentAt token)) le_rfl le_rfl isTarget []
  rw [append_nil] at walked
  have whole : pieces.flatten = token := by
    have total := congrArg utf8Len split
    rw [utf8Len_append, bytes] at total
    have empty : rest = [] := by
      by_contra remaining
      have := utf8Len_pos remaining
      omega
    rw [split, empty, append_nil]
  obtain ⟨init, last, rfl⟩ := (eq_nil_or_concat' pieces).resolve_left <| by
    rintro rfl
    rw [← whole] at positive
    exact Nat.lt_irrefl 0 positive
  obtain ⟨valid, validLast⟩ := accepted init last rfl
  rw [decide_eq_true rfl] at validLast
  exact ⟨_, walked, ⟨whole, init, last, rfl, valid, validLast⟩, count, shortest⟩

theorem atLeast_of_segmentation (segmentation : IsSegmentation unicode splitter token parts) :
    ∃ target, pathTable (componentAt unicode splitter token) (utf8Len token) (utf8Len token) =
        some target ∧ target.AtLeast parts.length (shortestLen parts) :=
  (scanned_pathTable (fits_componentAt token)).way (fits_componentAt token) segmentation.way

/-- A lowercase token longer than the minimum and of at most 128 bytes. -/
def Splittable (unicode : UnicodeCase) (splitter : GermanCompoundSplitter) (token : List Char) :
    Prop :=
  token.any unicode.isUppercase = false ∧ splitter.minComponentLen < utf8Len token ∧
    utf8Len token ≤ 128

theorem decompose_eq (splittable : Splittable unicode splitter token) :
    decompose unicode splitter token =
      match pathTable (componentAt unicode splitter token) (utf8Len token) (utf8Len token) with
      | some target =>
        if 2 ≤ target.segmentCount then
          backtrack (pathTable (componentAt unicode splitter token) (utf8Len token)) token
            (utf8Len token) (utf8Len token) []
        else [token]
      | none => [token] := by
  obtain ⟨lowercase, long, short⟩ := splittable
  have inBounds : ¬ (token.any unicode.isUppercase = true ∨
      utf8Len token ≤ splitter.minComponentLen ∨ 128 < utf8Len token) := by
    rintro (upper | tooShort | tooLong)
    · rw [lowercase] at upper
      cases upper
    · omega
    · omega
  rw [decompose]
  exact if_neg inBounds

theorem decompose_cases (splittable : Splittable unicode splitter token) :
    (decompose unicode splitter token = [token] ∧
      ∀ target, pathTable (componentAt unicode splitter token) (utf8Len token) (utf8Len token) =
        some target → target.segmentCount < 2) ∨
    ∃ target, pathTable (componentAt unicode splitter token) (utf8Len token) (utf8Len token) =
        some target ∧ 2 ≤ target.segmentCount ∧
      IsSegmentation unicode splitter token (decompose unicode splitter token) ∧
      (decompose unicode splitter token).length = target.segmentCount ∧
      shortestLen (decompose unicode splitter token) = target.minSegmentLen := by
  have positive : 0 < utf8Len token := Nat.zero_lt_of_lt splittable.2.1
  rw [decompose_eq splittable]
  cases isTarget : pathTable (componentAt unicode splitter token) (utf8Len token)
      (utf8Len token) with
  | none => exact Or.inl ⟨rfl, fun target impossible => by cases impossible⟩
  | some target =>
    by_cases several : 2 ≤ target.segmentCount
    · dsimp only
      rw [if_pos several]
      obtain ⟨pieces, walked, rest⟩ := backtrack_best positive isTarget
      rw [walked]
      exact Or.inr ⟨target, rfl, several, rest⟩
    · dsimp only
      rw [if_neg several]
      refine Or.inl ⟨rfl, fun other same => ?_⟩
      obtain rfl := Option.some.inj same
      exact Nat.lt_of_not_le several

/-- A token is left alone when no segmentation into several components has fewer segments than every
reading as one, and is split into a best segmentation otherwise. -/
theorem decompose_optimal {token : List Char} (splittable : Splittable unicode splitter token) :
    (decompose unicode splitter token = [token] ↔
      ¬ ∃ parts, IsSegmentation unicode splitter token parts ∧ 2 ≤ parts.length ∧
        ∀ whole, IsSegmentation unicode splitter token whole → whole.length = 1 →
          parts.length < whole.length) ∧
    (decompose unicode splitter token ≠ [token] →
      IsSegmentation unicode splitter token (decompose unicode splitter token) ∧
      ∀ parts, IsSegmentation unicode splitter token parts →
        (decompose unicode splitter token).length < parts.length ∨
        (decompose unicode splitter token).length = parts.length ∧
          ShortestAtMost parts (decompose unicode splitter token)) := by
  have positive : 0 < utf8Len token := Nat.zero_lt_of_lt splittable.2.1
  rcases decompose_cases splittable with ⟨alone, fewer⟩ |
    ⟨target, isTarget, several, segmentation, count, shortest⟩
  · refine ⟨⟨fun _ => ?_, fun _ => alone⟩, fun split => absurd alone split⟩
    rintro ⟨parts, segmentation, two, beatsWhole⟩
    obtain ⟨target, isTarget, -⟩ := atLeast_of_segmentation segmentation
    obtain ⟨pieces, -, isWhole, count, -⟩ := backtrack_best positive isTarget
    have few := fewer target isTarget
    have single : pieces.length = 1 := by
      obtain ⟨-, init, last, rfl, -⟩ := isWhole
      rw [length_append, length_singleton] at count ⊢
      omega
    have := beatsWhole pieces isWhole single
    omega
  · have best (parts : List (List Char)) (isParts : IsSegmentation unicode splitter token parts) :
        target.AtLeast parts.length (shortestLen parts) := by
      obtain ⟨other, isOther, better⟩ := atLeast_of_segmentation isParts
      rw [isTarget] at isOther
      obtain rfl := Option.some.inj isOther
      exact better
    have split : decompose unicode splitter token ≠ [token] := by
      intro alone
      rw [alone, length_singleton] at count
      omega
    have beatsWhole (whole : List (List Char))
        (isWhole : IsSegmentation unicode splitter token whole) (single : whole.length = 1) :
        (decompose unicode splitter token).length < whole.length := by
      have := best whole isWhole
      unfold PathNode.AtLeast at this
      omega
    refine ⟨⟨fun alone => absurd alone split, fun noBetter => ?_⟩,
      fun _ => ⟨segmentation, fun parts isParts => ?_⟩⟩
    · exact absurd ⟨_, segmentation, count ▸ several, beatsWhole⟩ noBetter
    · rcases best parts isParts with fewer | ⟨same, atMost⟩
      · exact Or.inl (count ▸ fewer)
      · refine Or.inr ⟨count.trans same, shortestAtMost_of_le ?_ ?_ (shortest ▸ atMost)⟩
        · obtain ⟨-, init, last, rfl, -⟩ := isParts
          exact append_ne_nil_of_right_ne_nil _ (cons_ne_nil _ _)
        · rw [isParts.1]
          exact lt_of_le_of_lt splittable.2.2 (by decide)

end Splitter

def asciiCase : UnicodeCase where
  toLowercase := List.map Char.toLower
  isUppercase := Char.isUpper
  nil := rfl
  ascii := fun _ _ => rfl

theorem decompose_optimal_arbeitstag :
    decompose asciiCase ⟨3, ["arbeit".toList, "tag".toList]⟩ "arbeitstag".toList =
        ["arbeits".toList, "tag".toList] ∧
      IsSegmentation asciiCase ⟨3, ["arbeit".toList, "tag".toList]⟩ "arbeitstag".toList
        ["arbeits".toList, "tag".toList] := by
  have split : decompose asciiCase ⟨3, ["arbeit".toList, "tag".toList]⟩ "arbeitstag".toList =
      ["arbeits".toList, "tag".toList] := by decide +kernel
  have optimal := @decompose_optimal asciiCase ⟨3, ["arbeit".toList, "tag".toList]⟩
    "arbeitstag".toList ⟨by decide +kernel, by decide +kernel, by decide +kernel⟩
  rw [split] at optimal
  exact ⟨split, (optimal.2 (by decide)).1⟩

end Contextra.Text
