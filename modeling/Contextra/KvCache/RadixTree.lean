import Mathlib

/-!
# Prefix trees over tokens

A compressed trie: siblings share no first token.  A removed sequence leaves its node without a
block.
-/

namespace Contextra.KvCache

open List Option

variable {α : Type*} [DecidableEq α]

/-- The siblings of a level, each a node with its path, its block and its children. -/
inductive RadixNodes (α : Type*) where
  | nil
  | node (tokens : List α) (blockId : Option Nat) (children rest : RadixNodes α)

def lcpLen : List α → List α → Nat
  | first :: a, other :: b => if first = other then lcpLen a b + 1 else 0
  | _, _ => 0

inductive KvReusePolicy where
  | always
  | costBased (minPrefixLen : Nat)
  | never
  deriving DecidableEq

def KvReusePolicy.shouldReuse (matchedLen : Nat) : KvReusePolicy → Bool
  | always => 0 < matchedLen
  | costBased minPrefixLen => minPrefixLen ≤ matchedLen
  | never => false

structure PrefixMatch (α : Type*) where
  matchedTokens : List α
  matchedLen : Nat
  blockId : Nat

namespace RadixNodes

def insertIntoVec (blockId : Nat) : RadixNodes α → List α → RadixNodes α
  | nil, tokens => node tokens (some blockId) nil nil
  | node path value children rest, tokens =>
    let lcp := lcpLen path tokens
    if lcp = 0 then node path value children (insertIntoVec blockId rest tokens)
    else if lcp = path.length then
      if tokens.drop lcp = [] then node path (some blockId) children rest
      else node path value (insertIntoVec blockId children (tokens.drop lcp)) rest
    else
      -- The node is split where the two paths part.
      if tokens.drop lcp = [] then
        node (path.take lcp) (some blockId) (node (path.drop lcp) value children nil) rest
      else
        node (path.take lcp) none (node (path.drop lcp) value children
          (node (tokens.drop lcp) (some blockId) nil nil)) rest

/-- What `insert_into_vec` adds to `total_entries`. -/
def entriesAdded : RadixNodes α → List α → Nat
  | nil, _ => 1
  | node path value children rest, tokens =>
    let lcp := lcpLen path tokens
    if lcp = 0 then entriesAdded rest tokens
    else if lcp = path.length then
      if tokens.drop lcp = [] then if value.isNone then 1 else 0
      else entriesAdded children (tokens.drop lcp)
    else 1

def removeFromVec : RadixNodes α → List α → Option Nat × RadixNodes α
  | nil, _ => (none, nil)
  | node path value children rest, tokens =>
    let lcp := lcpLen path tokens
    if lcp = path.length then
      if tokens.drop lcp = [] then (value, node path none children rest)
      else
        let (removed, children) := removeFromVec children (tokens.drop lcp)
        (removed, node path value children rest)
    else
      let (removed, rest) := removeFromVec rest tokens
      (removed, node path value children rest)

/-- The loop of `find_longest_prefix`. -/
def findFrom (policy : KvReusePolicy) :
    RadixNodes α → List α → List α → Option (PrefixMatch α) → Option (PrefixMatch α)
  | nil, _, _, best => best
  | node path value children rest, remaining, accumulated, best =>
    if remaining = [] then best
    else
      let lcp := lcpLen path remaining
      if lcp = 0 then findFrom policy rest remaining accumulated best
      else
        let accumulated := accumulated ++ path.take lcp
        if lcp = path.length then
          let best :=
            match value with
            | some blockId =>
              if policy.shouldReuse accumulated.length then
                some ⟨accumulated, accumulated.length, blockId⟩
              else best
            | none => best
          findFrom policy children (remaining.drop lcp) accumulated best
        else best

def findLongestPrefix (tree : RadixNodes α) (tokens : List α) (policy : KvReusePolicy) :
    Option (PrefixMatch α) :=
  if tokens = [] ∨ policy = .never then none else findFrom policy tree tokens [] none

def get : RadixNodes α → List α → Option Nat
  | nil, _ => none
  | node path value children rest, tokens =>
    if path <+: tokens then
      if tokens.drop path.length = [] then value else get children (tokens.drop path.length)
    else get rest tokens

/-- The first tokens of the paths of a level. -/
def heads : RadixNodes α → List (Option α)
  | nil => []
  | node path _ _ rest => path.head? :: heads rest

/-- Paths are not empty, and siblings differ in their first tokens. -/
def WellFormed : RadixNodes α → Prop
  | nil => True
  | node path _ children rest =>
    path ≠ [] ∧ path.head? ∉ heads rest ∧ WellFormed children ∧ WellFormed rest

end RadixNodes

section Lcp

variable {path tokens : List α}

theorem lcpLen_eq_zero (notEmpty : path ≠ []) (hasTokens : tokens ≠ []) :
    lcpLen path tokens = 0 ↔ path.head? ≠ tokens.head? := by
  cases path with
  | nil => exact absurd rfl notEmpty
  | cons first path =>
    cases tokens with
    | nil => exact absurd rfl hasTokens
    | cons other tokens =>
      by_cases same : first = other
      · simp [lcpLen, same]
      · simp [lcpLen, same]

theorem lcpLen_eq_length : lcpLen path tokens = path.length ↔ path <+: tokens := by
  induction path generalizing tokens with
  | nil => simp [lcpLen]
  | cons first path ih =>
    cases tokens with
    | nil => simp [lcpLen]
    | cons other tokens =>
      by_cases same : first = other
      · simp [lcpLen, same, ih]
      · simp [lcpLen, same]

theorem lcpLen_split (path tokens : List α) :
    ∃ shared pathTail tokensTail, path = shared ++ pathTail ∧ tokens = shared ++ tokensTail ∧
      shared.length = lcpLen path tokens ∧
      (pathTail ≠ [] → tokensTail ≠ [] → pathTail.head? ≠ tokensTail.head?) := by
  induction path generalizing tokens with
  | nil => exact ⟨[], [], tokens, rfl, rfl, rfl, fun absent => absurd rfl absent⟩
  | cons first path ih =>
    cases tokens with
    | nil => exact ⟨[], first :: path, [], rfl, rfl, rfl, fun _ absent => absurd rfl absent⟩
    | cons other tokens =>
      by_cases same : first = other
      · subst same
        obtain ⟨shared, pathTail, tokensTail, rfl, rfl, length, apart⟩ :=
          ih tokens
        refine ⟨first :: shared, pathTail, tokensTail, rfl, rfl, ?_, apart⟩
        simp [lcpLen, length]
      · refine ⟨[], first :: path, other :: tokens, rfl, rfl, ?_, fun _ _ => ?_⟩
        · simp [lcpLen, same]
        · simpa using same

end Lcp

namespace RadixNodes

variable {nodes children rest : RadixNodes α} {path tokens query : List α} {blockId : Nat}
  {value : Option Nat}

theorem get_append (tail : List α) :
    (node path value children rest).get (path ++ tail) =
      if tail = [] then value else children.get tail := by
  rw [get, if_pos (prefix_append path tail), drop_left]

theorem get_of_elsewhere (notPrefix : ¬ path <+: query) :
    (node path value children rest).get query = rest.get query := by
  rw [get, if_neg notPrefix]

theorem get_eq_none_of_head (wellFormed : nodes.WellFormed) (other : query.head? ∉ nodes.heads) :
    nodes.get query = none := by
  induction nodes with
  | nil => rfl
  | node path value children rest _ ih =>
    obtain ⟨notEmpty, -, -, restWellFormed⟩ := wellFormed
    simp only [heads, mem_cons, not_or] at other
    rw [get_of_elsewhere, ih restWellFormed other.2]
    rintro ⟨tail, rfl⟩
    apply other.1
    rw [head?_append_of_ne_nil _ notEmpty]

theorem insertIntoVec_apart (apart : lcpLen path tokens = 0) :
    (node path value children rest).insertIntoVec blockId tokens =
      node path value children (rest.insertIntoVec blockId tokens) := by
  rw [insertIntoVec]
  exact if_pos apart

theorem insertIntoVec_below (notEmpty : path ≠ []) (tail : List α) :
    (node path value children rest).insertIntoVec blockId (path ++ tail) =
      if tail = [] then node path (some blockId) children rest
      else node path value (children.insertIntoVec blockId tail) rest := by
  have lcp : lcpLen path (path ++ tail) = path.length :=
    lcpLen_eq_length.mpr (prefix_append path tail)
  have positive : path.length ≠ 0 := fun empty => notEmpty (length_eq_zero_iff.mp empty)
  rw [insertIntoVec, lcp, if_neg positive, if_pos rfl, drop_left]

theorem insertIntoVec_split {shared pathTail tokensTail : List α}
    (lcp : shared.length = lcpLen (shared ++ pathTail) (shared ++ tokensTail))
    (hasShared : shared ≠ []) (hasTail : pathTail ≠ []) :
    (node (shared ++ pathTail) value children rest).insertIntoVec blockId (shared ++ tokensTail) =
      if tokensTail = [] then
        node shared (some blockId) (node pathTail value children nil) rest
      else
        node shared none (node pathTail value children
          (node tokensTail (some blockId) nil nil)) rest := by
  have positive : shared.length ≠ 0 := fun empty => hasShared (length_eq_zero_iff.mp empty)
  have shorter : shared.length ≠ (shared ++ pathTail).length := by
    have tailPositive := length_pos_of_ne_nil hasTail
    rw [length_append]
    omega
  rw [insertIntoVec, ← lcp, if_neg positive, if_neg shorter, drop_left, drop_left,
    take_left]

theorem heads_insertIntoVec (wellFormed : nodes.WellFormed) {first : Option α}
    (isHead : first ∈ (nodes.insertIntoVec blockId tokens).heads) :
    first ∈ nodes.heads ∨ first = tokens.head? := by
  induction nodes with
  | nil => exact .inr (mem_singleton.mp isHead)
  | node path value children rest _ ih =>
    obtain ⟨notEmpty, -, -, restWellFormed⟩ := wellFormed
    by_cases apart : lcpLen path tokens = 0
    · rw [insertIntoVec_apart apart] at isHead
      rcases mem_cons.mp isHead with isFirst | inRest
      · exact .inl (isFirst ▸ mem_cons_self)
      · rcases ih restWellFormed inRest with old | new
        · exact .inl (mem_cons_of_mem _ old)
        · exact .inr new
    · obtain ⟨shared, pathTail, tokensTail, rfl, rfl, lcp, -⟩ := lcpLen_split path tokens
      have hasShared : shared ≠ [] := by
        rintro rfl
        exact apart lcp.symm
      by_cases hasTail : pathTail = []
      · subst hasTail
        rw [append_nil, insertIntoVec_below hasShared] at isHead
        rw [append_nil]
        split at isHead
        · exact .inl isHead
        · exact .inl isHead
      · rw [insertIntoVec_split lcp hasShared hasTail] at isHead
        have sameHead : (shared ++ pathTail).head? = shared.head? :=
          head?_append_of_ne_nil shared hasShared
        rw [heads, sameHead]
        split at isHead
        · exact .inl isHead
        · exact .inl isHead

theorem WellFormed.insertIntoVec (wellFormed : nodes.WellFormed) (hasTokens : tokens ≠ []) :
    (nodes.insertIntoVec blockId tokens).WellFormed := by
  induction nodes generalizing tokens with
  | nil => exact ⟨hasTokens, not_mem_nil, trivial, trivial⟩
  | node path value children rest childrenHypothesis restHypothesis =>
    obtain ⟨notEmpty, isAlone, childrenWellFormed, restWellFormed⟩ := wellFormed
    by_cases apart : lcpLen path tokens = 0
    · rw [insertIntoVec_apart apart]
      refine ⟨notEmpty, fun isHead => ?_, childrenWellFormed,
        restHypothesis restWellFormed hasTokens⟩
      rcases heads_insertIntoVec restWellFormed isHead with old | new
      · exact isAlone old
      · exact (lcpLen_eq_zero notEmpty hasTokens).mp apart new
    · obtain ⟨shared, pathTail, tokensTail, rfl, rfl, lcp, differ⟩ := lcpLen_split path tokens
      have hasShared : shared ≠ [] := by
        rintro rfl
        exact apart lcp.symm
      by_cases hasTail : pathTail = []
      · subst hasTail
        rw [append_nil] at isAlone
        rw [append_nil, insertIntoVec_below hasShared]
        split
        · exact ⟨hasShared, isAlone, childrenWellFormed, restWellFormed⟩
        · rename_i more
          exact ⟨hasShared, isAlone, childrenHypothesis childrenWellFormed more, restWellFormed⟩
      · rw [insertIntoVec_split lcp hasShared hasTail]
        rw [head?_append_of_ne_nil shared hasShared] at isAlone
        split
        · exact ⟨hasShared, isAlone, ⟨hasTail, not_mem_nil, childrenWellFormed, trivial⟩,
            restWellFormed⟩
        · rename_i more
          refine ⟨hasShared, isAlone, ⟨hasTail, ?_, childrenWellFormed, more, not_mem_nil,
            trivial, trivial⟩, restWellFormed⟩
          exact fun same => differ hasTail more (mem_singleton.mp same)

theorem get_single :
    (node path value nil nil).get query = if query = path then value else none := by
  by_cases isPrefix : path <+: query
  · obtain ⟨tail, rfl⟩ := isPrefix
    rw [get_append]
    by_cases empty : tail = []
    · simp [empty]
    · simp [empty, get]
  · rw [get_of_elsewhere isPrefix]
    by_cases same : query = path
    · exact absurd (same ▸ prefix_rfl) isPrefix
    · rw [if_neg same, get]

theorem get_shared {shared pathTail : List α} (hasShared : shared ≠ [])
    (isAlone : shared.head? ∉ rest.heads) (restWellFormed : rest.WellFormed) (tail : List α) :
    (node (shared ++ pathTail) value children rest).get (shared ++ tail) =
      (node pathTail value children nil).get tail := by
  by_cases isPrefix : pathTail <+: tail
  · obtain ⟨more, rfl⟩ := isPrefix
    rw [← append_assoc, get_append, get_append]
  · have notPrefix : ¬ shared ++ pathTail <+: shared ++ tail :=
      fun longer => isPrefix ((prefix_append_right_inj shared).mp longer)
    rw [get_of_elsewhere notPrefix, get_of_elsewhere isPrefix, get]
    apply get_eq_none_of_head restWellFormed
    rwa [head?_append_of_ne_nil shared hasShared]

theorem get_insertIntoVec (wellFormed : nodes.WellFormed) (hasTokens : tokens ≠ []) :
    (nodes.insertIntoVec blockId tokens).get query =
      if query = tokens then some blockId else nodes.get query := by
  induction nodes generalizing tokens query with
  | nil => exact get_single
  | node path value children rest childrenHypothesis restHypothesis =>
    obtain ⟨notEmpty, isAlone, childrenWellFormed, restWellFormed⟩ := wellFormed
    by_cases apart : lcpLen path tokens = 0
    · have otherHead := (lcpLen_eq_zero notEmpty hasTokens).mp apart
      rw [insertIntoVec_apart apart]
      by_cases isPrefix : path <+: query
      · obtain ⟨tail, rfl⟩ := isPrefix
        have different : path ++ tail ≠ tokens := by
          rintro rfl
          exact otherHead (head?_append_of_ne_nil path notEmpty).symm
        rw [get_append, get_append, if_neg different]
      · rw [get_of_elsewhere isPrefix, get_of_elsewhere isPrefix]
        exact restHypothesis restWellFormed hasTokens
    · obtain ⟨shared, pathTail, tokensTail, rfl, rfl, lcp, differ⟩ := lcpLen_split path tokens
      have hasShared : shared ≠ [] := by
        rintro rfl
        exact apart lcp.symm
      by_cases isPrefix : shared <+: query
      · obtain ⟨tail, rfl⟩ := isPrefix
        simp only [append_cancel_left_eq]
        by_cases hasTail : pathTail = []
        · subst hasTail
          rw [append_nil, insertIntoVec_below hasShared, get_append]
          by_cases ends : tokensTail = []
          · rw [if_pos ends, get_append, ends]
            by_cases atEnd : tail = []
            · rw [if_pos atEnd, if_pos atEnd]
            · rw [if_neg atEnd, if_neg atEnd, if_neg atEnd]
          · rw [if_neg ends, get_append, childrenHypothesis childrenWellFormed ends]
            by_cases atEnd : tail = []
            · rw [if_pos atEnd, if_pos atEnd, if_neg (atEnd ▸ Ne.symm ends)]
            · rw [if_neg atEnd, if_neg atEnd]
        · rw [head?_append_of_ne_nil shared hasShared] at isAlone
          rw [insertIntoVec_split lcp hasShared hasTail,
            get_shared hasShared isAlone restWellFormed]
          by_cases ends : tokensTail = []
          · rw [if_pos ends, get_append, ends]
          · rw [if_neg ends, get_append]
            by_cases below : pathTail <+: tail
            · obtain ⟨more, rfl⟩ := below
              have different : pathTail ++ more ≠ tokensTail := by
                rintro rfl
                exact differ hasTail ends (head?_append_of_ne_nil _ hasTail).symm
              rw [if_neg different, get_append, get_append, if_neg (by simp [hasTail])]
            · rw [get_of_elsewhere below, get_of_elsewhere below, get_single, get]
              by_cases atEnd : tail = []
              · rw [if_pos atEnd, if_neg (atEnd ▸ Ne.symm ends)]
              · rw [if_neg atEnd]
      · have different : query ≠ shared ++ tokensTail := by
          rintro rfl
          exact isPrefix (prefix_append _ _)
        have notBelow : ¬ shared ++ pathTail <+: query :=
          fun longer => isPrefix ((prefix_append _ _).trans longer)
        rw [if_neg different, get_of_elsewhere notBelow]
        by_cases hasTail : pathTail = []
        · subst hasTail
          rw [append_nil, insertIntoVec_below hasShared]
          split
          · exact get_of_elsewhere isPrefix
          · exact get_of_elsewhere isPrefix
        · rw [insertIntoVec_split lcp hasShared hasTail]
          split
          · exact get_of_elsewhere isPrefix
          · exact get_of_elsewhere isPrefix

theorem removeFromVec_below (tail : List α) :
    (node path value children rest).removeFromVec (path ++ tail) =
      if tail = [] then (value, node path none children rest)
      else
        ((children.removeFromVec tail).1,
          node path value (children.removeFromVec tail).2 rest) := by
  have lcp : lcpLen path (path ++ tail) = path.length :=
    lcpLen_eq_length.mpr (prefix_append path tail)
  rw [removeFromVec, lcp, if_pos rfl, drop_left]

theorem removeFromVec_apart (notPrefix : ¬ path <+: tokens) :
    (node path value children rest).removeFromVec tokens =
      ((rest.removeFromVec tokens).1, node path value children (rest.removeFromVec tokens).2) := by
  have lcp : lcpLen path tokens ≠ path.length := fun same => notPrefix (lcpLen_eq_length.mp same)
  rw [removeFromVec, if_neg lcp]

theorem heads_removeFromVec : (nodes.removeFromVec tokens).2.heads = nodes.heads := by
  induction nodes generalizing tokens with
  | nil => rfl
  | node path value children rest _ ih =>
    by_cases isPrefix : path <+: tokens
    · obtain ⟨tail, rfl⟩ := isPrefix
      rw [removeFromVec_below]
      split
      · rfl
      · rfl
    · rw [removeFromVec_apart isPrefix]
      exact congrArg (path.head? :: ·) ih

theorem WellFormed.removeFromVec (wellFormed : nodes.WellFormed) :
    (nodes.removeFromVec tokens).2.WellFormed := by
  induction nodes generalizing tokens with
  | nil => trivial
  | node path value children rest childrenHypothesis restHypothesis =>
    obtain ⟨notEmpty, isAlone, childrenWellFormed, restWellFormed⟩ := wellFormed
    by_cases isPrefix : path <+: tokens
    · obtain ⟨tail, rfl⟩ := isPrefix
      rw [removeFromVec_below]
      split
      · exact ⟨notEmpty, isAlone, childrenWellFormed, restWellFormed⟩
      · exact ⟨notEmpty, isAlone, childrenHypothesis childrenWellFormed, restWellFormed⟩
    · rw [removeFromVec_apart isPrefix]
      refine ⟨notEmpty, ?_, childrenWellFormed, restHypothesis restWellFormed⟩
      rwa [heads_removeFromVec]

theorem removeFromVec_fst : (nodes.removeFromVec tokens).1 = nodes.get tokens := by
  induction nodes generalizing tokens with
  | nil => rfl
  | node path value children rest childrenHypothesis restHypothesis =>
    by_cases isPrefix : path <+: tokens
    · obtain ⟨tail, rfl⟩ := isPrefix
      rw [removeFromVec_below, get_append]
      split
      · rfl
      · exact childrenHypothesis
    · rw [removeFromVec_apart isPrefix, get_of_elsewhere isPrefix]
      exact restHypothesis

theorem get_removeFromVec :
    (nodes.removeFromVec tokens).2.get query =
      if query = tokens then none else nodes.get query := by
  induction nodes generalizing tokens query with
  | nil => exact (ite_self _).symm
  | node path value children rest childrenHypothesis restHypothesis =>
    by_cases isPrefix : path <+: tokens
    · obtain ⟨tokensTail, rfl⟩ := isPrefix
      rw [removeFromVec_below]
      by_cases isQuery : path <+: query
      · obtain ⟨tail, rfl⟩ := isQuery
        simp only [append_cancel_left_eq]
        rw [get_append]
        by_cases ends : tokensTail = []
        · rw [if_pos ends, get_append, ends]
          by_cases atEnd : tail = []
          · rw [if_pos atEnd, if_pos atEnd]
          · rw [if_neg atEnd, if_neg atEnd, if_neg atEnd]
        · rw [if_neg ends, get_append, childrenHypothesis]
          by_cases atEnd : tail = []
          · rw [if_pos atEnd, if_pos atEnd, if_neg (atEnd ▸ Ne.symm ends)]
          · rw [if_neg atEnd, if_neg atEnd]
      · have different : query ≠ path ++ tokensTail := by
          rintro rfl
          exact isQuery (prefix_append _ _)
        rw [if_neg different, get_of_elsewhere isQuery]
        split
        · exact get_of_elsewhere isQuery
        · exact get_of_elsewhere isQuery
    · rw [removeFromVec_apart isPrefix]
      by_cases isQuery : path <+: query
      · have different : query ≠ tokens := by
          rintro rfl
          exact isPrefix isQuery
        obtain ⟨tail, rfl⟩ := isQuery
        rw [get_append, get_append, if_neg different]
      · rw [get_of_elsewhere isQuery, get_of_elsewhere isQuery]
        exact restHypothesis

/-- A stored sequence that is long enough; `length` is what was matched above the level. -/
def Reusable (nodes : RadixNodes α) (policy : KvReusePolicy) (length : Nat) (tokens : List α) :
    Prop :=
  ∃ blockId, nodes.get tokens = some blockId ∧ policy.shouldReuse (length + tokens.length) = true

/-- A result of the search: the longest reusable prefix, or what was found above the level. -/
def Finds (nodes : RadixNodes α) (policy : KvReusePolicy) (accumulated remaining : List α)
    (best found : Option (PrefixMatch α)) : Prop :=
  (∃ start blockId, start ≠ [] ∧ start <+: remaining ∧ nodes.get start = some blockId ∧
      policy.shouldReuse (accumulated.length + start.length) = true ∧
      found = some ⟨accumulated ++ start, (accumulated ++ start).length, blockId⟩ ∧
      ∀ longer, longer <+: remaining → start.length < longer.length →
        ¬ nodes.Reusable policy accumulated.length longer) ∨
    (found = best ∧ ∀ start, start ≠ [] → start <+: remaining →
      ¬ nodes.Reusable policy accumulated.length start)

theorem get_of_head (restWellFormed : rest.WellFormed) (isAlone : path.head? ∉ rest.heads)
    (sameHead : query.head? = path.head?) (notPrefix : ¬ path <+: query) :
    (node path value children rest).get query = none := by
  rw [get_of_elsewhere notPrefix]
  apply get_eq_none_of_head restWellFormed
  rwa [sameHead]

omit [DecidableEq α] in
theorem head_of_start {start : List α} (notEmpty : start ≠ []) (isPrefix : start <+: tokens) :
    start.head? = tokens.head? := by
  obtain ⟨tail, rfl⟩ := isPrefix
  exact (head?_append_of_ne_nil start notEmpty).symm

omit [DecidableEq α] in
theorem prefix_below {start tail : List α} (isPrefix : start <+: path ++ tail)
    (reaches : path <+: start) : ∃ below, start = path ++ below ∧ below <+: tail := by
  obtain ⟨below, rfl⟩ := reaches
  exact ⟨below, rfl, (prefix_append_right_inj path).mp isPrefix⟩

variable {policy : KvReusePolicy}

theorem finds_below {accumulated remaining : List α}
    {best found : Option (PrefixMatch α)} (isAlone : path.head? ∉ rest.heads) (notEmpty : path ≠ [])
    (restWellFormed : rest.WellFormed)
    (below : children.Finds policy (accumulated ++ path) remaining
      (match value with
        | some blockId =>
          if policy.shouldReuse (accumulated ++ path).length then
            some ⟨accumulated ++ path, (accumulated ++ path).length, blockId⟩
          else best
        | none => best) found) :
    (node path value children rest).Finds policy accumulated (path ++ remaining) best found := by
  have childReusable : ∀ more, more ≠ [] →
      (node path value children rest).Reusable policy accumulated.length (path ++ more) →
        children.Reusable policy (accumulated ++ path).length more := by
    rintro more hasMore ⟨blockId, isStored, reuse⟩
    rw [get_append, if_neg hasMore] at isStored
    refine ⟨blockId, isStored, ?_⟩
    rwa [length_append, Nat.add_assoc, ← length_append]
  rcases below with ⟨start, blockId, hasStart, isPrefix, isStored, reuse, isFound, longest⟩ |
    ⟨isFound, none⟩
  · left
    refine ⟨path ++ start, blockId, by simp [hasStart],
      (prefix_append_right_inj path).mpr isPrefix, ?_, ?_, ?_, ?_⟩
    · rwa [get_append, if_neg hasStart]
    · rwa [length_append, ← Nat.add_assoc, ← length_append]
    · rwa [← append_assoc]
    · intro longer isLonger more reusable
      have reaches : path <+: longer := by
        apply prefix_of_prefix_length_le (prefix_append path remaining) isLonger
        rw [length_append] at more
        omega
      obtain ⟨tail, rfl, isTail⟩ := prefix_below isLonger reaches
      simp only [length_append] at more
      have hasTail : tail ≠ [] := ne_nil_of_length_pos (by omega)
      exact longest tail isTail (by omega) (childReusable tail hasTail reusable)
  · have noMore : ∀ start, path <+: start → start ≠ path → start <+: path ++ remaining →
        ¬ (node path value children rest).Reusable policy accumulated.length start := by
      intro start reaches different isPrefix reusable
      obtain ⟨tail, rfl, isTail⟩ := prefix_below isPrefix reaches
      have hasTail : tail ≠ [] := by
        rintro rfl
        exact different (append_nil path)
      exact none tail hasTail isTail (childReusable tail hasTail reusable)
    have isPath : (node path value children rest).get path = value := by
      have atEnd : (node path value children rest).get (path ++ []) = _ := get_append []
      rwa [append_nil, if_pos rfl] at atEnd
    have ownLength : (accumulated ++ path).length = accumulated.length + path.length :=
      length_append
    by_cases reusable : (node path value children rest).Reusable policy accumulated.length path
    · left
      obtain ⟨blockId, isStored, reuse⟩ := reusable
      rw [isPath] at isStored
      subst isStored
      refine ⟨path, blockId, notEmpty, prefix_append _ _, isPath, reuse, ?_, ?_⟩
      · rw [isFound]
        dsimp only
        rw [ownLength, if_pos reuse]
      · intro longer isLonger more
        have reaches : path <+: longer :=
          prefix_of_prefix_length_le (prefix_append _ _) isLonger more.le
        apply noMore longer reaches _ isLonger
        rintro rfl
        exact lt_irrefl _ more
    · right
      constructor
      · rw [isFound]
        cases isValue : value with
        | none => rfl
        | some blockId =>
          dsimp only
          rw [ownLength, if_neg]
          intro reuse
          exact reusable ⟨blockId, isPath.trans isValue, reuse⟩
      · intro start hasStart isPrefix
        by_cases reaches : path <+: start
        · by_cases same : start = path
          · rw [same]
            exact reusable
          · exact noMore start reaches same isPrefix
        · rintro ⟨blockId, isStored, -⟩
          rw [get_of_head restWellFormed isAlone _ reaches] at isStored
          · cases isStored
          · rw [head_of_start hasStart isPrefix, head?_append_of_ne_nil _ notEmpty]

theorem findFrom_finds (wellFormed : nodes.WellFormed) (policy : KvReusePolicy)
    (remaining accumulated : List α) (best : Option (PrefixMatch α)) :
    nodes.Finds policy accumulated remaining best
      (nodes.findFrom policy remaining accumulated best) := by
  induction nodes generalizing remaining accumulated best with
  | nil =>
    refine .inr ⟨rfl, fun start _ _ => ?_⟩
    rintro ⟨blockId, impossible, -⟩
    cases impossible
  | node path value children rest childrenHypothesis restHypothesis =>
    obtain ⟨notEmpty, isAlone, childrenWellFormed, restWellFormed⟩ := wellFormed
    rw [findFrom]
    by_cases ended : remaining = []
    · rw [if_pos ended]
      refine .inr ⟨rfl, fun start hasStart isPrefix => ?_⟩
      rw [ended] at isPrefix
      exact absurd (List.prefix_nil.mp isPrefix) hasStart
    · rw [if_neg ended]
      dsimp only
      by_cases apart : lcpLen path remaining = 0
      · rw [if_pos apart]
        have otherHead := (lcpLen_eq_zero notEmpty ended).mp apart
        have same : ∀ start, start ≠ [] → start <+: remaining →
            (node path value children rest).get start = rest.get start := by
          intro start hasStart isPrefix
          apply get_of_elsewhere
          intro reaches
          have head := head_of_start notEmpty (reaches.trans isPrefix)
          exact otherHead head
        have sameReusable : ∀ start, start ≠ [] → start <+: remaining →
            (node path value children rest).Reusable policy accumulated.length start →
              rest.Reusable policy accumulated.length start := by
          rintro start hasStart isPrefix ⟨blockId, isStored, reuse⟩
          exact ⟨blockId, (same start hasStart isPrefix) ▸ isStored, reuse⟩
        rcases restHypothesis restWellFormed remaining accumulated best with
          ⟨start, blockId, hasStart, isPrefix, isStored, reuse, isFound, longest⟩ |
          ⟨isFound, none⟩
        · left
          refine ⟨start, blockId, hasStart, isPrefix, ?_, reuse, isFound, ?_⟩
          · rwa [same start hasStart isPrefix]
          · intro longer isLonger more reusable
            have hasLonger : longer ≠ [] := ne_nil_of_length_pos (Nat.zero_lt_of_lt more)
            exact longest longer isLonger more (sameReusable longer hasLonger isLonger reusable)
        · right
          refine ⟨isFound, fun start hasStart isPrefix reusable => ?_⟩
          exact none start hasStart isPrefix (sameReusable start hasStart isPrefix reusable)
      · rw [if_neg apart]
        obtain ⟨shared, pathTail, tokensTail, rfl, rfl, lcp, differ⟩ :=
          lcpLen_split path remaining
        have hasShared : shared ≠ [] := by
          rintro rfl
          exact apart lcp.symm
        by_cases hasTail : pathTail = []
        · subst hasTail
          rw [append_nil] at lcp isAlone
          simp only [append_nil]
          rw [← lcp, if_pos rfl, take_length, drop_left]
          exact finds_below isAlone hasShared restWellFormed
            (childrenHypothesis childrenWellFormed tokensTail _ _)
        · have shorter : lcpLen (shared ++ pathTail) (shared ++ tokensTail) ≠
              (shared ++ pathTail).length := by
            have tailPositive := length_pos_of_ne_nil hasTail
            rw [← lcp, length_append]
            omega
          rw [if_neg shorter]
          refine .inr ⟨rfl, fun start hasStart isPrefix => ?_⟩
          rintro ⟨blockId, isStored, -⟩
          rw [get_of_head restWellFormed isAlone] at isStored
          · cases isStored
          · rw [head_of_start hasStart isPrefix, head?_append_of_ne_nil _ hasShared,
              head?_append_of_ne_nil _ hasShared]
          · intro reaches
            have tails := (prefix_append_right_inj shared).mp (reaches.trans isPrefix)
            have hasTokens : tokensTail ≠ [] := by
              rintro rfl
              exact hasTail (List.prefix_nil.mp tails)
            exact differ hasTail hasTokens (head_of_start hasTail tails)

theorem shouldReuse_mono {length longer : Nat}
    (reuse : policy.shouldReuse length = true) (more : length ≤ longer) :
    policy.shouldReuse longer = true := by
  cases policy with
  | always => exact decide_eq_true ((of_decide_eq_true reuse : 0 < length).trans_le more)
  | costBased minPrefixLen =>
    exact decide_eq_true ((of_decide_eq_true reuse : minPrefixLen ≤ length).trans more)
  | never => cases reuse

theorem findLongestPrefix_eq_some (wellFormed : nodes.WellFormed)
    {found : PrefixMatch α} (isFound : nodes.findLongestPrefix tokens policy = some found) :
    found.matchedTokens <+: tokens ∧ found.matchedLen = found.matchedTokens.length ∧
      policy.shouldReuse found.matchedLen = true ∧
      nodes.get found.matchedTokens = some found.blockId ∧
      ∀ longer, longer <+: tokens → found.matchedLen < longer.length → nodes.get longer = none := by
  unfold findLongestPrefix at isFound
  split at isFound
  · cases isFound
  · rcases findFrom_finds wellFormed policy tokens [] none with
      ⟨start, blockId, -, isPrefix, isStored, reuse, isStart, longest⟩ | ⟨nothing, -⟩
    · rw [isFound] at isStart
      obtain rfl := some.inj isStart
      simp only [length_nil, Nat.zero_add, nil_append] at reuse longest ⊢
      refine ⟨isPrefix, trivial, reuse, isStored, fun longer isLonger more => ?_⟩
      apply eq_none_iff_forall_ne_some.mpr
      intro other isOther
      apply longest longer isLonger more
      refine ⟨other, isOther, ?_⟩
      rw [Nat.zero_add]
      exact shouldReuse_mono reuse more.le
    · rw [isFound] at nothing
      cases nothing

theorem findLongestPrefix_eq_none (wellFormed : nodes.WellFormed)
    (notFound : nodes.findLongestPrefix tokens policy = none) {start : List α}
    (hasStart : start ≠ []) (isPrefix : start <+: tokens) (isStored : (nodes.get start).isSome) :
    policy.shouldReuse start.length = false := by
  obtain ⟨blockId, isBlock⟩ := isSome_iff_exists.mp isStored
  have hasTokens : tokens ≠ [] := by
    rintro rfl
    exact hasStart (List.prefix_nil.mp isPrefix)
  unfold findLongestPrefix at notFound
  split at notFound
  · rename_i never
    rw [never.resolve_left hasTokens]
    rfl
  · rcases findFrom_finds wellFormed policy tokens [] none with
      ⟨_, _, -, -, -, -, isFound, -⟩ | ⟨-, none⟩
    · rw [notFound] at isFound
      cases isFound
    · apply Bool.eq_false_iff.mpr
      intro reuse
      apply none start hasStart isPrefix
      exact ⟨blockId, isBlock, by rwa [length_nil, Nat.zero_add]⟩

end RadixNodes

structure PrefixRadixTree (α : Type*) where
  children : RadixNodes α
  totalEntries : Nat

namespace PrefixRadixTree

def new : PrefixRadixTree α := ⟨.nil, 0⟩

def insert (tree : PrefixRadixTree α) (tokens : List α) (blockId : Nat) :
    Except String (PrefixRadixTree α) :=
  if tokens = [] then .error "Cannot insert empty token sequence into PrefixRadixTree"
  else .ok ⟨tree.children.insertIntoVec blockId tokens,
    tree.totalEntries + tree.children.entriesAdded tokens⟩

def remove (tree : PrefixRadixTree α) (tokens : List α) : Option Nat × PrefixRadixTree α :=
  if tokens = [] then (none, tree)
  else
    let (removed, children) := tree.children.removeFromVec tokens
    (removed, ⟨children, if removed.isSome then tree.totalEntries - 1 else tree.totalEntries⟩)

def findLongestPrefix (tree : PrefixRadixTree α) (tokens : List α) (policy : KvReusePolicy) :
    Option (PrefixMatch α) := tree.children.findLongestPrefix tokens policy

def len (tree : PrefixRadixTree α) : Nat := tree.totalEntries

inductive Call (α : Type*) where
  | insert (tokens : List α) (blockId : Nat)
  | remove (tokens : List α)

/-- The tree after a call.  An `insert` that is refused changes nothing. -/
def next (tree : PrefixRadixTree α) : Call α → PrefixRadixTree α
  | .insert tokens blockId =>
    match tree.insert tokens blockId with
    | .ok tree => tree
    | .error _ => tree
  | .remove tokens => (tree.remove tokens).2

abbrev Stored (α : Type*) := Finmap fun _ : List α => Nat

def Stored.next (stored : Stored α) : Call α → Stored α
  | .insert tokens blockId => if tokens = [] then stored else stored.insert tokens blockId
  | .remove tokens => stored.erase tokens

/-- The answer of a map for the longest stored prefix that a policy accepts. -/
def Stored.Answers (stored : Stored α) (query : List α) (policy : KvReusePolicy) :
    Option (PrefixMatch α) → Prop
  | some found =>
    found.matchedTokens <+: query ∧ found.matchedLen = found.matchedTokens.length ∧
      policy.shouldReuse found.matchedLen = true ∧
      stored.lookup found.matchedTokens = some found.blockId ∧
      ∀ key ∈ stored, key <+: query → policy.shouldReuse key.length = true →
        key.length ≤ found.matchedLen
  | none => ∀ key ∈ stored, key <+: query → policy.shouldReuse key.length = false

structure Refines (tree : PrefixRadixTree α) (stored : Stored α) : Prop where
  wellFormed : tree.children.WellFormed
  nonempty : [] ∉ stored
  get : ∀ tokens, tokens ≠ [] → tree.children.get tokens = stored.lookup tokens
  entries : tree.totalEntries = stored.keys.card

variable {tree : PrefixRadixTree α} {stored : Stored α} {tokens : List α}

theorem entriesAdded_eq {nodes : RadixNodes α} (wellFormed : nodes.WellFormed)
    (hasTokens : tokens ≠ []) :
    nodes.entriesAdded tokens = if (nodes.get tokens).isNone then 1 else 0 := by
  induction nodes generalizing tokens with
  | nil => rfl
  | node path value children rest childrenHypothesis restHypothesis =>
    obtain ⟨notEmpty, isAlone, childrenWellFormed, restWellFormed⟩ := wellFormed
    have lengthPos := length_pos_of_ne_nil notEmpty
    rw [RadixNodes.entriesAdded]
    by_cases isPrefix : path <+: tokens
    · obtain ⟨tail, rfl⟩ := isPrefix
      rw [lcpLen_eq_length.mpr (prefix_append path tail), if_neg lengthPos.ne', if_pos rfl,
        drop_left, RadixNodes.get_append]
      by_cases atEnd : tail = []
      · rw [if_pos atEnd, if_pos atEnd]
      · rw [if_neg atEnd, if_neg atEnd]
        exact childrenHypothesis childrenWellFormed atEnd
    · rw [if_neg (mt lcpLen_eq_length.mp isPrefix)]
      by_cases apart : lcpLen path tokens = 0
      · rw [if_pos apart, RadixNodes.get_of_elsewhere isPrefix]
        exact restHypothesis restWellFormed hasTokens
      · have sameHead : tokens.head? = path.head? :=
          (not_not.mp (mt (lcpLen_eq_zero notEmpty hasTokens).mpr apart)).symm
        rw [if_neg apart, RadixNodes.get_of_head restWellFormed isAlone sameHead isPrefix]
        rfl

theorem get_empty {nodes : RadixNodes α} (wellFormed : nodes.WellFormed) : nodes.get [] = none := by
  induction nodes with
  | nil => rfl
  | node path value children rest _ restHypothesis =>
    rw [RadixNodes.get_of_elsewhere (mt List.prefix_nil.mp wellFormed.1)]
    exact restHypothesis wellFormed.2.2.2

theorem refines_new : (new : PrefixRadixTree α).Refines ∅ where
  wellFormed := trivial
  nonempty := Finmap.notMem_empty
  get _ _ := rfl
  entries := rfl

theorem Refines.lookup (refines : tree.Refines stored) (tokens : List α) :
    (if tokens = [] then none else tree.children.get tokens) = stored.lookup tokens := by
  by_cases isEmpty : tokens = []
  · rw [if_pos isEmpty, isEmpty]
    exact (Finmap.lookup_eq_none.mpr refines.nonempty).symm
  · rw [if_neg isEmpty]
    exact refines.get tokens isEmpty

theorem Refines.remove_fst (refines : tree.Refines stored) (tokens : List α) :
    (tree.remove tokens).1 = stored.lookup tokens := by
  rw [← refines.lookup, remove]
  split_ifs with isEmpty
  · rfl
  · exact RadixNodes.removeFromVec_fst

theorem Refines.insert (refines : tree.Refines stored) (hasTokens : tokens ≠ []) (blockId : Nat) :
    Refines ⟨tree.children.insertIntoVec blockId tokens,
      tree.totalEntries + tree.children.entriesAdded tokens⟩ (Finmap.insert tokens blockId stored) where
  wellFormed := refines.wellFormed.insertIntoVec hasTokens
  nonempty := by
    rw [Finmap.mem_insert, not_or]
    exact ⟨hasTokens.symm, refines.nonempty⟩
  get query hasQuery := by
    rw [RadixNodes.get_insertIntoVec refines.wellFormed hasTokens]
    by_cases same : query = tokens
    · rw [if_pos same, same, Finmap.lookup_insert]
    · rw [if_neg same, Finmap.lookup_insert_of_ne _ same, refines.get query hasQuery]
  entries := by
    have keys : (Finmap.insert tokens blockId stored).keys = Insert.insert tokens stored.keys := by
      ext key
      rw [Finset.mem_insert, Finmap.mem_keys, Finmap.mem_keys, Finmap.mem_insert]
    dsimp only
    rw [keys, entriesAdded_eq refines.wellFormed hasTokens, refines.get tokens hasTokens,
      refines.entries]
    by_cases isStored : tokens ∈ stored
    · rw [Finset.insert_eq_of_mem (Finmap.mem_keys.mpr isStored), if_neg]
      · rfl
      · rw [isNone_iff_eq_none, Finmap.lookup_eq_none]
        exact not_not.mpr isStored
    · rw [Finset.card_insert_of_notMem (mt Finmap.mem_keys.mp isStored), if_pos]
      rw [Finmap.lookup_eq_none.mpr isStored]
      rfl

theorem Refines.remove (refines : tree.Refines stored) (tokens : List α) :
    (tree.remove tokens).2.Refines (stored.erase tokens) := by
  have keys : (stored.erase tokens).keys = stored.keys.erase tokens := Finmap.keys_erase _ _
  have removed := refines.remove_fst tokens
  revert removed
  rw [PrefixRadixTree.remove]
  split_ifs with isEmpty
  · intro _
    have same : stored.erase tokens = stored := by
      refine Finmap.ext_lookup fun key => ?_
      by_cases sameKey : key = tokens
      · rw [sameKey, Finmap.lookup_erase, isEmpty, Finmap.lookup_eq_none.mpr refines.nonempty]
      · rw [Finmap.lookup_erase_ne sameKey]
    rw [same]
    exact refines
  · intro removed
    refine ⟨refines.wellFormed.removeFromVec, ?_, fun query hasQuery => ?_, ?_⟩
    · rw [Finmap.mem_erase]
      exact fun both => refines.nonempty both.2
    · rw [RadixNodes.get_removeFromVec]
      by_cases same : query = tokens
      · rw [if_pos same, same, Finmap.lookup_erase]
      · rw [if_neg same, Finmap.lookup_erase_ne same, refines.get query hasQuery]
    · dsimp only at removed ⊢
      rw [removed, keys, refines.entries]
      by_cases isStored : tokens ∈ stored
      · rw [Finset.card_erase_of_mem (Finmap.mem_keys.mpr isStored), if_pos]
        exact Finmap.lookup_isSome.mpr isStored
      · rw [Finset.erase_eq_of_notMem (mt Finmap.mem_keys.mp isStored), if_neg]
        exact fun isSome => isStored (Finmap.lookup_isSome.mp isSome)

theorem Refines.next (refines : tree.Refines stored) (call : Call α) :
    (tree.next call).Refines (Stored.next stored call) := by
  cases call with
  | insert tokens blockId =>
    rw [PrefixRadixTree.next, PrefixRadixTree.insert, Stored.next]
    split_ifs with isEmpty
    · exact refines
    · exact refines.insert isEmpty blockId
  | remove tokens => exact refines.remove tokens

theorem Refines.answers (refines : tree.Refines stored) (query : List α) (policy : KvReusePolicy) :
    stored.Answers query policy (tree.findLongestPrefix query policy) := by
  have isStored {key : List α} (inStored : key ∈ stored) :
      key ≠ [] ∧ (tree.children.get key).isSome := by
    have hasTokens : key ≠ [] := fun isEmpty => refines.nonempty (isEmpty ▸ inStored)
    refine ⟨hasTokens, ?_⟩
    rw [refines.get key hasTokens]
    exact Finmap.lookup_isSome.mpr inStored
  cases isFound : tree.findLongestPrefix query policy with
  | none =>
    intro key inStored isPrefix
    obtain ⟨hasTokens, isSome⟩ := isStored inStored
    exact RadixNodes.findLongestPrefix_eq_none refines.wellFormed isFound hasTokens isPrefix isSome
  | some found =>
    obtain ⟨isPrefix, isLength, reuse, isBlock, longest⟩ :=
      RadixNodes.findLongestPrefix_eq_some refines.wellFormed isFound
    refine ⟨isPrefix, isLength, reuse, ?_, fun key inStored isPrefix' _ => ?_⟩
    · have hasTokens : found.matchedTokens ≠ [] := by
        intro isEmpty
        rw [isEmpty, get_empty refines.wellFormed] at isBlock
        cases isBlock
      rw [← refines.get _ hasTokens, isBlock]
    · by_contra longer
      have isSome := (isStored inStored).2
      rw [longest key isPrefix' (not_le.mp longer)] at isSome
      cases isSome

theorem refines_foldl (refines : tree.Refines stored) (calls : List (Call α)) :
    (calls.foldl next tree).Refines (calls.foldl Stored.next stored) := by
  induction calls generalizing tree stored with
  | nil => exact refines
  | cons call rest ih => exact ih (refines.next call)

/-- After any calls the tree is a map with a search for the longest prefix. -/
theorem calls_refine_map (calls : List (Call α)) :
    let tree := calls.foldl next (new : PrefixRadixTree α)
    let stored := calls.foldl Stored.next (∅ : Stored α)
    (∀ query policy, stored.Answers query policy (tree.findLongestPrefix query policy)) ∧
      (∀ tokens, (tree.remove tokens).1 = stored.lookup tokens) ∧
      tree.len = stored.keys.card ∧ tree.children.WellFormed := by
  have refines := refines_foldl (refines_new (α := α)) calls
  exact ⟨refines.answers, refines.remove_fst, refines.entries, refines.wellFormed⟩

end PrefixRadixTree

end Contextra.KvCache
