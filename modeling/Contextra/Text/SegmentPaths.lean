import Mathlib

/-!
# Best segmentations by dynamic programming

The dynamic program of the compound splitter over the positions of a token.  A component from one
position to a later one is accepted with a length or not.  The best way to a position has the
fewest segments, and of those the longest shortest segment.
-/

namespace Contextra.Text

open List Option

/-- `PathNode`: the best known way to a position. -/
structure PathNode where
  prev : Nat
  segmentCount : Nat
  minSegmentLen : Nat
  deriving DecidableEq, Repr

def usizeMax : Nat := 2 ^ 64 - 1

def PathNode.start : PathNode := ⟨0, 0, usizeMax⟩

def PathNode.improves (candidate existing : PathNode) : Bool :=
  if candidate.segmentCount < existing.segmentCount then true
  else if candidate.segmentCount = existing.segmentCount then
    existing.minSegmentLen < candidate.minSegmentLen
  else false

abbrev PathTable := Nat → Option PathNode

section Program

-- the length of the component between two positions, when it is accepted
variable (component : Nat → Nat → Option Nat)

def PathNode.extend (position length : Nat) (node : PathNode) : PathNode :=
  ⟨position, node.segmentCount + 1, min node.minSegmentLen length⟩

/-- The body of the inner loop. -/
def relax (position : Nat) (node : PathNode) (table : PathTable) (target : Nat) : PathTable :=
  match component position target with
  | none => table
  | some length =>
    let candidate := node.extend position length
    let update := (table target).all fun existing => candidate.improves existing
    if update then Function.update table target (some candidate) else table

/-- The body of the outer loop, for a token of the given size. -/
def scanFrom (size : Nat) (table : PathTable) (position : Nat) : PathTable :=
  match table position with
  | none => table
  | some node =>
    (List.range' (position + 2) (size + 1 - (position + 2))).foldl
      (relax component position node) table

def startTable : PathTable := fun position => if position = 0 then some .start else none

def pathTable (size : Nat) : PathTable := (List.range size).foldl (scanFrom component size) startTable

end Program

/-- A way with this many segments and this shortest one is not better than the node. -/
def PathNode.AtLeast (node : PathNode) (count shortest : Nat) : Prop :=
  node.segmentCount < count ∨ node.segmentCount = count ∧ shortest ≤ node.minSegmentLen

theorem PathNode.atLeast_self (node : PathNode) :
    node.AtLeast node.segmentCount node.minSegmentLen := Or.inr ⟨rfl, le_rfl⟩

theorem PathNode.AtLeast.trans {first second : PathNode} {count shortest : Nat}
    (left : first.AtLeast second.segmentCount second.minSegmentLen)
    (right : second.AtLeast count shortest) : first.AtLeast count shortest := by
  unfold AtLeast at *
  omega

theorem PathNode.improves_iff {candidate existing : PathNode} :
    candidate.improves existing = true ↔
      ¬ existing.AtLeast candidate.segmentCount candidate.minSegmentLen := by
  unfold improves AtLeast
  split_ifs <;> simp <;> omega

theorem PathNode.AtLeast.extend {node : PathNode} {count shortest : Nat}
    (better : node.AtLeast count shortest) (position length : Nat) :
    (node.extend position length).AtLeast (count + 1) (min shortest length) := by
  unfold AtLeast PathNode.extend at *
  simp only
  omega

section Table

variable {component : Nat → Nat → Option Nat}

def relaxed (component : Nat → Nat → Option Nat) (position : Nat) (node : PathNode)
    (existing : Option PathNode) (target : Nat) : Option PathNode :=
  match component position target with
  | none => existing
  | some length =>
    if existing.all fun existing => (node.extend position length).improves existing then
      some (node.extend position length)
    else existing

theorem relax_apply (position : Nat) (node : PathNode) (table : PathTable) (target other : Nat) :
    relax component position node table target other =
      if other = target then relaxed component position node (table other) target
      else table other := by
  unfold relax relaxed
  cases component position target with
  | none => simp
  | some length =>
    by_cases same : other = target
    · subst same
      simp only [if_true]
      split
      · exact Function.update_self _ _ _
      · rfl
    · simp only [same, if_false]
      split
      · exact Function.update_of_ne same _ _
      · rfl

theorem foldl_relax_apply (position : Nat) (node : PathNode) (table : PathTable)
    {targets : List Nat} (distinct : targets.Nodup) (other : Nat) :
    targets.foldl (relax component position node) table other =
      if other ∈ targets then relaxed component position node (table other) other
      else table other := by
  induction targets generalizing table with
  | nil => simp
  | cons target targets ih =>
    obtain ⟨fresh, rest⟩ := nodup_cons.mp distinct
    rw [foldl_cons, ih _ rest, relax_apply]
    by_cases same : other = target
    · subst same
      simp [fresh]
    · simp [same]

variable {table : PathTable}

theorem scanFrom_apply {size position : Nat} (target : Nat) :
    scanFrom component size table position target =
      match table position with
      | none => table target
      | some node =>
        if position + 2 ≤ target ∧ target ≤ size then
          relaxed component position node (table target) target
        else table target := by
  unfold scanFrom
  cases table position with
  | none => rfl
  | some node =>
    have inside : target ∈ List.range' (position + 2) (size + 1 - (position + 2)) ↔
        position + 2 ≤ target ∧ target ≤ size := by
      rw [mem_range'_1]
      omega
    simp only [foldl_relax_apply position node table nodup_range', inside]

/-- A way to a position, with its number of segments and its shortest segment. -/
inductive Way (component : Nat → Nat → Option Nat) : Nat → Nat → Nat → Prop where
  | start : Way component 0 0 usizeMax
  | extend {position target count shortest length : Nat} (way : Way component position count shortest)
      (accepted : component position target = some length) :
      Way component target (count + 1) (min shortest length)

structure Scanned (component : Nat → Nat → Option Nat) (bound : Nat) (table : PathTable) :
    Prop where
  start : table 0 = some .start
  derived : ∀ target node, table target = some node → target ≠ 0 →
    node.prev < bound ∧ node.prev < target ∧ ∃ before length, table node.prev = some before ∧
      component node.prev target = some length ∧ node = before.extend node.prev length
  best : ∀ position before, position < bound → table position = some before →
    ∀ target length, component position target = some length →
      ∃ node, table target = some node ∧
        node.AtLeast (before.segmentCount + 1) (min before.minSegmentLen length)

theorem scanned_start : Scanned component 0 startTable where
  start := rfl
  derived := by
    intro target node isNode behind
    rw [startTable, if_neg behind] at isNode
    cases isNode
  best := fun _ _ impossible => absurd impossible (Nat.not_lt_zero _)

/-- Components are at least two bytes long and end within the token. -/
def Fits (component : Nat → Nat → Option Nat) (size : Nat) : Prop :=
  ∀ position target length, component position target = some length →
    position + 2 ≤ target ∧ target ≤ size

theorem relaxed_atLeast {position target length : Nat} {node : PathNode}
    {existing : Option PathNode} (accepted : component position target = some length) :
    ∃ next, relaxed component position node existing target = some next ∧
      next.AtLeast (node.segmentCount + 1) (min node.minSegmentLen length) ∧
      (∀ before, existing = some before →
        next.AtLeast before.segmentCount before.minSegmentLen) := by
  unfold relaxed
  simp only [accepted]
  cases existing with
  | none => exact ⟨_, rfl, PathNode.atLeast_self _, fun before same => by cases same⟩
  | some before =>
    by_cases better : (node.extend position length).improves before = true
    · simp only [all_some, better, if_true]
      refine ⟨_, rfl, PathNode.atLeast_self _, fun other same => ?_⟩
      obtain rfl := some.inj same
      have notWorse := PathNode.improves_iff.mp better
      unfold PathNode.AtLeast at *
      omega
    · simp only [all_some, better]
      refine ⟨before, rfl, ?_, fun other same => ?_⟩
      · by_contra worse
        exact better (PathNode.improves_iff.mpr worse)
      · obtain rfl := some.inj same
        exact PathNode.atLeast_self _

theorem relaxed_cases {position target : Nat} {node next : PathNode} {existing : Option PathNode}
    (left : relaxed component position node existing target = some next) :
    existing = some next ∨ ∃ length, component position target = some length ∧
      next = node.extend position length := by
  unfold relaxed at left
  cases accepted : component position target with
  | none =>
    simp only [accepted] at left
    exact Or.inl left
  | some length =>
    simp only [accepted] at left
    split at left
    · exact Or.inr ⟨length, rfl, (some.inj left).symm⟩
    · exact Or.inl left

theorem Scanned.step {size bound : Nat} (fits : Fits component size)
    (scanned : Scanned component bound table) :
    Scanned component (bound + 1) (scanFrom component size table bound) := by
  -- positions up to the one that is scanned keep their nodes
  have kept (position : Nat) (before : position ≤ bound) :
      scanFrom component size table bound position = table position := by
    rw [scanFrom_apply]
    cases table bound with
    | none => rfl
    | some node => simp only [show ¬ (bound + 2 ≤ position ∧ position ≤ size) by omega, if_false]
  cases isBound : table bound with
  | none =>
    have same : scanFrom component size table bound = table := by
      unfold scanFrom
      rw [isBound]
    rw [same]
    refine ⟨scanned.start, fun target node isNode behind => ?_, ?_⟩
    · obtain ⟨below, earlier, rest⟩ := scanned.derived target node isNode behind
      exact ⟨below.trans (Nat.lt_succ_self _), earlier, rest⟩
    · intro position before below isBefore
      rcases Nat.lt_or_eq_of_le (Nat.le_of_lt_succ below) with old | rfl
      · exact scanned.best position before old isBefore
      · rw [isBound] at isBefore
        cases isBefore
  | some node =>
    have apply (target : Nat) : scanFrom component size table bound target =
        if bound + 2 ≤ target ∧ target ≤ size then
          relaxed component bound node (table target) target
        else table target := by
      rw [scanFrom_apply, isBound]
    refine ⟨?_, ?_, ?_⟩
    · rw [kept 0 (Nat.zero_le _)]
      exact scanned.start
    · intro target next isNext behind
      have old (isOld : table target = some next) : next.prev < bound + 1 ∧ next.prev < target ∧
          ∃ before length, scanFrom component size table bound next.prev = some before ∧
            component next.prev target = some length ∧
            next = before.extend next.prev length := by
        obtain ⟨below, earlier, before, length, isBefore, rest⟩ :=
          scanned.derived target next isOld behind
        refine ⟨below.trans (Nat.lt_succ_self _), earlier, before, length, ?_, rest⟩
        rw [kept _ below.le]
        exact isBefore
      rw [apply] at isNext
      by_cases within : bound + 2 ≤ target ∧ target ≤ size
      · rw [if_pos within] at isNext
        rcases relaxed_cases isNext with isOld | ⟨length, accepted, rfl⟩
        · exact old isOld
        · refine ⟨Nat.lt_succ_self _, by simp only [PathNode.extend]; omega, node, length, ?_,
            accepted, rfl⟩
          rw [show (node.extend bound length).prev = bound from rfl, kept _ le_rfl]
          exact isBound
      · rw [if_neg within] at isNext
        exact old isNext
    · intro position before below isBefore target length accepted
      have within := fits position target length accepted
      rw [kept position (Nat.le_of_lt_succ below)] at isBefore
      rcases Nat.lt_or_eq_of_le (Nat.le_of_lt_succ below) with old | rfl
      · obtain ⟨existing, isExisting, atLeast⟩ :=
          scanned.best position before old isBefore target length accepted
        rw [apply]
        by_cases reached : bound + 2 ≤ target ∧ target ≤ size
        · rw [if_pos reached]
          cases further : component bound target with
          | none =>
            refine ⟨existing, ?_, atLeast⟩
            unfold relaxed
            simp only [further]
            exact isExisting
          | some length' =>
            obtain ⟨next, isNext, -, notWorse⟩ :=
              @relaxed_atLeast component bound target length' node (table target) further
            exact ⟨next, isNext, (notWorse existing isExisting).trans atLeast⟩
        · rw [if_neg reached]
          exact ⟨existing, isExisting, atLeast⟩
      · rw [isBound] at isBefore
        obtain rfl := some.inj isBefore
        rw [apply, if_pos within]
        obtain ⟨next, isNext, atLeast, -⟩ :=
          @relaxed_atLeast component position target length node (table target) accepted
        exact ⟨next, isNext, atLeast⟩

theorem scanned_pathTable {size : Nat} (fits : Fits component size) :
    Scanned component size (pathTable component size) := by
  have upTo (bound : Nat) : Scanned component bound
      ((List.range bound).foldl (scanFrom component size) startTable) := by
    induction bound with
    | zero => exact scanned_start
    | succ bound ih =>
      rw [range_succ, foldl_append]
      exact ih.step fits
  exact upTo size

theorem Scanned.way {size target count shortest : Nat}
    (fits : Fits component size) (scanned : Scanned component size table)
    (way : Way component target count shortest) :
    ∃ node, table target = some node ∧ node.AtLeast count shortest := by
  induction way with
  | start => exact ⟨.start, scanned.start, PathNode.atLeast_self _⟩
  | @extend position target count shortest length way accepted ih =>
    obtain ⟨before, isBefore, better⟩ := ih
    have within := fits position target length accepted
    obtain ⟨node, isNode, atLeast⟩ :=
      scanned.best position before (by omega) isBefore target length accepted
    have notWorse : node.AtLeast (before.extend position length).segmentCount
        (before.extend position length).minSegmentLen := atLeast
    exact ⟨node, isNode, notWorse.trans (better.extend position length)⟩

end Table

end Contextra.Text
