import Mathlib

/-!
# Reachability and breadth-first search

Acyclic relations with one edge more, and the invariant of a search that visits each element once
and may stop before its queue is empty.
-/

namespace Contextra.Library

open List

open Relation

variable {α : Type*} {r s : α → α → Prop} {start goal source target a b : α}

def Acyclic (r : α → α → Prop) : Prop := ∀ a, ¬ TransGen r a a

theorem reach_addEdge (within : ∀ a b, s a b → r a b ∨ (a = source ∧ b = target))
    (path : ReflTransGen s a b) :
    ReflTransGen r a b ∨ (ReflTransGen r a source ∧ ReflTransGen r target b) := by
  induction path with
  | refl => exact .inl .refl
  | tail _ edge ih =>
    rcases within _ _ edge with old | ⟨rfl, rfl⟩
    · rcases ih with direct | ⟨before, after⟩
      · exact .inl (direct.tail old)
      · exact .inr ⟨before, after.tail old⟩
    · rcases ih with direct | ⟨before, -⟩
      · exact .inr ⟨direct, .refl⟩
      · exact .inr ⟨before, .refl⟩

theorem Acyclic.addEdge (acyclic : Acyclic r)
    (within : ∀ a b, s a b → r a b ∨ (a = source ∧ b = target))
    (noPath : ¬ ReflTransGen r target source) : Acyclic s := by
  intro a cycle
  obtain ⟨next, edge, path⟩ := TransGen.head'_iff.mp cycle
  rcases within a next edge with old | ⟨rfl, rfl⟩
  · rcases reach_addEdge within path with back | ⟨before, after⟩
    · exact acyclic a (TransGen.head' old back)
    · exact noPath ((after.tail old).trans before)
  · rcases reach_addEdge within path with back | ⟨-, back⟩
    · exact noPath back
    · exact noPath back

theorem Acyclic.mono (acyclic : Acyclic r) (within : ∀ a b, s a b → r a b) : Acyclic s :=
  fun a cycle => acyclic a (TransGen.mono within _ _ cycle)

def BehindCycle (r : α → α → Prop) (a : α) : Prop := ∃ c, TransGen r c c ∧ ReflTransGen r c a

theorem BehindCycle.trans (behind : BehindCycle r a) (path : ReflTransGen r a b) :
    BehindCycle r b := by
  obtain ⟨c, cycle, reached⟩ := behind
  exact ⟨c, cycle, reached.trans path⟩

theorem behindCycle_of_noSource {rest : List α} (entered : ∀ a ∈ rest, ∃ b ∈ rest, r b a)
    (inRest : a ∈ rest) : BehindCycle r a := by
  by_contra free
  let Above := {b // b ∈ rest ∧ ReflTransGen r b a}
  have finite : Finite Above :=
    (rest.finite_toSet.subset fun _ isAbove => isAbove.1 :
      Set.Finite {b | b ∈ rest ∧ ReflTransGen r b a})
  let leads : Above → Above → Prop := fun b c => TransGen r b.1 c.1
  have isTrans : IsTrans Above leads := ⟨fun _ _ _ => TransGen.trans⟩
  have irrefl : Std.Irrefl leads := ⟨fun b cycle => free ⟨b.1, cycle, b.2.2⟩⟩
  obtain ⟨first, -, isFirst⟩ := (Finite.wellFounded_of_trans_of_irrefl leads).has_min Set.univ
    ⟨⟨a, inRest, .refl⟩, trivial⟩
  obtain ⟨before, isBefore, edge⟩ := entered first.1 first.2.1
  exact isFirst ⟨before, isBefore, first.2.2.head edge⟩ trivial (.single edge)

def fresh [DecidableEq α] (visited targets : List α) : List α :=
  targets.foldl
    (fun fresh target => if target ∈ visited ++ fresh then fresh else fresh ++ [target]) []

section Fresh

variable [DecidableEq α] {visited targets : List α}

theorem foldl_fresh (found : List α) (isNew : ∀ element ∈ found, element ∉ visited)
    (nodup : found.Nodup) :
    let result := targets.foldl
      (fun fresh target => if target ∈ visited ++ fresh then fresh else fresh ++ [target]) found
    result.Nodup ∧ (∀ element ∈ result, element ∉ visited) ∧
      ∀ element, element ∈ result ↔ element ∈ found ∨ (element ∈ targets ∧ element ∉ visited) := by
  induction targets generalizing found with
  | nil => exact ⟨nodup, isNew, by simp⟩
  | cons target targets ih =>
    rw [foldl_cons]
    by_cases known : target ∈ visited ++ found
    · rw [if_pos known]
      obtain ⟨resultNodup, resultNew, members⟩ := ih found isNew nodup
      refine ⟨resultNodup, resultNew, fun element => ?_⟩
      rw [members element, mem_cons]
      rcases mem_append.mp known with isVisited | isFound
      · constructor
        · rintro (inFound | ⟨later, notVisited⟩)
          · exact .inl inFound
          · exact .inr ⟨.inr later, notVisited⟩
        · rintro (inFound | ⟨rfl | later, notVisited⟩)
          · exact .inl inFound
          · exact absurd isVisited notVisited
          · exact .inr ⟨later, notVisited⟩
      · constructor
        · rintro (inFound | ⟨later, notVisited⟩)
          · exact .inl inFound
          · exact .inr ⟨.inr later, notVisited⟩
        · rintro (inFound | ⟨rfl | later, notVisited⟩)
          · exact .inl inFound
          · exact .inl isFound
          · exact .inr ⟨later, notVisited⟩
    · rw [if_neg known]
      rw [mem_append, not_or] at known
      have stillNew : ∀ element ∈ found ++ [target], element ∉ visited := by
        intro element mem
        rcases mem_append.mp mem with inFound | isTarget
        · exact isNew element inFound
        · rw [mem_singleton.mp isTarget]
          exact known.1
      have stillNodup : (found ++ [target]).Nodup :=
        nodup.append (nodup_singleton _) (by simpa using known.2)
      obtain ⟨resultNodup, resultNew, members⟩ :=
        ih (found ++ [target]) stillNew stillNodup
      refine ⟨resultNodup, resultNew, fun element => ?_⟩
      rw [members element, mem_append, mem_singleton, mem_cons]
      constructor
      · rintro ((inFound | rfl) | ⟨later, notVisited⟩)
        · exact .inl inFound
        · exact .inr ⟨.inl rfl, known.1⟩
        · exact .inr ⟨.inr later, notVisited⟩
      · rintro (inFound | ⟨rfl | later, notVisited⟩)
        · exact .inl (.inl inFound)
        · exact .inl (.inr rfl)
        · exact .inr ⟨later, notVisited⟩

theorem fresh_nodup : (fresh visited targets).Nodup :=
  (foldl_fresh [] nofun nodup_nil).1

theorem mem_fresh {element : α} :
    element ∈ fresh visited targets ↔ element ∈ targets ∧ element ∉ visited := by
  obtain ⟨-, -, members⟩ : _ ∧ (∀ element ∈ fresh visited targets, element ∉ visited) ∧
      ∀ element, element ∈ fresh visited targets ↔
        element ∈ [] ∨ (element ∈ targets ∧ element ∉ visited) :=
    foldl_fresh [] nofun nodup_nil
  simpa using members element

end Fresh

/-- A search from `start` that has taken some of its `limit` steps. -/
structure Searched (r : α → α → Prop) (start : α) (limit : Nat) (visited queue : List α)
    (steps : Nat) : Prop where
  nodup : visited.Nodup
  started : start ∈ visited
  reached : ∀ element ∈ visited, ReflTransGen r start element
  waiting : ∀ element ∈ queue, element ∈ visited
  counted : visited.length + steps = limit + queue.length

def Closed (r : α → α → Prop) (goal : α) (visited queue : List α) : Prop :=
  ∀ element ∈ visited, element ∈ queue ∨
    (element ≠ goal ∧ ∀ next, r element next → next ∈ visited)

section Search

variable {visited queue docs : List α} {current : α} {limit steps : Nat}

theorem Searched.initial : Searched r start limit [start] [start] limit where
  nodup := nodup_singleton _
  started := mem_singleton_self _
  reached := by
    intro element mem
    rw [mem_singleton.mp mem]
  waiting := fun _ mem => mem
  counted := Nat.add_comm _ _

theorem Closed.initial : Closed r goal [start] [start] := fun _ mem => .inl mem

theorem Searched.mono (searched : Searched r start limit visited queue steps)
    (larger : ∀ a b, r a b → s a b) : Searched s start limit visited queue steps :=
  { searched with
    reached := fun element mem =>
      ReflTransGen.mono larger _ _ (searched.reached element mem) }

theorem Searched.pop [DecidableEq α] {targets : List α}
    (searched : Searched r start limit visited (current :: queue) (steps + 1))
    (edges : ∀ next ∈ targets, r current next) :
    Searched r start limit (visited ++ fresh visited targets) (queue ++ fresh visited targets)
      steps where
  nodup := by
    apply searched.nodup.append fresh_nodup
    intro element isVisited isFresh
    exact (mem_fresh.mp isFresh).2 isVisited
  started := mem_append_left _ searched.started
  reached := by
    intro element mem
    rcases mem_append.mp mem with isVisited | isFresh
    · exact searched.reached element isVisited
    · have isCurrent := searched.reached current (searched.waiting current mem_cons_self)
      exact isCurrent.tail (edges element (mem_fresh.mp isFresh).1)
  waiting := by
    intro element mem
    rcases mem_append.mp mem with inQueue | isFresh
    · exact mem_append_left _ (searched.waiting element (mem_cons_of_mem _ inQueue))
    · exact mem_append_right _ isFresh
  counted := by
    have before := searched.counted
    simp only [length_cons, length_append] at *
    omega

theorem Closed.pop [DecidableEq α] {targets : List α}
    (closed : Closed r goal visited (current :: queue)) (notGoal : current ≠ goal)
    (edges : ∀ next, r current next → next ∈ targets) :
    Closed r goal (visited ++ fresh visited targets) (queue ++ fresh visited targets) := by
  have covered : ∀ next ∈ targets, next ∈ visited ++ fresh visited targets := by
    intro next mem
    by_cases isVisited : next ∈ visited
    · exact mem_append_left _ isVisited
    · exact mem_append_right _ (mem_fresh.mpr ⟨mem, isVisited⟩)
  intro element mem
  rcases mem_append.mp mem with isVisited | isFresh
  · rcases closed element isVisited with waits | ⟨other, successors⟩
    · rcases mem_cons.mp waits with rfl | inQueue
      · exact .inr ⟨notGoal, fun next edge => covered next (edges next edge)⟩
      · exact .inl (mem_append_left _ inQueue)
    · exact .inr ⟨other, fun next edge => mem_append_left _ (successors next edge)⟩
  · exact .inl (mem_append_right _ isFresh)

theorem Closed.noPath (closed : Closed r goal visited []) (started : start ∈ visited) :
    ¬ ReflTransGen r start goal := by
  intro path
  have all : ∀ element, ReflTransGen r start element → element ∈ visited := by
    intro element reached
    induction reached with
    | refl => exact started
    | tail _ edge ih =>
      rcases closed _ ih with waits | ⟨-, successors⟩
      · cases waits
      · exact successors _ edge
  rcases closed goal (all goal path) with waits | ⟨other, -⟩
  · cases waits
  · exact other rfl

theorem Searched.queue_eq_nil (searched : Searched r start limit visited queue steps)
    (ended : queue = [] ∨ steps = 0) (isStart : start ∈ docs)
    (closed : ∀ element ∈ docs, ∀ next, r element next → next ∈ docs)
    (bounded : docs.length ≤ limit) : queue = [] := by
  rcases ended with empty | spent
  · exact empty
  · have within : visited ⊆ docs := by
      intro element mem
      have path := searched.reached element mem
      clear mem
      induction path with
      | refl => exact isStart
      | tail _ edge ih => exact closed _ ih _ edge
    have few := (subperm_of_subset searched.nodup within).length_le
    have counted := searched.counted
    apply length_eq_zero_iff.mp
    omega

end Search

end Contextra.Library
