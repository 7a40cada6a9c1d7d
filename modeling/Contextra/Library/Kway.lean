import Mathlib

/-!
# Merging sorted sources

The sources are lists; a heap holds the first element of each.  `firstHead` is the
heap's choice, the later source winning a tie, and `drain` takes elements until
every source is empty.  Draining sorted sources gives a sorted permutation of all
their elements.
-/

namespace Contextra.Library

open List

universe u

variable {α : Type u} (before : α → α → Prop) [DecidableRel before]

def firstHead : List (List α) → Option (ℕ × α)
  | [] => none
  | [] :: rest => (firstHead rest).map fun hit => (hit.1 + 1, hit.2)
  | (head :: _) :: rest =>
    match firstHead rest with
    | none => some (0, head)
    | some (index, other) => if before head other then some (0, head) else some (index + 1, other)

omit before [DecidableRel before] in
def advance (sources : List (List α)) (index : ℕ) : List (List α) :=
  sources.modify index List.tail

def drain : ℕ → List (List α) → List α
  | 0, _ => []
  | fuel + 1, sources =>
    match firstHead before sources with
    | none => []
    | some (index, head) => head :: drain fuel (advance sources index)

variable {before}

variable {sources : List (List α)}

theorem firstHead_eq_none :
    firstHead before sources = none ↔ ∀ source ∈ sources, source = [] := by
  induction sources with
  | nil => simp [firstHead]
  | cons source rest ih =>
    cases source with
    | nil => simpa [firstHead] using ih
    | cons head tail =>
      simp only [firstHead, mem_cons, forall_eq_or_imp, reduceCtorEq, false_and,
        iff_false]
      split
      · simp
      · split <;> simp

variable {index : ℕ} {head : α}

theorem firstHead_getElem? (chosen : firstHead before sources = some (index, head)) :
    ∃ tail, sources[index]? = some (head :: tail) := by
  induction sources generalizing index with
  | nil => simp [firstHead] at chosen
  | cons source rest ih =>
    cases source with
    | nil =>
      simp only [firstHead, Option.map_eq_some_iff, Prod.mk.injEq, Prod.exists] at chosen
      obtain ⟨inner, other, found, rfl, rfl⟩ := chosen
      simpa using ih found
    | cons first tail =>
      simp only [firstHead] at chosen
      split at chosen
      · simp only [Option.some.injEq, Prod.mk.injEq] at chosen
        obtain ⟨rfl, rfl⟩ := chosen
        exact ⟨tail, rfl⟩
      · rename_i inner other found
        split at chosen
        · simp only [Option.some.injEq, Prod.mk.injEq] at chosen
          obtain ⟨rfl, rfl⟩ := chosen
          exact ⟨tail, rfl⟩
        · simp only [Option.some.injEq, Prod.mk.injEq] at chosen
          obtain ⟨rfl, rfl⟩ := chosen
          simpa using ih found

theorem firstHead_minimal (trans : ∀ a b c, before a b → before b c → before a c)
    (irrefl : ∀ a, ¬ before a a)
    (chosen : firstHead before sources = some (index, head)) {other : α} {tail : List α}
    (mem : other :: tail ∈ sources) : ¬ before other head := by
  induction sources generalizing index head with
  | nil => simp at mem
  | cons source rest ih =>
    cases source with
    | nil =>
      simp only [firstHead, Option.map_eq_some_iff, Prod.mk.injEq, Prod.exists] at chosen
      obtain ⟨inner, found, isFound, rfl, rfl⟩ := chosen
      exact ih isFound (by simpa using mem)
    | cons first firstTail =>
      simp only [firstHead] at chosen
      split at chosen
      · rename_i empty
        simp only [Option.some.injEq, Prod.mk.injEq] at chosen
        obtain ⟨rfl, rfl⟩ := chosen
        rcases mem_cons.mp mem with same | inRest
        · obtain ⟨rfl, rfl⟩ := cons_eq_cons.mp same
          exact irrefl other
        · exact absurd (firstHead_eq_none.mp empty _ inRest) (by simp)
      · rename_i inner found isFound
        split at chosen
        · rename_i earlier
          simp only [Option.some.injEq, Prod.mk.injEq] at chosen
          obtain ⟨rfl, rfl⟩ := chosen
          rcases mem_cons.mp mem with same | inRest
          · obtain ⟨rfl, rfl⟩ := cons_eq_cons.mp same
            exact irrefl other
          · exact fun sooner => ih isFound inRest
              (trans other first found sooner earlier)
        · rename_i notEarlier
          simp only [Option.some.injEq, Prod.mk.injEq] at chosen
          obtain ⟨rfl, rfl⟩ := chosen
          rcases mem_cons.mp mem with same | inRest
          · obtain ⟨rfl, rfl⟩ := cons_eq_cons.mp same
            exact notEarlier
          · exact ih isFound inRest

theorem firstHead_first (trans : ∀ a b c, before a b → before b c → before a c)
    (irrefl : ∀ a, ¬ before a a)
    (sorted : ∀ source ∈ sources, source.Pairwise before)
    (chosen : firstHead before sources = some (index, head)) {other : α}
    (mem : other ∈ sources.flatten) : ¬ before other head := by
  obtain ⟨source, inSources, inSource⟩ := mem_flatten.mp mem
  cases source with
  | nil => simp at inSource
  | cons first tail =>
    have minimal := firstHead_minimal trans irrefl chosen inSources
    rcases mem_cons.mp inSource with rfl | inTail
    · exact minimal
    · have later := (pairwise_cons.mp (sorted _ inSources)).1 other inTail
      exact fun sooner => minimal (trans first other head later sooner)

omit [DecidableRel before] in
theorem sorted_advance (sorted : ∀ source ∈ sources, source.Pairwise before) (index : ℕ) :
    ∀ source ∈ advance sources index, source.Pairwise before := by
  intro source mem
  obtain ⟨position, found⟩ := mem_iff_getElem?.mp mem
  rw [advance, getElem?_modify] at found
  obtain ⟨original, isOriginal, rfl⟩ := Option.map_eq_some_iff.mp found
  have ordered := sorted original (mem_of_getElem? isOriginal)
  split
  · exact ordered.tail
  · exact ordered

omit before [DecidableRel before] in
theorem flatten_advance {tail : List α} (found : sources[index]? = some (head :: tail)) :
    List.Perm sources.flatten (head :: (advance sources index).flatten) := by
  induction sources generalizing index with
  | nil => simp at found
  | cons source rest ih =>
    cases index with
    | zero =>
      simp only [getElem?_cons_zero, Option.some.injEq] at found
      subst found
      exact List.Perm.refl _
    | succ index =>
      simp only [getElem?_cons_succ] at found
      have moved := (ih found).append_left source
      exact moved.trans perm_middle

theorem drain_perm {fuel : ℕ} (enough : sources.flatten.length ≤ fuel) :
    List.Perm (drain before fuel sources) sources.flatten := by
  induction fuel generalizing sources with
  | zero =>
    have empty : sources.flatten = [] := length_eq_zero_iff.mp (Nat.le_zero.mp enough)
    rw [empty]
    exact List.Perm.refl _
  | succ fuel ih =>
    simp only [drain]
    split
    · rename_i empty
      have nothing : sources.flatten = [] :=
        flatten_eq_nil_iff.mpr (firstHead_eq_none.mp empty)
      rw [nothing]
    · rename_i index head chosen
      obtain ⟨tail, found⟩ := firstHead_getElem? chosen
      have taken := flatten_advance found
      have shorter := taken.length_eq
      simp only [length_cons] at shorter
      exact ((ih (by omega)).cons head).trans taken.symm

theorem drain_sorted (trans : ∀ a b c, before a b → before b c → before a c)
    (irrefl : ∀ a, ¬ before a a) {fuel : ℕ} (sorted : ∀ source ∈ sources, source.Pairwise before)
    (enough : sources.flatten.length ≤ fuel) :
    (drain before fuel sources).Pairwise (fun left right => ¬ before right left) := by
  induction fuel generalizing sources with
  | zero => exact List.Pairwise.nil
  | succ fuel ih =>
    simp only [drain]
    split
    · exact List.Pairwise.nil
    · rename_i index head chosen
      obtain ⟨tail, found⟩ := firstHead_getElem? chosen
      have taken := flatten_advance found
      have shorter := taken.length_eq
      simp only [length_cons] at shorter
      have rest : (advance sources index).flatten.length ≤ fuel := by omega
      refine pairwise_cons.mpr ⟨fun other inRest => ?_,
        ih (sorted_advance sorted index) rest⟩
      have remaining := (drain_perm rest).mem_iff.mp inRest
      exact firstHead_first trans irrefl sorted chosen
        (taken.mem_iff.mpr (mem_cons_of_mem head remaining))

end Contextra.Library
