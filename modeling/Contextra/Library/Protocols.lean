import Contextra.Library.Tasks

/-!
# Protocols of programs

A protocol says which operations a program may perform in a phase, and which phase each of
them, with its answer, leads to.  A program that obeys a protocol does so whatever answers
it gets; of a running program, its phase then says what it can still do.
-/

namespace Contextra.Library

open List

/-- Which operations a phase allows, and the phase after an operation and its answer. -/
structure Protocol (Phase Op : Type) (Answer : Op → Type) where
  allows : Phase → Op → Prop
  advance : Phase → (op : Op) → Answer op → Phase

section Protocols

variable {Phase Op : Type} {Answer : Op → Type} {α β ε : Type}

/-- Every operation is one that its phase allows, and the program ends in a phase and with a
result that go together. -/
def Obeys (protocol : Protocol Phase Op Answer) (post : Phase → α → Prop) :
    Phase → Program Op Answer α → Prop
  | phase, .done result => post phase result
  | phase, .call op next => protocol.allows phase op ∧
      ∀ answer, Obeys protocol post (protocol.advance phase op answer) (next answer)

def Uses (allowed : Op → Prop) : Program Op Answer α → Prop
  | .done _ => True
  | .call op next => allowed op ∧ ∀ answer, Uses allowed (next answer)

variable {protocol : Protocol Phase Op Answer} {phase : Phase}

variable {program : Program Op Answer α}

theorem Obeys.mono {post weaker : Phase → α → Prop} (obeys : Obeys protocol post phase program)
    (weakens : ∀ after result, post after result → weaker after result) :
    Obeys protocol weaker phase program := by
  induction program generalizing phase with
  | done result => exact weakens phase result obeys
  | call op next ih =>
    exact ⟨obeys.1, fun answer => ih answer (obeys.2 answer)⟩

variable {next : α → Program Op Answer β}

theorem Obeys.bind {post : Phase → β → Prop} (obeys : Obeys protocol (fun after result => Obeys protocol post after (next result)) phase
      program) : Obeys protocol post phase (program.bind next) := by
  induction program generalizing phase with
  | done result => exact obeys
  | call op continuation ih =>
    exact ⟨obeys.1, fun answer => ih answer (obeys.2 answer)⟩

theorem Obeys.bindExcept {post : Phase → Except ε β → Prop}
    {program : ExceptT ε (Program Op Answer) α} {next : α → ExceptT ε (Program Op Answer) β}
    (obeys : Obeys protocol
      (fun after result =>
        match result with
        | .ok value => Obeys protocol post after (next value).run
        | .error error => post after (.error error)) phase program.run) :
    Obeys protocol post phase (program >>= next).run := by
  apply Obeys.bind
  apply obeys.mono
  intro after result holds
  cases result with
  | ok value => exact holds
  | error error => exact holds

theorem Uses.mono {allowed wider : Op → Prop}
    (uses : Uses allowed program) (widens : ∀ op, allowed op → wider op) : Uses wider program := by
  induction program with
  | done result => trivial
  | call op next ih =>
    exact ⟨widens op uses.1, fun answer => ih answer (uses.2 answer)⟩

variable {allowed : Op → Prop}

theorem Uses.bind (first : Uses allowed program)
    (second : ∀ result, Uses allowed (next result)) : Uses allowed (program.bind next) := by
  induction program with
  | done result => exact second result
  | call op continuation ih =>
    exact ⟨first.1, fun answer => ih answer (first.2 answer)⟩

theorem Uses.bindExcept {program : ExceptT ε (Program Op Answer) α}
    {next : α → ExceptT ε (Program Op Answer) β} (first : Uses allowed program.run)
    (second : ∀ value, Uses allowed (next value).run) : Uses allowed (program >>= next).run := by
  apply Uses.bind first
  intro result
  cases result with
  | ok value => exact second value
  | error error => trivial

theorem Uses.obeys (uses : Uses allowed program)
    (allows : ∀ op, allowed op → protocol.allows phase op)
    (stays : ∀ op answer, allowed op → protocol.advance phase op answer = phase) :
    Obeys protocol (fun after _ => after = phase) phase program := by
  induction program with
  | done result => rfl
  | call op next ih =>
    refine ⟨allows op uses.1, fun answer => ?_⟩
    rw [stays op answer uses.1]
    exact ih answer (uses.2 answer)

/-- The program performs at most so many operations, whatever answers it gets. -/
def Within : Nat → Program Op Answer α → Prop
  | _, .done _ => True
  | 0, .call _ _ => False
  | bound + 1, .call _ next => ∀ answer, Within bound (next answer)

theorem within_done (bound : Nat) (result : α) :
    Within bound (.done result : Program Op Answer α) := by
  cases bound <;> trivial

theorem Within.mono {bound wider : Nat}
    (within : Within bound program) (bounded : bound ≤ wider) : Within wider program := by
  induction program generalizing bound wider with
  | done result => exact within_done wider result
  | call op next ih =>
    cases bound with
    | zero => exact within.elim
    | succ bound =>
      obtain ⟨wider, rfl⟩ := Nat.exists_eq_add_of_le' (Nat.le_of_add_left_le bounded)
      intro answer
      exact ih answer (within answer) (Nat.le_of_succ_le_succ bounded)

theorem Within.bind {first second : Nat} (within : Within first program)
    (rest : ∀ result, Within second (next result)) :
    Within (first + second) (program.bind next) := by
  induction program generalizing first with
  | done result => exact (rest result).mono (Nat.le_add_left _ _)
  | call op continuation ih =>
    cases first with
    | zero => exact within.elim
    | succ first =>
      rw [Nat.succ_add]
      exact fun answer => ih answer (within answer)

end Protocols

section Steps

variable {Task Op State Choice : Type} {Answer : Op → Type}
  {platform : Platform Op Answer State Choice} {code : Task → Program Op Answer Unit}

theorem World.run_within {world final : World Task Op Answer State} {boundOf : Nat → Nat}
    {steps : List (Nat × Choice)}
    (within : ∀ (index : Nat) task program, world.tasks[index]? = some (task, program) →
      Within (boundOf index) program)
    (reached : run (World.step platform code) world
      (steps.map fun step => .step step.1 step.2) = some final) :
    steps.length ≤ ∑ index ∈ Finset.range world.tasks.length, boundOf index := by
  induction steps generalizing world boundOf with
  | nil => exact Nat.zero_le _
  | cons step steps ih =>
    obtain ⟨next, taken, rest⟩ := run_cons_eq_some.mp reached
    simp only [World.step] at taken
    split at taken
    · rename_i task op continuation isTask
      split at taken
      · rename_i answer shared _
        cases taken
        have bounded : step.1 < world.tasks.length := (List.getElem?_eq_some_iff.mp isTask).1
        have isMember : step.1 ∈ Finset.range world.tasks.length := Finset.mem_range.mpr bounded
        have own := within step.1 task _ isTask
        obtain ⟨bound, isBound⟩ : ∃ bound, boundOf step.1 = bound + 1 := by
          cases isBound : boundOf step.1 with
          | zero =>
            rw [isBound] at own
            exact own.elim
          | succ bound => exact ⟨bound, rfl⟩
        rw [isBound] at own
        have within' : ∀ (index : Nat) other program,
            (world.tasks.set step.1 (task, continuation answer))[index]? = some (other, program) →
              Within (Function.update boundOf step.1 bound index) program := by
          intro index other program isOther
          by_cases same : step.1 = index
          · rw [← same, getElem?_set_self bounded] at isOther
            cases isOther
            rw [← same, Function.update_self]
            exact own answer
          · rw [getElem?_set_ne same] at isOther
            rw [Function.update_of_ne (Ne.symm same)]
            exact within index other program isOther
        have later := ih within' rest
        rw [length_set, Finset.sum_update_of_mem isMember] at later
        rw [Finset.sum_eq_add_sum_sdiff_singleton_of_mem isMember, isBound, length_cons]
        omega
      · cases taken
    · cases taken

end Steps

end Contextra.Library
