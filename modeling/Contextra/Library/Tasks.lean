import Contextra.Library.Run

/-!
# Concurrent tasks

Programs that perform operations on a shared state.  Any number of tasks run at once, one operation
at a time and in any order, and a crash ends all of them.  `Ensures` says what a program guarantees
whatever the others do: each operation is allowed by what has happened before it, provided that the
answers it gets are reliable.
-/

namespace Contextra.Library

open List

inductive Program (Op : Type) (Answer : Op → Type) (α : Type) where
  | done (result : α)
  | call (op : Op) (next : Answer op → Program Op Answer α)

namespace Program

variable {Op : Type} {Answer : Op → Type} {α β ε : Type}

def bind : Program Op Answer α → (α → Program Op Answer β) → Program Op Answer β
  | done result, f => f result
  | call op next, f => call op fun answer => (next answer).bind f

instance : Monad (Program Op Answer) where
  pure := done
  bind := bind

def invoke (op : Op) : Program Op Answer (Answer op) := call op done

def ignoring (program : Program Op Answer α) : Program Op Answer Unit :=
  program.bind fun _ => done ()

end Program

structure Performed (Task : Type) (Op : Type) (Answer : Op → Type) where
  task : Task
  op : Op
  answer : Answer op

/-- What an operation does to the shared state, by a choice of the environment, and what of the
state survives a crash. -/
structure Platform (Op : Type) (Answer : Op → Type) (State Choice : Type) where
  perform : State → (op : Op) → Choice → Option (Answer op × State)
  crash : State → State

structure World (Task Op : Type) (Answer : Op → Type) (State : Type) where
  shared : State
  history : List (Performed Task Op Answer)
  tasks : List (Task × Program Op Answer Unit)

inductive TaskEvent (Task Choice : Type) where
  | start (task : Task)
  | step (index : Nat) (choice : Choice)
  | crash

section Steps

variable {Task Op State Choice : Type} {Answer : Op → Type}

def World.initial (shared : State) : World Task Op Answer State := ⟨shared, [], []⟩

/-- A task is started, performs its next operation, or is ended by a crash with all others. -/
def World.step (platform : Platform Op Answer State Choice) (code : Task → Program Op Answer Unit)
    (world : World Task Op Answer State) : TaskEvent Task Choice →
      Option (World Task Op Answer State)
  | .start task => some { world with tasks := world.tasks ++ [(task, code task)] }
  | .step index choice =>
    match world.tasks[index]? with
    | some (task, .call op next) =>
      match platform.perform world.shared op choice with
      | some (answer, shared) =>
        some ⟨shared, world.history ++ [⟨task, op, answer⟩],
          world.tasks.set index (task, next answer)⟩
      | none => none
    | _ => none
  | .crash => some ⟨platform.crash world.shared, world.history, []⟩

end Steps

/-- What tasks may do after a history, and which answers they may count on. -/
structure Contract (Task Op : Type) (Answer : Op → Type) where
  allows : List (Performed Task Op Answer) → Task → Op → Prop
  reliable : List (Performed Task Op Answer) → (op : Op) → Answer op → Prop

section Guarantees

variable {Task Op : Type} {Answer : Op → Type} {α β ε : Type}
  (contract : Contract Task Op Answer) (task : Task)

/-- However the history grows between the operations of the program, each of them is allowed,
and what it ends in has the property. -/
def Ensures : Program Op Answer α → (List (Performed Task Op Answer) → α → Prop) →
    List (Performed Task Op Answer) → Prop
  | .done result, post, history => post history result
  | .call op next, post, history => ∀ later, history ⊆ later →
      contract.allows later task op ∧ ∀ answer, contract.reliable later op answer →
        Ensures (next answer) post (later ++ [⟨task, op, answer⟩])

variable {contract task} {program : Program Op Answer α}
  {post : List (Performed Task Op Answer) → α → Prop} {history : List (Performed Task Op Answer)}

theorem Ensures.mono {weaker : List (Performed Task Op Answer) → α → Prop}
    (ensures : Ensures contract task program post history)
    (weakens : ∀ later result, history ⊆ later → post later result → weaker later result) :
    Ensures contract task program weaker history := by
  induction program generalizing history with
  | done result => exact weakens history result (List.Subset.refl _) ensures
  | call op next ih =>
    intro later grown
    obtain ⟨allowed, answers⟩ := ensures later grown
    refine ⟨allowed, fun answer reliable => ?_⟩
    apply ih answer (answers answer reliable)
    intro final result grownAgain holds
    apply weakens final result _ holds
    exact List.Subset.trans (List.Subset.trans grown (subset_append_left _ _)) grownAgain

theorem Ensures.bind {next : α → Program Op Answer β}
    {final : List (Performed Task Op Answer) → β → Prop}
    (first : Ensures contract task program post history)
    (second : ∀ later result, history ⊆ later → post later result →
      Ensures contract task (next result) final later) :
    Ensures contract task (program.bind next) final history := by
  induction program generalizing history with
  | done result => exact second history result (List.Subset.refl _) first
  | call op continuation ih =>
    intro later grown
    obtain ⟨allowed, answers⟩ := first later grown
    refine ⟨allowed, fun answer reliable => ?_⟩
    apply ih answer (answers answer reliable)
    intro later' result grownAgain holds
    apply second later' result _ holds
    exact List.Subset.trans (List.Subset.trans grown (subset_append_left _ _)) grownAgain

theorem Ensures.invoke {op : Op} {post : List (Performed Task Op Answer) → Answer op → Prop}
    (allowed : ∀ later, history ⊆ later → contract.allows later task op)
    (answered : ∀ later answer, history ⊆ later → contract.reliable later op answer →
      post (later ++ [⟨task, op, answer⟩]) answer) :
    Ensures contract task (Program.invoke op) post history := fun later grown =>
  ⟨allowed later grown, fun answer reliable => answered later answer grown reliable⟩

/-- A program whose end promises nothing keeps its guarantee while others go on. -/
theorem Ensures.grow {later : List (Performed Task Op Answer)}
    (ensures : Ensures contract task program (fun _ _ => True) history)
    (grown : history ⊆ later) : Ensures contract task program (fun _ _ => True) later := by
  cases program with
  | done result => trivial
  | call op next => exact fun final grownAgain => ensures final (List.Subset.trans grown grownAgain)

/-- A property of the result, where the program ends without an error. -/
def Yields (post : List (Performed Task Op Answer) → α → Prop) :
    List (Performed Task Op Answer) → Except ε α → Prop :=
  fun history result => ∀ value, result = .ok value → post history value

theorem Ensures.bindExcept {program : ExceptT ε (Program Op Answer) α}
    {next : α → ExceptT ε (Program Op Answer) β}
    {final : List (Performed Task Op Answer) → β → Prop}
    (first : Ensures contract task program.run (Yields post) history)
    (second : ∀ later value, history ⊆ later → post later value →
      Ensures contract task (next value).run (Yields final) later) :
    Ensures contract task (program >>= next).run (Yields final) history := by
  apply Ensures.bind first
  intro later result grown yields
  cases result with
  | ok value => exact second later value grown (yields value rfl)
  | error error => exact fun value isOk => nomatch isOk

end Guarantees

section Safety

variable {Task Op State Choice : Type} {Answer : Op → Type}
  {platform : Platform Op Answer State Choice} {code : Task → Program Op Answer Unit}
  {contract : Contract Task Op Answer}
  {invariant : List (Performed Task Op Answer) → State → Prop}
  {admissible : World Task Op Answer State → TaskEvent Task Choice → Prop}

/-- The invariant of the shared state, and the guarantee of every task. -/
structure World.Safe (contract : Contract Task Op Answer)
    (invariant : List (Performed Task Op Answer) → State → Prop)
    (world : World Task Op Answer State) : Prop where
  shared : invariant world.history world.shared
  tasks : ∀ task program, (task, program) ∈ world.tasks →
    Ensures contract task program (fun _ _ => True) world.history

/-- The rule for concurrent tasks: programs keep to the contract, and allowed operations, with
reliable answers, and crashes keep the invariant. -/
theorem World.run_safe
    (starts : ∀ history task, Ensures contract task (code task) (fun _ _ => True) history)
    (performs : ∀ (world : World Task Op Answer State) index choice task op next answer shared,
      invariant world.history world.shared → admissible world (.step index choice) →
      world.tasks[index]? = some (task, .call op next) → contract.allows world.history task op →
      platform.perform world.shared op choice = some (answer, shared) →
        contract.reliable world.history op answer ∧
          invariant (world.history ++ [⟨task, op, answer⟩]) shared)
    (crashes : ∀ history shared, invariant history shared →
      invariant history (platform.crash shared))
    {shared : State} (start : invariant [] shared) {events : List (TaskEvent Task Choice)}
    {final : World Task Op Answer State}
    (guarded : Along (World.step platform code) admissible (World.initial shared) events)
    (reached : run (World.step platform code) (World.initial shared) events = some final) :
    final.Safe contract invariant := by
  refine run_invariant ?_ ?_ guarded reached
  · intro world event next safe permitted taken
    cases event with
    | start task =>
      cases taken
      refine ⟨safe.shared, fun other program mem => ?_⟩
      rcases mem_append.mp mem with old | new
      · exact safe.tasks other program old
      · cases mem_singleton.mp new
        exact starts world.history task
    | step index choice =>
      simp only [World.step] at taken
      split at taken
      · rename_i task op continuation isTask
        split at taken
        · rename_i answer shared' performed
          cases taken
          have own := safe.tasks task _ (mem_of_getElem? isTask)
          obtain ⟨allowed, answers⟩ := own world.history (List.Subset.refl _)
          obtain ⟨reliable, kept⟩ := performs world index choice task op continuation answer
            shared' safe.shared permitted isTask allowed performed
          refine ⟨kept, fun other program mem => ?_⟩
          rcases mem_or_eq_of_mem_set mem with old | new
          · exact (safe.tasks other program old).grow (subset_append_left _ _)
          · cases new
            exact answers answer reliable
        · cases taken
      · cases taken
    | crash =>
      cases taken
      exact ⟨crashes _ _ safe.shared, fun task program mem => nomatch mem⟩
  · exact ⟨start, fun task program mem => nomatch mem⟩

end Safety

end Contextra.Library

/-!
## A mutex that is not reentrant

Such a mutex does not know who waits for it: a waiter goes on when the mutex is free,
and only its holder frees it.  A holder that waits for it therefore waits for itself.
-/

namespace Contextra.Library

open List

universe u v w

variable {State : Type u} {Event : Type v} {Task : Type w}

structure MutexDiscipline (step : State → Event → Option State) (actor : Event → Task)
    (holder : State → Option Task) (waits : State → Task → Prop) : Prop where
  /-- Another task's event leaves the holder. -/
  released : ∀ state event next task, step state event = some next →
    holder state = some task → actor event ≠ task → holder next = some task
  /-- While the mutex is held a waiting task has no event. -/
  blocked : ∀ state event, waits state (actor event) → holder state ≠ none →
    step state event = none
  /-- Another task's event does not end the wait. -/
  patient : ∀ state event next task, step state event = some next → waits state task →
    actor event ≠ task → waits next task

theorem MutexDiscipline.selfDeadlock {step : State → Event → Option State}
    {actor : Event → Task} {holder : State → Option Task} {waits : State → Task → Prop}
    (discipline : MutexDiscipline step actor holder waits) {state final : State}
    {events : List Event} {task : Task} (holds : holder state = some task)
    (waiting : waits state task) (finished : run step state events = some final) :
    holder final = some task ∧ waits final task := by
  refine run_preserves (fun state => holder state = some task ∧ waits state task)
    (fun state event next stuck taken => ?_) ⟨holds, waiting⟩ finished
  have notOwn : actor event ≠ task := by
    rintro rfl
    have disabled := discipline.blocked state event stuck.2 (by simp [stuck.1])
    rw [disabled] at taken
    cases taken
  exact ⟨discipline.released state event next task taken stuck.1 notOwn,
    discipline.patient state event next task taken stuck.2 notOwn⟩

end Contextra.Library
