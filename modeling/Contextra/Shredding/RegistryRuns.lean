import Contextra.Shredding.RegistryAgrees
import Contextra.Shredding.RegistryLocks

/-!
# Shredded records over all interleavings

Two things can go wrong: an encryption that registers a revoked record anew takes its flag away,
and a derivation and a revocation of groups can wait for each other.  In runs without these a
shredded record stays unreadable, every other one readable, and no call is stuck.
-/

namespace Contextra.Shredding

open Library List

namespace RegistryWorld

/-- The next operation of the call keeps the flags of the records, and closes no cycle of
waiting calls. -/
def NextInOrder (world : RegistryWorld) : Option (ThreadCall × RegistryProgram Unit) → Prop
  | some (task, .call op _) => world.shared.KeepsFlag op ∧ ¬ world.ClosesCycle task op
  | some (_, .done _) => True
  | none => True

def InOrder (world : RegistryWorld) : RegistryEvent → Prop
  | .make _ _ => True
  | .goOn index _ => world.NextInOrder world.tasks[index]?

instance (registry : KeyRegistry) : ∀ op, Decidable (registry.KeepsFlag op)
  | .registerDek _ _ _ => inferInstanceAs (Decidable (_ → _))
  | .beginCall | .logIsRevoked _ | .revokedContains _ | .findKek _ | .lockGroups _
  | .unlockGroups | .deriveKek _ | .fillRandom | .findRecord _ _ | .flagRecord _ _
  | .appendLog _ | .enterRevoked _ _ | .purgeGroup _ | .endCall _ => .isTrue trivial

instance (world : RegistryWorld) (task : ThreadCall) :
    ∀ op, Decidable (world.ClosesCycle task op)
  | .logIsRevoked _ | .enterRevoked _ _ => inferInstanceAs (Decidable (_ ∧ _))
  | .beginCall | .registerDek _ _ _ | .revokedContains _ | .findKek _ | .lockGroups _
  | .unlockGroups | .deriveKek _ | .fillRandom | .findRecord _ _ | .flagRecord _ _
  | .appendLog _ | .purgeGroup _ | .endCall _ => .isFalse not_false

instance (world : RegistryWorld) : ∀ next, Decidable (world.NextInOrder next)
  | some (_, .call _ _) => inferInstanceAs (Decidable (_ ∧ _))
  | some (_, .done _) => .isTrue trivial
  | none => .isTrue trivial

instance (world : RegistryWorld) : ∀ event, Decidable (world.InOrder event)
  | .make _ _ => .isTrue trivial
  | .goOn index _ => inferInstanceAs (Decidable (world.NextInOrder world.tasks[index]?))

end RegistryWorld

namespace RegistryWorld

theorem step_cases {world next : RegistryWorld} {event : RegistryEvent}
    (taken : world.step event = some next) :
    (∃ thread call, event = .make thread call ∧
      next = { world with
        tasks := world.tasks ++ [(⟨thread, call⟩, ThreadCall.program ⟨thread, call⟩)] }) ∨
    ∃ index choice task op rest answer registry, event = .goOn index choice ∧
      world.tasks[index]? = some (task, .call op rest) ∧
      world.shared.perform op choice = some (answer, registry) ∧
      next = ⟨registry, world.history ++ [⟨task, op, answer⟩],
        world.tasks.set index (task, rest answer)⟩ := by
  cases event with
  | make thread call =>
    cases taken
    exact .inl ⟨thread, call, rfl, rfl⟩
  | goOn index choice =>
    have stepped : World.step registryPlatform ThreadCall.program world (.step index choice) =
      some next := taken
    simp only [World.step] at stepped
    split at stepped
    · rename_i task op rest isTask
      split at stepped
      · rename_i answer registry performed
        cases stepped
        exact .inr ⟨index, choice, task, op, rest, answer, registry, rfl, isTask, performed, rfl⟩
      · cases stepped
    · cases stepped

theorem step_locksAgree {world next : RegistryWorld} {event : RegistryEvent}
    (agrees : ∃ phaseOf, world.LocksAgree phaseOf) (inOrder : world.InOrder event)
    (taken : world.step event = some next) : ∃ phaseOf, next.LocksAgree phaseOf := by
  obtain ⟨phaseOf, agrees⟩ := agrees
  rcases step_cases taken with ⟨thread, call, rfl, rfl⟩ |
    ⟨index, choice, task, op, rest, answer, registry, rfl, isTask, performed, rfl⟩
  · exact ⟨phaseOf, agrees.make ⟨thread, call⟩⟩
  · have nextInOrder : world.NextInOrder world.tasks[index]? := inOrder
    rw [isTask] at nextInOrder
    exact ⟨_, agrees.goOn _ isTask nextInOrder.2 performed⟩

variable {events : List RegistryEvent} {world final : RegistryWorld}

theorem run_taskEvents (reached : run step world events = some final) :
    run (World.step registryPlatform ThreadCall.program) world
      (events.map RegistryEvent.toTaskEvent) = some final := by
  induction events generalizing world with
  | nil => exact reached
  | cons event events ih =>
    obtain ⟨next, taken, rest⟩ := run_cons_eq_some.mp reached
    exact run_cons_eq_some.mpr ⟨next, taken, ih rest⟩

/-- The order of a run, as the rule for concurrent tasks speaks of it. -/
def TaskInOrder (world : RegistryWorld) : TaskEvent ThreadCall RegistryChoice → Prop
  | .step index _ => world.NextInOrder world.tasks[index]?
  | _ => True

theorem along_taskEvents (inOrder : Along step InOrder world events) :
    Along (World.step registryPlatform ThreadCall.program) TaskInOrder world
      (events.map RegistryEvent.toTaskEvent) := by
  induction events generalizing world with
  | nil => trivial
  | cons event events ih =>
    refine ⟨?_, fun next taken => ih (inOrder.2 next taken)⟩
    cases event with
    | make thread call => trivial
    | goOn index choice => exact inOrder.1

theorem run_agrees {revocationLog : Option (List Nat)}
    (inOrder : Along step InOrder (opened revocationLog) events)
    (reached : run step (opened revocationLog) events = some final) :
    final.shared.Agrees (revocationLog.getD []) final.history := by
  have safe : final.Safe (registryContract (revocationLog.getD []))
      fun history registry => registry.Agrees (revocationLog.getD []) history := by
    apply World.run_safe (fun history task => program_ensures task history) _
      (fun _ _ agrees => agrees) (KeyRegistry.opened_agrees revocationLog)
      (along_taskEvents inOrder) (run_taskEvents reached)
    intro world index choice task op next answer registry agrees taskInOrder isTask allowed
      performed
    have nextInOrder : NextInOrder world world.tasks[index]? := taskInOrder
    rw [isTask] at nextInOrder
    exact agrees.perform allowed nextInOrder.1 performed
  exact safe.shared

theorem run_locksAgree {revocationLog : Option (List Nat)}
    (inOrder : Along step InOrder (opened revocationLog) events)
    (reached : run step (opened revocationLog) events = some final) :
    ∃ phaseOf, final.LocksAgree phaseOf :=
  run_invariant (fun _ _ _ agrees inOrder taken => step_locksAgree agrees inOrder taken)
    ⟨_, opened_locksAgree revocationLog⟩ inOrder reached

end RegistryWorld

section Lengths

variable (thread groupId recordId : Nat) (payload : EncryptedRecordPayload)

theorem isGroupRevoked_within : Within 2 (isGroupRevoked groupId) := by
  intro inLog
  cases inLog with
  | true => exact within_done 1 true
  | false => exact fun contained => within_done 0 contained

theorem getOrDerive_within : Within 7 (getOrDerive thread groupId) := by
  have derived : Within 3 (deriveLocked groupId) := by
    change Within (2 + 1) (deriveLocked groupId)
    apply Within.bind (isGroupRevoked_within groupId)
    rintro (_ | _)
    · exact fun result => within_done 0 result
    · exact fun _ => within_done 0 _
  change Within (2 + 5) (getOrDerive thread groupId)
  apply Within.bind (isGroupRevoked_within groupId)
  rintro (_ | _)
  · intro found
    cases found with
    | some kek => exact within_done 4 _
    | none => exact fun _ => derived
  · exact within_done 5 _

theorem revokeGroup_within : Within 5 (revokeGroup thread groupId) := by
  change Within (2 + 3) (revokeGroup thread groupId)
  apply Within.bind (isGroupRevoked_within groupId)
  rintro (_ | _)
  · intro appended
    cases appended with
    | error error => exact within_done 2 _
    | ok written =>
      rintro (_ | _)
      · exact within_done 1 _
      · exact fun _ => within_done 0 _
  · exact within_done 3 _

theorem revokeRecord_within : Within 3 (revokeRecord groupId recordId) := by
  change Within (2 + 1) (revokeRecord groupId recordId)
  apply Within.bind (isGroupRevoked_within groupId)
  rintro (_ | _)
  · exact fun flagged => within_done 0 (CallResult.revoked flagged)
  · exact within_done 1 _

theorem encryptRecord_within (plaintext : Bytes) :
    Within 9 (encryptRecord thread groupId recordId plaintext) := by
  change Within (7 + 2) (encryptRecord thread groupId recordId plaintext)
  apply Within.bind (getOrDerive_within thread groupId)
  intro subkey
  cases subkey with
  | error error => exact within_done 2 _
  | ok kek => exact fun _ _ => within_done 0 _

theorem openRecord_within : Within 7 (openRecord thread payload) := by
  change Within (7 + 0) (openRecord thread payload)
  apply Within.bind (getOrDerive_within thread payload.groupId)
  intro subkey
  cases subkey with
  | error error => exact within_done 0 _
  | ok kek => exact within_done 0 _

theorem decryptRecord_within : Within 10 (decryptRecord thread payload) := by
  change Within (2 + 8) (decryptRecord thread payload)
  apply Within.bind (isGroupRevoked_within payload.groupId)
  rintro (_ | _)
  · intro found
    match found with
    | none => exact within_done 7 _
    | some none => exact openRecord_within thread payload
    | some (some true) => exact within_done 7 _
    | some (some false) => exact openRecord_within thread payload
  · exact within_done 8 _

theorem answerCall_within (call : Call) : Within 10 (answerCall thread call) := by
  cases call with
  | encryptRecord groupId recordId plaintext =>
    exact (encryptRecord_within thread groupId recordId plaintext).mono (by decide)
  | decryptRecord payload => exact decryptRecord_within thread payload
  | revokeGroup groupId => exact (revokeGroup_within thread groupId).mono (by decide)
  | revokeRecord groupId recordId => exact (revokeRecord_within groupId recordId).mono (by decide)

def callLength : Nat := 12

theorem program_within (task : ThreadCall) : Within callLength task.program := by
  intro earlier
  have answered : Within (10 + 1) ((answerCall task.thread task.call).bind fun result =>
      ask (.endCall ⟨task.call, result, earlier⟩)) :=
    Within.bind (answerCall_within task.thread task.call) fun _ _ => trivial
  exact answered

end Lengths

namespace RegistryWorld

def Bounded (world : RegistryWorld) : Prop :=
  ∀ task program, (task, program) ∈ world.tasks → Within callLength program

theorem step_bounded {world next : RegistryWorld} {event : RegistryEvent}
    (bounded : world.Bounded) (taken : world.step event = some next) : next.Bounded := by
  rcases step_cases taken with ⟨thread, call, rfl, rfl⟩ |
    ⟨index, choice, task, op, rest, answer, registry, rfl, isTask, performed, rfl⟩
  · intro task program isTask
    rcases mem_append.mp isTask with old | new
    · exact bounded task program old
    · cases mem_singleton.mp new
      exact program_within ⟨thread, call⟩
  · intro task' program isTask'
    rcases mem_or_eq_of_mem_set isTask' with old | new
    · exact bounded task' program old
    · cases new
      have within : Within callLength (.call op rest) :=
        bounded task _ (mem_of_getElem? isTask)
      exact Within.mono (within answer) (Nat.le_succ _)

theorem Bounded.ends {world final : RegistryWorld} (bounded : world.Bounded)
    {steps : List (Nat × RegistryChoice)}
    (reached : run step world (steps.map fun step => .goOn step.1 step.2) = some final) :
    steps.length ≤ world.tasks.length * callLength := by
  have asTasks := run_taskEvents reached
  rw [map_map] at asTasks
  have within (index : Nat) (task : ThreadCall) (program : RegistryProgram Unit)
      (isTask : world.tasks[index]? = some (task, program)) : Within callLength program :=
    bounded task program (mem_of_getElem? isTask)
  have length := World.run_within within asTasks
  rwa [Finset.sum_const, Finset.card_range, smul_eq_mul] at length

/-- Every decryption that has returned is right; some call can go on until all have returned,
and without new calls that is soon. -/
structure Shreds (logged : List Nat) (world : RegistryWorld) : Prop where
  right : ∀ returned ∈ world.shared.returned, returned.Right logged world.history
  goesOn : world.GoesOn
  ends : ∀ (steps : List (Nat × RegistryChoice)) final,
    run step world (steps.map fun step => .goOn step.1 step.2) = some final →
      steps.length ≤ world.tasks.length * callLength

/-- In every run whose steps are in order. -/
theorem run_shreds {revocationLog : Option (List Nat)} {events : List RegistryEvent}
    {final : RegistryWorld} (inOrder : Along step InOrder (opened revocationLog) events)
    (reached : run step (opened revocationLog) events = some final) :
    final.Shreds (revocationLog.getD []) := by
  obtain ⟨phaseOf, locksAgree⟩ := run_locksAgree inOrder reached
  have bounded : final.Bounded :=
    run_preserves Bounded (fun _ _ _ bounded taken => step_bounded bounded taken)
      (fun _ _ isTask => absurd isTask not_mem_nil) reached
  constructor
  · exact fun returned isReturned => ((run_agrees inOrder reached).returned returned isReturned).2
  · exact locksAgree.goesOn (.copied [] 0 32, .copied [] 0 12)
  · exact fun _ _ goes => bounded.ends goes

/-- A call with so many operations under one choice, and what follows. -/
def goOn (index count : Nat) (choice : RegistryChoice) : List RegistryEvent :=
  replicate count (.goOn index choice)

def firstKey : Key := .copied [1] 0 32

def secondKey : Key := .copied [3] 0 32

def thirdKey : Key := .copied [4] 0 32

def firstNonce : Nonce := .copied [2] 0 12

def encryptFirst : List RegistryEvent :=
  .make 0 (.encryptRecord 1 1 [7]) :: goOn 0 8 (.key firstKey) ++
    goOn 0 3 (.keys secondKey firstNonce firstNonce)

def firstPayload : EncryptedRecordPayload :=
  ⟨1, 1, ⟨secondKey, firstNonce, [7]⟩, firstNonce, ⟨firstKey, firstNonce, secondKey⟩, firstNonce⟩

theorem run_shreds_decrypted :
    ∃ final, run step (opened none) (encryptFirst ++
        .make 0 (.decryptRecord firstPayload) :: goOn 1 8 .fails) = some final ∧
      final.shared.returned.map Returned.result = [.payload firstPayload, .plaintext [7]] ∧
      final.Shreds [] := by
  have inOrder : Along step InOrder (opened none) (encryptFirst ++
      .make 0 (.decryptRecord firstPayload) :: goOn 1 8 .fails) := by decide +kernel
  have results : (run step (opened none) (encryptFirst ++
      .make 0 (.decryptRecord firstPayload) :: goOn 1 8 .fails)).map
        (fun world => world.shared.returned.map Returned.result) =
      some [.payload firstPayload, .plaintext [7]] := by decide +kernel
  obtain ⟨final, reached, isResult⟩ := Option.map_eq_some_iff.mp results
  exact ⟨final, reached, isResult, run_shreds inOrder reached⟩

/-- The record is revoked and encrypted again, and the payload from before is decrypted. -/
def decryptRevoked : List RegistryEvent :=
  encryptFirst ++ .make 0 (.revokeRecord 1 1) :: goOn 1 5 .fails ++
    .make 0 (.encryptRecord 1 1 [8]) :: goOn 2 7 (.keys thirdKey firstNonce firstNonce) ++
    .make 0 (.decryptRecord firstPayload) :: goOn 3 8 .fails

theorem decryptRevoked_readable :
    ¬ ∀ (revocationLog : Option (List Nat)) (events : List RegistryEvent) (final : RegistryWorld),
      run step (opened revocationLog) events = some final →
        final.Shreds (revocationLog.getD []) := by
  intro shreds
  have results : (run step (opened none) decryptRevoked).map
      (fun world => world.shared.returned.find? fun returned =>
        returned.call = .decryptRecord firstPayload) =
      some (some ⟨.decryptRecord firstPayload, .plaintext [7],
        [(.encryptRecord 1 1 [7], .payload firstPayload), (.revokeRecord 1 1, .revoked true),
          (.encryptRecord 1 1 [8], .payload
            ⟨1, 1, ⟨thirdKey, firstNonce, [8]⟩, firstNonce, ⟨firstKey, firstNonce, thirdKey⟩,
              firstNonce⟩)]⟩) := by decide +kernel
  obtain ⟨final, reached, isReturned⟩ := Option.map_eq_some_iff.mp results
  have right := (shreds none decryptRevoked final reached).right _
    (mem_of_find?_eq_some isReturned)
  obtain ⟨error, isError⟩ := right.shredded firstPayload rfl (.inr (by decide))
  cases isError

end RegistryWorld

end Contextra.Shredding
