import Contextra.Library.Protocols
import Contextra.Shredding.Registry

/-!
# The locks of the registry

`get_or_derive` looks at the revoked groups while it holds the groups, and `revoke_group` takes
the groups while it holds the revoked groups.  Two such calls can wait for each other; where no
two do, some call can always go on.
-/

namespace Contextra.Shredding

open Library List Function

/-- What a call holds, and how far it is with it. -/
inductive LockPhase where
  | free
  | holding
  | waiting
  | leaving
  | purging
  deriving DecidableEq

namespace LockPhase

def HoldsGroups : LockPhase → Prop
  | holding | waiting | leaving => True
  | free | purging => False

/-- An operation of a call of the thread that holds nothing. -/
def Alone (thread : Nat) : RegistryOp → Prop
  | .unlockGroups | .deriveKek _ | .purgeGroup _ => False
  | .lockGroups locking => locking = thread
  | _ => True

def Allows (thread : Nat) : LockPhase → RegistryOp → Prop
  | free, op => Alone thread op
  | holding, .logIsRevoked _ => True
  | waiting, .revokedContains _ => True
  | leaving, .unlockGroups | leaving, .deriveKek _ => True
  | purging, .purgeGroup _ => True
  | _, _ => False

def advance : LockPhase → (op : RegistryOp) → op.Answer → LockPhase
  | _, .lockGroups _, _ => holding
  | _, .enterRevoked _ _, true => purging
  | holding, .logIsRevoked _, true => leaving
  | holding, .logIsRevoked _, false => waiting
  | waiting, .revokedContains _, _ => leaving
  | _, .unlockGroups, _ | _, .deriveKek _, _ | _, .purgeGroup _, _ => free
  | phase, _, _ => phase

end LockPhase

def lockProtocol (thread : Nat) : Protocol LockPhase RegistryOp RegistryOp.Answer where
  allows := LockPhase.Allows thread
  advance := LockPhase.advance

/-- The program takes its locks in order, and ends without any. -/
abbrev ObeysLocks {α : Type} (thread : Nat) (phase : LockPhase) (program : RegistryProgram α) :
    Prop :=
  Obeys (lockProtocol thread) (fun after _ => after = .free) phase program

section Programs

variable {thread : Nat}

theorem isGroupRevoked_free (groupId : Nat) : ObeysLocks thread .free (isGroupRevoked groupId) := by
  refine ⟨trivial, fun inLog => ?_⟩
  cases inLog with
  | true => rfl
  | false => exact ⟨trivial, fun _ => rfl⟩

theorem isGroupRevoked_holding (groupId : Nat) :
    Obeys (lockProtocol thread) (fun after _ => after = .leaving) .holding (isGroupRevoked groupId) := by
  refine ⟨trivial, fun inLog => ?_⟩
  cases inLog with
  | true => rfl
  | false => exact ⟨trivial, fun _ => rfl⟩

theorem deriveLocked_holding (groupId : Nat) : ObeysLocks thread .holding (deriveLocked groupId) := by
  apply Obeys.bind
  apply (isGroupRevoked_holding groupId).mono
  rintro _ revoked rfl
  cases revoked with
  | true => exact ⟨trivial, fun _ => rfl⟩
  | false => exact ⟨trivial, fun _ => rfl⟩

theorem obeysLocks_afterLook {α : Type} {groupId : Nat} {next : Bool → RegistryProgram α}
    (rest : ∀ revoked, ObeysLocks thread .free (next revoked)) :
    ObeysLocks thread .free ((isGroupRevoked groupId).bind next) := by
  apply Obeys.bind
  apply (isGroupRevoked_free groupId).mono
  rintro _ revoked rfl
  exact rest revoked

theorem getOrDerive_free (groupId : Nat) :
    ObeysLocks thread .free (getOrDerive thread groupId) := by
  apply obeysLocks_afterLook
  intro revoked
  cases revoked with
  | true => rfl
  | false =>
    refine ⟨trivial, fun found => ?_⟩
    cases found with
    | some kek => rfl
    | none => exact ⟨rfl, fun _ => deriveLocked_holding groupId⟩

theorem revokeGroup_free (groupId : Nat) :
    ObeysLocks thread .free (revokeGroup thread groupId) := by
  apply obeysLocks_afterLook
  intro revoked
  cases revoked with
  | true => rfl
  | false =>
    refine ⟨trivial, fun appended => ?_⟩
    cases appended with
    | error error => rfl
    | ok written =>
      refine ⟨trivial, fun entered => ?_⟩
      cases entered with
      | false => rfl
      | true => exact ⟨trivial, fun _ => rfl⟩

theorem revokeRecord_free (groupId recordId : Nat) :
    ObeysLocks thread .free (revokeRecord groupId recordId) := by
  apply obeysLocks_afterLook
  intro revoked
  cases revoked with
  | true => rfl
  | false => exact ⟨trivial, fun _ => rfl⟩

theorem encryptRecord_free (groupId recordId : Nat) (plaintext : Bytes) :
    ObeysLocks thread .free (encryptRecord thread groupId recordId plaintext) := by
  apply Obeys.bind
  apply (getOrDerive_free groupId).mono
  rintro _ subkey rfl
  cases subkey with
  | error error => rfl
  | ok kek => exact ⟨trivial, fun _ => ⟨trivial, fun _ => rfl⟩⟩

theorem openRecord_free (payload : EncryptedRecordPayload) :
    ObeysLocks thread .free (openRecord thread payload) := by
  apply Obeys.bind
  apply (getOrDerive_free payload.groupId).mono
  rintro _ subkey rfl
  cases subkey with
  | error error => rfl
  | ok kek => rfl

theorem decryptRecord_free (payload : EncryptedRecordPayload) :
    ObeysLocks thread .free (decryptRecord thread payload) := by
  apply obeysLocks_afterLook
  intro revoked
  cases revoked with
  | true => rfl
  | false =>
    refine ⟨trivial, fun found => ?_⟩
    match found with
    | none => rfl
    | some none => exact openRecord_free payload
    | some (some true) => rfl
    | some (some false) => exact openRecord_free payload

theorem answerCall_free (call : Call) : ObeysLocks thread .free (answerCall thread call) := by
  cases call with
  | encryptRecord groupId recordId plaintext => exact encryptRecord_free _ _ _
  | decryptRecord payload => exact decryptRecord_free payload
  | revokeGroup groupId => exact revokeGroup_free groupId
  | revokeRecord groupId recordId => exact revokeRecord_free groupId recordId

theorem program_free (task : ThreadCall) : ObeysLocks task.thread .free task.program := by
  have answered (earlier : List (Call × CallResult)) :
      ObeysLocks task.thread .free ((answerCall task.thread task.call).bind fun result =>
        ask (.endCall ⟨task.call, result, earlier⟩)) := by
    apply Obeys.bind
    apply (answerCall_free task.call).mono
    rintro _ result rfl
    exact ⟨trivial, fun _ => rfl⟩
  exact ⟨trivial, answered⟩

end Programs

def looksAtRevoked : RegistryProgram Unit → Bool
  | .call (.revokedContains _) _ => true
  | _ => false

/-- The step makes a call that holds the groups wait for the revoked groups while another holds
these: the one comes to its second look, or the other enters a group while that look is next. -/
def RegistryWorld.ClosesCycle (world : RegistryWorld) : ThreadCall → RegistryOp → Prop
  | task, .logIsRevoked groupId => world.shared.groupsWriter = some task.thread ∧
      world.shared.revokedWriter ≠ none ∧ world.shared.logHas groupId = false
  | _, .enterRevoked _ groupId => groupId ∉ world.shared.revokedGroups ∧
      ∃ other ∈ world.tasks, world.shared.groupsWriter = some other.1.thread ∧
        looksAtRevoked other.2 = true
  | _, _ => False

def RegistryWorld.threadOf (world : RegistryWorld) (index : Nat) : Option Nat :=
  world.tasks[index]?.map fun entry => entry.1.thread

/-- The phases of the calls agree with the holders of the locks, and no call that holds the
groups waits for the revoked groups while they are held. -/
structure LocksHeld (groupsWriter revokedWriter : Option Nat) (threadOf : Nat → Option Nat)
    (phaseOf : Nat → LockPhase) : Prop where
  owner : ∀ index, (phaseOf index).HoldsGroups → groupsWriter = threadOf index
  single : ∀ index other, (phaseOf index).HoldsGroups → (phaseOf other).HoldsGroups →
    index = other
  held : groupsWriter ≠ none → ∃ index, (phaseOf index).HoldsGroups
  purging : revokedWriter ≠ none → ∃ index, phaseOf index = .purging
  apart : ∀ index, phaseOf index = .waiting → revokedWriter = none

namespace LocksHeld

variable {groupsWriter revokedWriter : Option Nat} {threadOf : Nat → Option Nat}
  {phaseOf : Nat → LockPhase} {index : Nat}

variable {phase : LockPhase}

theorem update (held : LocksHeld groupsWriter revokedWriter threadOf phaseOf)
    {groupsWriter' revokedWriter' : Option Nat}
    (own : phase.HoldsGroups → groupsWriter' = threadOf index)
    (others : ∀ other, other ≠ index → (phaseOf other).HoldsGroups →
      groupsWriter' = groupsWriter ∧ ¬ phase.HoldsGroups)
    (isHeld : groupsWriter' ≠ none →
      phase.HoldsGroups ∨ ∃ other, other ≠ index ∧ (phaseOf other).HoldsGroups)
    (isPurging : revokedWriter' ≠ none →
      phase = .purging ∨ ∃ other, other ≠ index ∧ phaseOf other = .purging)
    (waits : phase = .waiting → revokedWriter' = none)
    (othersWait : ∀ other, other ≠ index → phaseOf other = .waiting → revokedWriter' = none) :
    LocksHeld groupsWriter' revokedWriter' threadOf (Function.update phaseOf index phase) := by
  have stays {other : Nat} (different : other ≠ index) :
      Function.update phaseOf index phase other = phaseOf other :=
    update_of_ne different _ _
  have becomes : Function.update phaseOf index phase index = phase := update_self _ _ _
  constructor
  · intro other holds
    by_cases same : other = index
    · rw [same, becomes] at holds
      rw [same]
      exact own holds
    · rw [stays same] at holds
      rw [(others other same holds).1]
      exact held.owner other holds
  · intro first second holdsFirst holdsSecond
    by_cases sameFirst : first = index
    · by_cases sameSecond : second = index
      · rw [sameFirst, sameSecond]
      · rw [sameFirst, becomes] at holdsFirst
        rw [stays sameSecond] at holdsSecond
        exact absurd holdsFirst (others second sameSecond holdsSecond).2
    · rw [stays sameFirst] at holdsFirst
      by_cases sameSecond : second = index
      · rw [sameSecond, becomes] at holdsSecond
        exact absurd holdsSecond (others first sameFirst holdsFirst).2
      · rw [stays sameSecond] at holdsSecond
        exact held.single first second holdsFirst holdsSecond
  · intro taken
    rcases isHeld taken with holds | ⟨other, different, holds⟩
    · exact ⟨index, by rwa [becomes]⟩
    · exact ⟨other, by rwa [stays different]⟩
  · intro taken
    rcases isPurging taken with holds | ⟨other, different, holds⟩
    · exact ⟨index, by rwa [becomes]⟩
    · exact ⟨other, by rwa [stays different]⟩
  · intro other isWaiting
    by_cases same : other = index
    · rw [same, becomes] at isWaiting
      exact waits isWaiting
    · rw [stays same] at isWaiting
      exact othersWait other same isWaiting

variable (held : LocksHeld groupsWriter revokedWriter threadOf phaseOf)

include held

theorem isHeld_other (isOther : ¬ (phaseOf index).HoldsGroups)
    (taken : groupsWriter ≠ none) :
    phase.HoldsGroups ∨ ∃ other, other ≠ index ∧ (phaseOf other).HoldsGroups := by
  obtain ⟨other, holds⟩ := held.held taken
  refine .inr ⟨other, ?_, holds⟩
  rintro rfl
  exact isOther holds

theorem isPurging_other (isOther : phaseOf index ≠ .purging) (taken : revokedWriter ≠ none) :
    phase = .purging ∨ ∃ other, other ≠ index ∧ phaseOf other = .purging := by
  obtain ⟨other, isPurging⟩ := held.purging taken
  refine .inr ⟨other, ?_, isPurging⟩
  rintro rfl
  exact isOther isPurging

theorem lock (isFree : phaseOf index = .free) (unlocked : groupsWriter = none)
    {thread : Nat} (isThread : threadOf index = some thread) (known : ∀ other,
      (phaseOf other).HoldsGroups → threadOf other ≠ none) :
    LocksHeld (some thread) revokedWriter threadOf
      (Function.update phaseOf index .holding) := by
  have notPurging : phaseOf index ≠ .purging := by
    rw [isFree]
    decide
  apply held.update
  · exact fun _ => isThread.symm
  · intro other _ holds
    have owner := held.owner other holds
    rw [unlocked] at owner
    exact absurd owner.symm (known other holds)
  · exact fun _ => .inl trivial
  · exact held.isPurging_other notPurging
  · exact fun isWaiting => nomatch isWaiting
  · exact fun other _ isWaiting => held.apart other isWaiting

theorem enter (isFree : phaseOf index = .free) (nobody : ∀ other, phaseOf other ≠ .waiting)
    (thread : Nat) :
    LocksHeld groupsWriter (some thread) threadOf (Function.update phaseOf index .purging) := by
  have notHolding : ¬ (phaseOf index).HoldsGroups := by
    rw [isFree]
    exact not_false
  apply held.update
  · exact fun holds => holds.elim
  · exact fun other _ _ => ⟨rfl, not_false⟩
  · exact held.isHeld_other notHolding
  · exact fun _ => .inl rfl
  · exact fun isWaiting => nomatch isWaiting
  · exact fun other _ isWaiting => absurd isWaiting (nobody other)

theorem move (holds : (phaseOf index).HoldsGroups)
    (isHolding : phase.HoldsGroups) (waits : phase = .waiting → revokedWriter = none) :
    LocksHeld groupsWriter revokedWriter threadOf (Function.update phaseOf index phase) := by
  have notPurging : phaseOf index ≠ .purging := by
    intro isPurging
    rw [isPurging] at holds
    exact holds
  apply held.update
  · exact fun _ => held.owner index holds
  · exact fun other different holdsToo => absurd (held.single other index holdsToo holds) different
  · exact fun _ => .inl isHolding
  · exact held.isPurging_other notPurging
  · exact waits
  · exact fun other _ isWaiting => held.apart other isWaiting

theorem leave (holds : (phaseOf index).HoldsGroups) :
    LocksHeld none revokedWriter threadOf (Function.update phaseOf index .free) := by
  have notPurging : phaseOf index ≠ .purging := by
    intro isPurging
    rw [isPurging] at holds
    exact holds
  apply held.update
  · exact fun isHolding => isHolding.elim
  · exact fun other different holdsToo => absurd (held.single other index holdsToo holds) different
  · exact fun taken => absurd rfl taken
  · exact held.isPurging_other notPurging
  · exact fun isWaiting => nomatch isWaiting
  · exact fun other _ isWaiting => held.apart other isWaiting

theorem purge (isPurging : phaseOf index = .purging) :
    LocksHeld groupsWriter none threadOf (Function.update phaseOf index .free) := by
  have notHolding : ¬ (phaseOf index).HoldsGroups := by
    rw [isPurging]
    exact not_false
  apply held.update
  · exact fun isHolding => isHolding.elim
  · exact fun other _ _ => ⟨rfl, not_false⟩
  · exact held.isHeld_other notHolding
  · exact fun taken => absurd rfl taken
  · exact fun _ => rfl
  · exact fun _ _ _ => rfl

end LocksHeld

namespace KeyRegistry

variable {registry next : KeyRegistry} {choice : RegistryChoice}

def SameHolders (registry next : KeyRegistry) : Prop :=
  next.groupsWriter = registry.groupsWriter ∧ next.revokedWriter = registry.revokedWriter

theorem registerDek_holders (groupId recordId : Nat) (entry : RecordDekEntry) :
    registry.SameHolders (registry.registerDek groupId recordId entry) := by
  unfold registerDek
  split <;> exact ⟨rfl, rfl⟩

theorem flagRecord_holders (groupId recordId : Nat) :
    registry.SameHolders (registry.flagRecord groupId recordId).2 := by
  unfold flagRecord
  split
  · split
    · split <;> exact ⟨rfl, rfl⟩
    · exact ⟨rfl, rfl⟩
  · exact ⟨rfl, rfl⟩

theorem appendLog_holders (groupId : Nat) :
    registry.SameHolders (registry.appendLog groupId choice).2 := by
  unfold appendLog
  split
  · exact ⟨rfl, rfl⟩
  · split <;> exact ⟨rfl, rfl⟩

theorem deriveKek_holders {groupId : Nat} {result : Except CryptoError Key}
    (derived : registry.deriveKek groupId choice = some (result, next)) :
    next.groupsWriter = none ∧ next.revokedWriter = registry.revokedWriter := by
  unfold deriveKek at derived
  split at derived
  · cases derived
    exact ⟨rfl, rfl⟩
  · split at derived
    · cases derived
      exact ⟨rfl, rfl⟩
    · cases derived
      exact ⟨rfl, rfl⟩
    · cases derived

end KeyRegistry

namespace LocksHeld

variable {registry next : KeyRegistry} {threadOf : Nat → Option Nat}
  {phaseOf : Nat → LockPhase} {index thread : Nat} {op : RegistryOp} {answer : op.Answer}

theorem same (held : LocksHeld registry.groupsWriter registry.revokedWriter threadOf phaseOf)
    (holders : registry.SameHolders next) {phase : LockPhase} (isPhase : phaseOf index = phase) :
    LocksHeld next.groupsWriter next.revokedWriter threadOf
      (Function.update phaseOf index phase) := by
  rw [holders.1, holders.2, ← isPhase, update_eq_self]
  exact held

theorem perform_free {choice : RegistryChoice}
    (held : LocksHeld registry.groupsWriter registry.revokedWriter threadOf phaseOf)
    (isFree : phaseOf index = .free) (isThread : threadOf index = some thread)
    (known : ∀ other, (phaseOf other).HoldsGroups → threadOf other ≠ none)
    (alone : LockPhase.Alone thread op)
    (nobody : ∀ entering groupId, op = .enterRevoked entering groupId →
      groupId ∉ registry.revokedGroups → ∀ other, phaseOf other ≠ .waiting)
    (performed : registry.perform op choice = some (answer, next)) :
    LocksHeld next.groupsWriter next.revokedWriter threadOf
      (Function.update phaseOf index (LockPhase.free.advance op answer)) := by
  cases op with
  | beginCall =>
    cases performed
    exact held.same ⟨rfl, rfl⟩ isFree
  | logIsRevoked groupId =>
    cases performed
    exact held.same ⟨rfl, rfl⟩ isFree
  | revokedContains groupId =>
    obtain ⟨_, same⟩ := KeyRegistry.unlocked_eq_some.mp performed
    cases same
    exact held.same ⟨rfl, rfl⟩ isFree
  | findKek groupId =>
    obtain ⟨_, same⟩ := KeyRegistry.unlocked_eq_some.mp performed
    cases same
    exact held.same ⟨rfl, rfl⟩ isFree
  | lockGroups locking =>
    obtain ⟨unlocked, same⟩ := KeyRegistry.unlocked_eq_some.mp performed
    cases same
    cases alone
    exact held.lock isFree unlocked isThread known
  | unlockGroups => exact alone.elim
  | deriveKek groupId => exact alone.elim
  | fillRandom =>
    cases choice with
    | keys dek dekNonce nonce =>
      cases performed
      exact held.same ⟨rfl, rfl⟩ isFree
    | key kek => cases performed
    | fails => cases performed
  | registerDek groupId recordId entry =>
    obtain ⟨_, same⟩ := KeyRegistry.unlocked_eq_some.mp performed
    cases same
    exact held.same (KeyRegistry.registerDek_holders groupId recordId entry) isFree
  | findRecord groupId recordId =>
    obtain ⟨_, same⟩ := KeyRegistry.unlocked_eq_some.mp performed
    cases same
    exact held.same ⟨rfl, rfl⟩ isFree
  | flagRecord groupId recordId =>
    obtain ⟨_, same⟩ := KeyRegistry.unlocked_eq_some.mp performed
    have holders : registry.SameHolders next := by
      have unchanged : registry.SameHolders (registry.flagRecord groupId recordId).2 :=
        KeyRegistry.flagRecord_holders groupId recordId
      rwa [same] at unchanged
    exact held.same holders isFree
  | appendLog groupId =>
    have same : registry.appendLog groupId choice = (answer, next) := Option.some.inj performed
    have holders : registry.SameHolders next := by
      have unchanged : registry.SameHolders (registry.appendLog groupId choice).2 :=
        KeyRegistry.appendLog_holders groupId
      rwa [same] at unchanged
    exact held.same holders isFree
  | enterRevoked entering groupId =>
    obtain ⟨_, same⟩ := KeyRegistry.unlocked_eq_some.mp performed
    unfold KeyRegistry.enterRevoked at same
    split at same
    · cases same
      exact held.same ⟨rfl, rfl⟩ isFree
    · rename_i absent
      cases same
      exact held.enter isFree (nobody entering groupId rfl absent) entering
  | purgeGroup groupId => exact alone.elim
  | endCall returned =>
    cases performed
    exact held.same ⟨rfl, rfl⟩ isFree

theorem perform_locked {choice : RegistryChoice}
    (held : LocksHeld registry.groupsWriter registry.revokedWriter threadOf phaseOf)
    (locked : phaseOf index ≠ .free) (allows : (phaseOf index).Allows thread op)
    (unheld : ∀ groupId, op = .logIsRevoked groupId → (phaseOf index).HoldsGroups →
      registry.logHas groupId = false → registry.revokedWriter = none)
    (performed : registry.perform op choice = some (answer, next)) :
    LocksHeld next.groupsWriter next.revokedWriter threadOf
      (Function.update phaseOf index ((phaseOf index).advance op answer)) := by
  cases isPhase : phaseOf index with
  | free => exact absurd isPhase locked
  | holding =>
    rw [isPhase] at allows unheld
    have holds : (phaseOf index).HoldsGroups := by
      rw [isPhase]
      trivial
    cases op with
    | logIsRevoked groupId =>
      cases performed
      cases isLogged : registry.logHas groupId with
      | true => exact held.move holds trivial fun isWaiting => nomatch isWaiting
      | false => exact held.move holds trivial fun _ => unheld groupId rfl trivial isLogged
    | _ => exact allows.elim
  | waiting =>
    rw [isPhase] at allows
    have holds : (phaseOf index).HoldsGroups := by
      rw [isPhase]
      trivial
    cases op with
    | revokedContains groupId =>
      obtain ⟨_, same⟩ := KeyRegistry.unlocked_eq_some.mp performed
      cases same
      exact held.move holds trivial fun isWaiting => nomatch isWaiting
    | _ => exact allows.elim
  | leaving =>
    rw [isPhase] at allows
    have holds : (phaseOf index).HoldsGroups := by
      rw [isPhase]
      trivial
    cases op with
    | unlockGroups =>
      cases performed
      exact held.leave holds
    | deriveKek groupId =>
      obtain ⟨released, unchanged⟩ := KeyRegistry.deriveKek_holders performed
      rw [released, unchanged]
      exact held.leave holds
    | _ => exact allows.elim
  | purging =>
    rw [isPhase] at allows
    cases op with
    | purgeGroup groupId =>
      obtain ⟨_, same⟩ := KeyRegistry.unlocked_eq_some.mp performed
      cases same
      exact held.purge isPhase
    | _ => exact allows.elim

end LocksHeld

structure RegistryWorld.LocksAgree (world : RegistryWorld) (phaseOf : Nat → LockPhase) :
    Prop where
  obeys : ∀ (index : Nat) task program, world.tasks[index]? = some (task, program) →
    ObeysLocks task.thread (phaseOf index) program
  absent : ∀ index, world.tasks[index]? = none → phaseOf index = .free
  locks : LocksHeld world.shared.groupsWriter world.shared.revokedWriter world.threadOf phaseOf

def RegistryWorld.Performs (world : RegistryWorld) (index : Nat) (task : ThreadCall)
    (op : RegistryOp) : Prop :=
  ∃ next, world.tasks[index]? = some (task, .call op next)

namespace RegistryWorld

variable {world next : RegistryWorld} {phaseOf : Nat → LockPhase} {index : Nat}

theorem opened_locksAgree (revocationLog : Option (List Nat)) :
    (opened revocationLog).LocksAgree fun _ => .free where
  obeys _ _ _ isTask := nomatch isTask
  absent _ _ := rfl
  locks := by
    constructor
    · exact fun _ holds => holds.elim
    · exact fun _ _ holds => holds.elim
    · exact fun taken => absurd rfl taken
    · exact fun taken => absurd rfl taken
    · exact fun _ _ => rfl

theorem LocksAgree.performs (agrees : world.LocksAgree phaseOf) (locked : phaseOf index ≠ .free) :
    ∃ task op, world.Performs index task op ∧ (phaseOf index).Allows task.thread op := by
  cases isTask : world.tasks[index]? with
  | none => exact absurd (agrees.absent index isTask) locked
  | some entry =>
    obtain ⟨task, program⟩ := entry
    have obeys := agrees.obeys index task program isTask
    cases program with
    | done result => exact absurd obeys locked
    | call op rest => exact ⟨task, op, ⟨rest, isTask⟩, obeys.1⟩

theorem LocksAgree.known (agrees : world.LocksAgree phaseOf)
    (holds : (phaseOf index).HoldsGroups) : world.threadOf index ≠ none := by
  intro unknown
  have isFree := agrees.absent index (Option.map_eq_none_iff.mp unknown)
  rw [isFree] at holds
  exact holds

theorem LocksAgree.waiting (agrees : world.LocksAgree phaseOf) (isWaiting : phaseOf index = .waiting) :
    ∃ other ∈ world.tasks, world.shared.groupsWriter = some other.1.thread ∧
      looksAtRevoked other.2 = true := by
  have locked : phaseOf index ≠ .free := by
    rw [isWaiting]
    decide
  obtain ⟨task, op, ⟨rest, isTask⟩, allows⟩ := agrees.performs locked
  have holds : (phaseOf index).HoldsGroups := by
    rw [isWaiting]
    trivial
  rw [isWaiting] at allows
  refine ⟨(task, .call op rest), mem_of_getElem? isTask, ?_, ?_⟩
  · rw [agrees.locks.owner index holds, threadOf, isTask]
    rfl
  · cases op with
    | revokedContains groupId => rfl
    | _ => exact allows.elim

theorem LocksAgree.make (agrees : world.LocksAgree phaseOf) (task : ThreadCall) :
    LocksAgree { world with tasks := world.tasks ++ [(task, task.program)] } phaseOf := by
  have isNew : phaseOf world.tasks.length = .free :=
    agrees.absent _ (getElem?_eq_none le_rfl)
  constructor
  · intro index other program isTask
    by_cases old : index < world.tasks.length
    · rw [getElem?_append_left old] at isTask
      exact agrees.obeys index other program isTask
    · have isLast : index = world.tasks.length := by
        have bounded := (List.getElem?_eq_some_iff.mp isTask).1
        rw [length_append, length_singleton] at bounded
        omega
      rw [isLast, getElem?_concat_length] at isTask
      cases isTask
      rw [isLast, isNew]
      exact program_free task
  · intro index absent
    apply agrees.absent index
    have beyond := List.getElem?_eq_none_iff.mp absent
    rw [length_append] at beyond
    exact getElem?_eq_none (le_trans (Nat.le_add_right _ _) beyond)
  · refine { agrees.locks with owner := ?_ }
    intro index holds
    rw [agrees.locks.owner index holds]
    have old : index < world.tasks.length := by
      by_contra beyond
      exact agrees.known holds (congrArg _ (getElem?_eq_none (not_lt.mp beyond)))
    exact congrArg _ (getElem?_append_left old).symm

theorem LocksAgree.goOn (agrees : world.LocksAgree phaseOf) {task : ThreadCall} {op : RegistryOp}
    {rest : op.Answer → RegistryProgram Unit} {choice : RegistryChoice} {answer : op.Answer}
    {registry : KeyRegistry} (history : List (Performed ThreadCall RegistryOp RegistryOp.Answer))
    (isTask : world.tasks[index]? = some (task, .call op rest))
    (acyclic : ¬ world.ClosesCycle task op)
    (performed : world.shared.perform op choice = some (answer, registry)) :
    LocksAgree ⟨registry, history, world.tasks.set index (task, rest answer)⟩
      (Function.update phaseOf index ((phaseOf index).advance op answer)) := by
  have obeys := agrees.obeys index task _ isTask
  have isThread : world.threadOf index = some task.thread := by
    rw [threadOf, isTask]
    rfl
  have bounded : index < world.tasks.length := (List.getElem?_eq_some_iff.mp isTask).1
  have sameThreads : threadOf ⟨registry, history, world.tasks.set index (task, rest answer)⟩ =
      world.threadOf := by
    funext other
    by_cases same : index = other
    · rw [← same, isThread, threadOf, getElem?_set_self bounded]
      rfl
    · rw [threadOf, threadOf, getElem?_set_ne same]
  constructor
  · intro other task' program isOther
    by_cases same : index = other
    · rw [← same, getElem?_set_self bounded] at isOther
      cases isOther
      rw [← same, update_self]
      exact obeys.2 answer
    · rw [getElem?_set_ne same] at isOther
      rw [update_of_ne (Ne.symm same)]
      exact agrees.obeys other task' program isOther
  · intro other absent
    have different : index ≠ other := by
      rintro rfl
      rw [getElem?_set_self bounded] at absent
      cases absent
    rw [getElem?_set_ne different] at absent
    rw [update_of_ne (Ne.symm different)]
    exact agrees.absent other absent
  · rw [sameThreads]
    by_cases isFree : phaseOf index = .free
    · rw [isFree] at obeys ⊢
      apply agrees.locks.perform_free isFree isThread (fun _ => agrees.known) obeys.1 _ performed
      rintro entering groupId rfl absent other isWaiting
      exact acyclic ⟨absent, agrees.waiting isWaiting⟩
    · apply agrees.locks.perform_locked isFree obeys.1 _ performed
      rintro groupId rfl holds notLogged
      by_contra taken
      have owner := agrees.locks.owner index holds
      rw [isThread] at owner
      exact acyclic ⟨owner, taken, notLogged⟩

def Enabled (world : RegistryWorld) (op : RegistryOp) : Prop :=
  ∃ choice answer registry, world.shared.perform op choice = some (answer, registry)

theorem deriveKek_enabled (groupId : Nat) (kek : Key) : world.Enabled (.deriveKek groupId) := by
  refine ⟨.key kek, ?_⟩
  change ∃ answer registry, world.shared.deriveKek groupId (.key kek) = some (answer, registry)
  unfold KeyRegistry.deriveKek
  split <;> exact ⟨_, _, rfl⟩

theorem enabled_of_unlocked (noGroups : world.shared.groupsWriter = none)
    (noRevoked : world.shared.revokedWriter = none) (keys : Key × Nonce) (op : RegistryOp) :
    world.Enabled op := by
  have unlocked {α : Type} {writer : Option Nat} (free : writer = none) (result : α) :
      KeyRegistry.unlocked writer result = some result :=
    KeyRegistry.unlocked_eq_some.mpr ⟨free, rfl⟩
  cases op with
  | beginCall => exact ⟨.fails, _, _, rfl⟩
  | logIsRevoked groupId => exact ⟨.fails, _, _, rfl⟩
  | revokedContains groupId => exact ⟨.fails, _, _, unlocked noRevoked _⟩
  | findKek groupId => exact ⟨.fails, _, _, unlocked noGroups _⟩
  | lockGroups thread => exact ⟨.fails, _, _, unlocked noGroups _⟩
  | unlockGroups => exact ⟨.fails, _, _, rfl⟩
  | deriveKek groupId => exact deriveKek_enabled groupId keys.1
  | fillRandom => exact ⟨.keys keys.1 keys.2 keys.2, _, _, rfl⟩
  | registerDek groupId recordId entry => exact ⟨.fails, _, _, unlocked noGroups _⟩
  | findRecord groupId recordId => exact ⟨.fails, _, _, unlocked noGroups _⟩
  | flagRecord groupId recordId => exact ⟨.fails, _, _, unlocked noGroups _⟩
  | appendLog groupId => exact ⟨.fails, _, _, rfl⟩
  | enterRevoked thread groupId => exact ⟨.fails, _, _, unlocked noRevoked _⟩
  | purgeGroup groupId => exact ⟨.fails, _, _, unlocked noGroups _⟩
  | endCall returned => exact ⟨.fails, _, _, rfl⟩

/-- Some call can perform its next operation, unless all have returned. -/
def GoesOn (world : RegistryWorld) : Prop :=
  (∃ index task op, world.Performs index task op) →
    ∃ index task op, world.Performs index task op ∧ world.Enabled op

theorem LocksAgree.goesOn (agrees : world.LocksAgree phaseOf) (keys : Key × Nonce) :
    world.GoesOn := by
  rintro ⟨first, firstTask, firstOp, performs⟩
  by_cases noGroups : world.shared.groupsWriter = none
  · by_cases noRevoked : world.shared.revokedWriter = none
    · exact ⟨first, firstTask, firstOp, performs, enabled_of_unlocked noGroups noRevoked keys _⟩
    · obtain ⟨index, isPurging⟩ := agrees.locks.purging noRevoked
      have locked : phaseOf index ≠ .free := by
        rw [isPurging]
        decide
      obtain ⟨task, op, performsOp, allows⟩ := agrees.performs locked
      rw [isPurging] at allows
      refine ⟨index, task, op, performsOp, ?_⟩
      cases op with
      | purgeGroup groupId =>
        exact ⟨.fails, _, _, KeyRegistry.unlocked_eq_some.mpr ⟨noGroups, rfl⟩⟩
      | _ => exact allows.elim
  · obtain ⟨index, holds⟩ := agrees.locks.held noGroups
    have locked : phaseOf index ≠ .free := by
      intro isFree
      rw [isFree] at holds
      exact holds
    obtain ⟨task, op, performsOp, allows⟩ := agrees.performs locked
    refine ⟨index, task, op, performsOp, ?_⟩
    cases isPhase : phaseOf index with
    | free => exact absurd isPhase locked
    | holding =>
      rw [isPhase] at allows
      cases op with
      | logIsRevoked groupId => exact ⟨.fails, _, _, rfl⟩
      | _ => exact allows.elim
    | waiting =>
      rw [isPhase] at allows
      have noRevoked := agrees.locks.apart index isPhase
      cases op with
      | revokedContains groupId =>
        exact ⟨.fails, _, _, KeyRegistry.unlocked_eq_some.mpr ⟨noRevoked, rfl⟩⟩
      | _ => exact allows.elim
    | leaving =>
      rw [isPhase] at allows
      cases op with
      | unlockGroups => exact ⟨.fails, _, _, rfl⟩
      | deriveKek groupId => exact deriveKek_enabled groupId keys.1
      | _ => exact allows.elim
    | purging =>
      rw [isPhase] at holds
      exact holds.elim

end RegistryWorld

end Contextra.Shredding
