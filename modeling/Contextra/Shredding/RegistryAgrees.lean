import Contextra.Shredding.RegistryCalls

/-!
# The registry and its history

The registry agrees with what its calls have done, as long as no encryption registers a record
anew that is flagged as revoked.
-/

namespace Contextra.Shredding

open Library List Option Function

section Concat

variable {logged : List Nat} {history : List RegistryStep} {last : RegistryStep}
  {groupId recordId : Nat}

theorem Entered.of_concat (entered : Entered logged (history ++ [last]) groupId) :
    Entered logged history groupId ∨
      ∃ task thread, last = ⟨task, .enterRevoked thread groupId, true⟩ := by
  rcases entered with before | ⟨task, thread, performed⟩
  · exact .inl (.inl before)
  · rcases mem_append.mp performed with old | new
    · exact .inl (.inr ⟨task, thread, old⟩)
    · exact .inr ⟨task, thread, (mem_singleton.mp new).symm⟩

theorem Flagged.of_concat (flagged : Flagged (history ++ [last]) groupId recordId) :
    Flagged history groupId recordId ∨
      ∃ task, last = ⟨task, .flagRecord groupId recordId, true⟩ := by
  obtain ⟨task, performed⟩ := flagged
  rcases mem_append.mp performed with old | new
  · exact .inl ⟨task, old⟩
  · exact .inr ⟨task, (mem_singleton.mp new).symm⟩

theorem Issued.of_concat {kek : Key} (issued : Issued (history ++ [last]) groupId kek) :
    Issued history groupId kek ∨ ∃ task, last = ⟨task, .deriveKek groupId, .ok kek⟩ := by
  obtain ⟨task, performed⟩ := issued
  rcases mem_append.mp performed with old | new
  · exact .inl ⟨task, old⟩
  · exact .inr ⟨task, (mem_singleton.mp new).symm⟩

variable {op : RegistryOp} {task : ThreadCall} {answer : op.Answer}

theorem entered_concat (other : ∀ thread, op ≠ .enterRevoked thread groupId) :
    Entered logged (history ++ [⟨task, op, answer⟩]) groupId ↔ Entered logged history groupId := by
  constructor
  · intro entered
    apply entered.of_concat.resolve_right
    rintro ⟨_, thread, same⟩
    exact other thread (congrArg Performed.op same)
  · exact Entered.grow (subset_append_left _ _)

theorem flagged_concat (other : op ≠ .flagRecord groupId recordId) :
    Flagged (history ++ [⟨task, op, answer⟩]) groupId recordId ↔
      Flagged history groupId recordId := by
  constructor
  · intro flagged
    apply flagged.of_concat.resolve_right
    rintro ⟨_, same⟩
    exact other (congrArg Performed.op same)
  · exact Flagged.grow (subset_append_left _ _)

theorem issued_concat {kek : Key} (other : op ≠ .deriveKek groupId) :
    Issued (history ++ [⟨task, op, answer⟩]) groupId kek ↔ Issued history groupId kek := by
  constructor
  · intro issued
    apply issued.of_concat.resolve_right
    rintro ⟨_, same⟩
    exact other (congrArg Performed.op same)
  · exact Issued.grow (subset_append_left _ _)

end Concat

structure KeyRegistry.Agrees (logged : List Nat) (history : List RegistryStep)
    (registry : KeyRegistry) : Prop where
  entered : ∀ groupId, groupId ∈ registry.revokedGroups ↔ Entered logged history groupId
  inLog : ∀ groupId, registry.logHas groupId = true → Logged logged history groupId
  keks : ∀ groupId kek, registry.findKek groupId = some kek → Issued history groupId kek
  issued : ∀ groupId kek, Issued history groupId kek →
    registry.findKek groupId = some kek ∨ Entered logged history groupId
  flags : ∀ groupId recordId, registry.findRecord groupId recordId = some (some true) →
    Flagged history groupId recordId
  flagged : ∀ groupId recordId, Flagged history groupId recordId →
    registry.findRecord groupId recordId = some (some true) ∨ Entered logged history groupId
  returned : ∀ returned ∈ registry.returned,
    Tells logged history (returned.call, returned.result) ∧ returned.Right logged history

/-- The operations that tell nothing of a group or a record. -/
def Silent : (op : RegistryOp) → op.Answer → Prop
  | .deriveKek _, .ok _ => False
  | .flagRecord _ _, true => False
  | .appendLog _, .ok true => False
  | .enterRevoked _ _, true => False
  | _, _ => True

/-- An encryption that registers its record does not replace the flag of a revoked one, unless
the group is revoked. -/
def KeyRegistry.KeepsFlag (registry : KeyRegistry) : RegistryOp → Prop
  | .registerDek groupId recordId _ =>
    registry.findRecord groupId recordId = some (some true) → groupId ∈ registry.revokedGroups
  | _ => True

namespace KeyRegistry

section Operations

variable {logged : List Nat} {history : List RegistryStep} {registry : KeyRegistry}
  {task : ThreadCall} {groupId recordId : Nat}

theorem opened_agrees (revocationLog : Option (List Nat)) :
    (opened revocationLog).Agrees (revocationLog.getD []) [] where
  entered groupId := by
    constructor
    · exact .inl
    · rintro (before | ⟨_, _, performed⟩)
      · exact before
      · exact nomatch performed
  inLog groupId inLog := by
    cases revocationLog with
    | none => exact absurd inLog Bool.false_ne_true
    | some logged => exact .inl (of_decide_eq_true inLog)
  keks _ _ isKek := nomatch isKek
  issued _ _ issued := nomatch issued.choose_spec
  flags _ _ isFlag := nomatch isFlag
  flagged _ _ flagged := nomatch flagged.choose_spec
  returned _ isReturned := nomatch isReturned

theorem Agrees.silent (agrees : registry.Agrees logged history) {op : RegistryOp}
    {answer : op.Answer} (silent : Silent op answer) :
    registry.Agrees logged (history ++ [⟨task, op, answer⟩]) := by
  have grown : history ⊆ history ++ [⟨task, op, answer⟩] := subset_append_left _ _
  have entered (groupId : Nat)
      (isEntered : Entered logged (history ++ [⟨task, op, answer⟩]) groupId) :
      Entered logged history groupId := by
    rcases isEntered.of_concat with before | ⟨_, _, same⟩
    · exact before
    · cases same
      exact silent.elim
  constructor
  · intro groupId
    rw [agrees.entered]
    exact ⟨Entered.grow grown, entered groupId⟩
  · exact fun groupId inLog => (agrees.inLog groupId inLog).grow grown
  · exact fun groupId kek isKek => (agrees.keks groupId kek isKek).grow grown
  · intro groupId kek issued
    rcases issued.of_concat with before | ⟨_, same⟩
    · exact (agrees.issued groupId kek before).imp_right (Entered.grow grown)
    · cases same
      exact silent.elim
  · exact fun groupId recordId isFlag => (agrees.flags groupId recordId isFlag).grow grown
  · intro groupId recordId flagged
    rcases flagged.of_concat with before | ⟨_, same⟩
    · exact (agrees.flagged groupId recordId before).imp_right (Entered.grow grown)
    · cases same
      exact silent.elim
  · intro returned isReturned
    obtain ⟨tells, right⟩ := agrees.returned returned isReturned
    exact ⟨tells.grow grown, right.grow grown⟩

theorem findKek_setGroup (entry : Option GroupEntry) (groupId' : Nat) :
    (registry.setGroup groupId entry).findKek groupId' =
      if groupId' = groupId then entry.map GroupEntry.kek else registry.findKek groupId' := by
  simp only [findKek, setGroup, update_apply]
  split <;> rfl

theorem findRecord_setGroup (entry : Option GroupEntry) (groupId' recordId' : Nat) :
    (registry.setGroup groupId entry).findRecord groupId' recordId' =
      if groupId' = groupId then
        entry.map fun group => (group.recordDeks recordId').map RecordDekEntry.revoked
      else registry.findRecord groupId' recordId' := by
  simp only [findRecord, setGroup, update_apply]
  split <;> rfl

variable {group : GroupEntry} {entry : RecordDekEntry}

theorem findKek_setRecord (isGroup : registry.groups groupId = some group) :
    (registry.setRecord groupId recordId group entry).findKek = registry.findKek := by
  funext groupId'
  simp only [setRecord, findKek_setGroup]
  split
  · rename_i same
    rw [same, findKek, isGroup]
    rfl
  · rfl

theorem findRecord_setRecord (isGroup : registry.groups groupId = some group)
    (groupId' recordId' : Nat) :
    (registry.setRecord groupId recordId group entry).findRecord groupId' recordId' =
      if groupId' = groupId ∧ recordId' = recordId then some (some entry.revoked)
      else registry.findRecord groupId' recordId' := by
  simp only [setRecord, findRecord_setGroup]
  by_cases same : groupId' = groupId
  · subst same
    by_cases sameRecord : recordId' = recordId
    · subst sameRecord
      simp only [if_true, and_self, map_some, update_self]
    · simp only [if_true, sameRecord, and_false, if_false, findRecord, isGroup, map_some,
        update_of_ne sameRecord]
  · simp only [same, false_and, if_false]

theorem findRecord_eq_none (missing : registry.findRecord groupId recordId = none) :
    registry.findKek groupId = none := by
  apply map_eq_none_iff.mpr
  exact map_eq_none_iff.mp missing

theorem findRecord_of_findKek (missing : registry.findKek groupId = none) (recordId : Nat) :
    registry.findRecord groupId recordId = none := by
  apply map_eq_none_iff.mpr
  exact map_eq_none_iff.mp missing

theorem Agrees.keepKek (agrees : registry.Agrees logged history) {kek : Key}
    (isKek : registry.findKek groupId = some kek) :
    registry.Agrees logged (history ++ [⟨task, .deriveKek groupId, .ok kek⟩]) := by
  have grown : history ⊆ history ++ [⟨task, .deriveKek groupId, .ok kek⟩] :=
    subset_append_left _ _
  constructor
  · intro groupId'
    rw [entered_concat (by rintro _ ⟨⟩)]
    exact agrees.entered groupId'
  · exact fun groupId' inLog => (agrees.inLog groupId' inLog).grow grown
  · exact fun groupId' kek' isKek' => (agrees.keks groupId' kek' isKek').grow grown
  · intro groupId' kek' issued
    rcases issued.of_concat with before | ⟨_, same⟩
    · exact (agrees.issued groupId' kek' before).imp_right (Entered.grow grown)
    · cases same
      exact .inl isKek
  · exact fun groupId' recordId isFlag => (agrees.flags groupId' recordId isFlag).grow grown
  · intro groupId' recordId flagged
    rw [flagged_concat (by rintro ⟨⟩)] at flagged
    exact (agrees.flagged groupId' recordId flagged).imp_right (Entered.grow grown)
  · exact fun returned isReturned => (agrees.returned returned isReturned).imp (Tells.grow grown)
      (Returned.Right.grow grown)

theorem Agrees.newKek (agrees : registry.Agrees logged history)
    (missing : registry.findKek groupId = none) (kek : Key) :
    (registry.setGroup groupId (some ⟨kek, fun _ => none⟩)).Agrees logged
      (history ++ [⟨task, .deriveKek groupId, .ok kek⟩]) := by
  have grown : history ⊆ history ++ [⟨task, .deriveKek groupId, .ok kek⟩] :=
    subset_append_left _ _
  constructor
  · intro groupId'
    rw [entered_concat (by rintro _ ⟨⟩)]
    exact agrees.entered groupId'
  · exact fun groupId' inLog => (agrees.inLog groupId' inLog).grow grown
  · intro groupId' kek' isKek
    rw [findKek_setGroup] at isKek
    split at isKek
    · rename_i same
      cases isKek
      rw [same]
      exact ⟨task, mem_append_right _ (mem_singleton.mpr rfl)⟩
    · exact (agrees.keks groupId' kek' isKek).grow grown
  · intro groupId' kek' issued
    rw [findKek_setGroup]
    rcases issued.of_concat with before | ⟨_, same⟩
    · rcases agrees.issued groupId' kek' before with isKek | entered
      · left
        rw [if_neg]
        · exact isKek
        · rintro rfl
          rw [missing] at isKek
          cases isKek
      · exact .inr (entered.grow grown)
    · cases same
      exact .inl (if_pos rfl)
  · intro groupId' recordId isFlag
    rw [findRecord_setGroup] at isFlag
    split at isFlag
    · cases isFlag
    · exact (agrees.flags groupId' recordId isFlag).grow grown
  · intro groupId' recordId flagged
    rw [flagged_concat (by rintro ⟨⟩)] at flagged
    rw [findRecord_setGroup]
    rcases agrees.flagged groupId' recordId flagged with isFlag | entered
    · left
      rw [if_neg]
      · exact isFlag
      · rintro rfl
        rw [findRecord_of_findKek missing] at isFlag
        cases isFlag
    · exact .inr (entered.grow grown)
  · intro returned isReturned
    obtain ⟨tells, right⟩ := agrees.returned returned isReturned
    exact ⟨tells.grow grown, right.grow grown⟩

theorem Agrees.flag (agrees : registry.Agrees logged history)
    (isGroup : registry.groups groupId = some group) (isRevoked : entry.revoked = true) :
    (registry.setRecord groupId recordId group entry).Agrees logged
      (history ++ [⟨task, .flagRecord groupId recordId, true⟩]) := by
  have grown : history ⊆ history ++ [⟨task, .flagRecord groupId recordId, true⟩] :=
    subset_append_left _ _
  constructor
  · intro groupId'
    rw [entered_concat (by rintro _ ⟨⟩)]
    exact agrees.entered groupId'
  · exact fun groupId' inLog => (agrees.inLog groupId' inLog).grow grown
  · intro groupId' kek isKek
    rw [findKek_setRecord isGroup] at isKek
    exact (agrees.keks groupId' kek isKek).grow grown
  · intro groupId' kek issued
    rw [issued_concat (by rintro ⟨⟩)] at issued
    rw [findKek_setRecord isGroup]
    exact (agrees.issued groupId' kek issued).imp_right (Entered.grow grown)
  · intro groupId' recordId' isFlag
    rw [findRecord_setRecord isGroup] at isFlag
    split at isFlag
    · rename_i same
      rw [same.1, same.2]
      exact ⟨task, mem_append_right _ (mem_singleton.mpr rfl)⟩
    · exact (agrees.flags groupId' recordId' isFlag).grow grown
  · intro groupId' recordId' flagged
    rw [findRecord_setRecord isGroup]
    by_cases same : groupId' = groupId ∧ recordId' = recordId
    · rw [if_pos same, isRevoked]
      exact .inl rfl
    · rw [if_neg same]
      have other : RegistryOp.flagRecord groupId recordId ≠ .flagRecord groupId' recordId' := by
        rintro ⟨⟩
        exact same ⟨rfl, rfl⟩
      rw [flagged_concat other] at flagged
      exact (agrees.flagged groupId' recordId' flagged).imp_right (Entered.grow grown)
  · exact fun returned isReturned => (agrees.returned returned isReturned).imp (Tells.grow grown)
      (Returned.Right.grow grown)

theorem Agrees.log (agrees : registry.Agrees logged history) {entries : List Nat}
    (isLog : registry.revocationLog = some entries) :
    KeyRegistry.Agrees logged (history ++ [⟨task, .appendLog groupId, .ok true⟩])
      { registry with revocationLog := some (groupId :: entries) } := by
  have grown : history ⊆ history ++ [⟨task, .appendLog groupId, .ok true⟩] :=
    subset_append_left _ _
  constructor
  · intro groupId'
    rw [entered_concat (by rintro _ ⟨⟩)]
    exact agrees.entered groupId'
  · intro groupId' inLog
    rcases mem_cons.mp (of_decide_eq_true inLog) with rfl | before
    · exact .inr ⟨task, mem_append_right _ (mem_singleton.mpr rfl)⟩
    · have inLogBefore : registry.logHas groupId' = true := by
        rw [logHas, isLog]
        exact decide_eq_true before
      exact (agrees.inLog groupId' inLogBefore).grow grown
  · exact fun groupId' kek isKek => (agrees.keks groupId' kek isKek).grow grown
  · intro groupId' kek issued
    rw [issued_concat (by rintro ⟨⟩)] at issued
    exact (agrees.issued groupId' kek issued).imp_right (Entered.grow grown)
  · exact fun groupId' recordId isFlag => (agrees.flags groupId' recordId isFlag).grow grown
  · intro groupId' recordId flagged
    rw [flagged_concat (by rintro ⟨⟩)] at flagged
    exact (agrees.flagged groupId' recordId flagged).imp_right (Entered.grow grown)
  · exact fun returned isReturned => (agrees.returned returned isReturned).imp (Tells.grow grown)
      (Returned.Right.grow grown)

theorem Agrees.enter (agrees : registry.Agrees logged history) (thread : Nat)
    (writer : Option Nat) :
    KeyRegistry.Agrees logged (history ++ [⟨task, .enterRevoked thread groupId, true⟩])
      { registry with
        revokedGroups := groupId :: registry.revokedGroups
        revokedWriter := writer } := by
  have grown : history ⊆ history ++ [⟨task, .enterRevoked thread groupId, true⟩] :=
    subset_append_left _ _
  constructor
  · intro groupId'
    constructor
    · intro isRevoked
      rcases mem_cons.mp isRevoked with rfl | before
      · exact .inr ⟨task, thread, mem_append_right _ (mem_singleton.mpr rfl)⟩
      · exact ((agrees.entered groupId').mp before).grow grown
    · intro entered
      rcases entered.of_concat with before | ⟨_, _, same⟩
      · exact mem_cons_of_mem _ ((agrees.entered groupId').mpr before)
      · cases same
        exact mem_cons_self
  · exact fun groupId' inLog => (agrees.inLog groupId' inLog).grow grown
  · exact fun groupId' kek isKek => (agrees.keks groupId' kek isKek).grow grown
  · intro groupId' kek issued
    rw [issued_concat (by rintro ⟨⟩)] at issued
    exact (agrees.issued groupId' kek issued).imp_right (Entered.grow grown)
  · exact fun groupId' recordId isFlag => (agrees.flags groupId' recordId isFlag).grow grown
  · intro groupId' recordId flagged
    rw [flagged_concat (by rintro ⟨⟩)] at flagged
    exact (agrees.flagged groupId' recordId flagged).imp_right (Entered.grow grown)
  · exact fun returned isReturned => (agrees.returned returned isReturned).imp (Tells.grow grown)
      (Returned.Right.grow grown)

theorem Agrees.registerDek (agrees : registry.Agrees logged history)
    (isNew : entry.revoked = false)
    (keeps : registry.KeepsFlag (.registerDek groupId recordId entry)) :
    (registry.registerDek groupId recordId entry).Agrees logged history := by
  unfold KeyRegistry.registerDek
  split
  · rename_i group isGroup
    refine { agrees with keks := ?_, issued := ?_, flags := ?_, flagged := ?_ }
    · rw [findKek_setRecord isGroup]
      exact agrees.keks
    · rw [findKek_setRecord isGroup]
      exact agrees.issued
    · intro groupId' recordId' isFlag
      rw [findRecord_setRecord isGroup, isNew] at isFlag
      split at isFlag
      · cases isFlag
      · exact agrees.flags groupId' recordId' isFlag
    · intro groupId' recordId' flagged
      rw [findRecord_setRecord isGroup]
      rcases agrees.flagged groupId' recordId' flagged with isFlag | entered
      · by_cases same : groupId' = groupId ∧ recordId' = recordId
        · rw [same.1, same.2] at isFlag
          rw [same.1]
          exact .inr ((agrees.entered groupId).mp (keeps isFlag))
        · rw [if_neg same]
          exact .inl isFlag
      · exact .inr entered
  · exact agrees

theorem Agrees.purgeGroup (agrees : registry.Agrees logged history)
    (entered : Entered logged history groupId) :
    (registry.setGroup groupId none).Agrees logged history := by
  refine { agrees with keks := ?_, issued := ?_, flags := ?_, flagged := ?_ }
  · intro groupId' kek isKek
    rw [findKek_setGroup] at isKek
    split at isKek
    · cases isKek
    · exact agrees.keks groupId' kek isKek
  · intro groupId' kek issued
    rw [findKek_setGroup]
    split
    · rename_i same
      exact .inr (same ▸ entered)
    · exact agrees.issued groupId' kek issued
  · intro groupId' recordId' isFlag
    rw [findRecord_setGroup] at isFlag
    split at isFlag
    · cases isFlag
    · exact agrees.flags groupId' recordId' isFlag
  · intro groupId' recordId' flagged
    rw [findRecord_setGroup]
    split
    · rename_i same
      exact .inr (same ▸ entered)
    · exact agrees.flagged groupId' recordId' flagged

theorem Agrees.deriveKek (agrees : registry.Agrees logged history) {choice : RegistryChoice}
    {result : Except CryptoError Key} {next : KeyRegistry}
    (derived : registry.deriveKek groupId choice = some (result, next)) :
    next.Agrees logged (history ++ [⟨task, .deriveKek groupId, result⟩]) := by
  unfold KeyRegistry.deriveKek at derived
  split at derived
  · rename_i group isGroup
    cases derived
    have isKek : registry.findKek groupId = some group.kek := by
      rw [findKek, isGroup]
      rfl
    exact { agrees.keepKek isKek with }
  · rename_i missing
    have noKek : registry.findKek groupId = none := map_eq_none_iff.mpr missing
    split at derived
    · rename_i kek
      cases derived
      exact { agrees.newKek noKek kek with }
    · cases derived
      have silent : Silent (.deriveKek groupId) (.error (.encryption
        ("Nonce counter exhausted: maximum encryptions reached for " ++
          "KeyManager instance"))) := trivial
      exact { agrees.silent silent with }
    · cases derived

theorem Agrees.flagRecord (agrees : registry.Agrees logged history) :
    (registry.flagRecord groupId recordId).2.Agrees logged (history ++
      [⟨task, .flagRecord groupId recordId, (registry.flagRecord groupId recordId).1⟩]) := by
  have silent : Silent (.flagRecord groupId recordId) false := trivial
  unfold KeyRegistry.flagRecord
  split
  · rename_i group isGroup
    split
    · split
      · exact agrees.silent silent
      · exact agrees.flag isGroup rfl
    · exact agrees.silent silent
  · exact agrees.silent silent

theorem Agrees.appendLog (agrees : registry.Agrees logged history) (choice : RegistryChoice) :
    (registry.appendLog groupId choice).2.Agrees logged (history ++
      [⟨task, .appendLog groupId, (registry.appendLog groupId choice).1⟩]) := by
  unfold KeyRegistry.appendLog
  split
  · have silent : Silent (.appendLog groupId) (.ok false) := trivial
    exact agrees.silent silent
  · rename_i entries isLog
    split
    · have silent : Silent (.appendLog groupId) (.error (.storage "write_atomic")) := trivial
      exact agrees.silent silent
    · exact agrees.log isLog

theorem Agrees.enterRevoked (agrees : registry.Agrees logged history) (thread : Nat) :
    (registry.enterRevoked thread groupId).2.Agrees logged (history ++
      [⟨task, .enterRevoked thread groupId, (registry.enterRevoked thread groupId).1⟩]) := by
  unfold KeyRegistry.enterRevoked
  split
  · have silent : Silent (.enterRevoked thread groupId) false := trivial
    exact agrees.silent silent
  · exact agrees.enter thread _

theorem Agrees.perform (agrees : registry.Agrees logged history) {op : RegistryOp}
    {choice : RegistryChoice} {answer : op.Answer} {next : KeyRegistry}
    (allowed : Allowed logged history op) (keeps : registry.KeepsFlag op)
    (performed : registry.perform op choice = some (answer, next)) :
    Reliable logged history op answer ∧ next.Agrees logged (history ++ [⟨task, op, answer⟩]) := by
  cases op with
  | beginCall =>
    cases performed
    refine ⟨fun told isTold => ?_, agrees.silent trivial⟩
    obtain ⟨returned, isReturned, rfl⟩ := List.mem_map.mp isTold
    exact (agrees.returned returned isReturned).1
  | logIsRevoked groupId =>
    cases performed
    exact ⟨agrees.inLog groupId, agrees.silent trivial⟩
  | revokedContains groupId =>
    obtain ⟨_, same⟩ := unlocked_eq_some.mp performed
    cases same
    refine ⟨?_, agrees.silent trivial⟩
    exact decide_eq_true_iff.trans (agrees.entered groupId)
  | findKek groupId =>
    obtain ⟨_, same⟩ := unlocked_eq_some.mp performed
    cases same
    refine ⟨?_, agrees.silent trivial⟩
    cases isKek : registry.findKek groupId with
    | none =>
      intro other issued
      have found := agrees.issued groupId other issued
      rw [isKek] at found
      exact found.imp_left fun isSome => nomatch isSome
    | some kek =>
      refine ⟨agrees.keks groupId kek isKek, fun other issued => ?_⟩
      have found := agrees.issued groupId other issued
      rw [isKek] at found
      exact found.imp_left fun isSome => (some.inj isSome).symm
  | lockGroups thread =>
    obtain ⟨_, same⟩ := unlocked_eq_some.mp performed
    cases same
    have silent : Silent (.lockGroups thread) () := trivial
    exact ⟨trivial, { agrees.silent silent with }⟩
  | unlockGroups =>
    cases performed
    have silent : Silent .unlockGroups () := trivial
    exact ⟨trivial, { agrees.silent silent with }⟩
  | deriveKek groupId => exact ⟨trivial, agrees.deriveKek performed⟩
  | fillRandom =>
    cases choice with
    | keys dek dekNonce nonce =>
      cases performed
      exact ⟨trivial, agrees.silent trivial⟩
    | key kek => cases performed
    | fails => cases performed
  | registerDek groupId recordId entry =>
    obtain ⟨_, same⟩ := unlocked_eq_some.mp performed
    cases same
    have silent : Silent (.registerDek groupId recordId entry) () := trivial
    exact ⟨trivial, (agrees.registerDek allowed keeps).silent silent⟩
  | findRecord groupId recordId =>
    obtain ⟨_, same⟩ := unlocked_eq_some.mp performed
    cases same
    refine ⟨?_, agrees.silent trivial⟩
    match isRecord : registry.findRecord groupId recordId with
    | none =>
      intro other issued
      have found := agrees.issued groupId other issued
      rw [findRecord_eq_none isRecord] at found
      exact found.imp_left fun isSome => nomatch isSome
    | some (some true) => exact agrees.flags groupId recordId isRecord
    | some (some false) =>
      intro flagged
      have found := agrees.flagged groupId recordId flagged
      rw [isRecord] at found
      exact found.resolve_left (by decide)
    | some none =>
      intro flagged
      have found := agrees.flagged groupId recordId flagged
      rw [isRecord] at found
      exact found.resolve_left (by decide)
  | flagRecord groupId recordId =>
    obtain ⟨_, same⟩ := unlocked_eq_some.mp performed
    have flagged : (registry.flagRecord groupId recordId).2.Agrees logged (history ++
        [⟨task, .flagRecord groupId recordId, (registry.flagRecord groupId recordId).1⟩]) :=
      agrees.flagRecord
    rw [same] at flagged
    exact ⟨trivial, flagged⟩
  | appendLog groupId =>
    have same : registry.appendLog groupId choice = (answer, next) := some.inj performed
    have appended : (registry.appendLog groupId choice).2.Agrees logged (history ++
        [⟨task, .appendLog groupId, (registry.appendLog groupId choice).1⟩]) :=
      agrees.appendLog choice
    rw [same] at appended
    exact ⟨trivial, appended⟩
  | enterRevoked thread groupId =>
    obtain ⟨_, same⟩ := unlocked_eq_some.mp performed
    have entered : (registry.enterRevoked thread groupId).2.Agrees logged (history ++
        [⟨task, .enterRevoked thread groupId, (registry.enterRevoked thread groupId).1⟩]) :=
      agrees.enterRevoked thread
    rw [same] at entered
    exact ⟨trivial, entered⟩
  | purgeGroup groupId =>
    obtain ⟨_, same⟩ := unlocked_eq_some.mp performed
    cases same
    have silent : Silent (.purgeGroup groupId) () := trivial
    exact ⟨trivial, { (agrees.purgeGroup allowed).silent silent with }⟩
  | endCall returned =>
    cases performed
    have silent : Silent (.endCall returned) () := trivial
    have grown : history ⊆ history ++ [⟨task, .endCall returned, ()⟩] :=
      subset_append_left _ _
    refine ⟨trivial, { agrees.silent silent with returned := ?_ }⟩
    intro entry isReturned
    rcases mem_append.mp isReturned with before | new
    · exact (agrees.silent silent).returned entry before
    · cases mem_singleton.mp new
      exact allowed.imp (Tells.grow grown) (Returned.Right.grow grown)

end Operations

end KeyRegistry

end Contextra.Shredding
