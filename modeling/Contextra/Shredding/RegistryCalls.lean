import Contextra.Shredding.Registry

/-!
# What the calls guarantee

What has happened to a group or a record is read off the operations that were performed.
-/

namespace Contextra.Shredding

open Library List

abbrev RegistryStep := Performed ThreadCall RegistryOp RegistryOp.Answer

section History

variable (logged : List Nat) (history : List RegistryStep)

def Entered (groupId : Nat) : Prop :=
  groupId ∈ logged ∨ ∃ task thread, ⟨task, .enterRevoked thread groupId, true⟩ ∈ history

def Logged (groupId : Nat) : Prop :=
  groupId ∈ logged ∨ ∃ task, ⟨task, .appendLog groupId, .ok true⟩ ∈ history

def Flagged (groupId recordId : Nat) : Prop :=
  ∃ task, ⟨task, .flagRecord groupId recordId, true⟩ ∈ history

def Issued (groupId : Nat) (kek : Key) : Prop :=
  ∃ task, ⟨task, .deriveKek groupId, .ok kek⟩ ∈ history

/-- A call has revoked the record or its group, even where it has not returned yet. -/
def Revoked (groupId recordId : Nat) : Prop :=
  Logged logged history groupId ∨ Entered logged history groupId ∨
    Flagged history groupId recordId

def Produced (groupId recordId : Nat) (plaintext : Bytes) (payload : EncryptedRecordPayload) :
    Prop :=
  ∃ kek dek, Issued history groupId kek ∧
    payload = ⟨recordId, groupId, ⟨dek, payload.nonce, plaintext⟩, payload.nonce,
      ⟨kek, payload.dekNonce, dek⟩, payload.dekNonce⟩

def Tells : Call × CallResult → Prop
  | (.revokeGroup groupId, .revoked true) => Entered logged history groupId
  | (.revokeRecord groupId recordId, .revoked true) => Flagged history groupId recordId
  | (.encryptRecord groupId recordId plaintext, .payload payload) =>
    Produced history groupId recordId plaintext payload
  | _ => True

end History

/-- The record of the payload was shredded, by itself or with its group, before the call. -/
def Returned.Shredded (returned : Returned) (payload : EncryptedRecordPayload) : Prop :=
  (.revokeGroup payload.groupId, .revoked true) ∈ returned.earlier ∨
    (.revokeRecord payload.groupId payload.recordId, .revoked true) ∈ returned.earlier

/-- A decryption fails where the record was shredded before, and returns the plaintext of a
payload from before whose record is not revoked. -/
structure Returned.Right (logged : List Nat) (history : List RegistryStep)
    (returned : Returned) : Prop where
  shredded : ∀ payload, returned.call = .decryptRecord payload → returned.Shredded payload →
    ∃ error, returned.result = .failed error
  kept : ∀ payload plaintext, returned.call = .decryptRecord payload →
    (.encryptRecord payload.groupId payload.recordId plaintext, .payload payload) ∈
      returned.earlier →
    ¬ Revoked logged history payload.groupId payload.recordId →
    returned.result = .plaintext plaintext

section Growth

variable {logged : List Nat} {history later : List RegistryStep} {groupId recordId : Nat}
  (grown : history ⊆ later)

include grown

theorem Entered.grow (entered : Entered logged history groupId) :
    Entered logged later groupId := by
  rcases entered with before | ⟨task, thread, performed⟩
  · exact .inl before
  · exact .inr ⟨task, thread, grown performed⟩

theorem Logged.grow (isLogged : Logged logged history groupId) : Logged logged later groupId := by
  rcases isLogged with before | ⟨task, performed⟩
  · exact .inl before
  · exact .inr ⟨task, grown performed⟩

theorem Flagged.grow (flagged : Flagged history groupId recordId) :
    Flagged later groupId recordId := by
  obtain ⟨task, performed⟩ := flagged
  exact ⟨task, grown performed⟩

theorem Issued.grow {kek : Key} (issued : Issued history groupId kek) :
    Issued later groupId kek := by
  obtain ⟨task, performed⟩ := issued
  exact ⟨task, grown performed⟩

theorem Revoked.grow (revoked : Revoked logged history groupId recordId) :
    Revoked logged later groupId recordId := by
  rcases revoked with isLogged | entered | flagged
  · exact .inl (isLogged.grow grown)
  · exact .inr (.inl (entered.grow grown))
  · exact .inr (.inr (flagged.grow grown))

theorem Produced.grow {plaintext : Bytes} {payload : EncryptedRecordPayload}
    (produced : Produced history groupId recordId plaintext payload) :
    Produced later groupId recordId plaintext payload := by
  obtain ⟨kek, dek, issued, isPayload⟩ := produced
  exact ⟨kek, dek, issued.grow grown, isPayload⟩

theorem Tells.grow {entry : Call × CallResult} (tells : Tells logged history entry) :
    Tells logged later entry := by
  unfold Tells at tells ⊢
  split at tells
  · exact Entered.grow grown tells
  · exact Flagged.grow grown tells
  · exact Produced.grow grown tells
  · trivial

theorem Returned.Right.grow {returned : Returned} (right : returned.Right logged history) :
    returned.Right logged later where
  shredded := right.shredded
  kept := by
    intro payload plaintext isDecrypt isEarlier notRevoked
    exact right.kept payload plaintext isDecrypt isEarlier fun revoked =>
      notRevoked (revoked.grow grown)

end Growth

section Contract

variable (logged : List Nat)

def OnlyKek (history : List RegistryStep) (groupId : Nat) (isKek : Key → Prop) : Prop :=
  ∀ other, Issued history groupId other → isKek other ∨ Entered logged history groupId

def Reliable (history : List RegistryStep) : (op : RegistryOp) → op.Answer → Prop
  | .beginCall, earlier => ∀ entry ∈ earlier, Tells logged history entry
  | .logIsRevoked groupId, answer => answer = true → Logged logged history groupId
  | .revokedContains groupId, answer => answer = true ↔ Entered logged history groupId
  | .findKek groupId, some kek =>
    Issued history groupId kek ∧ OnlyKek logged history groupId (· = kek)
  | .findKek groupId, none => OnlyKek logged history groupId fun _ => False
  | .findRecord groupId _, none => OnlyKek logged history groupId fun _ => False
  | .findRecord groupId recordId, some (some true) => Flagged history groupId recordId
  | .findRecord groupId recordId, some _ =>
    Flagged history groupId recordId → Entered logged history groupId
  | _, _ => True

def Allowed (history : List RegistryStep) : RegistryOp → Prop
  | .registerDek _ _ entry => entry.revoked = false
  | .purgeGroup groupId => Entered logged history groupId
  | .endCall returned =>
    Tells logged history (returned.call, returned.result) ∧ returned.Right logged history
  | _ => True

def registryContract : Contract ThreadCall RegistryOp RegistryOp.Answer where
  allows history _ op := Allowed logged history op
  reliable history op answer := Reliable logged history op answer

end Contract

section Programs

variable {logged : List Nat} {task : ThreadCall} {history : List RegistryStep}

abbrev Guarantees (logged : List Nat) (task : ThreadCall) {α : Type} (program : RegistryProgram α)
    (post : List RegistryStep → α → Prop) (history : List RegistryStep) : Prop :=
  Ensures (registryContract logged) task program post history

structure LooksRevoked (logged : List Nat) (history later : List RegistryStep) (groupId : Nat)
    (answer : Bool) : Prop where
  found : Entered logged history groupId → answer = true
  told : answer = true → Logged logged later groupId ∨ Entered logged later groupId

theorem isGroupRevoked_ensures (groupId : Nat) :
    Guarantees logged task (isGroupRevoked groupId)
      (fun later answer => LooksRevoked logged history later groupId answer) history := by
  intro later grown
  refine ⟨trivial, fun inLog isLogged => ?_⟩
  cases inLog with
  | true =>
    have told : Logged logged later groupId := isLogged rfl
    exact ⟨fun _ => rfl, fun _ => .inl (told.grow (subset_append_left _ _))⟩
  | false =>
    intro again grownAgain
    refine ⟨trivial, fun contained isContained => ?_⟩
    have grownOn : history ⊆ again := fun _ isIn =>
      grownAgain (subset_append_left _ _ (grown isIn))
    refine ⟨fun entered => isContained.mpr (entered.grow grownOn), fun isTrue => .inr ?_⟩
    exact (isContained.mp isTrue).grow (subset_append_left _ _)

/-- The key of a group: there is none if the group was revoked before, and a group that is not
revoked has only one. -/
structure GetsKek (logged : List Nat) (history later : List RegistryStep) (groupId : Nat)
    (result : Except CryptoError Key) : Prop where
  refused : Entered logged history groupId → ∃ error, result = .error error
  issued : ∀ kek, result = .ok kek → Issued later groupId kek
  only : ∀ other, Issued history groupId other →
    result = .ok other ∨ Logged logged later groupId ∨ Entered logged later groupId

theorem GetsKek.of_entered {later : List RegistryStep} {groupId : Nat} {error : CryptoError}
    (only : ∀ other, Issued history groupId other →
      Logged logged later groupId ∨ Entered logged later groupId) :
    GetsKek logged history later groupId (.error error) where
  refused _ := ⟨error, rfl⟩
  issued _ isOk := nomatch isOk
  only other issued := .inr (only other issued)

theorem deriveLocked_ensures {start : List RegistryStep} {groupId : Nat} (since : start ⊆ history)
    (fresh : ∀ other, Issued start groupId other → Entered logged history groupId) :
    Guarantees logged task (deriveLocked groupId)
      (fun later result => GetsKek logged start later groupId result) history := by
  apply Ensures.bind (isGroupRevoked_ensures groupId)
  intro later revoked grown looks
  cases revoked with
  | true =>
    intro again grownAgain
    refine ⟨trivial, fun _ _ => ?_⟩
    have grownOn : history ⊆ again ++ [⟨task, .unlockGroups, ()⟩] :=
      List.Subset.trans grown (List.Subset.trans grownAgain (subset_append_left _ _))
    exact .of_entered fun other issued => .inr ((fresh other issued).grow grownOn)
  | false =>
    intro again grownAgain
    refine ⟨trivial, fun result _ => ?_⟩
    have grownOn : history ⊆ again ++ [⟨task, .deriveKek groupId, result⟩] :=
      List.Subset.trans grown (List.Subset.trans grownAgain (subset_append_left _ _))
    constructor
    · intro entered
      exact absurd (looks.found (entered.grow since)) Bool.false_ne_true
    · rintro kek rfl
      exact ⟨task, mem_append_right _ (mem_singleton.mpr rfl)⟩
    · intro other issued
      exact .inr (.inr ((fresh other issued).grow grownOn))

theorem getOrDerive_ensures (thread groupId : Nat) :
    Guarantees logged task (getOrDerive thread groupId)
      (fun later result => GetsKek logged history later groupId result) history := by
  apply Ensures.bind (isGroupRevoked_ensures groupId)
  intro later revoked grown looks
  cases revoked with
  | true => exact .of_entered fun _ _ => looks.told rfl
  | false =>
    intro again grownAgain
    refine ⟨trivial, fun found reliable => ?_⟩
    have grownOn : history ⊆ again := List.Subset.trans grown grownAgain
    have grownLast : again ⊆ again ++ [⟨task, .findKek groupId, found⟩] :=
      subset_append_left _ _
    cases found with
    | some kek =>
      obtain ⟨issued, only⟩ := reliable
      constructor
      · intro entered
        exact absurd (looks.found entered) Bool.false_ne_true
      · rintro _ ⟨⟩
        exact issued.grow grownLast
      · intro other isIssued
        rcases only other (isIssued.grow grownOn) with rfl | entered
        · exact .inl rfl
        · exact .inr (.inr (entered.grow grownLast))
    | none =>
      intro locked grownLocked
      refine ⟨trivial, fun _ _ => ?_⟩
      have grownHere : again ⊆ locked ++ [⟨task, .lockGroups thread, ()⟩] :=
        List.Subset.trans grownLast
          (List.Subset.trans grownLocked (subset_append_left _ _))
      apply deriveLocked_ensures (List.Subset.trans grownOn grownHere)
      intro other issued
      rcases reliable other (issued.grow grownOn) with impossible | entered
      · exact impossible.elim
      · exact entered.grow grownHere

theorem revokeGroup_ensures (thread groupId : Nat) :
    Guarantees logged task (revokeGroup thread groupId)
      (fun later result => Tells logged later (.revokeGroup groupId, result)) history := by
  apply Ensures.bind (isGroupRevoked_ensures groupId)
  intro later revoked grown looks
  cases revoked with
  | true => trivial
  | false =>
    intro again grownAgain
    refine ⟨trivial, fun appended _ => ?_⟩
    cases appended with
    | error error => trivial
    | ok written =>
      intro entering _
      refine ⟨trivial, fun entered _ => ?_⟩
      cases entered with
      | false => trivial
      | true =>
        intro purging grownPurging
        have entered : Entered logged purging groupId := .inr ⟨task, thread,
          grownPurging (mem_append_right _ (mem_singleton.mpr rfl))⟩
        exact ⟨entered, fun _ _ => entered.grow (subset_append_left _ _)⟩

theorem revokeRecord_ensures (groupId recordId : Nat) :
    Guarantees logged task (revokeRecord groupId recordId)
      (fun later result => Tells logged later (.revokeRecord groupId recordId, result))
      history := by
  apply Ensures.bind (isGroupRevoked_ensures groupId)
  intro later revoked grown looks
  cases revoked with
  | true => trivial
  | false =>
    intro again grownAgain
    refine ⟨trivial, fun flagged _ => ?_⟩
    cases flagged with
    | false => trivial
    | true => exact ⟨task, mem_append_right _ (mem_singleton.mpr rfl)⟩

theorem encryptRecord_ensures (thread groupId recordId : Nat) (plaintext : Bytes) :
    Guarantees logged task (encryptRecord thread groupId recordId plaintext)
      (fun later result =>
        Tells logged later (.encryptRecord groupId recordId plaintext, result)) history := by
  apply Ensures.bind (getOrDerive_ensures thread groupId)
  intro later subkey grown gets
  cases subkey with
  | error error => trivial
  | ok kek =>
    have issued : Issued later groupId kek := gets.issued kek rfl
    intro again grownAgain
    refine ⟨trivial, fun keys _ => ?_⟩
    obtain ⟨dek, dekNonce, nonce⟩ := keys
    intro registering grownRegistering
    refine ⟨rfl, fun _ _ => ⟨kek, dek, ?_, rfl⟩⟩
    apply issued.grow
    exact List.Subset.trans grownAgain (List.Subset.trans (subset_append_left _ _)
      (List.Subset.trans grownRegistering (subset_append_left _ _)))

/-- What a decryption that starts now will be. -/
structure Decrypts (logged : List Nat) (history later : List RegistryStep)
    (payload : EncryptedRecordPayload) (result : CallResult) : Prop where
  shredded : Entered logged history payload.groupId ∨
    Flagged history payload.groupId payload.recordId → ∃ error, result = .failed error
  kept : ∀ plaintext, Produced history payload.groupId payload.recordId plaintext payload →
    Revoked logged later payload.groupId payload.recordId ∨ result = .plaintext plaintext

theorem Produced.open {plaintext : Bytes} {payload : EncryptedRecordPayload} {groupId recordId : Nat}
    (produced : Produced history groupId recordId plaintext payload) :
    ∃ kek, Issued history groupId kek ∧ payload.open kek = .plaintext plaintext := by
  obtain ⟨kek, dek, issued, isPayload⟩ := produced
  refine ⟨kek, issued, ?_⟩
  rw [isPayload]
  simp only [EncryptedRecordPayload.open, Sealed.decrypt, and_self, if_true]

theorem openRecord_ensures (thread : Nat) (payload : EncryptedRecordPayload) :
    Guarantees logged task (openRecord thread payload)
      (fun later result =>
        (Entered logged history payload.groupId → ∃ error, result = .failed error) ∧
        ∀ plaintext, Produced history payload.groupId payload.recordId plaintext payload →
          Revoked logged later payload.groupId payload.recordId ∨
            result = .plaintext plaintext) history := by
  apply Ensures.bind (getOrDerive_ensures thread payload.groupId)
  intro later subkey grown gets
  cases subkey with
  | error error =>
    refine ⟨fun _ => ⟨error, rfl⟩, fun plaintext produced => .inl ?_⟩
    obtain ⟨kek, issued, _⟩ := produced.open
    rcases gets.only kek issued with isOk | isLogged | entered
    · cases isOk
    · exact .inl isLogged
    · exact .inr (.inl entered)
  | ok kek =>
    constructor
    · intro entered
      obtain ⟨error, isError⟩ := gets.refused entered
      cases isError
    · intro plaintext produced
      obtain ⟨kek', issued, opens⟩ := produced.open
      rcases gets.only kek' issued with isOk | isLogged | entered
      · cases isOk
        exact .inr opens
      · exact .inl (.inl isLogged)
      · exact .inl (.inr (.inl entered))

theorem decryptRecord_ensures (thread : Nat) (payload : EncryptedRecordPayload) :
    Guarantees logged task (decryptRecord thread payload)
      (fun later result => Decrypts logged history later payload result) history := by
  apply Ensures.bind (isGroupRevoked_ensures payload.groupId)
  intro later revoked grown looks
  cases revoked with
  | true =>
    refine ⟨fun _ => ⟨_, rfl⟩, fun _ _ => .inl ?_⟩
    rcases looks.told rfl with isLogged | entered
    · exact .inl isLogged
    · exact .inr (.inl entered)
  | false =>
    intro again grownAgain
    refine ⟨trivial, fun found reliable => ?_⟩
    have grownOn : history ⊆ again := List.Subset.trans grown grownAgain
    have grownLast : again ⊆ again ++
        [⟨task, .findRecord payload.groupId payload.recordId, found⟩] :=
      subset_append_left _ _
    have opened (usable : Flagged again payload.groupId payload.recordId →
        Entered logged again payload.groupId) :
        Guarantees logged task (openRecord thread payload)
          (fun later result => Decrypts logged history later payload result)
          (again ++ [⟨task, .findRecord payload.groupId payload.recordId, found⟩]) := by
      apply (openRecord_ensures thread payload).mono
      intro last result _ opens
      constructor
      · rintro (entered | flagged)
        · exact opens.1 (entered.grow (List.Subset.trans grownOn grownLast))
        · exact opens.1 ((usable (flagged.grow grownOn)).grow grownLast)
      · intro plaintext produced
        exact opens.2 plaintext (produced.grow (List.Subset.trans grownOn grownLast))
    match found with
    | none =>
      refine ⟨fun _ => ⟨_, rfl⟩, fun plaintext produced => .inl (.inr (.inl ?_))⟩
      obtain ⟨kek, issued, _⟩ := produced.open
      rcases reliable kek (issued.grow grownOn) with impossible | entered
      · exact impossible.elim
      · exact entered.grow grownLast
    | some (some true) =>
      refine ⟨fun _ => ⟨_, rfl⟩, fun _ _ => .inl (.inr (.inr ?_))⟩
      exact Flagged.grow grownLast reliable
    | some (some false) => exact opened reliable
    | some none => exact opened reliable

structure Answers (logged : List Nat) (history later : List RegistryStep) (call : Call)
    (result : CallResult) : Prop where
  tells : Tells logged later (call, result)
  decrypts : ∀ payload, call = .decryptRecord payload →
    Decrypts logged history later payload result

theorem answerCall_ensures (thread : Nat) (call : Call) :
    Guarantees logged task (answerCall thread call)
      (fun later result => Answers logged history later call result) history := by
  cases call with
  | encryptRecord groupId recordId plaintext =>
    apply (encryptRecord_ensures thread groupId recordId plaintext).mono
    exact fun _ _ _ tells => ⟨tells, fun _ isDecrypt => nomatch isDecrypt⟩
  | decryptRecord payload =>
    apply (decryptRecord_ensures thread payload).mono
    intro later result _ decrypts
    exact ⟨trivial, fun payload' isDecrypt => by cases isDecrypt; exact decrypts⟩
  | revokeGroup groupId =>
    apply (revokeGroup_ensures thread groupId).mono
    exact fun _ _ _ tells => ⟨tells, fun _ isDecrypt => nomatch isDecrypt⟩
  | revokeRecord groupId recordId =>
    apply (revokeRecord_ensures groupId recordId).mono
    exact fun _ _ _ tells => ⟨tells, fun _ isDecrypt => nomatch isDecrypt⟩

theorem Answers.right {later : List RegistryStep} {returned : Returned}
    (answers : Answers logged history later returned.call returned.result)
    (tells : ∀ entry ∈ returned.earlier, Tells logged history entry) :
    returned.Right logged later where
  shredded := by
    intro payload isDecrypt shredded
    apply (answers.decrypts payload isDecrypt).shredded
    exact shredded.imp (tells _) (tells _)
  kept := by
    intro payload plaintext isDecrypt isEarlier notRevoked
    have produced : Produced history payload.groupId payload.recordId plaintext payload :=
      tells _ isEarlier
    exact ((answers.decrypts payload isDecrypt).kept plaintext produced).resolve_left notRevoked

theorem program_ensures (task : ThreadCall) (history : List RegistryStep) :
    Guarantees logged task task.program (fun _ _ => True) history := by
  intro starting _
  refine ⟨trivial, fun earlier tells => ?_⟩
  apply Ensures.bind (answerCall_ensures task.thread task.call)
  intro later result _ answers ending grown
  have right : Returned.Right logged later ⟨task.call, result, earlier⟩ :=
    Answers.right answers fun entry isEarlier =>
      (tells entry isEarlier).grow (subset_append_left _ _)
  exact ⟨⟨answers.tells.grow grown, right.grow grown⟩, fun _ _ => trivial⟩

end Programs

end Contextra.Shredding
