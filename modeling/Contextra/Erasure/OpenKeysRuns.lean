import Contextra.Erasure.OpenKeys

/-!
# One saga for a target

What a call of the core can do in each phase, and from it the law of the table over all
interleavings of calls.  Two targets can share the bytes that they are looked up by, and two
calls for one target can both miss the table: these are the runs the condition leaves out.
-/

namespace Contextra.Erasure

open Library List Option

/-- An operation that neither destroys a key nor looks at the table, and enters nothing. -/
def SagaOp.Quiet : SagaOp → Prop
  | .containsOpenKey _ => False
  | .insertOpenKey _ => False
  | .destroyHighestKey _ => False
  | .verifyKeyAbsent _ => False
  | _ => True

/-- Before its key is entered, a saga may also destroy it. -/
def SagaOp.BeforeEntry : SagaOp → Prop
  | .containsOpenKey _ => False
  | .insertOpenKey _ => False
  | _ => True

theorem SagaOp.Quiet.beforeEntry {op : SagaOp} (quiet : op.Quiet) : op.BeforeEntry := by
  cases op <;> trivial

section Uses

variable {allowed : SagaOp → Prop}

theorem uses_ask {op : SagaOp} (isAllowed : allowed op) : Uses allowed (ask op).run :=
  ⟨isAllowed, fun _ => trivial⟩

variable {α : Type}

theorem uses_orFail (result : Except ErasureError α) :
    Uses allowed (orFail result).run := trivial

theorem uses_return (value : α) : Uses allowed (pure value : SagaM α).run := trivial

theorem uses_always {program : SagaProgram α} (uses : Uses allowed program) :
    Uses allowed (always program).run := Uses.bind uses fun _ => trivial

theorem uses_becomePending (entry : ActiveEntry) (phase : Phase) (reason : PendingReason) :
    Uses SagaOp.Quiet (becomePending entry phase reason).run := by
  unfold becomePending
  refine Uses.bindExcept (uses_orFail _) fun saga => ?_
  refine Uses.bindExcept (uses_ask trivial) fun _ => ?_
  refine Uses.bindExcept (uses_ask trivial) fun _ => ?_
  exact uses_return _

theorem uses_record (saga : EraseSaga) (next : SagaState) :
    Uses SagaOp.Quiet (record saga next).run := by
  unfold record
  refine Uses.bindExcept (uses_orFail _) fun after => ?_
  refine Uses.bindExcept (uses_ask trivial) fun _ => ?_
  exact uses_return _

theorem uses_resolveLayers (target : EraseTarget) (layers : List Layer) (scopes : LayerScopes) :
    Uses SagaOp.Quiet (resolveLayers target scopes layers) := by
  induction layers generalizing scopes with
  | nil => trivial
  | cons layer layers ih =>
    refine ⟨trivial, fun answer => ?_⟩
    cases answer with
    | ok scope => exact ih _
    | error error => trivial

theorem uses_callLayers {call : Layer → LayerScope → SagaOp}
    (quiet : ∀ layer scope, (call layer scope).Quiet) (scopes : LayerScopes)
    (layers : List Layer) : Uses SagaOp.Quiet (callLayers call scopes layers) := by
  induction layers with
  | nil => trivial
  | cons layer layers ih =>
    rw [callLayers]
    split
    · exact ih
    · refine ⟨quiet _ _, fun answer => ?_⟩
      cases answer with
      | ok result => exact ih
      | error error => trivial

theorem uses_witnessLayers (target : EraseTarget) (layers : List Layer)
    (witnesses : List LayerWitness) :
    Uses SagaOp.Quiet (witnessLayers target witnesses layers).run := by
  induction layers generalizing witnesses with
  | nil => trivial
  | cons layer layers ih =>
    refine ⟨trivial, fun answer => ?_⟩
    cases answer with
    | ok witness => exact ih _
    | error error => cases error <;> trivial

theorem uses_complete (entry : ActiveEntry) (openKey : Bytes) (witnesses : List LayerWitness) :
    Uses SagaOp.Quiet (ErasureCore.complete entry openKey witnesses).run := by
  unfold ErasureCore.complete
  refine Uses.bindExcept (uses_ask trivial) fun _ => ?_
  refine Uses.bindExcept (uses_ask trivial) fun _ => ?_
  refine Uses.bindExcept (uses_ask trivial) fun _ => ?_
  refine Uses.bindExcept (uses_record _ _) fun _ => ?_
  refine Uses.bindExcept (uses_ask trivial) fun _ => ?_
  refine Uses.bindExcept (uses_ask trivial) fun _ => ?_
  refine Uses.bindExcept (uses_ask trivial) fun _ => ?_
  refine Uses.bindExcept (uses_ask trivial) fun _ => ?_
  exact uses_return _

variable (core : ErasureCore)

theorem uses_verify (entry : ActiveEntry) (openKey : Bytes) :
    Uses SagaOp.Quiet (core.verify entry openKey).run := by
  unfold ErasureCore.verify
  refine Uses.bindExcept (uses_record _ _) fun saga => ?_
  refine Uses.bindExcept (uses_witnessLayers _ _ _) fun found => ?_
  cases found with
  | none => exact uses_becomePending _ _ _
  | some witnesses => exact uses_complete _ _ _

theorem uses_executePurgeAndVerify (target : EraseTarget) (attestation : RetentionAttestation)
    (gatedSeq : Nat) (scopes : LayerScopes) (openKey : Bytes) :
    Uses SagaOp.Quiet
      (core.executePurgeAndVerify target attestation gatedSeq scopes openKey).run := by
  have quiet (layer : Layer) (scope : LayerScope) :
      (SagaOp.purge layer scope core.cfg.eraseSla).Quiet := trivial
  unfold ErasureCore.executePurgeAndVerify
  refine Uses.bindExcept (uses_ask trivial) fun active => ?_
  unfold ErasureCore.purgeAndVerify
  simp only
  split
  · exact uses_becomePending _ _ _
  · refine Uses.bindExcept (uses_record _ _) fun saga => ?_
    refine Uses.bindExcept (uses_ask trivial) fun _ => ?_
    refine Uses.bindExcept (uses_always (uses_callLayers quiet _ _)) fun failed => ?_
    cases failed with
    | some layer => exact uses_becomePending _ _ _
    | none => exact uses_verify core _ _

theorem uses_runPurgeWindow : Uses SagaOp.Quiet core.runPurgeWindow.run := by
  unfold ErasureCore.runPurgeWindow
  refine Uses.bindExcept (uses_ask trivial) fun active => ?_
  cases active with
  | none => exact uses_return _
  | some entry =>
    simp only
    split
    · refine Uses.bindExcept (uses_always (uses_executePurgeAndVerify core _ _ _ _ _))
        fun purged => ?_
      split
      · exact uses_return _
      · exact uses_return _
      · exact uses_return _
    · exact uses_return _

theorem uses_recoverAndResume : Uses SagaOp.Quiet core.recoverAndResume.run := by
  unfold ErasureCore.recoverAndResume
  refine Uses.bindExcept (uses_ask trivial) fun sagas => ?_
  induction sagas with
  | nil => exact uses_return _
  | cons saga sagas ih =>
    rw [ErasureCore.resumeSagas]
    split
    · exact ih
    · refine Uses.bindExcept (uses_record _ _) fun _ => ?_
      refine Uses.bindExcept (uses_ask trivial) fun _ => ?_
      refine Uses.bindExcept (uses_ask trivial) fun _ => ?_
      refine Uses.bindExcept ih fun _ => ?_
      exact uses_return _

theorem uses_destroyKey (req : EraseExecutionRequest) (scopes : LayerScopes) :
    Uses SagaOp.BeforeEntry (core.destroyKey req scopes).run := by
  have quietly {α : Type} {program : SagaM α} (uses : Uses SagaOp.Quiet program.run) :
      Uses SagaOp.BeforeEntry program.run := uses.mono fun _ => SagaOp.Quiet.beforeEntry
  have quiet (layer : Layer) (scope : LayerScope) : (SagaOp.onGate layer scope).Quiet := trivial
  unfold ErasureCore.destroyKey
  refine Uses.bindExcept (uses_ask trivial) fun _ => ?_
  refine Uses.bindExcept (uses_ask trivial) fun _ => ?_
  refine Uses.bindExcept (quietly (uses_record _ _)) fun saga => ?_
  refine Uses.bindExcept (quietly (uses_always (uses_callLayers quiet _ _))) fun failed => ?_
  cases failed with
  | some layer =>
    refine Uses.bindExcept (quietly (uses_becomePending _ _ _)) fun _ => ?_
    exact uses_return _
  | none =>
    refine Uses.bindExcept (uses_ask trivial) fun _ => ?_
    refine Uses.bindExcept (uses_ask trivial) fun absent => ?_
    split
    · refine Uses.bindExcept (quietly (uses_becomePending _ _ _)) fun _ => ?_
      exact uses_return _
    · refine Uses.bindExcept (quietly (uses_record _ _)) fun _ => ?_
      exact uses_return _

end Uses

/-- What the saga of a request may do before its key is entered. -/
def IdentifiedRequest.AllowsUnderway (core : ErasureCore) (req : IdentifiedRequest) :
    SagaOp → Prop
  | .containsOpenKey _ => False
  | .insertOpenKey key => key = core.openKey req
  | .destroyHighestKey _ => req.erases = true
  | .verifyKeyAbsent _ => req.erases = true
  | _ => True

def CoreTask.Allows (core : ErasureCore) : CoreTask → RequestPhase → CoreOp → Prop
  | .erase req, .checking, .getOpenKey key => key = core.openKey req
  | .erase _, .found id, .getActive id' => id' = id
  | .erase _, .found _, .own _ op => op.Quiet
  | .erase req, .underway, .own id op => id = req.erasureId ∧ req.AllowsUnderway core op
  | _, .settled, .own _ op => op.Quiet
  | _, _, _ => False

def CoreTask.protocol (core : ErasureCore) (task : CoreTask) :
    Protocol RequestPhase CoreOp CoreOp.Answer where
  allows := task.Allows core
  advance := RequestPhase.advance

def CoreTask.ownProtocol (core : ErasureCore) (task : CoreTask) (id : ErasureId) :
    Protocol RequestPhase SagaOp SagaOp.Answer where
  allows phase op := task.Allows core phase (.own id op)
  advance phase op answer := phase.advance (.own id op) answer

def RequestPhase.answersAbout (req : IdentifiedRequest) : RequestPhase → ErasureId
  | .found id => id
  | _ => req.erasureId

def CoreTask.Ends : CoreTask → RequestPhase → CallAnswer → Prop
  | .erase req, phase, answer => ∀ id receipt, answer = some (.ok (id, receipt)) →
      id = phase.answersAbout req
  | _, _, _ => True

theorem obeys_ofId {core : ErasureCore} {task : CoreTask} {id : ErasureId} {α : Type}
    {program : SagaProgram α} {phase : RequestPhase} {post : RequestPhase → α → Prop}
    (obeys : Obeys (task.ownProtocol core id) post phase program) :
    Obeys (task.protocol core) post phase (SagaM.ofId id program) := by
  induction program generalizing phase with
  | done result => exact obeys
  | call op next ih =>
    exact ⟨obeys.1, fun answer => ih answer (obeys.2 answer)⟩

theorem obeys_settled {core : ErasureCore} {task : CoreTask} {id : ErasureId} {α : Type}
    {program : SagaProgram α} (uses : Uses SagaOp.Quiet program) :
    Obeys (task.ownProtocol core id) (fun after _ => after = .settled) .settled program := by
  apply uses.obeys
  · intro op quiet
    cases task <;> exact quiet
  · intro op answer _
    rfl

section Flow

variable {core : ErasureCore} {req : IdentifiedRequest}

variable {α : Type}

theorem obeys_quiet {program : SagaProgram α} (uses : Uses SagaOp.Quiet program) :
    Obeys ((CoreTask.erase req).ownProtocol core req.erasureId)
      (fun after _ => after = .underway) .underway program := by
  apply uses.obeys
  · intro op quiet
    refine ⟨rfl, ?_⟩
    cases op <;> trivial
  · intro op answer quiet
    cases op <;> first | rfl | exact quiet.elim

theorem obeys_beforeEntry (erases : req.erases = true) {program : SagaProgram α}
    (uses : Uses SagaOp.BeforeEntry program) :
    Obeys ((CoreTask.erase req).ownProtocol core req.erasureId)
      (fun after _ => after = .underway) .underway program := by
  apply uses.obeys
  · intro op before
    refine ⟨rfl, ?_⟩
    cases op <;> trivial
  · intro op answer before
    cases op <;> first | rfl | exact before.elim

/-- The saga of a request is on the way to enter its key, or is past that. -/
def PastCheck (phase : RequestPhase) : Prop := phase = .underway ∨ phase = .settled

theorem obeys_then {α β : Type} {program : SagaM α} {next : α → SagaM β}
    (first : Obeys ((CoreTask.erase req).ownProtocol core req.erasureId)
      (fun after _ => after = .underway) .underway program.run)
    (rest : ∀ value, Obeys ((CoreTask.erase req).ownProtocol core req.erasureId)
      (fun after _ => PastCheck after) .underway (next value).run) :
    Obeys ((CoreTask.erase req).ownProtocol core req.erasureId) (fun after _ => PastCheck after)
      .underway (program >>= next).run := by
  apply Obeys.bindExcept
  apply first.mono
  rintro after result rfl
  cases result with
  | ok value => exact rest value
  | error error => exact .inl rfl

theorem obeys_quietThen {α β : Type} {program : SagaM α} {next : α → SagaM β}
    (first : Uses SagaOp.Quiet program.run)
    (rest : ∀ value, Obeys ((CoreTask.erase req).ownProtocol core req.erasureId)
      (fun after _ => PastCheck after) .underway (next value).run) :
    Obeys ((CoreTask.erase req).ownProtocol core req.erasureId) (fun after _ => PastCheck after)
      .underway (program >>= next).run := obeys_then (obeys_quiet first) rest

theorem obeys_entryThen {β : Type} {next : Unit → SagaM β}
    (rest : Uses SagaOp.Quiet (next ()).run) :
    Obeys ((CoreTask.erase req).ownProtocol core req.erasureId) (fun after _ => PastCheck after)
      .underway (ask (.insertOpenKey (core.openKey req)) >>= next).run := by
  refine ⟨⟨rfl, rfl⟩, fun answer => ?_⟩
  cases answer with
  | ok result => exact (obeys_settled rest).mono fun _ _ settled => .inr settled
  | error error => exact .inr rfl

theorem obeys_return (value : α) :
    Obeys ((CoreTask.erase req).ownProtocol core req.erasureId) (fun after _ => PastCheck after)
      .underway (pure value : SagaM α).run := .inl rfl

theorem obeys_eraseResolved (erases : req.erases = true) (scopes : LayerScopes) :
    Obeys ((CoreTask.erase req).ownProtocol core req.erasureId) (fun after _ => PastCheck after)
      .underway ((core.withErasureId req.erasureId).eraseResolved req.toEraseExecutionRequest
        (core.openKey req) scopes).run := by
  unfold ErasureCore.eraseResolved
  refine obeys_then (obeys_beforeEntry erases (uses_destroyKey _ _ _)) fun destroyed => ?_
  obtain ⟨entry, status⟩ := destroyed
  cases status with
  | some status =>
    refine obeys_quietThen (uses_ask trivial) fun _ => ?_
    exact obeys_return _
  | none =>
    refine obeys_quietThen (uses_ask trivial) fun _ => ?_
    refine obeys_quietThen (uses_ask trivial) fun gatedAt => ?_
    refine obeys_quietThen (uses_ask trivial) fun _ => ?_
    refine obeys_entryThen ?_
    split
    · refine Uses.bindExcept (uses_always (uses_executePurgeAndVerify _ _ _ _ _ _))
        fun purged => ?_
      cases purged with
      | ok status => exact uses_return _
      | error error => exact uses_return _
    · exact uses_return _

theorem obeys_eraseFlow :
    Obeys ((CoreTask.erase req).ownProtocol core req.erasureId) (fun after _ => PastCheck after)
      .underway ((core.withErasureId req.erasureId).executeEraseFlow
        req.toEraseExecutionRequest (core.openKey req)).run := by
  unfold ErasureCore.executeEraseFlow
  cases decision : evaluateRetention req.mode req.attestation with
  | refuse reason =>
    refine obeys_quietThen (uses_orFail _) fun saga => ?_
    refine obeys_quietThen (uses_ask trivial) fun _ => ?_
    refine obeys_quietThen (uses_ask trivial) fun _ => ?_
    exact obeys_return _
  | proceedRestrict =>
    refine obeys_quietThen (uses_orFail _) fun saga => ?_
    refine obeys_quietThen (uses_ask trivial) fun _ => ?_
    refine obeys_quietThen (uses_ask trivial) fun gatedSeq => ?_
    refine obeys_quietThen (uses_ask trivial) fun _ => ?_
    refine obeys_quietThen (uses_ask trivial) fun _ => ?_
    refine obeys_quietThen (uses_ask trivial) fun _ => ?_
    refine obeys_entryThen ?_
    refine Uses.bindExcept (uses_ask trivial) fun _ => ?_
    exact uses_return _
  | proceedErase =>
    have erases : req.erases = true := decide_eq_true decision
    refine obeys_quietThen (uses_always (uses_resolveLayers _ _ _)) fun resolved => ?_
    obtain ⟨scopes, failed⟩ := resolved
    cases failed with
    | some layer =>
      refine obeys_quietThen (uses_becomePending _ _ _) fun _ => ?_
      refine obeys_quietThen (uses_ask trivial) fun _ => ?_
      exact obeys_return _
    | none => exact obeys_eraseResolved erases scopes

theorem answersAbout_pastCheck {phase : RequestPhase} (past : PastCheck phase) :
    phase.answersAbout req = req.erasureId := by
  rcases past with rfl | rfl <;> rfl

theorem obeys_spawnedFlow :
    Obeys ((CoreTask.erase req).protocol core) ((CoreTask.erase req).Ends) .underway
      ((core.spawnedFlow req).bind fun answer => .done (some answer)) := by
  apply Obeys.bind
  unfold ErasureCore.spawnedFlow
  apply Obeys.bind
  apply (obeys_ofId obeys_eraseFlow).mono
  intro after answer past id receipt same
  rw [answersAbout_pastCheck past]
  cases answer with
  | ok receipt' =>
    cases same
    rfl
  | error error => cases same

theorem obeys_erase :
    Obeys ((CoreTask.erase req).protocol core) ((CoreTask.erase req).Ends) .checking
      (core.program (.erase req)) := by
  refine ⟨rfl, fun found => ?_⟩
  cases found with
  | none => exact obeys_spawnedFlow
  | some existingId =>
    refine ⟨rfl, fun active => ?_⟩
    cases active with
    | none => exact obeys_spawnedFlow
    | some entry =>
      refine ⟨trivial, fun now => ?_⟩
      intro id receipt same
      cases now with
      | ok gatedAt =>
        cases same
        rfl
      | error error => cases same

end Flow

theorem obeys_program (core : ErasureCore) (task : CoreTask) :
    Obeys (task.protocol core) task.Ends (.first task) (core.program task) := by
  cases task with
  | erase req => exact obeys_erase
  | runPurgeWindow id =>
    apply Obeys.bind
    exact (obeys_ofId (obeys_settled (uses_runPurgeWindow _))).mono fun _ _ _ => trivial
  | recoverAndResume id =>
    apply Obeys.bind
    exact (obeys_ofId (obeys_settled (uses_recoverAndResume _))).mono fun _ _ _ => trivial

/-- Every call obeys its protocol; what the table names, and what a call has found in it, is an
erasure of the target looked up; of the calls for one target one is underway. -/
structure CoreState.Consistent (core : ErasureCore) (state : CoreState) : Prop where
  obeys : ∀ call ∈ state.calls,
    Obeys (call.task.protocol core) call.task.Ends call.phase call.program
  entered : ∀ key id, state.openKeys key = some id →
    ∃ req, .erase req ∈ state.tasks ∧ req.erasureId = id ∧ core.openKey req = key
  found : ∀ call ∈ state.calls, ∀ req id, call.task = .erase req → call.phase = .found id →
    ∃ other, .erase other ∈ state.tasks ∧ other.erasureId = id ∧
      core.openKey other = core.openKey req
  ids : ∀ left right, .erase left ∈ state.tasks → .erase right ∈ state.tasks →
    left.erasureId = right.erasureId → SameErasure left right
  keys : ∀ left right, .erase left ∈ state.tasks → .erase right ∈ state.tasks →
    core.openKey left = core.openKey right → SameErasure left right
  exclusive : ∀ (index index' : Nat) (call call' : Call), index ≠ index' →
    state.calls[index]? = some call → state.calls[index']? = some call' →
    call.Contends call' = true → call.Underway → ¬ call'.Underway

theorem SameErasure.symm {left right : IdentifiedRequest} (same : SameErasure left right) :
    SameErasure right left := ⟨same.1.symm, same.2.symm⟩

theorem Call.contends_iff {call other : Call} :
    call.Contends other = true ↔ ∃ req req', call.task = .erase req ∧ other.task = .erase req' ∧
      SameErasure req req' ∧ req.erases = true ∧ req'.erases = true := by
  unfold Call.Contends
  cases call.task <;> cases other.task <;> simp [and_assoc]

theorem Call.Contends.symm {call other : Call} (contends : call.Contends other = true) :
    other.Contends call = true := by
  obtain ⟨req, req', own, others, same, erases, erases'⟩ := Call.contends_iff.mp contends
  exact Call.contends_iff.mpr ⟨req', req, others, own, same.symm, erases', erases⟩

theorem Call.underway_of_destroying {core : ErasureCore} {call : Call} {req : IdentifiedRequest}
    (obeys : Obeys (call.task.protocol core) call.task.Ends call.phase call.program)
    (isErase : call.task = .erase req) (destroying : call.Destroying) :
    call.Underway ∧ req.erases = true := by
  obtain ⟨task, phase, program⟩ := call
  cases isErase
  have allowed {id : ErasureId} (op : SagaOp) (loud : ¬ op.Quiet)
      (allows : (CoreTask.erase req).Allows core phase (.own id op)) :
      phase = .underway ∧ req.AllowsUnderway core op := by
    cases phase with
    | checking => exact allows.elim
    | found id' => exact absurd allows loud
    | underway => exact ⟨rfl, allows.2⟩
    | settled => exact absurd allows loud
  unfold Call.Destroying at destroying
  split at destroying
  · rename_i id target next program_eq
    simp only at program_eq
    subst program_eq
    obtain ⟨isUnderway, erases⟩ := allowed (.destroyHighestKey target) not_false obeys.1
    exact ⟨⟨isUnderway, trivial⟩, erases⟩
  · rename_i id target next program_eq
    simp only at program_eq
    subst program_eq
    obtain ⟨isUnderway, erases⟩ := allowed (.verifyKeyAbsent target) not_false obeys.1
    exact ⟨⟨isUnderway, trivial⟩, erases⟩
  · exact destroying.elim

namespace CoreState.Consistent

variable {core : ErasureCore} {state : CoreState}

theorem oneSagaPerTarget (consistent : state.Consistent core) : state.OneSagaPerTarget where
  answered := by
    intro call mem req id receipt isErase ended
    have asked : .erase req ∈ state.tasks := List.mem_map.mpr ⟨call, mem, isErase⟩
    have ends := consistent.obeys call mem
    rw [ended, isErase] at ends
    have about : id = call.phase.answersAbout req := ends id receipt rfl
    have named : ∃ other, .erase other ∈ state.tasks ∧ other.erasureId = id ∧
        SameErasure other req := by
      cases phase : call.phase with
      | found id' =>
        obtain ⟨other, isAsked, isId, sameKey⟩ :=
          consistent.found call mem req id' isErase phase
        rw [phase] at about
        exact ⟨other, isAsked, isId.trans about.symm,
          consistent.keys other req isAsked asked sameKey⟩
      | _ =>
        rw [phase] at about
        exact ⟨req, asked, about.symm, rfl, rfl⟩
    obtain ⟨other, isAsked, isId, same⟩ := named
    refine ⟨⟨other, isAsked, isId⟩, fun another isAsked' isId' => ?_⟩
    have sameIds := consistent.ids another other isAsked' isAsked (isId'.trans isId.symm)
    exact ⟨sameIds.1.trans same.1, sameIds.2.trans same.2⟩
  exclusive := by
    intro index index' call call' req req' different isCall isCall' isErase isErase' same
      destroying destroying'
    obtain ⟨underway, erases⟩ := Call.underway_of_destroying
      (consistent.obeys call (mem_of_getElem? isCall)) isErase destroying
    obtain ⟨underway', erases'⟩ := Call.underway_of_destroying
      (consistent.obeys call' (mem_of_getElem? isCall')) isErase' destroying'
    have contends := Call.contends_iff.mpr ⟨req, req', isErase, isErase', same, erases, erases'⟩
    exact consistent.exclusive index index' call call' different isCall isCall' contends underway
      underway'

theorem initial : CoreState.initial.Consistent core where
  obeys := by simp [CoreState.initial]
  entered := by simp [CoreState.initial]
  found := by simp [CoreState.initial]
  ids := by simp [CoreState.initial, CoreState.tasks]
  keys := by simp [CoreState.initial, CoreState.tasks]
  exclusive := by simp [CoreState.initial]

end CoreState.Consistent

section Steps

variable {core : ErasureCore} {state after : CoreState}

variable {choice : SagaChoice} {op : CoreOp}

theorem CoreState.perform_openKeys {answer : op.Answer}
    (performed : state.perform op choice = some (answer, after)) {key : Bytes} {id : ErasureId}
    (named : after.openKeys key = some id) :
    state.openKeys key = some id ∨ op = .own id (.insertOpenKey key) := by
  cases op with
  | getOpenKey key' =>
    cases performed
    exact .inl named
  | getActive id' =>
    cases performed
    exact .inl named
  | own id' op =>
    cases op with
    | insertOpenKey key' =>
      cases performed
      simp only [Function.update_apply] at named
      split at named
      · rename_i same
        cases named
        exact .inr (by rw [same])
      · exact .inl named
    | removeOpenKey key' =>
      cases performed
      simp only [Function.update_apply] at named
      split at named
      · cases named
      · exact .inl named
    | _ =>
      simp only [CoreState.perform, map_eq_some_iff] at performed
      obtain ⟨_, _, same⟩ := performed
      cases same
      exact .inl named

variable {phase : RequestPhase}

theorem RequestPhase.advance_eq_found {answer : op.Answer} {id : ErasureId}
    (performed : state.perform op choice = some (answer, after))
    (found : phase.advance op answer = .found id) :
    phase = .found id ∨ ∃ key, op = .getOpenKey key ∧ state.openKeys key = some id := by
  cases op with
  | getOpenKey key =>
    cases performed
    cases phase with
    | checking =>
      cases isNamed : state.openKeys key with
      | none =>
        rw [isNamed] at found
        cases found
      | some id' =>
        rw [isNamed] at found
        cases found
        exact .inr ⟨key, rfl, isNamed⟩
    | _ => exact .inl found
  | getActive id' =>
    cases performed
    cases phase with
    | found id'' =>
      cases isActive : (state.sagas id').active with
      | none =>
        rw [isActive] at found
        cases found
      | some entry =>
        rw [isActive] at found
        exact .inl found
    | _ => exact .inl found
  | own id' op =>
    cases phase with
    | underway => cases op <;> cases found
    | _ => exact .inl found

theorem RequestPhase.misses_of_advance {answer : op.Answer} (task : CoreTask) (next : op.Answer → CoreProgram CallAnswer)
    (performed : state.perform op choice = some (answer, after))
    (goes : phase.advance op answer = .underway) :
    phase = .underway ∨ state.Misses ⟨task, phase, .call op next⟩ := by
  cases op with
  | getOpenKey key =>
    cases performed
    cases phase with
    | checking =>
      cases isNamed : state.openKeys key with
      | none => exact .inr isNamed
      | some id' =>
        rw [isNamed] at goes
        cases goes
    | _ => exact .inl goes
  | getActive id' =>
    cases performed
    cases phase with
    | found id'' =>
      cases isActive : (state.sagas id').active with
      | none => exact .inr (by simp [CoreState.Misses, isActive])
      | some entry =>
        rw [isActive] at goes
        cases goes
    | _ => exact .inl goes
  | own id' op =>
    cases phase with
    | underway => exact .inl rfl
    | _ => exact .inl goes

theorem map_task_set {calls : List Call} {index : Nat} {call after : Call}
    (isCall : calls[index]? = some call) (sameTask : after.task = call.task) :
    (calls.set index after).map Call.task = calls.map Call.task := by
  rw [map_set, sameTask]
  apply ext_getElem?
  intro position
  rw [getElem?_set]
  split
  · rename_i same
    obtain ⟨inside, call_eq⟩ := List.getElem?_eq_some_iff.mp isCall
    rw [length_map, if_pos inside, ← same, getElem?_map, isCall]
    rfl
  · rfl

theorem CoreState.Consistent.advance (consistent : state.Consistent core) {index : Nat}
    {task : CoreTask} {next : op.Answer → CoreProgram CallAnswer} {answer : op.Answer}
    (isCall : state.calls[index]? = some ⟨task, phase, .call op next⟩)
    (admissible : core.admissibleCall state (.step index choice))
    (performed : state.perform op choice = some (answer, after)) :
    CoreState.Consistent core
      { after with calls := state.calls.set index ⟨task, phase.advance op answer, next answer⟩ } := by
  set moved : Call := ⟨task, phase.advance op answer, next answer⟩ with moved_eq
  have mem := mem_of_getElem? isCall
  have obeys := consistent.obeys _ mem
  have sameTasks : (state.calls.set index moved).map Call.task = state.tasks :=
    map_task_set isCall rfl
  have isTask : task ∈ state.tasks := List.mem_map.mpr ⟨_, mem, rfl⟩
  have exclusive : ∀ index' other, index' ≠ index → state.calls[index']? = some other →
      moved.Contends other = true → moved.Underway → ¬ other.Underway := by
    intro index' other different isOther contends underway
    rcases RequestPhase.misses_of_advance task next performed underway.1 with already | misses
    · exact consistent.exclusive index index' _ other (Ne.symm different) isCall isOther contends
        ⟨already, trivial⟩
    · exact admissible _ (mem_def.mpr isCall) misses index'
        (List.getElem?_eq_some_iff.mp isOther).1 different other (mem_def.mpr isOther) contends
  refine ⟨?_, ?_, ?_, ?_, ?_, ?_⟩
  · intro call isIn
    rcases mem_or_eq_of_mem_set isIn with old | rfl
    · exact consistent.obeys call old
    · exact obeys.2 answer
  · intro key id named
    change ∃ req, .erase req ∈ (state.calls.set index moved).map Call.task ∧ _
    rw [sameTasks]
    rcases CoreState.perform_openKeys performed named with old | rfl
    · exact consistent.entered key id old
    · have allowed := obeys.1
      cases task with
      | erase req =>
        cases phase with
        | underway => exact ⟨req, isTask, allowed.1.symm, allowed.2.symm⟩
        | _ => exact (allowed : False).elim
      | _ =>
        cases phase with
        | _ => exact (allowed : False).elim
  · intro call isIn req id isErase found
    change ∃ other, .erase other ∈ (state.calls.set index moved).map Call.task ∧ _
    rw [sameTasks]
    rcases mem_or_eq_of_mem_set isIn with old | rfl
    · exact consistent.found call old req id isErase found
    · rcases RequestPhase.advance_eq_found performed found with same | ⟨key, rfl, named⟩
      · exact consistent.found _ mem req id isErase same
      · obtain ⟨other, isAsked, isId, sameKey⟩ := consistent.entered key id named
        have allowed := obeys.1
        change task = .erase req at isErase
        subst isErase
        cases phase with
        | checking =>
          have isKey : key = core.openKey req := allowed
          exact ⟨other, isAsked, isId, sameKey.trans isKey⟩
        | _ => exact (allowed : False).elim
  · intro left right isLeft isRight
    change _ ∈ (state.calls.set index moved).map Call.task at isLeft isRight
    rw [sameTasks] at isLeft isRight
    exact consistent.ids left right isLeft isRight
  · intro left right isLeft isRight
    change _ ∈ (state.calls.set index moved).map Call.task at isLeft isRight
    rw [sameTasks] at isLeft isRight
    exact consistent.keys left right isLeft isRight
  · intro first second call call' different isFirst isSecond contends underway underway'
    simp only [getElem?_set] at isFirst isSecond
    split at isFirst
    · rename_i isIndex
      subst isIndex
      rw [if_neg different] at isSecond
      split at isFirst
      · cases isFirst
        exact exclusive second call' (Ne.symm different) isSecond contends underway underway'
      · cases isFirst
    · rename_i notIndex
      split at isSecond
      · rename_i isIndex
        subst isIndex
        split at isSecond
        · cases isSecond
          exact exclusive first call (Ne.symm notIndex) isFirst (Call.Contends.symm contends)
            underway' underway
        · cases isSecond
      · exact consistent.exclusive first second call call' different isFirst isSecond contends
          underway underway'

theorem CoreState.Consistent.start (consistent : state.Consistent core) {task : CoreTask}
    (admissible : core.admissibleCall state (.start task)) :
    CoreState.Consistent core
      { state with calls := state.calls ++ [⟨task, .first task, core.program task⟩] } := by
  have tasks_eq : (state.calls ++ [(⟨task, .first task, core.program task⟩ : Call)]).map
      Call.task = state.tasks ++ [task] := by
    simp [CoreState.tasks]
  have apart : ∀ req, task = .erase req → ∀ other, .erase other ∈ state.tasks →
      TellsApart core other req := by
    rintro req rfl other isAsked
    exact admissible (.erase other) isAsked
  have pairs (same : IdentifiedRequest → IdentifiedRequest → Prop)
      (symmetric : ∀ left right, same left right → same right left)
      (old : ∀ left right, .erase left ∈ state.tasks → .erase right ∈ state.tasks →
        same left right → SameErasure left right)
      (new : ∀ left right, TellsApart core left right → same left right →
        SameErasure left right) (left right : IdentifiedRequest)
      (isLeft : .erase left ∈ state.tasks ++ [task])
      (isRight : .erase right ∈ state.tasks ++ [task]) (holds : same left right) :
      SameErasure left right := by
    rcases mem_append.mp isLeft with oldLeft | newLeft
    · rcases mem_append.mp isRight with oldRight | newRight
      · exact old left right oldLeft oldRight holds
      · exact new left right (apart right (mem_singleton.mp newRight).symm left oldLeft) holds
    · rcases mem_append.mp isRight with oldRight | newRight
      · exact (new right left (apart left (mem_singleton.mp newLeft).symm right oldRight)
          (symmetric left right holds)).symm
      · have both := (mem_singleton.mp newLeft).trans (mem_singleton.mp newRight).symm
        cases both
        exact ⟨rfl, rfl⟩
  refine ⟨?_, ?_, ?_, ?_, ?_, ?_⟩
  · intro call isIn
    rcases mem_append.mp isIn with old | new
    · exact consistent.obeys call old
    · rw [mem_singleton.mp new]
      exact obeys_program core task
  · intro key id named
    obtain ⟨req, isAsked, rest⟩ := consistent.entered key id named
    refine ⟨req, ?_, rest⟩
    change _ ∈ List.map _ _
    rw [tasks_eq]
    exact mem_append_left _ isAsked
  · intro call isIn req id isErase found
    rcases mem_append.mp isIn with old | new
    · obtain ⟨other, isAsked, rest⟩ := consistent.found call old req id isErase found
      refine ⟨other, ?_, rest⟩
      change _ ∈ List.map _ _
      rw [tasks_eq]
      exact mem_append_left _ isAsked
    · rw [mem_singleton.mp new] at found
      cases task <;> cases found
  · intro left right isLeft isRight sameIds
    change _ ∈ List.map _ _ at isLeft isRight
    rw [tasks_eq] at isLeft isRight
    exact pairs (fun left right => left.erasureId = right.erasureId) (fun _ _ => Eq.symm)
      consistent.ids (fun _ _ apart => apart.ids) left right isLeft isRight sameIds
  · intro left right isLeft isRight sameKeys
    change _ ∈ List.map _ _ at isLeft isRight
    rw [tasks_eq] at isLeft isRight
    refine pairs (fun left right => core.openKey left = core.openKey right) (fun _ _ => Eq.symm)
      consistent.keys (fun _ _ apart same => ?_) left right isLeft isRight sameKeys
    obtain ⟨sameBytes, sameMode⟩ := apart.hash same
    exact ⟨apart.bytes sameBytes sameMode, sameMode⟩
  · intro first second call call' different isFirst isSecond contends underway underway'
    have notNew : ∀ {index : Nat} {call : Call}, call.Underway →
        (state.calls ++ [⟨task, .first task, core.program task⟩])[index]? = some call →
          state.calls[index]? = some call := by
      intro index call underway isIn
      rw [getElem?_append] at isIn
      split at isIn
      · exact isIn
      · have new := mem_singleton.mp (mem_of_getElem? isIn)
        rw [new] at underway
        cases task <;> cases underway.1
    exact consistent.exclusive first second call call' different (notNew underway isFirst)
      (notNew underway' isSecond) contends underway underway'

theorem CoreState.Consistent.step (consistent : state.Consistent core) {event : CoreEvent}
    (admissible : core.admissibleCall state event)
    (taken : core.stepCalls state event = some after) : after.Consistent core := by
  cases event with
  | start task =>
    cases taken
    exact consistent.start admissible
  | step index choice =>
    simp only [ErasureCore.stepCalls] at taken
    split at taken
    · rename_i task phase op next isCall
      rw [map_eq_some_iff] at taken
      obtain ⟨⟨answer, performedState⟩, performed, same⟩ := taken
      exact same ▸ consistent.advance isCall admissible performed
    · cases taken
  | crash =>
    cases taken
    exact ⟨by simp, by simp, by simp, by simp [CoreState.tasks], by simp [CoreState.tasks],
      by simp⟩

end Steps

/-- Where the condition is met, every run keeps one saga for a target, and every request is
answered about its own. -/
theorem oneSagaPerTarget_run {core : ErasureCore} {events : List CoreEvent} {final : CoreState}
    (guarded : Along core.stepCalls core.admissibleCall .initial events)
    (finished : run core.stepCalls .initial events = some final) : final.OneSagaPerTarget := by
  have consistent : final.Consistent core := by
    refine run_invariant ?_ CoreState.Consistent.initial guarded finished
    intro state event next holds admissible taken
    exact holds.step admissible taken
  exact consistent.oneSagaPerTarget

section Example

instance (core : ErasureCore) (state : CoreState) (event : CoreEvent) :
    Decidable (core.admissibleCall state event) := by
  unfold ErasureCore.admissibleCall
  split
  · refine @List.decidableBAll _ _ (fun task => ?_) _
    split <;> infer_instance
  · refine @Option.decidableForallMem _ _ (fun call => ?_) _
    infer_instance
  · infer_instance

/-- A core without layers, whose keys are the bytes themselves. -/
def plainCore : ErasureCore where
  cfg := ⟨60, 0⟩
  layers := []
  layerPriorities := fun _ => none
  erasureId := ⟨replicate 16 0, rfl⟩
  deriveOpenKey := fun bytes mode => bytes ++ [mode]

def exampleRequest (byte : UInt8) (keys : List Bytes) (mode : EraseMode) : IdentifiedRequest where
  erasureId := ⟨replicate 16 byte, by simp⟩
  target := .exactKeys keys
  mode := mode
  attestation := ⟨.noObligation, [], 0⟩
  timing := .batched

def stepOk (index : Nat) : CoreEvent := .step index .ok

/-- A restriction of one key, with its open key entered. -/
def restrictOne (index : Nat) (req : IdentifiedRequest) : List CoreEvent :=
  [.start (.erase req), stepOk index, stepOk index, .step index (.number 7), stepOk index,
    stepOk index, stepOk index, stepOk index, .step index (.number 99)]

/-- The same request again is answered by the first. -/
def repeatedRun : List CoreEvent :=
  restrictOne 0 (exampleRequest 1 [[1], [2]] .restrict) ++
    [.start (.erase (exampleRequest 2 [[1], [2]] .restrict)), stepOk 1, stepOk 1,
      .step 1 (.number 100)]

theorem oneSagaPerTarget_repeatedRun :
    ∃ final, run plainCore.stepCalls .initial repeatedRun = some final ∧
      final.OneSagaPerTarget := by
  obtain ⟨final, finished⟩ := isSome_iff_exists.mp
    (show (run plainCore.stepCalls .initial repeatedRun).isSome by decide +kernel)
  exact ⟨final, finished, oneSagaPerTarget_run (by decide +kernel) finished⟩

def aliasedRun : List CoreEvent :=
  restrictOne 0 (exampleRequest 1 [[1], [2]] .restrict) ++
    [.start (.erase (exampleRequest 2 [[1, 2]] .restrict)), stepOk 1, stepOk 1,
      .step 1 (.number 100)]

def Call.receiptId (call : Call) : Option ErasureId :=
  match call.program with
  | .done (some (.ok (id, _))) => some id
  | _ => none

theorem Call.program_of_receiptId {call : Call} {id : ErasureId} (ended : call.receiptId = some id) :
    ∃ receipt, call.program = .done (some (.ok (id, receipt))) := by
  unfold Call.receiptId at ended
  split at ended
  · rename_i id' receipt program_eq
    cases ended
    exact ⟨receipt, program_eq⟩
  · cases ended

/-- The second request is answered with the receipt of the first, for another target. -/
theorem aliasedRun_not_oneSagaPerTarget :
    ∃ final, run plainCore.stepCalls .initial aliasedRun = some final ∧
      ¬ final.OneSagaPerTarget := by
  have answers : (run plainCore.stepCalls .initial aliasedRun).map
      (fun final => final.calls.map Call.receiptId) =
        some [some (exampleRequest 1 [] .restrict).erasureId,
          some (exampleRequest 1 [] .restrict).erasureId] := by
    decide +kernel
  have requests : (run plainCore.stepCalls .initial aliasedRun).map CoreState.tasks =
      some [.erase (exampleRequest 1 [[1], [2]] .restrict),
        .erase (exampleRequest 2 [[1, 2]] .restrict)] := by
    rfl
  obtain ⟨final, finished, receipts⟩ := map_eq_some_iff.mp answers
  rw [finished, map_some, Option.some.injEq] at requests
  refine ⟨final, finished, fun law => ?_⟩
  have second : final.calls[1]?.map Call.receiptId =
      some (some (exampleRequest 1 [] .restrict).erasureId) := by
    rw [← getElem?_map, receipts]
    rfl
  have secondTask : final.calls[1]?.map Call.task =
      some (.erase (exampleRequest 2 [[1, 2]] .restrict)) := by
    rw [← getElem?_map]
    exact congrArg (·[1]?) requests
  obtain ⟨call, isCall, ended⟩ := map_eq_some_iff.mp second
  rw [isCall] at secondTask
  obtain ⟨receipt, program_eq⟩ := Call.program_of_receiptId ended
  have same := (law.answered call (mem_of_getElem? isCall) _ _ receipt
    (some.inj secondTask) program_eq).2 (exampleRequest 1 [[1], [2]] .restrict)
    (by rw [requests]; exact mem_cons_self) rfl
  exact absurd same (by decide)

end Example

end Contextra.Erasure
