import Contextra.Erasure.Saga

/-!
# What the journal of an erasure says

The journal against what was really done, over all runs of the saga.  The erase flow and the
purge window record what they did; the recovery records what it should do next, and does
nothing.  `truthful_of_closed` is the law for runs in which no recovery finds the saga open.
-/

namespace Contextra.Erasure

open Library List Option

section Facts

variable (core : ErasureCore) (target : EraseTarget) (history : SagaHistory)

/-- The call was made, by some task, and returned the result. -/
def Did (op : SagaOp) (result : op.Result) : Prop :=
  ∃ task, (⟨task, op, .ok result⟩ : Performed SagaTask SagaOp SagaOp.Answer) ∈ history

def GateAdded : Prop := ∃ seq, Did history (.addGate target) seq

def KeyDestroyed : Prop := Did history (.destroyHighestKey target) ()

def Resolved (id : LayerId) (scope : LayerScope) : Prop :=
  ∃ layer : Layer, layer.id = id ∧ Did history (.resolve layer target) scope

def Purged (layer : Layer) : Prop :=
  ∃ scope sla, Did history (.purge layer scope sla) () ∧ Resolved target history layer.id scope

def Verified (layer : Layer) : Prop := ∃ witness, Did history (.witnessLayer layer.id target) witness

def Reported : Prop :=
  ∃ attestation witnesses report, Did history (.signReport target attestation witnesses) report

def Ledgered : Prop := ∃ seq completedAt, Did history (.recordCompleted target seq completedAt) ()

/-- Everything that a completed erasure stands for was done for its target. -/
structure Erased : Prop where
  gateAdded : GateAdded target history
  keyDestroyed : KeyDestroyed target history
  purged : ∀ layer ∈ core.layers, Purged target history layer
  verified : ∀ layer ∈ core.layers, Verified target history layer
  reported : Reported target history
  ledgered : Ledgered target history

structure Covers (scopes : LayerScopes) : Prop where
  complete : ∀ layer ∈ core.layers, ∃ scope, scopeOf scopes layer = some scope
  resolved : ∀ layer scope, scopeOf scopes layer = some scope →
    Resolved target history layer.id scope

structure Purgeable (entry : ActiveEntry) : Prop where
  sameTarget : entry.target = target
  covers : Covers core target history entry.scopes
  gateAdded : GateAdded target history
  keyDestroyed : KeyDestroyed target history

/-- An entry that the purge window would take is one to purge. -/
def Sound (entry : ActiveEntry) : Prop :=
  entry.saga.state = .keyDestroyed ∨ entry.saga.state = .purging →
    Purgeable core target history entry

end Facts

section Growth

variable {core : ErasureCore} {target : EraseTarget} {history later : SagaHistory}
  (grown : history ⊆ later)
include grown

theorem Did.grow {op : SagaOp} {result : op.Result} (did : Did history op result) :
    Did later op result := did.imp fun _ mem => grown mem

theorem GateAdded.grow (added : GateAdded target history) : GateAdded target later :=
  added.imp fun _ did => did.grow grown

theorem KeyDestroyed.grow (destroyed : KeyDestroyed target history) : KeyDestroyed target later :=
  Did.grow grown destroyed

theorem Resolved.grow {id : LayerId} {scope : LayerScope} (resolved : Resolved target history id scope) :
    Resolved target later id scope :=
  resolved.imp fun _ holds => ⟨holds.1, holds.2.grow grown⟩

theorem Purged.grow {layer : Layer} (purged : Purged target history layer) :
    Purged target later layer := by
  obtain ⟨scope, sla, did, resolved⟩ := purged
  exact ⟨scope, sla, did.grow grown, resolved.grow grown⟩

theorem Verified.grow {layer : Layer} (verified : Verified target history layer) :
    Verified target later layer := verified.imp fun _ did => did.grow grown

theorem Erased.grow (erased : Erased core target history) : Erased core target later where
  gateAdded := erased.gateAdded.grow grown
  keyDestroyed := erased.keyDestroyed.grow grown
  purged := fun layer mem => (erased.purged layer mem).grow grown
  verified := fun layer mem => (erased.verified layer mem).grow grown
  reported := by
    obtain ⟨attestation, witnesses, report, did⟩ := erased.reported
    exact ⟨attestation, witnesses, report, did.grow grown⟩
  ledgered := by
    obtain ⟨seq, completedAt, did⟩ := erased.ledgered
    exact ⟨seq, completedAt, did.grow grown⟩

theorem Covers.grow {scopes : LayerScopes} (covers : Covers core target history scopes) :
    Covers core target later scopes where
  complete := covers.complete
  resolved := fun layer scope found => (covers.resolved layer scope found).grow grown

theorem Purgeable.grow {entry : ActiveEntry} (purgeable : Purgeable core target history entry) :
    Purgeable core target later entry where
  sameTarget := purgeable.sameTarget
  covers := purgeable.covers.grow grown
  gateAdded := purgeable.gateAdded.grow grown
  keyDestroyed := purgeable.keyDestroyed.grow grown

theorem Sound.grow {entry : ActiveEntry} (sound : Sound core target history entry) :
    Sound core target later entry := fun state => (sound state).grow grown

end Growth

/-- No record before what it stands for, none by the recovery, and no entry to purge that lacks
what comes before the purge. -/
def sagaContract (core : ErasureCore) (target : EraseTarget) :
    Contract SagaTask SagaOp SagaOp.Answer where
  allows history task op :=
    match op with
    | .appendState state _ => task ≠ .recoverAndResume ∧
        (state = .keyDestroyed → KeyDestroyed target history) ∧
        (state = .completed → Erased core target history)
    | .insertActive entry => Sound core target history entry
    | _ => True
  reliable history op answer :=
    match op, answer with
    | .readActive, .ok active => ∀ entry ∈ active, Sound core target history entry
    | .recoverOpenSagas, .ok sagas => ∀ saga ∈ sagas, ErasureCore.nextStep saga.state = none
    | _, _ => True

section Programs

variable {core : ErasureCore} {target : EraseTarget} {task : SagaTask} {history : SagaHistory}

theorem ensures_ask {op : SagaOp} (post : SagaHistory → op.Result → Prop)
    (allowed : ∀ later, history ⊆ later → (sagaContract core target).allows later task op)
    (answered : ∀ later result, history ⊆ later →
      (sagaContract core target).reliable later op (.ok result) →
        post (later ++ [⟨task, op, .ok result⟩]) result) :
    Ensures (sagaContract core target) task (ask op).run (Yields post) history := by
  apply Ensures.invoke allowed
  intro later answer grown reliable result isOk
  subst isOk
  exact answered later result grown reliable

theorem ensures_seam {op : SagaOp}
    (free : ∀ history, (sagaContract core target).allows history task op) :
    Ensures (sagaContract core target) task (ask op).run
      (Yields fun later result => Did later op result) history :=
  ensures_ask _ (fun later _ => free later) fun _ _ _ _ =>
    ⟨task, mem_append_right _ (mem_singleton.mpr rfl)⟩

theorem ensures_orFail {α : Type} {result : Except ErasureError α}
    (post : SagaHistory → α → Prop) (holds : ∀ value, result = .ok value → post history value) :
    Ensures (sagaContract core target) task (orFail result).run (Yields post) history := holds

theorem ensures_return {α : Type} {value : α} {post : SagaHistory → α → Prop}
    (holds : post history value) :
    Ensures (sagaContract core target) task (pure value : SagaM α).run (Yields post) history := by
  intro other same
  cases same
  exact holds

theorem ensures_always {α : Type} {program : SagaProgram α} {post : SagaHistory → α → Prop}
    (ensures : Ensures (sagaContract core target) task program post history) :
    Ensures (sagaContract core target) task (always program).run (Yields post) history := by
  apply Ensures.bind ensures
  intro later result _ holds value same
  cases same
  exact holds

/-- A program that keeps to the contract, whatever it returns. -/
abbrev Keeps {α : Type} (core : ErasureCore) (target : EraseTarget) (task : SagaTask)
    (program : SagaM α) (history : SagaHistory) : Prop :=
  Ensures (sagaContract core target) task program.run (Yields fun _ _ => True) history

theorem ensures_record {saga : EraseSaga} {next : SagaState}
    (allowed : ∀ later, history ⊆ later →
      (sagaContract core target).allows later task (.appendState next none)) :
    Ensures (sagaContract core target) task (record saga next).run
      (Yields fun _ after => after.state = next) history := by
  unfold record
  refine Ensures.bindExcept (ensures_orFail (fun _ after => after.state = next) ?_) ?_
  · intro after moved
    rw [EraseSaga.transitionWithReason_eq_ok moved]
  · intro later after grown isNext
    refine Ensures.bindExcept (ensures_ask (fun _ _ => True) ?_ fun _ _ _ _ => trivial) ?_
    · exact fun final grownAgain => allowed final (List.Subset.trans grown grownAgain)
    · exact fun _ _ _ _ => ensures_return isNext

theorem allows_append {state : SagaState} {reason : Option PendingReason}
    (notRecovery : task ≠ .recoverAndResume) (early : state ≠ .keyDestroyed)
    (notLast : state ≠ .completed) (later : SagaHistory) :
    (sagaContract core target).allows later task (.appendState state reason) :=
  ⟨notRecovery, fun same => absurd same early, fun same => absurd same notLast⟩

theorem sound_of_state {entry : ActiveEntry} (state : entry.saga.state ≠ .keyDestroyed)
    (state' : entry.saga.state ≠ .purging) (later : SagaHistory) :
    Sound core target later entry := fun both => absurd both (not_or.mpr ⟨state, state'⟩)

theorem keeps_becomePending (notRecovery : task ≠ .recoverAndResume) (entry : ActiveEntry)
    (phase : Phase) (reason : PendingReason) :
    Keeps core target task (becomePending entry phase reason) history := by
  unfold Keeps becomePending
  refine Ensures.bindExcept
    (ensures_orFail (fun _ saga => saga = ⟨.pending, some reason⟩) ?_) ?_
  · exact fun _ => EraseSaga.transitionWithReason_eq_ok
  · rintro _ saga - rfl
    refine Ensures.bindExcept (ensures_seam (allows_append notRecovery ?_ ?_)) fun _ _ _ _ => ?_
    · exact fun same => nomatch same
    · exact fun same => nomatch same
    refine Ensures.bindExcept (ensures_seam (sound_of_state ?_ ?_)) fun _ _ _ _ => ?_
    · exact fun same => nomatch same
    · exact fun same => nomatch same
    exact ensures_return trivial

theorem ensures_callLayers {call : Layer → LayerScope → SagaOp} {scopes : LayerScopes}
    (free : ∀ history layer scope, (sagaContract core target).allows history task (call layer scope))
    (layers : List Layer) :
    Ensures (sagaContract core target) task (callLayers call scopes layers)
      (fun later failed => failed = none → ∀ layer ∈ layers, ∀ scope,
        scopeOf scopes layer = some scope → ∃ result, Did later (call layer scope) result)
      history := by
  induction layers generalizing history with
  | nil => exact fun _ _ mem => nomatch mem
  | cons layer layers ih =>
    rw [callLayers]
    split
    · rename_i scopeless
      refine ih.mono fun later failed _ called isNone other mem => ?_
      rcases mem_cons.mp mem with rfl | among
      · intro scope found
        rw [scopeless] at found
        cases found
      · exact called isNone other among
    · rename_i scope isScope
      intro later grown
      refine ⟨free later layer scope, fun answer _ => ?_⟩
      cases answer with
      | error error => exact fun isNone => nomatch isNone
      | ok result =>
        refine ih.mono fun final failed grownAgain called isNone other mem => ?_
        rcases mem_cons.mp mem with rfl | among
        · intro scope' found
          rw [isScope] at found
          cases found
          exact ⟨result, task, grownAgain (mem_append_right _ (mem_singleton.mpr rfl))⟩
        · exact called isNone other among

theorem ensures_witnessLayers (layers : List Layer) (witnesses : List LayerWitness) :
    Ensures (sagaContract core target) task (witnessLayers target witnesses layers).run
      (Yields fun later found => found ≠ none → ∀ layer ∈ layers, Verified target later layer)
      history := by
  induction layers generalizing history witnesses with
  | nil => exact ensures_return fun _ _ mem => nomatch mem
  | cons layer layers ih =>
    intro later grown
    refine ⟨trivial, fun answer _ => ?_⟩
    have missing : ∀ result : Except ErasureError (Option (List LayerWitness)),
        (∀ found, result = .ok found → found = none) →
        Ensures (sagaContract core target) task (.done result)
          (Yields fun later found => found ≠ none →
            ∀ layer' ∈ layer :: layers, Verified target later layer')
          (later ++ [⟨task, .witnessLayer layer.id target, answer⟩]) :=
      fun result isNone found isFound some => absurd (isNone found isFound) some
    cases answer with
    | ok witness =>
      refine (ih _).mono fun final found grownAgain verified value isOk => ?_
      intro isSome other mem
      rcases mem_cons.mp mem with rfl | among
      · exact ⟨witness, task, grownAgain (mem_append_right _ (mem_singleton.mpr rfl))⟩
      · exact verified value isOk isSome other among
    | error error =>
      cases error
      case residue hits => exact missing _ fun _ same => (Except.ok.inj same).symm
      case corrupt => exact missing _ fun _ same => (Except.ok.inj same).symm
      all_goals exact missing _ fun _ same => nomatch same

theorem ensures_resolveLayers (layers : List Layer) {scopes : LayerScopes}
    (resolved : ∀ entry ∈ scopes, Resolved target history entry.1 entry.2) :
    Ensures (sagaContract core target) task (resolveLayers target scopes layers)
      (fun later result => result.2 = none →
        (∀ layer ∈ layers, ∃ scope, (layer.id, scope) ∈ result.1) ∧ scopes ⊆ result.1 ∧
        ∀ entry ∈ result.1, Resolved target later entry.1 entry.2) history := by
  induction layers generalizing history scopes with
  | nil => exact fun _ => ⟨fun _ mem => (nomatch mem), List.Subset.refl _, resolved⟩
  | cons layer layers ih =>
    intro later grown
    refine ⟨trivial, fun answer _ => ?_⟩
    cases answer with
    | error error => exact fun isNone => nomatch isNone
    | ok scope =>
      have resolved' : ∀ entry ∈ scopes ++ [(layer.id, scope)],
          Resolved target (later ++ [⟨task, .resolve layer target, .ok scope⟩])
            entry.1 entry.2 := by
        intro entry mem
        rcases mem_append.mp mem with old | new
        · exact ((resolved entry old).grow grown).grow (subset_append_left _ _)
        · cases mem_singleton.mp new
          exact ⟨layer, rfl, task, mem_append_right _ (mem_singleton.mpr rfl)⟩
      refine (ih resolved').mono fun final result _ holds isNone => ?_
      obtain ⟨complete, extending, resolvedAll⟩ := holds isNone
      refine ⟨fun other mem => ?_, ?_, resolvedAll⟩
      · rcases mem_cons.mp mem with rfl | among
        · exact ⟨scope, extending (mem_append_right _ (mem_singleton.mpr rfl))⟩
        · exact complete other among
      · exact List.Subset.trans (subset_append_left _ _) extending

theorem covers_of_resolved {scopes : LayerScopes}
    (complete : ∀ layer ∈ core.layers, ∃ scope, (layer.id, scope) ∈ scopes)
    (resolved : ∀ entry ∈ scopes, Resolved target history entry.1 entry.2) :
    Covers core target history scopes where
  complete := by
    intro layer mem
    obtain ⟨scope, isThere⟩ := complete layer mem
    have found : (scopes.find? fun entry => entry.1 = layer.id).isSome := by
      rw [find?_isSome]
      exact ⟨_, isThere, by simp⟩
    obtain ⟨entry, isEntry⟩ := isSome_iff_exists.mp found
    exact ⟨entry.2, by rw [scopeOf, isEntry]; rfl⟩
  resolved := by
    intro layer scope found
    obtain ⟨entry, isEntry, rfl⟩ := map_eq_some_iff.mp found
    have same : entry.1 = layer.id := by simpa using find?_some isEntry
    exact same ▸ resolved entry (mem_of_find?_eq_some isEntry)

theorem keeps_complete (notRecovery : task ≠ .recoverAndResume) {entry : ActiveEntry}
    (openKey : Bytes) (witnesses : List LayerWitness) (purgeable : Purgeable core target history entry)
    (purged : ∀ layer ∈ core.layers, Purged target history layer)
    (verified : ∀ layer ∈ core.layers, Verified target history layer) :
    Keeps core target task (ErasureCore.complete entry openKey witnesses) history := by
  unfold Keeps ErasureCore.complete
  rw [purgeable.sameTarget]
  refine Ensures.bindExcept (ensures_seam fun _ => trivial) fun h1 report grown1 reported => ?_
  refine Ensures.bindExcept (ensures_seam fun _ => trivial) fun h2 completedAt grown2 _ => ?_
  refine Ensures.bindExcept (ensures_seam fun _ => trivial) fun h3 _ grown3 ledgered => ?_
  have grown : history ⊆ h3 := List.Subset.trans grown1 (List.Subset.trans grown2 grown3)
  have erased : Erased core target h3 :=
    { gateAdded := purgeable.gateAdded.grow grown
      keyDestroyed := purgeable.keyDestroyed.grow grown
      purged := fun layer mem => (purged layer mem).grow grown
      verified := fun layer mem => (verified layer mem).grow grown
      reported := ⟨_, _, report, (reported.grow grown2).grow grown3⟩
      ledgered := ⟨_, _, ledgered⟩ }
  refine Ensures.bindExcept (ensures_record fun later grown4 => ?_) fun h4 saga _ isCompleted => ?_
  · exact ⟨notRecovery, fun same => (nomatch same), fun _ => erased.grow grown4⟩
  refine Ensures.bindExcept (ensures_seam fun _ => trivial) fun _ _ _ _ => ?_
  refine Ensures.bindExcept (ensures_seam fun _ => trivial) fun _ _ _ _ => ?_
  refine Ensures.bindExcept (ensures_seam (sound_of_state ?_ ?_)) fun _ _ _ _ => ?_
  · exact fun same => nomatch isCompleted.symm.trans same
  · exact fun same => nomatch isCompleted.symm.trans same
  exact Ensures.bindExcept (ensures_seam fun _ => trivial) fun _ _ _ _ => ensures_return trivial

theorem keeps_verify (notRecovery : task ≠ .recoverAndResume) {entry : ActiveEntry}
    (openKey : Bytes) (purgeable : Purgeable core target history entry)
    (purged : ∀ layer ∈ core.layers, Purged target history layer) :
    Keeps core target task (core.verify entry openKey) history := by
  unfold Keeps ErasureCore.verify
  rw [purgeable.sameTarget]
  refine Ensures.bindExcept (ensures_record fun later _ => ?_) fun h1 saga grown1 _ => ?_
  · exact allows_append notRecovery (by decide) (by decide) later
  refine Ensures.bindExcept (ensures_witnessLayers core.layers []) fun h2 found grown2 verified => ?_
  cases found with
  | none => exact keeps_becomePending notRecovery _ _ _
  | some witnesses =>
    have grown : history ⊆ h2 := List.Subset.trans grown1 grown2
    apply keeps_complete notRecovery openKey witnesses
    · exact ⟨rfl, purgeable.covers.grow grown, purgeable.gateAdded.grow grown,
        purgeable.keyDestroyed.grow grown⟩
    · exact fun layer mem => (purged layer mem).grow grown
    · exact verified (by simp)

theorem keeps_purgeAndVerify (notRecovery : task ≠ .recoverAndResume) {entry : ActiveEntry}
    (openKey : Bytes) (purgeable : Purgeable core target history entry) :
    Keeps core target task (core.purgeAndVerify entry openKey) history := by
  unfold Keeps ErasureCore.purgeAndVerify
  split
  · exact keeps_becomePending notRecovery _ _ _
  refine Ensures.bindExcept (ensures_record fun later _ => ?_) fun h1 saga grown1 _ => ?_
  · exact allows_append notRecovery (by decide) (by decide) later
  refine Ensures.bindExcept (ensures_seam fun _ => trivial) fun h2 _ grown2 _ => ?_
  have calls := @ensures_callLayers core target task h2
    (fun layer scope => .purge layer scope core.cfg.eraseSla) entry.scopes (fun _ _ _ => trivial)
    core.sortedLayers
  refine Ensures.bindExcept (ensures_always calls) fun h3 failed grown3 called => ?_
  cases failed with
  | some layer => exact keeps_becomePending notRecovery _ _ _
  | none =>
    have grown : history ⊆ h3 := List.Subset.trans grown1 (List.Subset.trans grown2 grown3)
    have covers := purgeable.covers.grow grown
    apply keeps_verify notRecovery openKey
    · exact ⟨purgeable.sameTarget, covers, purgeable.gateAdded.grow grown,
        purgeable.keyDestroyed.grow grown⟩
    · intro layer mem
      obtain ⟨scope, found⟩ := covers.complete layer mem
      have sorted : layer ∈ core.sortedLayers := (perm_insertionSort _ _).mem_iff.mpr mem
      obtain ⟨result, did⟩ := called rfl layer sorted scope found
      exact ⟨scope, core.cfg.eraseSla, did, covers.resolved layer scope found⟩

theorem keeps_executePurgeAndVerify (notRecovery : task ≠ .recoverAndResume)
    {attestation : RetentionAttestation} {gatedSeq : Nat} {scopes : LayerScopes} (openKey : Bytes)
    (covers : Covers core target history scopes) (gated : GateAdded target history)
    (destroyed : KeyDestroyed target history) :
    Keeps core target task
      (core.executePurgeAndVerify target attestation gatedSeq scopes openKey) history := by
  unfold Keeps ErasureCore.executePurgeAndVerify
  refine Ensures.bindExcept (ensures_seam fun _ => trivial) fun later _ grown _ => ?_
  apply keeps_purgeAndVerify notRecovery openKey
  exact ⟨rfl, covers.grow grown, gated.grow grown, destroyed.grow grown⟩

theorem ensures_destroyKey (notRecovery : task ≠ .recoverAndResume) {req : EraseExecutionRequest}
    (sameTarget : req.target = target) {scopes : LayerScopes}
    (covers : Covers core target history scopes) :
    Ensures (sagaContract core target) task (core.destroyKey req scopes).run
      (Yields fun later result => result.2 = none → Purgeable core target later result.1 ∧
        result.1.scopes = scopes) history := by
  unfold ErasureCore.destroyKey
  rw [sameTarget]
  refine Ensures.bindExcept (ensures_seam fun _ => trivial) fun h1 _ grown1 _ => ?_
  refine Ensures.bindExcept (ensures_seam fun _ => trivial) fun h2 gatedSeq grown2 gated => ?_
  refine Ensures.bindExcept (ensures_record fun later _ => ?_) fun h3 saga grown3 isGated => ?_
  · exact allows_append notRecovery (by decide) (by decide) later
  have calls := @ensures_callLayers core target task h3 .onGate scopes (fun _ _ _ => trivial)
    core.layers
  refine Ensures.bindExcept (ensures_always calls) fun h4 failed grown4 _ => ?_
  cases failed with
  | some layer =>
    refine Ensures.bindExcept (keeps_becomePending notRecovery _ _ _) fun _ _ _ _ => ?_
    exact ensures_return fun isNone => nomatch isNone
  | none =>
    refine Ensures.bindExcept (ensures_seam fun _ => trivial) fun h5 _ grown5 destroyed => ?_
    refine Ensures.bindExcept (ensures_seam fun _ => trivial) fun h6 absent grown6 _ => ?_
    split
    · refine Ensures.bindExcept (keeps_becomePending notRecovery _ _ _) fun _ _ _ _ => ?_
      exact ensures_return fun isNone => nomatch isNone
    refine Ensures.bindExcept (ensures_record fun later grown7 => ?_) fun h7 saga' grown7 _ => ?_
    · exact ⟨notRecovery, fun _ => (destroyed.grow grown6).grow grown7, fun same => (nomatch same)⟩
    have sinceGate : h2 ⊆ h7 := fun _ old => grown7 (grown6 (grown5 (grown4 (grown3 old))))
    have grown : history ⊆ h7 := fun _ old => sinceGate (grown2 (grown1 old))
    refine ensures_return fun _ => ⟨⟨rfl, covers.grow grown, ?_, ?_⟩, rfl⟩
    · exact ⟨gatedSeq, gated.grow sinceGate⟩
    · exact (destroyed.grow grown6).grow grown7

theorem keeps_eraseResolved (notRecovery : task ≠ .recoverAndResume) {req : EraseExecutionRequest}
    (sameTarget : req.target = target) (openKey : Bytes) {scopes : LayerScopes}
    (covers : Covers core target history scopes) :
    Keeps core target task (core.eraseResolved req openKey scopes) history := by
  unfold Keeps ErasureCore.eraseResolved
  refine Ensures.bindExcept (ensures_destroyKey notRecovery sameTarget covers)
    fun h1 result grown1 purgeable => ?_
  obtain ⟨entry, status⟩ := result
  cases status with
  | some status =>
    exact Ensures.bindExcept (ensures_seam fun _ => trivial) fun _ _ _ _ => ensures_return trivial
  | none =>
    obtain ⟨purgeable, sameScopes⟩ := purgeable rfl
    refine Ensures.bindExcept (ensures_seam fun _ => trivial) fun h2 _ grown2 _ => ?_
    refine Ensures.bindExcept (ensures_seam fun _ => trivial) fun h3 _ grown3 _ => ?_
    have grown : h1 ⊆ h3 := List.Subset.trans grown2 grown3
    refine Ensures.bindExcept (ensures_ask (fun _ _ => True) ?_ fun _ _ _ _ => trivial)
      fun h4 _ grown4 _ => ?_
    · exact fun later grownTo _ => (purgeable.grow grown).grow grownTo
    refine Ensures.bindExcept (ensures_seam fun _ => trivial) fun h5 _ grown5 _ => ?_
    split
    · have later := (purgeable.grow grown).grow (List.Subset.trans grown4 grown5)
      rw [sameTarget]
      refine Ensures.bindExcept (ensures_always (keeps_executePurgeAndVerify notRecovery openKey
        (sameScopes ▸ later.covers) later.gateAdded later.keyDestroyed)) fun _ purged _ _ => ?_
      cases purged with
      | ok status => exact ensures_return trivial
      | error error => exact ensures_return trivial
    · exact ensures_return trivial

theorem keeps_executeEraseFlow (notRecovery : task ≠ .recoverAndResume)
    {req : EraseExecutionRequest} (sameTarget : req.target = target) (openKey : Bytes) :
    Keeps core target task (core.executeEraseFlow req openKey) history := by
  unfold Keeps ErasureCore.executeEraseFlow
  split
  · refine Ensures.bindExcept (ensures_orFail (fun _ saga => saga.state = .refused) ?_)
      fun _ saga _ isRefused => ?_
    · intro saga moved
      rw [EraseSaga.transitionWithReason_eq_ok moved]
    refine Ensures.bindExcept (ensures_seam (sound_of_state ?_ ?_)) fun _ _ _ _ => ?_
    · exact fun same => nomatch isRefused.symm.trans same
    · exact fun same => nomatch isRefused.symm.trans same
    exact Ensures.bindExcept (ensures_seam fun _ => trivial) fun _ _ _ _ => ensures_return trivial
  · refine Ensures.bindExcept (ensures_orFail (fun _ saga => saga.state = .restricted) ?_)
      fun _ saga _ isRestricted => ?_
    · intro saga moved
      rw [EraseSaga.transitionWithReason_eq_ok moved]
    refine Ensures.bindExcept (ensures_seam fun _ => trivial) fun _ _ _ _ => ?_
    refine Ensures.bindExcept (ensures_seam fun _ => trivial) fun _ _ _ _ => ?_
    refine Ensures.bindExcept (ensures_seam ?_) fun _ _ _ _ => ?_
    · exact allows_append notRecovery (by decide) (by decide)
    refine Ensures.bindExcept (ensures_seam fun _ => trivial) fun _ _ _ _ => ?_
    refine Ensures.bindExcept (ensures_seam (sound_of_state ?_ ?_)) fun _ _ _ _ => ?_
    · exact fun same => nomatch isRestricted.symm.trans same
    · exact fun same => nomatch isRestricted.symm.trans same
    refine Ensures.bindExcept (ensures_seam fun _ => trivial) fun _ _ _ _ => ?_
    exact Ensures.bindExcept (ensures_seam fun _ => trivial) fun _ _ _ _ => ensures_return trivial
  · rw [sameTarget]
    refine Ensures.bindExcept (ensures_always (ensures_resolveLayers core.layers
      fun _ mem => nomatch mem)) fun later result _ resolved => ?_
    obtain ⟨scopes, failed⟩ := result
    cases failed with
    | some layer =>
      refine Ensures.bindExcept (keeps_becomePending notRecovery _ _ _) fun _ _ _ _ => ?_
      exact Ensures.bindExcept (ensures_seam fun _ => trivial) fun _ _ _ _ =>
        ensures_return trivial
    | none =>
      obtain ⟨complete, -, resolvedAll⟩ := resolved rfl
      exact keeps_eraseResolved notRecovery sameTarget openKey
        (covers_of_resolved complete resolvedAll)

theorem keeps_erase (notRecovery : task ≠ .recoverAndResume) {req : EraseExecutionRequest}
    (sameTarget : req.target = target) : Keeps core target task (core.erase req) history := by
  unfold Keeps ErasureCore.erase
  refine Ensures.bindExcept (ensures_seam fun _ => trivial) fun _ isOpen _ _ => ?_
  split
  · refine Ensures.bindExcept (ensures_seam fun _ => trivial) fun _ active _ _ => ?_
    split
    · exact Ensures.bindExcept (ensures_seam fun _ => trivial) fun _ _ _ _ => ensures_return trivial
    · exact keeps_executeEraseFlow notRecovery sameTarget _
  · exact keeps_executeEraseFlow notRecovery sameTarget _

theorem keeps_runPurgeWindow (notRecovery : task ≠ .recoverAndResume) :
    Keeps core target task core.runPurgeWindow history := by
  unfold Keeps ErasureCore.runPurgeWindow
  have read : Ensures (sagaContract core target) task (ask .readActive).run
      (Yields fun later active => ∀ entry ∈ active, Sound core target later entry) history := by
    refine ensures_ask _ (fun _ _ => trivial) fun later active _ reliable entry mem => ?_
    exact (reliable entry mem).grow (subset_append_left _ _)
  refine Ensures.bindExcept read fun later active _ sound => ?_
  split
  · exact ensures_return trivial
  · rename_i entry
    split
    · rename_i state
      have purgeable := sound entry rfl state
      rw [purgeable.sameTarget]
      refine Ensures.bindExcept (ensures_always (keeps_executePurgeAndVerify notRecovery _
        purgeable.covers purgeable.gateAdded purgeable.keyDestroyed)) fun _ purged _ _ => ?_
      split <;> exact ensures_return trivial
    · exact ensures_return trivial

theorem keeps_recoverAndResume : Keeps core target task core.recoverAndResume history := by
  have nothing : ∀ (sagas : List EraseSaga) (later : SagaHistory),
      (∀ saga ∈ sagas, ErasureCore.nextStep saga.state = none) →
        Keeps core target task (core.resumeSagas sagas) later := by
    intro sagas later closed
    induction sagas with
    | nil => exact ensures_return trivial
    | cons saga sagas ih =>
      have here := closed saga mem_cons_self
      unfold Keeps ErasureCore.resumeSagas
      rw [here]
      exact ih fun other mem =>
        closed other (mem_cons_of_mem _ mem)
  unfold Keeps ErasureCore.recoverAndResume
  have read : Ensures (sagaContract core target) task (ask .recoverOpenSagas).run
      (Yields fun _ sagas => ∀ saga ∈ sagas, ErasureCore.nextStep saga.state = none) history :=
    ensures_ask _ (fun _ _ => trivial) fun _ _ _ reliable => reliable
  exact Ensures.bindExcept read fun later sagas _ closed => nothing sagas later closed

end Programs

def StandsFor (core : ErasureCore) (target : EraseTarget) : SagaState → SagaOp → Prop
  | .gated, op => op = .addGate target
  | .keyDestroyed, op => op = .destroyHighestKey target
  | .purging, op => ∃ seq, op = .revokeCovering target seq
  | .verifying, op => ∃ layer ∈ core.layers, ∃ scope sla, op = .purge layer scope sla
  | .completed, op => ∃ seq completedAt, op = .recordCompleted target seq completedAt
  | _, _ => True

/-- The journal reports what was done, and a recovery records a state only after it performed
the step that the state stands for. -/
structure Truthful (core : ErasureCore) (target : EraseTarget) (world : SagaWorld) : Prop where
  keyDestroyed : .keyDestroyed ∈ world.shared.journal → KeyDestroyed target world.history
  completed : .completed ∈ world.shared.journal → Erased core target world.history
  recovered : ∀ before state reason answer after,
    world.history = before ++ ⟨.recoverAndResume, .appendState state reason, answer⟩ :: after →
      ∃ performed ∈ before, performed.task = .recoverAndResume ∧
        StandsFor core target state performed.op

/-- A recovery reads the journal only where the saga is not open, or at rest. -/
def closedAtRecovery (world : SagaWorld) : SagaEvent → Bool
  | .step index _ =>
    match world.tasks[index]? with
    | some (_, .call .recoverOpenSagas _) =>
      decide (world.shared.journal.getLast?.bind ErasureCore.nextStep = none)
    | _ => true
  | _ => true

structure StoreInvariant (core : ErasureCore) (target : EraseTarget) (history : SagaHistory)
    (store : SagaStore) : Prop where
  sound : ∀ entry ∈ store.active, Sound core target history entry
  keyDestroyed : .keyDestroyed ∈ store.journal → KeyDestroyed target history
  completed : .completed ∈ store.journal → Erased core target history
  recovery : ∀ performed ∈ history, ∀ state reason, performed.op = .appendState state reason →
    performed.task ≠ .recoverAndResume

section Performing

variable {core : ErasureCore} {target : EraseTarget} {store store' : SagaStore}

theorem append_journal {state : SagaState} {choice : SagaChoice} {answer : Except ErasureError Unit}
    (appended : store.append state choice = some (answer, store')) :
    (store'.journal = store.journal ∨ store'.journal = store.journal ++ [state]) ∧
      store'.active = store.active := by
  unfold SagaStore.append at appended
  split at appended
  · cases appended
    exact ⟨.inr rfl, rfl⟩
  · rename_i landed
    cases appended
    cases landed with
    | true => exact ⟨.inr rfl, rfl⟩
    | false => exact ⟨.inl rfl, rfl⟩
  · cases appended

theorem answered_store {α : Type} {read : SagaChoice → Option α} {choice : SagaChoice}
    {answer : Except ErasureError α} (given : store.answered read choice = some (answer, store')) :
    store' = store := by
  unfold SagaStore.answered at given
  split at given
  · cases given
    rfl
  · obtain ⟨_, -, same⟩ := map_eq_some_iff.mp given
    exact (congrArg Prod.snd same).symm

theorem perform_cases {op : SagaOp} {choice : SagaChoice} {answer : op.Answer}
    (performed : store.perform op choice = some (answer, store')) :
    (store'.journal = store.journal ∨ ∃ state, store'.journal = store.journal ++ [state] ∧
      (state = .requested ∨ ∃ reason, op = .appendState state reason)) ∧
    (store'.active = store.active ∨ ∃ entry, op = .insertActive entry ∧
      store'.active = some entry) := by
  cases op with
  | insertActive entry =>
    cases performed
    exact ⟨.inl rfl, .inr ⟨entry, rfl, rfl⟩⟩
  | appendIntent target attestation =>
    obtain ⟨same | appended, active⟩ := append_journal performed
    · exact ⟨.inl same, .inl active⟩
    · exact ⟨.inr ⟨_, appended, .inl rfl⟩, .inl active⟩
  | appendState state reason =>
    obtain ⟨same | appended, active⟩ := append_journal performed
    · exact ⟨.inl same, .inl active⟩
    · exact ⟨.inr ⟨_, appended, .inr ⟨reason, rfl⟩⟩, .inl active⟩
  | containsOpenKey key => cases performed; exact ⟨.inl rfl, .inl rfl⟩
  | insertOpenKey key => cases performed; exact ⟨.inl rfl, .inl rfl⟩
  | removeOpenKey key => cases performed; exact ⟨.inl rfl, .inl rfl⟩
  | readActive => cases performed; exact ⟨.inl rfl, .inl rfl⟩
  | notifyObserver target phase => cases performed; exact ⟨.inl rfl, .inl rfl⟩
  | nowMillis =>
    cases choice <;> cases performed
    exact ⟨.inl rfl, .inl rfl⟩
  | _ =>
    obtain rfl := answered_store performed
    exact ⟨.inl rfl, .inl rfl⟩

theorem StoreInvariant.perform {history : SagaHistory} {task : SagaTask} {op : SagaOp}
    {choice : SagaChoice} {answer : op.Answer} (holds : StoreInvariant core target history store)
    (allowed : (sagaContract core target).allows history task op)
    (performed : store.perform op choice = some (answer, store')) :
    StoreInvariant core target (history ++ [⟨task, op, answer⟩]) store' := by
  have grown : history ⊆ history ++ [⟨task, op, answer⟩] := subset_append_left _ _
  obtain ⟨journal, active⟩ := perform_cases performed
  have recorded : ∀ state, state ∈ store'.journal → state ∈ store.journal ∨ state = .requested ∨
      ∃ reason, op = .appendState state reason := by
    intro state mem
    rcases journal with same | ⟨appended, isAppended, why⟩
    · exact .inl (same ▸ mem)
    · rw [isAppended] at mem
      rcases mem_append.mp mem with old | new
      · exact .inl old
      · exact .inr (mem_singleton.mp new ▸ why)
  constructor
  · intro entry isActive
    rcases active with same | ⟨inserted, rfl, isInserted⟩
    · exact (holds.sound entry (same ▸ isActive)).grow grown
    · rw [isInserted] at isActive
      cases isActive
      exact Sound.grow grown allowed
  · intro mem
    rcases recorded _ mem with old | same | ⟨reason, rfl⟩
    · exact (holds.keyDestroyed old).grow grown
    · cases same
    · exact KeyDestroyed.grow grown (allowed.2.1 rfl)
  · intro mem
    rcases recorded _ mem with old | same | ⟨reason, rfl⟩
    · exact (holds.completed old).grow grown
    · cases same
    · exact Erased.grow grown (allowed.2.2 rfl)
  · intro event mem state reason isAppend
    rcases mem_append.mp mem with old | new
    · exact holds.recovery event old state reason isAppend
    · obtain rfl := mem_singleton.mp new
      obtain rfl : op = .appendState state reason := isAppend
      exact allowed.1

theorem nextStep_openSagas (closed : store.journal.getLast?.bind ErasureCore.nextStep = none) :
    ∀ saga ∈ store.openSagas, ErasureCore.nextStep saga.state = none := by
  intro saga mem
  unfold SagaStore.openSagas at mem
  cases last : store.journal.getLast? with
  | none =>
    rw [last] at mem
    cases mem
  | some state =>
    rw [last] at mem closed
    simp only at mem
    split at mem
    · cases mem
    · obtain rfl := mem_singleton.mp mem
      exact closed

theorem StoreInvariant.reliable {history : SagaHistory} {op : SagaOp} {choice : SagaChoice}
    {answer : op.Answer} (holds : StoreInvariant core target history store)
    (closed : op = .recoverOpenSagas → store.journal.getLast?.bind ErasureCore.nextStep = none)
    (performed : store.perform op choice = some (answer, store')) :
    (sagaContract core target).reliable history op answer := by
  cases op with
  | readActive =>
    cases performed
    exact holds.sound
  | recoverOpenSagas =>
    cases choice with
    | failed error landed =>
      cases performed
      trivial
    | _ =>
      cases performed
      exact nextStep_openSagas (closed rfl)
  | _ => trivial

end Performing

/-- In every run in which no recovery finds the saga open, in every state reached, the journal
reports only what was done. -/
theorem truthful_of_closed {core : ErasureCore} {target : EraseTarget} {events : List SagaEvent}
    {world : SagaWorld}
    (closed : Along (core.step target) (fun world event => closedAtRecovery world event = true)
      (.initial .new) events)
    (reached : run (core.step target) (.initial .new) events = some world) :
    Truthful core target world := by
  have safe : world.Safe (sagaContract core target) (StoreInvariant core target) := by
    refine World.run_safe ?_ ?_ ?_ ?_ closed reached
    · intro history task
      have notNext : ∀ {α : Type} {program : SagaM α}, Keeps core target task program history →
          Ensures (sagaContract core target) task program.run.ignoring (fun _ _ => True) history :=
        fun keeps => Ensures.bind keeps fun _ _ _ _ => trivial
      cases task with
      | erase mode attestation timing =>
        have notRecovery : SagaTask.erase mode attestation timing ≠ .recoverAndResume :=
          fun same => nomatch same
        exact notNext (keeps_erase notRecovery rfl)
      | runPurgeWindow => exact notNext (keeps_runPurgeWindow fun same => nomatch same)
      | recoverAndResume => exact notNext keeps_recoverAndResume
    · intro world index choice task op next answer store holds permitted isTask allowed performed
      refine ⟨holds.reliable (fun same => ?_) performed, holds.perform allowed performed⟩
      subst same
      simpa [closedAtRecovery, isTask] using permitted
    · exact fun history store holds =>
        ⟨fun entry active => (nomatch active), holds.keyDestroyed, holds.completed, holds.recovery⟩
    · exact ⟨fun _ active => (nomatch active), fun mem => (nomatch mem),
        fun mem => (nomatch mem), fun _ mem => (nomatch mem)⟩
  refine ⟨safe.shared.keyDestroyed, safe.shared.completed, ?_⟩
  intro before state reason answer after split
  have mem : (⟨.recoverAndResume, .appendState state reason, answer⟩ :
      Performed SagaTask SagaOp SagaOp.Answer) ∈ world.history := by
    rw [split]
    exact mem_append_right _ mem_cons_self
  exact absurd rfl (safe.shared.recovery _ mem state reason rfl)

section Runs

def oneLayer : ErasureCore where
  cfg := ⟨86400000, 1073741824⟩
  layers := [⟨0, ⟨replicate 16 1, rfl⟩⟩]
  layerPriorities := fun _ => none
  erasureId := ⟨replicate 16 9, rfl⟩
  deriveOpenKey := fun target mode => mode :: target

def oneKey : EraseTarget := .exactKeys [[7]]

def steps (index : Nat) (choices : List SagaChoice) : List SagaEvent := choices.map (.step index)

theorem length_noScope : (replicate 16 (0 : UInt8)).length = 16 := length_replicate

/-- An erase call, up to the record that the gate is set. -/
def untilGated : List SagaEvent :=
  .start (.erase .erase ⟨.noObligation, [], 0⟩ .batched) ::
    steps 0 [.ok, .scope ⟨⟨replicate 16 0, length_noScope⟩, []⟩, .ok, .number 1, .ok]

/-- The rest of it, and a purge window. -/
def untilCompleted : List SagaEvent :=
  untilGated ++ steps 0 [.ok, .ok, .flag true, .ok, .ok, .number 2, .ok, .ok] ++
    .start .runPurgeWindow ::
      steps 1 [.ok, .ok, .ok, .number 0, .ok, .ok, .bytes [], .bytes [], .number 3, .ok, .ok, .ok,
        .ok, .ok, .ok]

theorem truthful_of_closed_completed :
    ∃ world, run (oneLayer.step oneKey) (.initial .new) untilCompleted = some world ∧
      .completed ∈ world.shared.journal ∧ Truthful oneLayer oneKey world := by
  have closed : Along (oneLayer.step oneKey) (fun world event => closedAtRecovery world event = true)
      (.initial .new) untilCompleted := by decide +kernel
  have ends : (run (oneLayer.step oneKey) (.initial .new) untilCompleted).map
      (fun world => world.shared.journal.getLast?) = some (some .completed) := by decide +kernel
  obtain ⟨world, reached, isCompleted⟩ := map_eq_some_iff.mp ends
  exact ⟨world, reached, mem_of_getLast? isCompleted, truthful_of_closed closed reached⟩

def isDestroy : SagaOp → Bool
  | .destroyHighestKey _ => true
  | _ => false

/-- A crash after the gate is set: the recovery records that the key is destroyed, although no
call of the run destroys it. -/
theorem recovery_not_truthful :
    ∃ world, run (oneLayer.step oneKey) (.initial .new)
        (untilGated ++ [.crash, .start .recoverAndResume, .step 0 .ok, .step 0 .ok]) = some world ∧
      world.shared.journal = [.requested, .gated, .keyDestroyed] ∧
      (world.history.any fun performed => isDestroy performed.op) = false ∧
      ¬ Truthful oneLayer oneKey world := by
  have ends : (run (oneLayer.step oneKey) (.initial .new)
        (untilGated ++ [.crash, .start .recoverAndResume, .step 0 .ok, .step 0 .ok])).map
      (fun world => (world.shared.journal, world.history.any fun performed =>
        isDestroy performed.op)) = some ([.requested, .gated, .keyDestroyed], false) := by
    decide +kernel
  obtain ⟨world, reached, same⟩ := map_eq_some_iff.mp ends
  obtain ⟨journal, notDestroyed⟩ := Prod.mk.inj same
  refine ⟨world, reached, journal, notDestroyed, fun truthful => ?_⟩
  obtain ⟨task, mem⟩ := truthful.keyDestroyed (by rw [journal]; decide)
  have destroyed := List.any_eq_false.mp notDestroyed _ mem
  exact destroyed rfl

end Runs

end Contextra.Erasure
