import Contextra.DiskAnn.StoreCalls

/-!
# Runs of a DiskANN index

Every call keeps the acknowledged documents in the files, after each of its operations, and the
memory of the index in step with the files when it comes to its end.
-/

namespace Contextra.DiskAnn

open Library List Option

variable {Vector : Type} {config : DiskAnnConfig Vector} {files : Files Vector}
  {inner : DiskAnnIndexInner Vector} {acknowledged : DocId → Option Vector}

/-- A call comes to its end, and a crash in it loses nothing. -/
structure Outcome.Keeps (config : DiskAnnConfig Vector) (files : Files Vector)
    (acknowledged : DocId → Option Vector) (outcome : Outcome Vector) : Prop where
  shows : outcome.inner.Shows (files.applyAll outcome.ops)
  sound : ∀ done, (files.applyAll (outcome.ops.take done)).Sound config acknowledged

theorem Outcome.Keeps.final {outcome : Outcome Vector}
    (keeps : outcome.Keeps config files acknowledged) :
    (files.applyAll outcome.ops).Sound config acknowledged := by
  have all := keeps.sound outcome.ops.length
  rwa [take_length] at all

variable (files inner) in
theorem recoverTombstones_shows (nodes : inner.nodes = files.nodes)
    (pending : inner.pendingInserts = files.pending)
    (tombstones : ∀ id ∈ inner.tombstones, id ∈ files.dead) :
    (recoverTombstones files inner).Shows files := by
  rw [recoverTombstones]
  cases isWal : files.tombstoneWal with
  | some recovered =>
    refine ⟨nodes, pending, fun id => ?_⟩
    rw [Files.dead, isWal]
    exact Iff.rfl
  | none =>
    refine ⟨nodes, pending, fun id => ⟨tombstones id, fun isDead => ?_⟩⟩
    rw [Files.dead, isWal] at isDead
    exact absurd isDead not_mem_nil

theorem openIndex_new (files : Files Vector) : openIndex files .new = ⟨files.nodes, [], []⟩ := by
  rw [openIndex, Files.nodes]
  cases files.index with
  | some nodes => rfl
  | none => rfl

theorem recovered_eq (files : Files Vector) :
    recovered files = ⟨files.nodes, files.pending, []⟩ := by
  rw [recovered, openIndex_new]
  rfl

/-- What a persist of some inserts does when it comes to its end. -/
structure Outcome.Persists (config : DiskAnnConfig Vector) (files : Files Vector)
    (acknowledged : DocId → Option Vector) (outcome : Outcome Vector) : Prop extends
    outcome.Keeps config files acknowledged where
  isOk : outcome.result = .ok ()
  noPending : outcome.inner.pendingInserts = []

theorem removePendingWal_sound (sound : files.Sound config acknowledged)
    (isEmpty : files.pending = []) :
    (FileOp.apply files .removePendingWal).Sound config acknowledged := by
  apply sound.removePendingWal
  · intro id
    rw [isEmpty, append_nil]
  · exact fun noIndex => sound.begun noIndex isEmpty

theorem persistDelta_of_empty (sound : files.Sound config acknowledged)
    (shows : inner.Shows files) (isEmpty : inner.pendingInserts = []) :
    (persistDelta config files inner).Persists config files acknowledged := by
  have removed := removePendingWal_sound sound (shows.pending ▸ isEmpty)
  rw [persistDelta, if_pos (List.isEmpty_iff.mpr isEmpty)]
  refine ⟨⟨⟨shows.nodes, rfl, shows.tombstones⟩, ?_⟩, rfl, rfl⟩
  exact prefix_cons sound (prefix_nil removed)

variable (config files inner) in
theorem persistDelta_pending : (persistDelta config files inner).inner.pendingInserts = [] := by
  have replaced (taken : DiskAnnIndexInner Vector) (ops : List (FileOp Vector)) :
      (replaceIndex files taken ops).inner.pendingInserts = taken.pendingInserts := by
    rw [replaceIndex, recoverTombstones, openIndex]
    split <;> split <;> rfl
  rw [persistDelta]
  split
  · rfl
  · split
    · dsimp only
      split
      · rfl
      · rfl
      · exact replaced _ _
    · split
      · rfl
      · rfl
      · exact replaced _ _

section Merge

variable (sound : files.Sound config acknowledged) {built : List (CachedNode Vector)}
  (merged : files.Merged config built)

include sound merged

theorem rename_sound (temporary : Temporary) :
    let written := FileOp.apply files (.writeTemporary temporary built)
    let renamed := FileOp.apply written (.renameTemporary temporary)
    written.Sound config acknowledged ∧ renamed.Sound config acknowledged ∧
      (FileOp.apply renamed .removePendingWal).Sound config acknowledged ∧
        renamed.index = some built := by
  intro written renamed
  have isIndex : renamed.index = some built := by
    simp only [renamed, written, FileOp.apply, Function.update_self]
  have isRenamed : renamed =
      { files with index := some built, temporary := renamed.temporary } := by
    rw [← isIndex]
    rfl
  have renamedSound : renamed.Sound config acknowledged := by
    rw [isRenamed]
    exact sound.replaceIndex merged renamed.temporary
  refine ⟨sound.temporaries written.temporary, renamedSound, ?_, isIndex⟩
  apply renamedSound.removePendingWal
  · intro id
    have nodes : renamed.nodes = built := by rw [Files.nodes, isIndex]; rfl
    rw [nodes]
    exact merged.again id
  · intro noIndex
    rw [isIndex] at noIndex
    cases noIndex

theorem replaceIndex_of_append (tombstones : ∀ id ∈ inner.tombstones, id ∈ files.dead) :
    (replaceIndex files { inner with pendingInserts := [] }
      [.writeTemporary .delta built, .renameTemporary .delta, .removePendingWal]).Persists
        config files acknowledged := by
  obtain ⟨written, renamed, removed, _⟩ := rename_sound sound merged .delta
  refine ⟨⟨?_, ?_⟩, rfl, ?_⟩
  · have shows := recoverTombstones_shows (files.applyAll
      [.writeTemporary .delta built, .renameTemporary .delta, .removePendingWal])
      ⟨built, [], inner.tombstones⟩ rfl rfl tombstones
    exact ⟨shows.nodes, shows.pending, shows.tombstones⟩
  · exact prefix_cons sound (prefix_cons written (prefix_cons renamed (prefix_cons removed
      (prefix_nil (removed.temporaries fun _ => none)))))
  · rw [replaceIndex, recoverTombstones]
    split <;> rfl

theorem replaceIndex_of_rebuild (absent : ∀ id ∈ files.dead, id ∉ built.map CachedNode.docId) :
    (replaceIndex files { inner with pendingInserts := [], tombstones := [] }
      [.writeTemporary .index built, .renameTemporary .index, .removePendingWal,
        .removeTombstoneWal]).Persists config files acknowledged := by
  obtain ⟨written, renamed, removed, _⟩ := rename_sound sound merged .index
  have cleared := removed.removeTombstoneWal rfl absent
  refine ⟨⟨⟨rfl, rfl, fun id => Iff.rfl⟩, ?_⟩, rfl, rfl⟩
  exact prefix_cons sound (prefix_cons written (prefix_cons renamed (prefix_cons removed
    (prefix_cons cleared (prefix_nil (cleared.temporaries fun _ => none))))))

end Merge

theorem persistDelta_of_merge (sound : files.Sound config acknowledged) {dead : List DocId}
    (nodes : inner.nodes = files.nodes) (pending : inner.pendingInserts = files.pending)
    (isDead : ∀ id, id ∈ dead ↔ id ∈ files.dead)
    (tombstones : ∀ id ∈ inner.tombstones, id ∈ files.dead)
    (nonempty : inner.pendingInserts ≠ []) (inOrder : MergeInOrder config inner dead) :
    (persistDelta config files inner).Persists config files acknowledged := by
  obtain ⟨isNew, inOrder⟩ := inOrder
  have notEmpty : ¬ inner.pendingInserts.isEmpty = true :=
    fun isEmpty => nonempty (List.isEmpty_iff.mp isEmpty)
  have fits : ∀ entry ∈ inner.pendingInserts, config.metric.fits entry.2 = true := by
    rw [pending]
    exact sound.fits
  have valid : NodesValid config inner.nodes := by
    rw [nodes]
    exact sound.valid
  rw [persistDelta, if_neg notEmpty]
  by_cases rebuilds : inner.rebuilds
  · rw [if_pos rebuilds] at inOrder ⊢
    have allFit : ∀ vector ∈ inner.liveNodes.map CachedNode.vector ++
        inner.pendingInserts.map Prod.snd, config.metric.fits vector = true := by
      intro vector isVector
      rcases mem_append.mp isVector with stored | inserted
      · obtain ⟨node, isNode, rfl⟩ := List.mem_map.mp stored
        exact (valid node (mem_of_mem_filter isNode)).1
      · obtain ⟨entry, isEntry, rfl⟩ := List.mem_map.mp inserted
        exact fits entry isEntry
    have some : inner.liveNodes.map CachedNode.vector ++
        inner.pendingInserts.map Prod.snd ≠ [] := by
      apply append_ne_nil_of_right_ne_nil
      exact mt map_eq_nil_iff.mp nonempty
    have lengths : (inner.liveNodes.map CachedNode.docId ++
        inner.pendingInserts.map Prod.fst).length =
          (inner.liveNodes.map CachedNode.vector ++ inner.pendingInserts.map Prod.snd).length := by
      simp only [length_append, length_map]
    obtain ⟨built, isOk, isBuilt⟩ := buildToPath_ok some lengths allFit inOrder.2.2
    obtain ⟨merged, absent⟩ :=
      merged_of_rebuild sound nodes pending isDead tombstones isNew inOrder isBuilt
    dsimp only
    rw [isOk]
    exact replaceIndex_of_rebuild sound merged absent
  · rw [if_neg rebuilds] at inOrder ⊢
    have stored : inner.nodes ≠ [] := by
      intro isEmpty
      apply rebuilds
      apply Or.inr
      rw [DiskAnnIndexInner.docIds, isEmpty]
      rfl
    have finite : ∀ entry ∈ inner.pendingInserts,
        ReachesEntry config (inner.nodes.map CachedNode.vector).head? entry.2 :=
      fun entry isEntry => inOrder.2 _ (List.mem_map_of_mem isEntry)
    obtain ⟨built, isOk, isBuilt⟩ :=
      writeIncrementalToFile_ok nonempty stored inOrder.1 valid fits finite
    have merged := merged_of_append sound nodes pending isDead isNew isBuilt
    rw [isOk]
    exact replaceIndex_of_append sound merged tombstones

section InOrder

variable (config)

/-- A persist has nothing to merge, or a merge without a decision. -/
def PersistInOrder (inner : DiskAnnIndexInner Vector) : Prop :=
  inner.pendingInserts = [] ∨ MergeInOrder config inner inner.tombstones

/-- A load merges the log of the inserts before it knows the deleted documents. -/
def LoadInOrder (files : Files Vector) : Prop :=
  files.pending = [] ∨ MergeInOrder config (recovered files) files.dead

end InOrder

theorem persistDelta_persists (sound : files.Sound config acknowledged)
    (shows : inner.Shows files) (inOrder : PersistInOrder config inner) :
    (persistDelta config files inner).Persists config files acknowledged := by
  by_cases isEmpty : inner.pendingInserts = []
  · exact persistDelta_of_empty sound shows isEmpty
  · exact persistDelta_of_merge sound shows.nodes shows.pending shows.tombstones
      (fun id => (shows.tombstones id).mp) isEmpty (inOrder.resolve_left isEmpty)

theorem recovered_persists (sound : files.Sound config acknowledged)
    (nonempty : files.pending ≠ []) (inOrder : LoadInOrder config files) :
    (persistDelta config files (recovered files)).Persists config files acknowledged := by
  have isRecovered := recovered_eq files
  have isDead : ∀ id, id ∈ files.dead ↔ id ∈ files.dead := fun id => Iff.rfl
  apply persistDelta_of_merge sound _ _ isDead
  · intro id isTombstone
    rw [isRecovered] at isTombstone
    exact absurd isTombstone not_mem_nil
  · rwa [isRecovered]
  · exact inOrder.resolve_left nonempty
  · rw [isRecovered]
  · rw [isRecovered]

/-- The recovery of a load, before the deleted documents are read. -/
structure Outcome.Recovers (config : DiskAnnConfig Vector) (files : Files Vector)
    (acknowledged : DocId → Option Vector) (outcome : Outcome Vector) : Prop where
  isOk : outcome.result = .ok ()
  nodes : outcome.inner.nodes = (files.applyAll outcome.ops).nodes
  pending : outcome.inner.pendingInserts = (files.applyAll outcome.ops).pending
  tombstones : ∀ id ∈ outcome.inner.tombstones, id ∈ (files.applyAll outcome.ops).dead
  sound : ∀ done, (files.applyAll (outcome.ops.take done)).Sound config acknowledged

theorem recoverPendingDelta_recovers (sound : files.Sound config acknowledged)
    (inOrder : LoadInOrder config files) :
    (recoverPendingDelta config files).Recovers config files acknowledged := by
  rw [recoverPendingDelta, ← Files.pending]
  by_cases isEmpty : files.pending = []
  · have removed := removePendingWal_sound sound isEmpty
    rw [if_pos (List.isEmpty_iff.mpr isEmpty), openIndex_new]
    exact ⟨rfl, rfl, rfl, fun id impossible => absurd impossible not_mem_nil,
      prefix_cons sound (prefix_nil removed)⟩
  · have persists := recovered_persists sound isEmpty inOrder
    rw [if_neg (mt List.isEmpty_iff.mp isEmpty)]
    exact ⟨persists.isOk, persists.shows.nodes, persists.shows.pending,
      fun id => (persists.shows.tombstones id).mp, persists.sound⟩

theorem openIndex_recovers (sound : files.Sound config acknowledged)
    (noWal : files.pendingWal.isSome ≠ true) :
    (⟨[], openIndex files .new, .ok ()⟩ : Outcome Vector).Recovers config files acknowledged := by
  have noPending : files.pending = [] := by
    rw [Files.pending, not_isSome_iff_eq_none.mp noWal]
    rfl
  rw [openIndex_new]
  exact ⟨rfl, rfl, noPending.symm, fun id impossible => absurd impossible not_mem_nil,
    prefix_nil sound⟩

theorem applyAll_cleanup (files : Files Vector) : ∃ temporary, files.applyAll (cleanup files) =
    { files with temporary := temporary } := by
  rw [cleanup]
  split
  · exact ⟨fun _ => none, rfl⟩
  · exact ⟨files.temporary, rfl⟩

theorem cleaned_sound (sound : files.Sound config acknowledged) :
    (files.applyAll (cleanup files)).Sound config acknowledged := by
  obtain ⟨temporary, isCleaned⟩ := applyAll_cleanup files
  rw [isCleaned]
  exact sound.temporaries temporary

theorem cleanup_append (sound : files.Sound config acknowledged) {ops : List (FileOp Vector)}
    (later : ∀ done,
      ((files.applyAll (cleanup files)).applyAll (ops.take done)).Sound config acknowledged)
    (done : Nat) :
    (files.applyAll ((cleanup files ++ ops).take done)).Sound config acknowledged := by
  revert done
  rw [cleanup] at later ⊢
  split
  · rename_i isIndex
    rw [if_pos isIndex] at later
    exact prefix_cons sound later
  · rename_i noIndex
    rw [if_neg noIndex] at later
    exact later

theorem cleanup_take (sound : files.Sound config acknowledged) (done : Nat) :
    (files.applyAll ((cleanup files).take done)).Sound config acknowledged := by
  have alone := cleanup_append sound (prefix_nil (cleaned_sound sound)) done
  rwa [append_nil] at alone

theorem load_keeps (sound : files.Sound config acknowledged)
    (inOrder : LoadInOrder config files) :
    (load config files).Keeps config files acknowledged := by
  rw [load]
  split
  · rename_i nothing
    have noIndex := isNone_iff_eq_none.mp nothing.1
    have noPending : files.pending = [] := by
      rw [Files.pending, isNone_iff_eq_none.mp nothing.2]
      rfl
    have noDead : files.dead = [] := by
      rw [Files.dead, sound.begun noIndex noPending]
      rfl
    have noNodes : files.nodes = [] := by
      rw [Files.nodes, noIndex]
      rfl
    refine ⟨⟨noNodes.symm, noPending.symm, fun id => ?_⟩, prefix_nil sound⟩
    have isDead : id ∈ (files.applyAll []).dead ↔ id ∈ ([] : List DocId) := by rw [← noDead]; rfl
    exact isDead.symm
  · have cleaned := cleaned_sound sound
    generalize isRecovery : (if files.pendingWal.isSome = true then
      recoverPendingDelta config (files.applyAll (cleanup files))
      else ⟨[], openIndex (files.applyAll (cleanup files)) .new, .ok ()⟩) = recovery
    have recovers : recovery.Recovers config (files.applyAll (cleanup files)) acknowledged := by
      obtain ⟨temporary, isCleaned⟩ := applyAll_cleanup files
      rw [← isRecovery]
      rw [isCleaned] at cleaned ⊢
      split
      · exact recoverPendingDelta_recovers cleaned inOrder
      · rename_i noWal
        exact openIndex_recovers cleaned noWal
    dsimp only
    rw [isRecovery, recovers.isOk]
    have shows := recoverTombstones_shows
      ((files.applyAll (cleanup files)).applyAll recovery.ops) recovery.inner recovers.nodes
      recovers.pending recovers.tombstones
    refine ⟨?_, cleanup_append sound recovers.sound⟩
    rw [Files.applyAll_append]
    exact shows

variable {done : Nat}

theorem persistDelta_begins (sound : files.Sound config acknowledged)
    (pending : inner.pendingInserts = files.pending) (begun : done ≤ 1) :
    (files.applyAll ((persistDelta config files inner).ops.take done)).Sound config
      acknowledged := by
  rcases Nat.le_one_iff_eq_zero_or_eq_one.mp begun with rfl | rfl
  · exact sound
  · rw [persistDelta]
    split
    · rename_i isEmpty
      rw [pending] at isEmpty
      exact removePendingWal_sound sound (List.isEmpty_iff.mp isEmpty)
    · split
      · dsimp only
        split
        · exact sound
        · exact sound
        · exact sound.temporaries _
      · split
        · exact sound
        · exact sound
        · exact sound.temporaries _

theorem recoverPendingDelta_begins (sound : files.Sound config acknowledged) (begun : done ≤ 1) :
    (files.applyAll ((recoverPendingDelta config files).ops.take done)).Sound config
      acknowledged := by
  rw [recoverPendingDelta, ← Files.pending]
  split
  · rename_i isEmpty
    exact prefix_cons sound (prefix_nil (removePendingWal_sound sound
      (List.isEmpty_iff.mp isEmpty))) done
  · apply persistDelta_begins sound _ begun
    rw [recovered_eq]

theorem load_begins (sound : files.Sound config acknowledged)
    (begun : done ≤ (cleanup files).length + 1) :
    (files.applyAll ((load config files).ops.take done)).Sound config acknowledged := by
  rw [load]
  split
  · exact prefix_nil sound done
  · have cleaned := cleaned_sound sound
    generalize isRecovery : (if files.pendingWal.isSome = true then
      recoverPendingDelta config (files.applyAll (cleanup files))
      else ⟨[], openIndex (files.applyAll (cleanup files)) .new, .ok ()⟩) = recovery
    have begins : ∀ more, more ≤ 1 → ((files.applyAll (cleanup files)).applyAll
        (recovery.ops.take more)).Sound config acknowledged := by
      intro more isBegun
      rw [← isRecovery]
      split
      · exact recoverPendingDelta_begins cleaned isBegun
      · exact prefix_nil cleaned more
    have ops : (files.applyAll ((cleanup files ++ recovery.ops).take done)).Sound config
        acknowledged := by
      rw [take_append, Files.applyAll_append]
      by_cases short : done ≤ (cleanup files).length
      · rw [Nat.sub_eq_zero_of_le short]
        exact cleanup_take sound done
      · rw [take_of_length_le (not_le.mp short).le]
        exact begins _ (Nat.sub_le_iff_le_add'.mpr begun)
    dsimp only
    rw [isRecovery]
    split
    · exact ops
    · exact ops

theorem insert_keeps (sound : files.Sound config acknowledged) (shows : inner.Shows files)
    {id : DocId} {embedding : Vector}
    (inOrder : config.metric.allFinite embedding = true →
      id ∉ inner.tombstones ∧ config.metric.fits embedding = true) :
    let outcome := insert config inner id embedding
    outcome.inner.Shows (files.applyAll outcome.ops) ∧
      (files.applyAll outcome.ops).Sound config
        (DiskAnnIndex.acknowledge outcome.result id (some embedding) acknowledged) := by
  rw [insert]
  split
  · rename_i isFinite
    obtain ⟨isLive, fits⟩ := inOrder isFinite
    refine ⟨⟨shows.nodes, ?_, shows.tombstones⟩, ?_⟩
    · exact congrArg (· ++ [(id, embedding)]) shows.pending
    · exact sound.appendToPendingWal (mt (shows.tombstones id).mpr isLive) fits
  · exact ⟨shows, sound⟩

theorem delete_keeps (sound : files.Sound config acknowledged) (shows : inner.Shows files)
    (id : DocId) :
    let outcome := delete inner id
    outcome.inner.Shows (files.applyAll outcome.ops) ∧
      (files.applyAll outcome.ops).Sound config
        (DiskAnnIndex.acknowledge outcome.result id none acknowledged) := by
  rw [delete]
  split
  · exact ⟨shows, sound⟩
  · split
    · exact ⟨shows, sound⟩
    · rename_i known
      have isKnown : id ∈ files.nodes.map CachedNode.docId ∨
          id ∈ files.pending.map Prod.fst := by
        rw [← shows.nodes, ← shows.pending]
        exact or_iff_not_and_not.mpr known
      refine ⟨⟨shows.nodes, shows.pending, fun other => ?_⟩, sound.appendToTombstoneWal isKnown⟩
      have isDead : other ∈ files.dead ++ [id] ↔ other ∈ id :: inner.tombstones := by
        rw [mem_append, mem_singleton, mem_cons, shows.tombstones other, or_comm]
      exact isDead.symm

namespace DiskAnnIndex

/-- An insert is of a document that was not deleted, and of a vector of the configured
dimension; a merge has nothing to decide when it comes to rename its file. -/
def InOrder (config : DiskAnnConfig Vector) (index : DiskAnnIndex Vector) :
    DiskAnnEvent Vector → Prop
  | .insert id embedding =>
    config.metric.allFinite embedding = true →
      (∀ inner ∈ index.inner, id ∉ inner.tombstones) ∧ config.metric.fits embedding = true
  | .delete _ => True
  | .persistDelta => ∀ inner ∈ index.inner, PersistInOrder config inner
  | .persistDeltaCrash done => 1 < done → ∀ inner ∈ index.inner, PersistInOrder config inner
  | .crash => True
  | .load => LoadInOrder config index.files
  | .loadCrash done => (cleanup index.files).length + 1 < done → LoadInOrder config index.files

instance (config : DiskAnnConfig Vector) (inner : DiskAnnIndexInner Vector) :
    Decidable (PersistInOrder config inner) :=
  decidable_of_iff (inner.pendingInserts.isEmpty = true ∨
    MergeInOrder config inner inner.tombstones) (or_congr_left List.isEmpty_iff)

instance (config : DiskAnnConfig Vector) (files : Files Vector) :
    Decidable (LoadInOrder config files) :=
  decidable_of_iff (files.pending.isEmpty = true ∨
    MergeInOrder config (recovered files) files.dead) (or_congr_left List.isEmpty_iff)

instance (config : DiskAnnConfig Vector) (index : DiskAnnIndex Vector)
    (event : DiskAnnEvent Vector) : Decidable (index.InOrder config event) :=
  match event with
  | .insert id embedding =>
    inferInstanceAs (Decidable (config.metric.allFinite embedding = true →
      (∀ inner ∈ index.inner, id ∉ inner.tombstones) ∧ config.metric.fits embedding = true))
  | .delete _ => .isTrue trivial
  | .persistDelta =>
    inferInstanceAs (Decidable (∀ inner ∈ index.inner, PersistInOrder config inner))
  | .persistDeltaCrash done =>
    inferInstanceAs (Decidable (1 < done → ∀ inner ∈ index.inner, PersistInOrder config inner))
  | .crash => .isTrue trivial
  | .load => inferInstanceAs (Decidable (LoadInOrder config index.files))
  | .loadCrash done =>
    inferInstanceAs (Decidable ((cleanup index.files).length + 1 < done →
      LoadInOrder config index.files))

structure Invariant (config : DiskAnnConfig Vector) (index : DiskAnnIndex Vector) : Prop where
  sound : index.files.Sound config index.acknowledged
  shows : ∀ inner, index.inner = some inner → inner.Shows index.files

theorem invariant_new : Invariant config (new : DiskAnnIndex Vector) where
  sound :=
    { agrees := fun id => rfl
      valid := fun node impossible => absurd impossible not_mem_nil
      fits := fun entry impossible => absurd impossible not_mem_nil
      once := fun id _ => Nat.zero_le _
      begun := fun _ _ => rfl }
  shows := by
    intro inner isInner
    cases isInner
    exact ⟨rfl, rfl, fun id => Iff.rfl⟩

variable {index next : DiskAnnIndex Vector}

theorem Invariant.complete {outcome : Outcome Vector}
    (keeps : outcome.Keeps config index.files index.acknowledged) :
    (index.complete outcome).Invariant config where
  sound := keeps.final
  shows := by
    intro inner isInner
    cases isInner
    exact keeps.shows

theorem Invariant.interrupt {outcome : Outcome Vector} {done : Nat}
    (sound : (index.files.applyAll (outcome.ops.take done)).Sound config index.acknowledged) :
    (index.interrupt outcome done).Invariant config where
  sound := sound
  shows := by
    intro inner isInner
    cases isInner

theorem Invariant.step (invariant : index.Invariant config) {event : DiskAnnEvent Vector}
    (inOrder : index.InOrder config event) (taken : index.step config event = some next) :
    next.Invariant config := by
  cases event with
  | insert id embedding =>
    obtain ⟨inner, isInner, rfl⟩ := map_eq_some_iff.mp taken
    obtain ⟨shows, sound⟩ := insert_keeps invariant.sound (invariant.shows inner isInner)
      fun isFinite => ⟨(inOrder isFinite).1 inner isInner, (inOrder isFinite).2⟩
    refine ⟨sound, fun after isAfter => ?_⟩
    cases isAfter
    exact shows
  | delete id =>
    obtain ⟨inner, isInner, rfl⟩ := map_eq_some_iff.mp taken
    obtain ⟨shows, sound⟩ := delete_keeps invariant.sound (invariant.shows inner isInner) id
    refine ⟨sound, fun after isAfter => ?_⟩
    cases isAfter
    exact shows
  | persistDelta =>
    obtain ⟨inner, isInner, rfl⟩ := map_eq_some_iff.mp taken
    exact Invariant.complete (persistDelta_persists invariant.sound
      (invariant.shows inner isInner) (inOrder inner isInner)).toKeeps
  | persistDeltaCrash done =>
    obtain ⟨inner, isInner, rfl⟩ := map_eq_some_iff.mp taken
    have shows := invariant.shows inner isInner
    apply Invariant.interrupt
    by_cases begun : done ≤ 1
    · exact persistDelta_begins invariant.sound shows.pending begun
    · exact (persistDelta_persists invariant.sound shows
        (inOrder (not_le.mp begun) inner isInner)).sound done
  | crash =>
    obtain ⟨inner, isInner, rfl⟩ := map_eq_some_iff.mp taken
    refine ⟨invariant.sound, fun after isAfter => ?_⟩
    cases isAfter
  | load =>
    rw [DiskAnnIndex.step] at taken
    split at taken
    · cases taken
    · cases taken
      exact Invariant.complete (load_keeps invariant.sound inOrder)
  | loadCrash done =>
    rw [DiskAnnIndex.step] at taken
    split at taken
    · cases taken
    · cases taken
      apply Invariant.interrupt
      by_cases begun : done ≤ (cleanup index.files).length + 1
      · exact load_begins invariant.sound begun
      · exact (load_keeps invariant.sound (inOrder (not_le.mp begun))).sound done

end DiskAnnIndex

end Contextra.DiskAnn
