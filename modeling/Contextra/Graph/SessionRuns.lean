import Contextra.Graph.SessionSaves

/-!
# Runs that save session trees

Transactions that save trees under namespaces.  A namespace is loaded as it was saved last when the
scan of its prefix reads no other namespace and no node of an earlier, larger tree is left.
-/

namespace Contextra.Graph

open Library List Option Function

inductive TreeCall where
  | appendStep (options : SessionDagStepOptions)
  | branchFrom (parentNode : NodeIdx) (options : SessionDagStepOptions)
  | setActiveHead (nodeIdx : NodeIdx)

def SessionBranchTree.apply (tree : SessionBranchTree) : TreeCall → SessionBranchTree
  | .appendStep options =>
    match tree.appendStep options with
    | .ok (_, next) => next
    | .error _ => tree
  | .branchFrom parentNode options =>
    match tree.branchFrom parentNode options with
    | .ok (_, next) => next
    | .error _ => tree
  | .setActiveHead nodeIdx =>
    match tree.setActiveHead nodeIdx with
    | .ok next => next
    | .error _ => tree

theorem SessionBranchTree.apply_wellFormed {tree : SessionBranchTree} (wellFormed : tree.WellFormed)
    (call : TreeCall) : (tree.apply call).WellFormed := by
  cases call with
  | appendStep options =>
    simp only [apply]
    split
    · rename_i appended
      exact (appendStep_ok wellFormed appended).2
    · exact wellFormed
  | branchFrom parentNode options =>
    simp only [apply]
    split
    · rename_i branched
      obtain ⟨-, -, -, wellFormedNext⟩ := branchFromInternal_ok wellFormed branched
      exact wellFormedNext
    · exact wellFormed
  | setActiveHead nodeIdx =>
    simp only [apply]
    split
    · rename_i moved
      exact setActiveHead_ok wellFormed moved
    · exact wellFormed

/-- How a tree was built. -/
structure Session where
  rootPrompt : String
  rootResponse : String
  calls : List TreeCall

def Session.tree (session : Session) : SessionBranchTree :=
  session.calls.foldl SessionBranchTree.apply (.new session.rootPrompt session.rootResponse)

theorem Session.tree_wellFormed (session : Session) : session.tree.WellFormed := by
  obtain ⟨rootPrompt, rootResponse, calls⟩ := session
  have kept : ∀ tree : SessionBranchTree, tree.WellFormed →
      (calls.foldl SessionBranchTree.apply tree).WellFormed := by
    induction calls with
    | nil => exact fun _ wellFormed => wellFormed
    | cons call calls ih =>
      exact fun tree wellFormed => ih _ (tree.apply_wellFormed wellFormed call)
  exact kept _ (SessionBranchTree.new_wellFormed rootPrompt rootResponse)

inductive SaveEvent where
  | save (space : SessionKey) (session : Session) (tx : TxId)
  | commit (tx : TxId)
  | rollback (tx : TxId)

/-- The storage, and beside it the saves of open and of committed transactions, the oldest first. -/
structure SavedSessions (Blob : Type) where
  storage : SessionStorage Blob
  pending : TxId → List (SessionKey × SessionBranchTree)
  saves : List (SessionKey × SessionBranchTree)

namespace SavedSessions

variable {Blob : Type}

def initial : SavedSessions Blob := ⟨⟨.empty, fun _ => []⟩, fun _ => [], []⟩

variable (codec : Bincode Blob)

def step (state : SavedSessions Blob) : SaveEvent → SavedSessions Blob
  | .save space session tx =>
    { state with
      storage := session.tree.save codec state.storage space tx
      pending := Function.update state.pending tx (state.pending tx ++ [(space, session.tree)]) }
  | .commit tx =>
    { storage := state.storage.commit tx
      pending := Function.update state.pending tx []
      saves := state.saves ++ state.pending tx }
  | .rollback tx =>
    { state with
      storage := state.storage.rollback tx
      pending := Function.update state.pending tx [] }

def after (events : List SaveEvent) : SavedSessions Blob := events.foldl (step codec) initial

structure Recorded (state : SavedSessions Blob) : Prop where
  staged : ∀ tx, state.storage.staged tx = savedEntries codec (state.pending tx)
  committed : ∀ key, state.storage.committed.lookup key =
    lastEntry (savedEntries codec state.saves) key
  pendingWellFormed : ∀ tx, ∀ save ∈ state.pending tx, save.2.WellFormed
  savesWellFormed : ∀ save ∈ state.saves, save.2.WellFormed

variable {codec} {state : SavedSessions Blob}

theorem foldl_put (entries : List (SessionKey × Blob)) (storage : SessionStorage Blob) (tx : TxId) :
    entries.foldl (fun storage entry => storage.put tx entry.1 entry.2) storage =
      { storage with
        staged := Function.update storage.staged tx (storage.staged tx ++ entries) } := by
  induction entries generalizing storage with
  | nil => simp
  | cons entry entries ih =>
    rw [foldl_cons, ih]
    simp [SessionStorage.put]

theorem lookup_foldl_insert (entries : List (SessionKey × Blob)) (map : SortedMap SessionKey Blob)
    (key : SessionKey) :
    (entries.foldl (fun map entry => map.insert entry.1 entry.2) map).lookup key =
      (lastEntry entries key).or (map.lookup key) := by
  induction entries using reverseRecOn with
  | nil => rfl
  | append_singleton entries entry ih =>
    rw [foldl_append, foldl_cons, foldl_nil, lastEntry_append, lastEntry_single]
    by_cases same : entry.1 = key
    · rw [if_pos same, ← same, SortedMap.lookup_insert_self]
      rfl
    · rw [if_neg same, SortedMap.lookup_insert_ne (Ne.symm same), ih]
      rfl

theorem step_recorded (recorded : state.Recorded codec) (event : SaveEvent) :
    (state.step codec event).Recorded codec := by
  cases event with
  | save space session tx =>
    refine ⟨?_, ?_, ?_, recorded.savesWellFormed⟩
    · intro other
      simp only [step, SessionBranchTree.save, foldl_put]
      by_cases same : other = tx
      · subst same
        simp [recorded.staged, savedEntries]
      · simp [same, recorded.staged]
    · intro key
      simp only [step, SessionBranchTree.save, foldl_put]
      exact recorded.committed key
    · intro other save inside
      by_cases same : other = tx
      · subst same
        simp only [step, update_self, mem_append, mem_singleton] at inside
        rcases inside with earlier | rfl
        · exact recorded.pendingWellFormed other save earlier
        · exact session.tree_wellFormed
      · simp only [step, update_of_ne same] at inside
        exact recorded.pendingWellFormed other save inside
  | commit tx =>
    refine ⟨?_, ?_, ?_, ?_⟩
    · intro other
      by_cases same : other = tx
      · subst same
        simp [step, SessionStorage.commit, savedEntries]
      · simp [step, SessionStorage.commit, same, recorded.staged]
    · intro key
      have split : savedEntries codec (state.saves ++ state.pending tx) =
          savedEntries codec state.saves ++ savedEntries codec (state.pending tx) := by
        simp [savedEntries]
      simp only [step, SessionStorage.commit]
      rw [lookup_foldl_insert, split, lastEntry_append, recorded.staged, recorded.committed]
    · intro other save inside
      by_cases same : other = tx
      · subst same
        simp [step] at inside
      · simp only [step, update_of_ne same] at inside
        exact recorded.pendingWellFormed other save inside
    · intro save inside
      rcases mem_append.mp inside with earlier | committed
      · exact recorded.savesWellFormed save earlier
      · exact recorded.pendingWellFormed tx save committed
  | rollback tx =>
    refine ⟨?_, recorded.committed, ?_, recorded.savesWellFormed⟩
    · intro other
      by_cases same : other = tx
      · subst same
        simp [step, SessionStorage.rollback, savedEntries]
      · simp [step, SessionStorage.rollback, same, recorded.staged]
    · intro other save inside
      by_cases same : other = tx
      · subst same
        simp [step] at inside
      · simp only [step, update_of_ne same] at inside
        exact recorded.pendingWellFormed other save inside

theorem after_recorded (events : List SaveEvent) : (after codec events).Recorded codec := by
  have kept : ∀ state : SavedSessions Blob, state.Recorded codec →
      (events.foldl (step codec) state).Recorded codec := by
    induction events with
    | nil => exact fun _ recorded => recorded
    | cons event events ih =>
      exact fun state recorded => ih _ (step_recorded recorded event)
  refine kept initial ⟨fun _ => rfl, fun _ => rfl, fun _ _ inside => ?_, fun _ inside => ?_⟩
  · cases inside
  · cases inside

open SessionBranchTree

variable {space : SessionKey} {tree : SessionBranchTree}

theorem mem_scanPrefix {entry : SessionKey × Blob} {start : SessionKey} :
    entry ∈ state.storage.scanPrefix start ↔
      state.storage.committed.lookup entry.1 = some entry.2 ∧ start <+: entry.1 := by
  rw [SessionStorage.scanPrefix, mem_filter, isPrefixOf_iff_prefix,
    SortedMap.lookup_eq_some]

theorem stored_of_load (roundTrips : codec.RoundTrips) (recorded : state.Recorded codec)
    (loads : load codec state.storage space = .ok tree)
    {save : SessionKey × SessionBranchTree} (isSave : save ∈ state.saves) {id : NodeIdx}
    (stored : (save.2.nodes.lookup id).isSome)
    (scanned : sessionPrefix space <+: slotKey save.1 (.node id)) :
    (tree.nodes.lookup id).isSome := by
  have areSaved : ∀ entry ∈ state.storage.scanPrefix (sessionPrefix space),
      IsSaved codec entry := by
    intro entry inside
    rw [mem_scanPrefix, recorded.committed] at inside
    obtain ⟨other, isOther, slot, isKey, isBlob⟩ := exists_save_of_lastEntry codec inside.1
    exact ⟨other.1, slot, other.2, isKey, isBlob, recorded.savesWellFormed other isOther⟩
  obtain ⟨loaded, isLoaded, keeps⟩ := @loadEntries_ok _ codec unread _ roundTrips areSaved
  have isTree : loaded = tree := by
    simp only [load] at loads
    split at loads
    · cases loads
    · rw [isLoaded] at loads
      simp only [bind, Except.bind] at loads
      split at loads <;> cases loads
      rfl
  rw [← isTree]
  refine keeps id (.inr ⟨save.1, ?_⟩)
  obtain ⟨node, isNode⟩ := isSome_iff_exists.mp stored
  have isBlob : save.2.blobOf codec (.node id) = some (codec.serializeNode node) := by
    rw [blobOf, isNode]
    rfl
  obtain ⟨blob, found⟩ := isSome_iff_exists.mp
    (lastEntry_isSome_of_save codec isSave isBlob)
  refine List.mem_map.mpr ⟨(_, blob), mem_scanPrefix.mpr ⟨?_, scanned⟩, rfl⟩
  exact (recorded.committed _).trans found

theorem load_eq_ok (roundTrips : codec.RoundTrips) (recorded : state.Recorded codec)
    (isLast : lastEntry state.saves space = some tree)
    (apart : ∀ save ∈ state.saves, ¬ Overlaps space save.1)
    (hasAll : HasAllSaved state.saves space tree) :
    load codec state.storage space = .ok tree := by
  have wellFormed : tree.WellFormed :=
    recorded.savesWellFormed _ (mem_of_lastEntry isLast)
  have contents : ∀ slot, state.storage.committed.lookup (slotKey space slot) =
      tree.blobOf codec slot := by
    intro slot
    rw [recorded.committed, lastEntry_savedEntries codec isLast hasAll]
  have own : ∀ entry ∈ state.storage.scanPrefix (sessionPrefix space),
      ∃ slot, entry.1 = slotKey space slot ∧ tree.blobOf codec slot = some entry.2 := by
    intro entry inside
    rw [mem_scanPrefix] at inside
    have found := inside.1
    rw [recorded.committed] at found
    obtain ⟨other, isOther, slot, isKey, -⟩ := exists_save_of_lastEntry codec found
    rcases overlaps_of_prefix (isKey ▸ inside.2) with same | overlaps
    · refine ⟨slot, same ▸ isKey, ?_⟩
      rw [← contents slot, same, ← isKey, inside.1]
    · exact absurd overlaps (apart other isOther)
  have scanned : ∀ slot, (tree.blobOf codec slot).isSome →
      slotKey space slot ∈ (state.storage.scanPrefix (sessionPrefix space)).map Prod.fst := by
    intro slot stored
    obtain ⟨blob, isBlob⟩ := isSome_iff_exists.mp stored
    refine List.mem_map.mpr ⟨(_, blob), mem_scanPrefix.mpr ⟨?_, prefix_slotKey space slot⟩, rfl⟩
    exact (contents slot).trans isBlob
  obtain ⟨loaded, isLoaded, agrees⟩ := @loadEntries_agrees _ codec space tree unread _ roundTrips
    wellFormed own
  have isTree : loaded = tree := by
    refine eq_of_agrees fun slot => agrees slot ?_
    cases stored : tree.blobOf codec slot with
    | some blob => exact .inr (scanned slot (by rw [stored]; rfl))
    | none =>
      cases slot with
      | node id =>
        rw [blobOf, map_eq_none_iff] at stored
        exact .inl stored.symm
      | edges => cases stored
      | headAndNext => cases stored
  have nonempty : (state.storage.scanPrefix (sessionPrefix space)).isEmpty = false := by
    have isEntry := scanned .edges rfl
    rw [Bool.eq_false_iff, ne_eq, List.isEmpty_iff]
    intro isEmpty
    rw [isEmpty] at isEntry
    cases isEntry
  have headStored : (tree.nodes.lookup tree.activeHead).isSome :=
    (wellFormed.ids _).mpr wellFormed.headStored
  rw [load, nonempty]
  simp [isLoaded, isTree, headStored, bind, Except.bind, pure, Except.pure]

variable (codec) in
/-- The namespace is loaded as the tree, and a further step gets an id that is not in use. -/
def Restores (state : SavedSessions Blob) (space : SessionKey) (tree : SessionBranchTree) : Prop :=
  load codec state.storage space = .ok tree ∧
    ∀ options id next, tree.appendStep options = .ok (id, next) → tree.nodes.lookup id = none

theorem restores_iff (roundTrips : codec.RoundTrips) (recorded : state.Recorded codec)
    (isLast : lastEntry state.saves space = some tree)
    (apart : ∀ save ∈ state.saves, ¬ Overlaps space save.1) :
    state.Restores codec space tree ↔ HasAllSaved state.saves space tree := by
  constructor
  · rintro ⟨loads, -⟩ save isSave rfl id stored
    exact stored_of_load roundTrips recorded loads isSave stored (prefix_slotKey _ _)
  · intro hasAll
    have wellFormed : tree.WellFormed :=
      recorded.savesWellFormed _ (mem_of_lastEntry isLast)
    exact ⟨load_eq_ok roundTrips recorded isLast apart hasAll,
      fun _ _ _ appended => appendStep_unused wellFormed appended⟩

theorem ne_of_overlaps {space other : SessionKey} (overlaps : Overlaps space other) :
    space ≠ other := by
  rintro rfl
  rcases overlaps with longer | longer
  · have length := longer.length_le
    simp at length
  · have length := congrArg List.length longer
    simp at length

def rootOnly : Session := ⟨"", "", []⟩

def oneStep : Session := ⟨"", "", [.appendStep ⟨"", "", none, [], "main"⟩]⟩

def overlapping (space other : SessionKey) : List SaveEvent :=
  [.save space rootOnly 1, .save other oneStep 2, .commit 1, .commit 2]

theorem saves_overlapping (space other : SessionKey) :
    (after codec (overlapping space other)).saves =
      [(space, rootOnly.tree), (other, oneStep.tree)] := by
  simp [after, overlapping, step, initial]

theorem not_restores_overlapping (roundTrips : codec.RoundTrips) {space other : SessionKey}
    (overlaps : Overlaps space other) :
    lastEntry (after codec (overlapping space other)).saves space = some rootOnly.tree ∧
      ¬ (after codec (overlapping space other)).Restores codec space rootOnly.tree := by
  constructor
  · rw [saves_overlapping]
    have split : [(space, rootOnly.tree), (other, oneStep.tree)] =
        [(space, rootOnly.tree)] ++ [(other, oneStep.tree)] := rfl
    rw [split, lastEntry_append, lastEntry_single, lastEntry_single, if_neg (ne_of_overlaps overlaps).symm,
      if_pos rfl]
    rfl
  · rintro ⟨loads, -⟩
    have isSave : (other, oneStep.tree) ∈ (after codec (overlapping space other)).saves := by
      rw [saves_overlapping]
      simp
    have stored : (oneStep.tree.nodes.lookup 1).isSome := by decide +kernel
    have foreign := stored_of_load roundTrips (after_recorded _) loads isSave stored
      (prefix_of_overlaps overlaps 1)
    revert foreign
    decide +kernel

/-- In every run a namespace whose scan reads no other one is loaded as it was saved last if and
only if the last tree has every node saved there; where a scan reads another namespace there are
trees, each saved once, with which it is not. -/
theorem restores_iff_hasAllSaved (codec : Bincode Blob) (roundTrips : codec.RoundTrips) :
    (∀ events space tree, lastEntry (after codec events).saves space = some tree →
      (∀ save ∈ (after codec events).saves, ¬ Overlaps space save.1) →
        ((after codec events).Restores codec space tree ↔
          HasAllSaved (after codec events).saves space tree)) ∧
      ∀ space other, Overlaps space other →
        ∃ events tree, (after codec events).saves.map Prod.fst = [space, other] ∧
          lastEntry (after codec events).saves space = some tree ∧
            ¬ (after codec events).Restores codec space tree := by
  constructor
  · intro events space tree isLast apart
    exact restores_iff roundTrips (after_recorded events) isLast apart
  · intro space other overlaps
    refine ⟨overlapping space other, rootOnly.tree, ?_, not_restores_overlapping roundTrips overlaps⟩
    rw [saves_overlapping]
    rfl

end SavedSessions

inductive SavedValue where
  | ofNode (node : AgentStateNode)
  | ofEdges (edges : List DagEdge)
  | ofMeta (pair : NodeIdx × NodeIdx)

namespace SavedValue

def node : SavedValue → Except String AgentStateNode
  | .ofNode node => .ok node
  | _ => .error "invalid value"

def edges : SavedValue → Except String (List DagEdge)
  | .ofEdges edges => .ok edges
  | _ => .error "invalid value"

def headAndNext : SavedValue → Except String (NodeIdx × NodeIdx)
  | .ofMeta pair => .ok pair
  | _ => .error "invalid value"

def codec : Bincode SavedValue := ⟨ofNode, ofEdges, ofMeta, node, edges, headAndNext⟩

end SavedValue

theorem SavedValue.codec_roundTrips : SavedValue.codec.RoundTrips :=
  ⟨fun _ => rfl, fun _ => rfl, fun _ => rfl⟩

namespace SavedSessions

/-- Two namespaces without a colon, each saved once. -/
theorem restores_apart_namespaces :
    (after SavedValue.codec (overlapping ['a'] ['b'])).Restores SavedValue.codec ['b']
      oneStep.tree := by
  have saves := @saves_overlapping _ SavedValue.codec ['a'] ['b']
  refine ((restores_iff_hasAllSaved SavedValue.codec SavedValue.codec_roundTrips).1
    (overlapping ['a'] ['b']) ['b'] oneStep.tree ?_ ?_).mpr ?_
  · rw [saves]
    rfl
  · rw [saves]
    intro save isSave
    rcases mem_cons.mp isSave with rfl | isSave
    · rw [Overlaps]
      decide
    · cases mem_singleton.mp isSave
      rw [Overlaps]
      decide
  · rw [saves]
    intro save isSave isSpace id stored
    rcases mem_cons.mp isSave with rfl | isSave
    · exact absurd isSpace (by decide)
    · cases mem_singleton.mp isSave
      exact stored

/-- The namespace `a` is loaded with the node of `a:z`. -/
theorem loaded_with_foreign_node :
    lastEntry (after SavedValue.codec (overlapping ['a'] ['a', ':', 'z'])).saves ['a'] =
        some rootOnly.tree ∧
      ¬ (after SavedValue.codec (overlapping ['a'] ['a', ':', 'z'])).Restores SavedValue.codec ['a']
        rootOnly.tree :=
  not_restores_overlapping SavedValue.codec_roundTrips (.inl ⟨['z'], rfl⟩)

end SavedSessions

end Contextra.Graph
