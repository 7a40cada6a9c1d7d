import Contextra.Library.SortedMap
import Contextra.Library.StagedMap
import Contextra.Types

/-!
# The session tree

The tree of the steps of an agent, how it is saved under the keys of a namespace, and how it is
loaded again from a scan of the prefix of the namespace.
-/

namespace Contextra.Graph

open Contextra.Library

/-- The `u64` of the counter, which no tree exhausts: every id it gives out is a node in memory. -/
abbrev NodeIdx := Nat

structure AgentStateNode where
  stepId : NodeIdx
  prompt : String
  response : String
  snapshotTxId : Option TxId
  toolOutputs : List String
  compacted : Bool
  deriving DecidableEq, Repr

structure DagEdge where
  parent : NodeIdx
  child : NodeIdx
  label : String
  deriving DecidableEq, Repr

def maxDagStringBytes : Nat := 10 * 1024 * 1024

structure SessionDagStepOptions where
  prompt : String
  response : String
  snapshotTxId : Option TxId
  toolOutputs : List String
  label : String

inductive SessionDagError where
  | invalidInput (message : String)
  | notFound (message : String)
  | serialization (message : String)
  deriving DecidableEq, Repr

structure SessionBranchTree where
  nodes : SortedMap NodeIdx AgentStateNode
  edges : List DagEdge
  activeHead : NodeIdx
  nextId : NodeIdx

abbrev SessionKey := List Char

structure Bincode (Blob : Type) where
  serializeNode : AgentStateNode → Blob
  serializeEdges : List DagEdge → Blob
  serializeMeta : NodeIdx × NodeIdx → Blob
  deserializeNode : Blob → Except String AgentStateNode
  deserializeEdges : Blob → Except String (List DagEdge)
  deserializeMeta : Blob → Except String (NodeIdx × NodeIdx)

/-- What was serialized is read back. -/
structure Bincode.RoundTrips {Blob : Type} (codec : Bincode Blob) : Prop where
  node : ∀ node, codec.deserializeNode (codec.serializeNode node) = .ok node
  edges : ∀ edges, codec.deserializeEdges (codec.serializeEdges edges) = .ok edges
  headAndNext : ∀ pair, codec.deserializeMeta (codec.serializeMeta pair) = .ok pair

/-- The part of a `StorageEngine` that the trees use. -/
structure SessionStorage (Blob : Type) where
  committed : SortedMap SessionKey Blob
  staged : TxId → List (SessionKey × Blob)

namespace SessionStorage

variable {Blob : Type} (storage : SessionStorage Blob)

def put (tx : TxId) (key : SessionKey) (value : Blob) : SessionStorage Blob :=
  { storage with
    staged := Function.update storage.staged tx (storage.staged tx ++ [(key, value)]) }

def scanPrefix (start : SessionKey) : List (SessionKey × Blob) :=
  storage.committed.entries.filter fun entry => start.isPrefixOf entry.1

def rollback (tx : TxId) : SessionStorage Blob :=
  { storage with staged := Function.update storage.staged tx [] }

def commit (tx : TxId) : SessionStorage Blob where
  committed := (storage.staged tx).foldl (fun map entry => map.insert entry.1 entry.2)
    storage.committed
  staged := Function.update storage.staged tx []

end SessionStorage

/-- The values that a tree is saved as. -/
inductive Slot where
  | node (id : NodeIdx)
  | edges
  | headAndNext
  deriving DecidableEq, Repr

def edgesText : SessionKey := ['e', 'd', 'g', 'e', 's']

def metaText : SessionKey := ['m', 'e', 't', 'a']

def nodeText : SessionKey := ['n', 'o', 'd', 'e']

def Slot.text : Slot → SessionKey
  | .node id => nodeText ++ ':' :: Nat.toDigits 10 id
  | .edges => edgesText
  | .headAndNext => metaText

/-- `__session_dag:` -/
def rootText : SessionKey :=
  ['_', '_', 's', 'e', 's', 's', 'i', 'o', 'n', '_', 'd', 'a', 'g', ':']

def sessionPrefix (space : SessionKey) : SessionKey := rootText ++ space ++ [':']

def slotKey (space : SessionKey) (slot : Slot) : SessionKey := sessionPrefix space ++ slot.text

namespace SessionBranchTree

def new (rootPrompt rootResponse : String) : SessionBranchTree where
  nodes := SortedMap.empty.insert 0
    { stepId := 0
      prompt := rootPrompt
      response := rootResponse
      snapshotTxId := none
      toolOutputs := []
      compacted := false }
  edges := []
  activeHead := 0
  nextId := 1

def nodeNotFound (node : NodeIdx) : SessionDagError :=
  .invalidInput ("SessionDAG: node " ++ toString node ++ " nicht gefunden")

def branchFromInternal (tree : SessionBranchTree) (parentNode : NodeIdx)
    (options : SessionDagStepOptions) : Except SessionDagError (NodeIdx × SessionBranchTree) :=
  if maxDagStringBytes < options.prompt.utf8ByteSize ∨
      maxDagStringBytes < options.response.utf8ByteSize then
    .error (.invalidInput ("SessionDAG: prompt or response size exceeds limit of " ++
      toString maxDagStringBytes ++ " bytes"))
  else if (tree.nodes.lookup parentNode).isNone then .error (nodeNotFound parentNode)
  else
    .ok (tree.nextId,
      { nodes := tree.nodes.insert tree.nextId
          { stepId := tree.nextId
            prompt := options.prompt
            response := options.response
            snapshotTxId := options.snapshotTxId
            toolOutputs := options.toolOutputs
            compacted := false }
        edges := tree.edges ++ [⟨parentNode, tree.nextId, options.label⟩]
        activeHead := tree.activeHead
        nextId := tree.nextId + 1 })

def appendStep (tree : SessionBranchTree) (options : SessionDagStepOptions) :
    Except SessionDagError (NodeIdx × SessionBranchTree) := do
  let (newId, tree) ← tree.branchFromInternal tree.activeHead options
  return (newId, { tree with activeHead := newId })

def branchFrom (tree : SessionBranchTree) (parentNode : NodeIdx)
    (options : SessionDagStepOptions) : Except SessionDagError (NodeIdx × SessionBranchTree) :=
  tree.branchFromInternal parentNode options

def setActiveHead (tree : SessionBranchTree) (nodeIdx : NodeIdx) :
    Except SessionDagError SessionBranchTree :=
  if (tree.nodes.lookup nodeIdx).isSome then .ok { tree with activeHead := nodeIdx }
  else .error (nodeNotFound nodeIdx)

section Storage

variable {Blob : Type} (codec : Bincode Blob)

/-- The writes of `save`; the order of the nodes is that of a hash map. -/
def puts (space : SessionKey) (tree : SessionBranchTree) : List (SessionKey × Blob) :=
  (tree.nodes.entries.map fun entry =>
      (slotKey space (.node entry.1), codec.serializeNode entry.2)) ++
    [(slotKey space .edges, codec.serializeEdges tree.edges),
      (slotKey space .headAndNext, codec.serializeMeta (tree.activeHead, tree.nextId))]

def save (tree : SessionBranchTree) (storage : SessionStorage Blob) (space : SessionKey)
    (tx : TxId) : SessionStorage Blob :=
  (tree.puts codec space).foldl (fun storage entry => storage.put tx entry.1 entry.2) storage

/-- What `load` has read before its first entry. -/
def unread : SessionBranchTree := ⟨.empty, [], 0, 1⟩

/-- One entry of the scan.  Keys are texts, so that their check for UTF-8 passes. -/
def loadEntry (tree : SessionBranchTree) (entry : SessionKey × Blob) :
    Except SessionDagError SessionBranchTree :=
  if edgesText.isSuffixOf entry.1 then
    match codec.deserializeEdges entry.2 with
    | .ok edges => .ok { tree with edges }
    | .error e => .error (.serialization ("session dag edges deserialize: " ++ e))
  else if metaText.isSuffixOf entry.1 then
    match codec.deserializeMeta entry.2 with
    | .ok (activeHead, nextId) => .ok { tree with activeHead, nextId }
    | .error e => .error (.serialization ("session dag meta deserialize: " ++ e))
  else if decide (':' :: nodeText ++ [':'] <:+: entry.1) then
    match codec.deserializeNode entry.2 with
    | .ok node => .ok { tree with nodes := tree.nodes.insert node.stepId node }
    | .error e => .error (.serialization ("session dag node deserialize: " ++ e))
  else .ok tree

def load (storage : SessionStorage Blob) (space : SessionKey) :
    Except SessionDagError SessionBranchTree :=
  let entries := storage.scanPrefix (sessionPrefix space)
  if entries.isEmpty then
    .error (.notFound ("SessionDAG: namespace '" ++ String.ofList space ++
      "' nicht im Storage gefunden"))
  else do
    let tree ← entries.foldlM (loadEntry codec) unread
    if (tree.nodes.lookup tree.activeHead).isSome then return tree
    else .error (.invalidInput ("SessionDAG: active_head node " ++ toString tree.activeHead ++
      " nicht in geladenen nodes gefunden"))

end Storage

/-- What the methods of the tree keep: the ids are those below the counter, and nodes carry them. -/
structure WellFormed (tree : SessionBranchTree) : Prop where
  stepId : ∀ id node, tree.nodes.lookup id = some node → node.stepId = id
  ids : ∀ id, (tree.nodes.lookup id).isSome ↔ id < tree.nextId
  headStored : tree.activeHead < tree.nextId

variable {tree next : SessionBranchTree} {options : SessionDagStepOptions} {id : NodeIdx}

theorem new_wellFormed (rootPrompt rootResponse : String) :
    (new rootPrompt rootResponse).WellFormed := by
  have rest : ∀ id, id ≠ 0 → (new rootPrompt rootResponse).nodes.lookup id = none := by
    intro id different
    rw [new, SortedMap.lookup_insert_ne different, SortedMap.lookup_empty]
  constructor
  · intro id node found
    by_cases isRoot : id = 0
    · subst isRoot
      rw [new, SortedMap.lookup_insert_self] at found
      cases found
      rfl
    · rw [rest id isRoot] at found
      cases found
  · intro id
    by_cases isRoot : id = 0
    · subst isRoot
      simp [new, SortedMap.lookup_insert_self]
    · rw [rest id isRoot]
      simp [new, isRoot]
  · exact Nat.zero_lt_one

theorem branchFromInternal_ok {parentNode : NodeIdx} (wellFormed : tree.WellFormed)
    (branched : tree.branchFromInternal parentNode options = .ok (id, next)) :
    id = tree.nextId ∧ next.nextId = tree.nextId + 1 ∧ next.activeHead = tree.activeHead ∧
      next.WellFormed := by
  simp only [branchFromInternal] at branched
  split at branched
  · cases branched
  · split at branched
    · cases branched
    · cases branched
      refine ⟨rfl, rfl, rfl, ?_, ?_, Nat.lt_succ_of_lt wellFormed.headStored⟩
      · intro other node found
        by_cases isNew : other = tree.nextId
        · subst isNew
          rw [SortedMap.lookup_insert_self] at found
          cases found
          rfl
        · rw [SortedMap.lookup_insert_ne isNew] at found
          exact wellFormed.stepId other node found
      · intro other
        by_cases isNew : other = tree.nextId
        · subst isNew
          simp [SortedMap.lookup_insert_self]
        · rw [SortedMap.lookup_insert_ne isNew, wellFormed.ids other]
          exact ⟨Nat.lt_succ_of_lt, fun less => lt_of_le_of_ne (Nat.lt_succ_iff.mp less) isNew⟩

theorem appendStep_ok (wellFormed : tree.WellFormed)
    (appended : tree.appendStep options = .ok (id, next)) :
    id = tree.nextId ∧ next.WellFormed := by
  simp only [appendStep, bind, Except.bind] at appended
  split at appended
  · cases appended
  · rename_i branched
    obtain ⟨isNext, counter, -, wellFormedNext⟩ := branchFromInternal_ok wellFormed branched
    cases appended
    refine ⟨isNext, wellFormedNext.stepId, wellFormedNext.ids, ?_⟩
    rw [counter, isNext]
    exact Nat.lt_succ_self _

theorem setActiveHead_ok (wellFormed : tree.WellFormed)
    (moved : tree.setActiveHead id = .ok next) : next.WellFormed := by
  simp only [setActiveHead] at moved
  split at moved
  · rename_i stored
    cases moved
    exact ⟨wellFormed.stepId, wellFormed.ids, (wellFormed.ids id).mp stored⟩
  · cases moved

theorem appendStep_unused (wellFormed : tree.WellFormed)
    (appended : tree.appendStep options = .ok (id, next)) : tree.nodes.lookup id = none := by
  obtain ⟨rfl, -⟩ := appendStep_ok wellFormed appended
  have notStored := (wellFormed.ids tree.nextId).not.mpr (lt_irrefl _)
  simpa using notStored

end SessionBranchTree

end Contextra.Graph
