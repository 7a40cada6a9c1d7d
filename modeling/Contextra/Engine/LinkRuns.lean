import Contextra.Engine.LinkSearch
import Contextra.Engine.RecordCalls

/-!
# Link calls on a collection

A call holds the locks of its two documents while it searches and until it has stored its link.
The search reads the links of one document at a time, and other calls may store theirs between
two reads.
-/

namespace Contextra.Engine

open Library List Option
open Graph (DocId F32)
open Relation

structure LinkCall where
  source : DocId
  target : DocId
  relation : LinkRelation
  visited : List DocId
  queue : List DocId
  /-- How many documents the search may still take from its queue. -/
  steps : Nat
  /-- The records when the call began, which no step reads. -/
  began : Records

structure LinkWorld where
  records : Records
  calls : List LinkCall
  refused : List (LinkRelation × DocId × DocId)

inductive LinkEvent where
  | start (source target : DocId) (relation : LinkRelation)
  | search (index : Nat)
  | commit (index : Nat) (tx : TxId)
  | fail (index : Nat)

namespace LinkCall

def begin (records : Records) (source target : DocId) (relation : LinkRelation) : LinkCall :=
  ⟨source, target, relation, [target], [target], 1000, records⟩

/-- The locks of the call are none of the two shards. -/
def isApart (shard : DocId → Nat) (source target : DocId) (call : LinkCall) : Bool :=
  [shard call.source, shard call.target].all fun held => held ∉ [shard source, shard target]

def isChecked (call : LinkCall) : Bool := call.queue.isEmpty || call.steps = 0

end LinkCall

namespace LinkWorld

variable (collection : Collection) (shard : DocId → Nat)

def start (world : LinkWorld) (source target : DocId) (relation : LinkRelation) :
    Option LinkWorld :=
  if source = target then
    some { world with refused := world.refused ++ [(relation, source, target)] }
  else if source < 2 ^ 64 ∧ target < 2 ^ 64 ∧
      world.calls.all (LinkCall.isApart shard source target) then
    some { world with
      calls := world.calls ++ [LinkCall.begin world.records source target relation] }
  else none

def search (world : LinkWorld) (index : Nat) (call : LinkCall) : Option LinkWorld :=
  match call.steps, call.queue with
  | steps + 1, current :: queue =>
    if current = call.source then
      some { world with
        calls := world.calls.eraseIdx index
        refused := world.refused ++ [(call.relation, call.source, call.target)] }
    else
      let found := fresh call.visited
        (collection.targetsOf world.records call.relation current)
      some { world with
        calls := world.calls.set index
          { call with visited := call.visited ++ found, queue := queue ++ found, steps } }
  | _, _ => none

def commit (world : LinkWorld) (index : Nat) (call : LinkCall) (tx : TxId) : Option LinkWorld :=
  if call.isChecked then
    some { world with
      records := applyWrites world.records
        (collection.linkWrites world.records tx call.source call.target call.relation)
      calls := world.calls.eraseIdx index }
  else none

def step (world : LinkWorld) : LinkEvent → Option LinkWorld
  | .start source target relation => world.start shard source target relation
  | .search index => world.calls[index]?.bind fun call => world.search collection index call
  | .commit index tx => world.calls[index]?.bind fun call => world.commit collection index call tx
  | .fail index =>
    world.calls[index]?.map fun _ => { world with calls := world.calls.eraseIdx index }

/-- The links of each relation close no cycle, and each refused link would have closed one. -/
structure LinksSound (world : LinkWorld) : Prop where
  acyclic : ∀ relation, Acyclic (collection.Linked world.records relation)
  refusals : ∀ refusal ∈ world.refused,
    ReflTransGen (collection.Linked world.records refusal.1) refusal.2.2 refusal.2.1

/-- The target of a call leads to few documents, over links that were there when it began; its
source has a plain id. -/
structure StoresSafely (world : LinkWorld) (call : LinkCall) : Prop where
  plain : collection.HasPlainId world.records call.source
  few : ∃ docs : List DocId, docs.length ≤ 1000 ∧ call.target ∈ docs ∧
    ∀ a ∈ docs, ∀ b, collection.Linked world.records call.relation a b → b ∈ docs
  still : ∀ a b, ReflTransGen (collection.Linked world.records call.relation) call.target a →
    collection.Linked world.records call.relation a b →
      collection.Linked call.began call.relation a b

def CommitsSafely (world : LinkWorld) : LinkEvent → Prop
  | .commit index _ => ∀ call, world.calls[index]? = some call → world.StoresSafely collection call
  | _ => True

/-- What the search of a call has found so far. -/
structure CallSound (records : Records) (call : LinkCall) : Prop where
  sourceBound : call.source < 2 ^ 64
  targetBound : call.target < 2 ^ 64
  grown : ∀ a b, collection.Linked call.began call.relation a b →
    collection.Linked records call.relation a b
  searched : Searched (collection.Linked records call.relation) call.target 1000 call.visited
    call.queue call.steps
  closed : Closed (collection.Linked call.began call.relation) call.source call.visited call.queue

structure Sound (world : LinkWorld) : Prop where
  links : world.LinksSound collection
  bounded : ∀ relation a b, collection.Linked world.records relation a b → b < 2 ^ 64
  calls : ∀ call ∈ world.calls, CallSound collection world.records call

variable {collection shard} {world next : LinkWorld} {call : LinkCall} {records : Records}
  {index : Nat}

variable {relation : LinkRelation}

theorem CallSound.begin {source target : DocId}
    (sourceBound : source < 2 ^ 64) (targetBound : target < 2 ^ 64) :
    CallSound collection records (LinkCall.begin records source target relation) where
  sourceBound := sourceBound
  targetBound := targetBound
  grown := fun _ _ linked => linked
  searched := Searched.initial
  closed := Closed.initial

theorem CallSound.mono {later : Records} (sound : CallSound collection records call)
    (larger : ∀ a b, collection.Linked records call.relation a b →
      collection.Linked later call.relation a b) : CallSound collection later call :=
  { sound with
    grown := fun a b linked => larger a b (sound.grown a b linked)
    searched := sound.searched.mono larger }

theorem Sound.reached_bound (sound : world.Sound collection)
    {target reached : DocId} (targetBound : target < 2 ^ 64)
    (path : ReflTransGen (collection.Linked world.records relation) target reached) :
    reached < 2 ^ 64 := by
  cases path with
  | refl => exact targetBound
  | tail _ edge => exact sound.bounded relation _ _ edge

theorem Sound.start {source target : DocId}
    (sound : world.Sound collection) (taken : world.start shard source target relation = some next) :
    next.Sound collection := by
  unfold LinkWorld.start at taken
  split at taken
  · rename_i isLoop
    cases taken
    refine { sound with links := { sound.links with refusals := ?_ } }
    intro refusal mem
    rcases mem_append.mp mem with old | new
    · exact sound.links.refusals refusal old
    · rw [mem_singleton.mp new, isLoop]
  · split at taken
    · rename_i enabled
      cases taken
      refine ⟨⟨sound.links.acyclic, sound.links.refusals⟩, sound.bounded, ?_⟩
      intro other mem
      rcases mem_append.mp mem with old | new
      · exact sound.calls other old
      · rw [mem_singleton.mp new]
        exact CallSound.begin enabled.1 enabled.2.1
    · cases taken

theorem CallSound.pop {current : DocId} {queue : List DocId} {steps : Nat}
    (sound : world.Sound collection) (callSound : CallSound collection world.records call)
    (isQueue : call.queue = current :: queue) (isSteps : call.steps = steps + 1)
    (other : current ≠ call.source) :
    let found := fresh call.visited (collection.targetsOf world.records call.relation current)
    CallSound collection world.records
      { call with visited := call.visited ++ found, queue := queue ++ found, steps } := by
  intro found
  have searched := callSound.searched
  have closed := callSound.closed
  rw [isQueue] at closed
  rw [isQueue, isSteps] at searched
  have isVisited := searched.waiting current mem_cons_self
  have bound : current < 2 ^ 64 :=
    sound.reached_bound callSound.targetBound (searched.reached current isVisited)
  constructor
  case sourceBound => exact callSound.sourceBound
  case targetBound => exact callSound.targetBound
  case grown => exact callSound.grown
  case searched => exact searched.pop fun following isTarget => ⟨bound, isTarget⟩
  case closed =>
    apply closed.pop other
    intro following linked
    exact (callSound.grown current following linked).2

theorem Sound.search (sound : world.Sound collection) (isCall : world.calls[index]? = some call)
    (taken : world.search collection index call = some next) : next.Sound collection := by
  have callSound := sound.calls call (mem_of_getElem? isCall)
  unfold LinkWorld.search at taken
  split at taken
  · rename_i steps current queue isSteps isQueue
    split at taken
    · rename_i found
      cases taken
      constructor
      case links =>
        refine { sound.links with refusals := ?_ }
        intro refusal mem
        rcases mem_append.mp mem with old | new
        · exact sound.links.refusals refusal old
        · rw [mem_singleton.mp new]
          apply callSound.searched.reached
          apply callSound.searched.waiting
          rw [isQueue, found]
          exact mem_cons_self
      case bounded => exact sound.bounded
      case calls =>
        exact fun other mem => sound.calls other (mem_of_mem_eraseIdx mem)
    · rename_i other
      cases taken
      refine ⟨⟨sound.links.acyclic, sound.links.refusals⟩, sound.bounded, ?_⟩
      intro caller mem
      rcases mem_or_eq_of_mem_set mem with old | new
      · exact sound.calls caller old
      · rw [new]
        have popped := callSound.pop sound isQueue isSteps other
        exact popped
  · cases taken

theorem StoresSafely.noPath (safe : world.StoresSafely collection call)
    (callSound : CallSound collection world.records call) (checked : call.isChecked = true) :
    ¬ ReflTransGen (collection.Linked world.records call.relation) call.target call.source := by
  intro path
  obtain ⟨docs, bounded, isStart, closedDocs⟩ := safe.few
  have ended : call.queue = [] ∨ call.steps = 0 := by
    simpa [LinkCall.isChecked] using checked
  have empty : call.queue = [] := callSound.searched.queue_eq_nil ended isStart closedDocs bounded
  have closed := callSound.closed
  rw [empty] at closed
  apply closed.noPath callSound.searched.started
  have before : ∀ docId,
      ReflTransGen (collection.Linked world.records call.relation) call.target docId →
        ReflTransGen (collection.Linked call.began call.relation) call.target docId := by
    intro docId reached
    induction reached with
    | refl => exact .refl
    | tail reached edge ih =>
      exact ih.tail (safe.still _ _ reached edge)
  exact before call.source path

theorem Sound.commit {tx : TxId} (sound : world.Sound collection)
    (isCall : world.calls[index]? = some call) (safe : world.StoresSafely collection call)
    (taken : world.commit collection index call tx = some next) : next.Sound collection := by
  have callSound := sound.calls call (mem_of_getElem? isCall)
  unfold LinkWorld.commit at taken
  split at taken
  · rename_i checked
    cases taken
    let writes := collection.linkWrites world.records tx call.source call.target call.relation
    have larger : ∀ relation a b, collection.Linked world.records relation a b →
        collection.Linked (applyWrites world.records writes) relation a b := by
      intro relation a b linked
      exact linked.commit callSound.sourceBound safe.plain
    have within : ∀ relation a b,
        collection.Linked (applyWrites world.records writes) relation a b →
          collection.Linked world.records relation a b ∨
            (relation = call.relation ∧ a = call.source ∧ b = call.target) := by
      intro relation a b linked
      exact Collection.linked_commit callSound.sourceBound safe.plain linked
    refine ⟨⟨?acyclic, ?refusals⟩, ?bounded, ?calls⟩
    case acyclic =>
      intro relation
      by_cases same : relation = call.relation
      · subst same
        apply (sound.links.acyclic call.relation).addEdge _ (safe.noPath callSound checked)
        intro a b linked
        rcases within call.relation a b linked with old | ⟨-, new⟩
        · exact .inl old
        · exact .inr new
      · apply (sound.links.acyclic relation).mono
        intro a b linked
        rcases within relation a b linked with old | ⟨isCall, -⟩
        · exact old
        · exact absurd isCall same
    case refusals =>
      intro refusal mem
      apply ReflTransGen.mono (larger refusal.1)
      exact sound.links.refusals refusal mem
    case bounded =>
      intro relation a b linked
      rcases within relation a b linked with old | ⟨-, -, isTarget⟩
      · exact sound.bounded relation a b old
      · rw [isTarget]
        exact callSound.targetBound
    case calls =>
      intro other mem
      exact (sound.calls other (mem_of_mem_eraseIdx mem)).mono (larger other.relation)
  · cases taken

theorem Sound.step {event : LinkEvent} (sound : world.Sound collection)
    (safe : world.CommitsSafely collection event)
    (taken : world.step collection shard event = some next) : next.Sound collection := by
  cases event with
  | start source target relation => exact sound.start taken
  | search index =>
    obtain ⟨call, isCall, searched⟩ := bind_eq_some_iff.mp taken
    exact sound.search isCall searched
  | commit index tx =>
    obtain ⟨call, isCall, committed⟩ := bind_eq_some_iff.mp taken
    exact sound.commit isCall (safe call isCall) committed
  | fail index =>
    obtain ⟨call, isCall, rfl⟩ := map_eq_some_iff.mp taken
    refine ⟨⟨sound.links.acyclic, sound.links.refusals⟩, sound.bounded, ?_⟩
    exact fun other mem => sound.calls other (mem_of_mem_eraseIdx mem)

def NoLinks (collection : Collection) (records : Records) : Prop :=
  ∀ docId, collection.getLinks records docId = []

theorem NoLinks.not_linked (noLinks : NoLinks collection records)
    {a b : DocId} : ¬ collection.Linked records relation a b := by
  rintro ⟨-, isTarget⟩
  obtain ⟨link, isLink, -⟩ := Collection.mem_targetsOf.mp isTarget
  rw [noLinks a] at isLink
  cases isLink

theorem NoLinks.sound (noLinks : NoLinks collection records) :
    (LinkWorld.mk records [] []).Sound collection where
  links := {
    acyclic := by
      intro relation a cycle
      obtain ⟨following, edge, -⟩ := TransGen.head'_iff.mp cycle
      exact noLinks.not_linked edge
    refusals := nofun }
  bounded := fun _ _ _ linked => absurd linked noLinks.not_linked
  calls := nofun

/-- From a state with no links, a run whose calls store their links safely closes no cycle and
refuses only links that would close one. -/
theorem links_sound {events : List LinkEvent} (noLinks : NoLinks collection records)
    (safe : Along (step collection shard) (CommitsSafely collection) ⟨records, [], []⟩ events)
    (reached : run (step collection shard) ⟨records, [], []⟩ events = some world) :
    world.LinksSound collection := by
  have preserved : ∀ state event next, Sound collection state →
      CommitsSafely collection state event → step collection shard state event = some next →
      Sound collection next :=
    fun _ _ _ sound isSafe taken => sound.step isSafe taken
  exact (run_invariant preserved noLinks.sound safe reached).links

def fourDocuments : Records := fun key =>
  if [0, 1, 2, 3].any (fun docId => key = CollectionName.docKey ⟨ascii "c"⟩ docId) then
    some (StoredDocumentMeta.toJson ⟨ascii "x", none⟩)
  else none

theorem fourDocuments_noLinks : NoLinks Collection.small fourDocuments := by
  intro docId
  rw [Collection.getLinks_eq]
  unfold fourDocuments
  split
  · rfl
  · rfl

theorem fourDocuments_links_sound :
    ∃ world, run (step Collection.small id) ⟨fourDocuments, [], []⟩
        [.start 0 1 .references, .search 0, .commit 0 1] = some world ∧
      world.LinksSound Collection.small := by
  have reached : run (step Collection.small id) ⟨fourDocuments, [], []⟩
      [.start 0 1 .references, .search 0, .commit 0 1] = some _ := rfl
  refine ⟨_, reached, links_sound fourDocuments_noLinks ?_ reached⟩
  refine ⟨trivial, fun _ started => ⟨trivial, fun _ searched => ⟨?_, fun _ _ => trivial⟩⟩⟩
  cases started
  cases searched
  intro call isCall
  cases isCall
  constructor
  case plain => exact fun isDefault => absurd isDefault (by decide)
  case few =>
    refine ⟨[1], by decide, by decide, ?_⟩
    exact fun _ _ _ linked => absurd linked fourDocuments_noLinks.not_linked
  case still => exact fun _ _ _ linked => absurd linked fourDocuments_noLinks.not_linked

/-- The links 1 → 2 and 3 → 0 are stored; then two calls with other locks store 0 → 1 and 2 → 3,
after the search of each and before the link of the other. -/
def crossing : List LinkEvent :=
  [.start 1 2 .references, .search 0, .commit 0 1, .start 3 0 .references, .search 0, .commit 0 2,
    .start 0 1 .references, .start 2 3 .references, .search 0, .search 0, .search 1, .search 1,
    .commit 0 3, .commit 0 4]

theorem crossing_not_linksSound :
    NoLinks Collection.small fourDocuments ∧
      ∃ world, run (step Collection.small id) ⟨fourDocuments, [], []⟩ crossing = some world ∧
        ¬ world.LinksSound Collection.small := by
  have cycle : (run (step Collection.small id) ⟨fourDocuments, [], []⟩ crossing).map
      (fun world => [0, 1, 2, 3].map (Collection.small.targetsOf world.records .references)) =
        some [[1], [2], [3], [0]] := by
    decide +kernel
  obtain ⟨world, reached, targets⟩ := map_eq_some_iff.mp cycle
  refine ⟨fourDocuments_noLinks, world, reached, fun sound => ?_⟩
  obtain ⟨fromFirst, fromSecond, fromThird, fromFourth⟩ :
      Collection.small.targetsOf world.records .references 0 = [1] ∧
        Collection.small.targetsOf world.records .references 1 = [2] ∧
        Collection.small.targetsOf world.records .references 2 = [3] ∧
        Collection.small.targetsOf world.records .references 3 = [0] := by
    simpa using targets
  have linked : ∀ a b, a < 2 ^ 64 → Collection.small.targetsOf world.records .references a = [b] →
      Collection.small.Linked world.records .references a b := by
    intro a b bound single
    refine ⟨bound, ?_⟩
    rw [single]
    exact mem_singleton_self b
  apply sound.acyclic .references 0
  apply TransGen.head (linked 0 1 (by decide) fromFirst)
  apply TransGen.head (linked 1 2 (by decide) fromSecond)
  apply TransGen.head (linked 2 3 (by decide) fromThird)
  exact TransGen.single (linked 3 0 (by decide) fromFourth)

end LinkWorld

end Contextra.Engine
