import Contextra.KvCache.PrefixStore
import Contextra.KvCache.SegmentRuns

/-!
# Segments that are found by their tokens

A tenant's token tree lies beside its segments.  A segment that leaves the cache or changes leaves
its sequences in the tree; only when the last segment of a tenant is gone the tree goes too.
-/

namespace Contextra.KvCache

open Library List Option Function

def SegmentWorld.cached (world : SegmentWorld) (tenant : TenantId) (id : Nat) : Option KvSegment :=
  (world.tenants tenant).bind fun state => state.cache.entries.lookup id

/-- The segment of an id is removed, or holds other bytes. -/
def SegmentWorld.expires (before after : SegmentWorld) (tenant : TenantId) (id : Nat) : Bool :=
  match before.cached tenant id with
  | some segment => (after.cached tenant id).map KvSegment.data ≠ some segment.data
  | none => false

/-- A segment that a sequence was registered for, and whether it was removed or changed since. -/
structure Registration where
  blockId : Nat
  expired : Bool
  deriving DecidableEq

/-- The segments and the token trees.  `registered` is not part of the store; it says what was
registered last. -/
structure TokenWorld where
  segments : SegmentWorld
  trees : TenantId → PrefixRadixTree Token
  registered : TenantId → List Token → Option Registration

inductive TokenEvent where
  | segments (event : SegmentEvent)
  | insertTokenSequence (tenant : TenantId) (tokens : List Token) (blockId : Nat)
  | findPrefixMatch (tenant : TenantId) (tokens : List Token) (policy : KvReusePolicy)

namespace TokenWorld

def new : TokenWorld := ⟨.new, fun _ => .new, fun _ _ => none⟩

def findPrefixMatch (world : TokenWorld) (tenant : TenantId) (tokens : List Token)
    (policy : KvReusePolicy) : Option (PrefixMatch Token × KvSegment) :=
  (world.segments.tenants tenant).bind fun state =>
    ((world.trees tenant).findLongestPrefix tokens policy).bind fun found =>
      (state.get found.blockId).1.map fun segment => (found, segment)

/-- The segments change.  A tenant that is dropped loses its tree. -/
def withSegments (world : TokenWorld) (segments : SegmentWorld) : TokenWorld where
  segments
  trees tenant := if (segments.tenants tenant).isSome then world.trees tenant else .new
  registered tenant tokens := (world.registered tenant tokens).map fun registration =>
    { registration with
      expired := registration.expired ||
        world.segments.expires segments tenant registration.blockId }

variable (capacity : Nat)

/-- A call on the segments that finds nothing to do changes nothing. -/
def callSegments (world : TokenWorld) (event : SegmentEvent) : TokenWorld :=
  match world.segments.step capacity event with
  | some segments => world.withSegments segments
  | none => world

def insertTokenSequence (world : TokenWorld) (tenant : TenantId) (tokens : List Token)
    (blockId : Nat) : TokenWorld :=
  let segments := world.segments.set tenant (some (world.segments.stateOf capacity tenant))
  match (world.trees tenant).insert tokens blockId with
  | .ok tree =>
    { segments
      trees := Function.update world.trees tenant tree
      registered := Function.update world.registered tenant
        (Function.update (world.registered tenant) tokens (some ⟨blockId, false⟩)) }
  | .error _ => { world with segments }

def next (world : TokenWorld) : TokenEvent → TokenWorld
  | .segments event => world.callSegments capacity event
  | .insertTokenSequence tenant tokens blockId =>
    world.insertTokenSequence capacity tenant tokens blockId
  | .findPrefixMatch tenant tokens policy =>
    match world.findPrefixMatch tenant tokens policy with
    | some (found, _) => world.callSegments capacity (.acquireGuard tenant found.blockId)
    | none => world

/-- A sequence is registered for a segment that is still cached, unchanged. -/
def Live (world : TokenWorld) (tenant : TenantId) (tokens : List Token) (id : Nat) : Prop :=
  world.registered tenant tokens = some ⟨id, false⟩ ∧ (world.segments.cached tenant id).isSome

/-- The answer is the segment of the longest live sequence that starts the query and that the policy
accepts. -/
def Right (world : TokenWorld) (tenant : TenantId) (query : List Token) (policy : KvReusePolicy) :
    Option (PrefixMatch Token × KvSegment) → Prop
  | some (found, segment) =>
    found.matchedTokens <+: query ∧ found.matchedLen = found.matchedTokens.length ∧
      policy.shouldReuse found.matchedLen = true ∧
      world.Live tenant found.matchedTokens found.blockId ∧
      world.segments.cached tenant found.blockId = some segment ∧
      ∀ tokens id, world.Live tenant tokens id → tokens <+: query →
        policy.shouldReuse tokens.length = true → tokens.length ≤ found.matchedLen
  | none => ∀ tokens id, world.Live tenant tokens id → tokens <+: query →
      policy.shouldReuse tokens.length = false

/-- The tree of a tenant has the live sequences.  Where it has others, their segments are not cached,
and they continue no live one. -/
structure TreeAgrees (world : TokenWorld) (tenant : TenantId) : Prop where
  live : ∀ tokens id, world.Live tenant tokens id →
    (world.trees tenant).children.get tokens = some id
  stale : ∀ tokens id, (world.trees tenant).children.get tokens = some id →
    ¬ world.Live tenant tokens id → world.segments.cached tenant id = none ∧
      ∀ start other, start <+: tokens → ¬ world.Live tenant start other

structure Invariant (world : TokenWorld) : Prop where
  wellFormed : ∀ tenant, (world.trees tenant).children.WellFormed
  nonempty : ∀ tenant, world.registered tenant [] = none

variable {capacity} {world : TokenWorld} {tenant : TenantId} {query : List Token}
  {policy : KvReusePolicy}

theorem Invariant.withSegments (invariant : world.Invariant) (segments : SegmentWorld) :
    (world.withSegments segments).Invariant where
  wellFormed tenant := by
    rw [TokenWorld.withSegments]
    dsimp only
    split_ifs
    · exact invariant.wellFormed tenant
    · trivial
  nonempty tenant := by
    rw [TokenWorld.withSegments]
    dsimp only
    rw [invariant.nonempty tenant, map_none]

theorem Invariant.callSegments (invariant : world.Invariant) (event : SegmentEvent) :
    (world.callSegments capacity event).Invariant := by
  rw [TokenWorld.callSegments]
  split
  · exact invariant.withSegments _
  · exact invariant

theorem Invariant.insertTokenSequence (invariant : world.Invariant) (tenant : TenantId)
    (tokens : List Token) (blockId : Nat) :
    (world.insertTokenSequence capacity tenant tokens blockId).Invariant := by
  rw [TokenWorld.insertTokenSequence, PrefixRadixTree.insert]
  by_cases isEmpty : tokens = []
  · rw [if_pos isEmpty]
    exact ⟨invariant.wellFormed, invariant.nonempty⟩
  · rw [if_neg isEmpty]
    dsimp only
    refine ⟨fun other => ?_, fun other => ?_⟩
    · dsimp only
      by_cases same : other = tenant
      · subst same
        rw [update_self]
        exact (invariant.wellFormed other).insertIntoVec isEmpty
      · rw [update_of_ne same]
        exact invariant.wellFormed other
    · dsimp only
      by_cases same : other = tenant
      · subst same
        rw [update_self, update_of_ne (Ne.symm isEmpty)]
        exact invariant.nonempty other
      · rw [update_of_ne same]
        exact invariant.nonempty other

theorem Invariant.next (invariant : world.Invariant) (event : TokenEvent) :
    (world.next capacity event).Invariant := by
  cases event with
  | segments event => exact invariant.callSegments event
  | insertTokenSequence tenant tokens blockId => exact invariant.insertTokenSequence tenant tokens blockId
  | findPrefixMatch tenant tokens policy =>
    rw [TokenWorld.next]
    split
    · exact invariant.callSegments _
    · exact invariant

theorem Invariant.foldl (invariant : world.Invariant) (events : List TokenEvent) :
    (events.foldl (TokenWorld.next capacity) world).Invariant := by
  induction events generalizing world with
  | nil => exact invariant
  | cons event rest ih => exact ih (invariant.next event)

theorem findPrefixMatch_eq (found : (world.trees tenant).findLongestPrefix query policy = some hit) :
    world.findPrefixMatch tenant query policy =
      (world.segments.cached tenant hit.blockId).map fun segment => (hit, segment) := by
  rw [findPrefixMatch, SegmentWorld.cached]
  cases world.segments.tenants tenant with
  | none => rfl
  | some state =>
    rw [bind_some, found, bind_some, bind_some, TenantState.get, LruCache.get]
    cases state.cache.entries.lookup hit.blockId <;> rfl

theorem findPrefixMatch_eq_none
    (notFound : (world.trees tenant).findLongestPrefix query policy = none) :
    world.findPrefixMatch tenant query policy = none := by
  rw [findPrefixMatch, notFound]
  cases world.segments.tenants tenant <;> rfl

theorem Invariant.findLongestPrefix_self (invariant : world.Invariant) {tokens : List Token}
    {id : Nat} (isStored : (world.trees tenant).children.get tokens = some id) :
    (world.trees tenant).findLongestPrefix tokens .always = some ⟨tokens, tokens.length, id⟩ := by
  have wellFormed := invariant.wellFormed tenant
  have hasTokens : tokens ≠ [] := by
    rintro rfl
    rw [PrefixRadixTree.get_empty wellFormed] at isStored
    cases isStored
  cases isFound : (world.trees tenant).findLongestPrefix tokens .always with
  | none =>
    have refused := RadixNodes.findLongestPrefix_eq_none wellFormed isFound hasTokens
      (prefix_refl tokens) (by rw [isStored]; rfl)
    exact absurd (length_pos_of_ne_nil hasTokens) (of_decide_eq_false refused)
  | some found =>
    obtain ⟨isPrefix, isLength, -, isBlock, longest⟩ :=
      RadixNodes.findLongestPrefix_eq_some wellFormed isFound
    have whole : found.matchedTokens = tokens := by
      apply isPrefix.eq_of_length_le
      by_contra shorter
      rw [longest tokens (prefix_refl tokens) (by omega)] at isStored
      cases isStored
    rw [whole, isStored] at isBlock
    obtain ⟨matchedTokens, matchedLen, blockId⟩ := found
    obtain rfl : tokens = matchedTokens := whole.symm
    obtain rfl : matchedLen = tokens.length := isLength
    obtain rfl : id = blockId := some.inj isBlock
    rfl

theorem Invariant.live_nonempty (invariant : world.Invariant) {tokens : List Token} {id : Nat}
    (live : world.Live tenant tokens id) : tokens ≠ [] := by
  rintro rfl
  rw [Live, invariant.nonempty] at live
  cases live.1

theorem TreeAgrees.right (agrees : world.TreeAgrees tenant) (invariant : world.Invariant)
    (query : List Token) (policy : KvReusePolicy) :
    world.Right tenant query policy (world.findPrefixMatch tenant query policy) := by
  have wellFormed := invariant.wellFormed tenant
  cases isFound : (world.trees tenant).findLongestPrefix query policy with
  | none =>
    rw [findPrefixMatch_eq_none isFound]
    intro tokens id live isPrefix
    exact RadixNodes.findLongestPrefix_eq_none wellFormed isFound (invariant.live_nonempty live)
      isPrefix (by rw [agrees.live tokens id live]; rfl)
  | some found =>
    obtain ⟨isPrefix, isLength, reuse, isBlock, longest⟩ :=
      RadixNodes.findLongestPrefix_eq_some wellFormed isFound
    have bounded : ∀ tokens id, world.Live tenant tokens id → tokens <+: query →
        tokens.length ≤ found.matchedLen := by
      intro tokens id live startsQuery
      by_contra longer
      have none := longest tokens startsQuery (not_le.mp longer)
      rw [agrees.live tokens id live] at none
      cases none
    rw [findPrefixMatch_eq isFound]
    by_cases isLive : world.Live tenant found.matchedTokens found.blockId
    · obtain ⟨segment, isCached⟩ := isSome_iff_exists.mp isLive.2
      rw [isCached]
      exact ⟨isPrefix, isLength, reuse, isLive, isCached,
        fun tokens id live startsQuery _ => bounded tokens id live startsQuery⟩
    · obtain ⟨notCached, continuesNone⟩ := agrees.stale _ _ isBlock isLive
      rw [notCached]
      intro tokens id live startsQuery
      refine absurd live (continuesNone tokens id ?_)
      exact prefix_of_prefix_length_le startsQuery isPrefix
        (isLength ▸ bounded tokens id live startsQuery)

theorem Invariant.treeAgrees (invariant : world.Invariant) (right : ∀ query policy,
    world.Right tenant query policy (world.findPrefixMatch tenant query policy)) :
    world.TreeAgrees tenant where
  live tokens id live := by
    have hasTokens := length_pos_of_ne_nil (invariant.live_nonempty live)
    have isRight := right tokens .always
    cases isFound : (world.trees tenant).findLongestPrefix tokens .always with
    | none =>
      rw [findPrefixMatch_eq_none isFound] at isRight
      exact absurd hasTokens (of_decide_eq_false (isRight tokens id live (prefix_refl _)))
    | some found =>
      obtain ⟨isPrefix, isLength, -, isBlock, -⟩ :=
        RadixNodes.findLongestPrefix_eq_some (invariant.wellFormed tenant) isFound
      rw [findPrefixMatch_eq isFound] at isRight
      cases isCached : world.segments.cached tenant found.blockId with
      | none =>
        rw [isCached] at isRight
        exact absurd hasTokens (of_decide_eq_false (isRight tokens id live (prefix_refl _)))
      | some segment =>
        rw [isCached] at isRight
        obtain ⟨-, -, -, isLive, -, longest⟩ := isRight
        have whole : found.matchedTokens = tokens :=
          isPrefix.eq_of_length_le (isLength ▸ longest tokens id live (prefix_refl _)
            (decide_eq_true hasTokens))
        rw [whole] at isBlock isLive
        have same : id = found.blockId :=
          congrArg Registration.blockId (some.inj (live.1.symm.trans isLive.1))
        rw [isBlock, same]
  stale tokens id isStored notLive := by
    have isRight := right tokens .always
    rw [findPrefixMatch_eq (invariant.findLongestPrefix_self isStored)] at isRight
    cases isCached : world.segments.cached tenant id with
    | some segment =>
      rw [isCached] at isRight
      exact absurd isRight.2.2.2.1 notLive
    | none =>
      rw [isCached] at isRight
      refine ⟨rfl, fun start other isStart live => ?_⟩
      exact absurd (length_pos_of_ne_nil (invariant.live_nonempty live))
        (of_decide_eq_false (isRight start other live isStart))

theorem new_invariant : Invariant new := ⟨fun _ => trivial, fun _ => rfl⟩

/-- After any calls, the searches of a tenant are right exactly while no sequence of a segment that
is gone or changed is in the way, and no live sequence was dropped. -/
theorem findPrefixMatch_right_iff (capacity : Nat) (events : List TokenEvent) (tenant : TenantId) :
    let world := events.foldl (next capacity) new
    (∀ query policy, world.Right tenant query policy
      (world.findPrefixMatch tenant query policy)) ↔ world.TreeAgrees tenant := by
  have invariant : (events.foldl (next capacity) new).Invariant := new_invariant.foldl events
  exact ⟨invariant.treeAgrees, fun agrees => agrees.right invariant⟩

/-- The segments of `[1]` and `[1, 2]` are inserted, and the longer one is removed. -/
def removedLonger : TokenWorld :=
  [.segments (.insert 1 (SegmentWorld.oneByte 1) .auto .lru),
    .segments (.insert 1 (SegmentWorld.oneByte 2) .auto .lru), .insertTokenSequence 1 [1] 1,
    .insertTokenSequence 1 [1, 2] 2,
    .segments (.remove 1 [2])].foldl (next 2) new

/-- Its sequence hides the shorter one. -/
theorem removedLonger_not_right : ¬ removedLonger.Right 1 [1, 2] .always
    (removedLonger.findPrefixMatch 1 [1, 2] .always) := by
  have notFound : removedLonger.findPrefixMatch 1 [1, 2] .always = none := rfl
  have live : removedLonger.Live 1 [1] 1 := ⟨by decide +kernel, by decide +kernel⟩
  rw [notFound]
  intro right
  exact absurd (right [1] 1 live (by decide)) (by decide)

end TokenWorld

end Contextra.KvCache
