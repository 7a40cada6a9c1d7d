import Contextra.KvCache.PrefixCalls
import Contextra.Library.Run

/-!
# The prefix store over all calls

Beside the store a world records what was last inserted at each place and when each place was last
used.
-/

namespace Contextra.KvCache

open Library List Option Function

structure PrefixWorld (κ : Type) [DecidableEq κ] where
  store : PrefixStore κ
  inserted : Place κ → List KvBlock
  lastUsed : Place κ → Nat
  uses : Nat

inductive PrefixEvent (κ : Type) where
  | lookup (tenant : TenantId) (key : κ) (tokens : List Token)
  | insert (tenant : TenantId) (key : κ) (tokens : List Token) (blocks : List KvBlock)
  | evict (tenant : TenantId) (key : κ)
  | invalidate (tenant : TenantId) (start : List Token) (keys : List κ)

def PrefixEvent.concerns {κ : Type} : PrefixEvent κ → Place κ → Prop
  | lookup tenant key _, place | insert tenant key _ _, place | evict tenant key, place =>
    place.1 = tenant ∧ place.2.1 = key
  | invalidate tenant _ keys, place => place.1 = tenant ∧ (keys = [] ∨ place.2.1 ∈ keys)

def PrefixEvent.tenant {κ : Type} : PrefixEvent κ → TenantId
  | lookup tenant _ _ | insert tenant _ _ _ | evict tenant _ | invalidate tenant _ _ => tenant

namespace PrefixWorld

variable {κ : Type} [DecidableEq κ]

def new (budget : Nat) (policy : KvReusePolicy) : PrefixWorld κ :=
  ⟨.new budget policy, fun _ => [], fun _ => 0, 1⟩

def use (world : PrefixWorld κ) (place : Place κ) : PrefixWorld κ :=
  { world with
    lastUsed := Function.update world.lastUsed place world.uses
    uses := world.uses + 1 }

def next (world : PrefixWorld κ) : PrefixEvent κ → PrefixWorld κ
  | .lookup tenant key tokens =>
    match world.store.lookup tenant key tokens with
    | (some hit, store) =>
      { world.use (tenant, key, tokens.take hit.matchedTokens) with store }
    | (none, store) => { world with store }
  | .insert tenant key tokens blocks =>
    match world.store.insert tenant key tokens blocks with
    | .ok store =>
      { world.use (tenant, key, tokens) with
        store
        inserted := Function.update world.inserted (tenant, key, tokens) blocks }
    | .error _ => world
  | .evict tenant key => { world with store := (world.store.evict tenant key).2 }
  | .invalidate tenant start keys =>
    { world with store := (world.store.invalidatePrefixScopeKeys tenant start keys).2 }

def step (world : PrefixWorld κ) (event : PrefixEvent κ) : Option (PrefixWorld κ) :=
  some (world.next event)

def contents (world : PrefixWorld κ) : Contents κ := world.store.contents

structure Sound (world : PrefixWorld κ) : Prop where
  /-- Trees and groups correspond, and the byte total of a partition is that of its groups. -/
  partitions : ∀ key partition, world.store.partitions.lookup key = some partition →
    partition.Sound world.store.nextGroupId
  tenantBytes : ∀ tenant, world.store.partitions.tenantBytes tenant =
    ((world.store.partitions.groupsOf tenant).map fun group => bytesOf group.2.2.blocks).sum
  totalBytes : sumOf (fun _ partition => partition.totalBytes) world.store.partitions =
    sumOf (fun _ partition => sumOf (fun _ group => bytesOf group.blocks) partition.groups)
      world.store.partitions
  budget : ∀ tenant,
    world.store.partitions.tenantBytes tenant ≤ world.store.byteBudgetPerTenant
  blocks : ∀ place group, world.contents place = some group → group.blocks = world.inserted place
  recency : ∀ place group, world.contents place = some group → group.tick = world.lastUsed place

def Obeys (world : PrefixWorld κ) : PrefixEvent κ → Prop
  | .lookup tenant key tokens =>
    match (world.store.lookup tenant key tokens).1 with
    | some hit =>
      ∃ start group, start ≠ [] ∧ start <+: tokens ∧ hit.matchedTokens = start.length ∧
        world.store.reusePolicy.shouldReuse start.length = true ∧
        world.contents (tenant, key, start) = some group ∧
        hit.blocks = world.inserted (tenant, key, start) ∧
        (∀ longer, longer <+: tokens → start.length < longer.length →
          world.contents (tenant, key, longer) = none) ∧
        (world.next (.lookup tenant key tokens)).contents =
          Function.update world.contents (tenant, key, start)
            (some { group with tick := world.uses })
    | none =>
      (∀ start, start <+: tokens → world.contents (tenant, key, start) ≠ none →
        world.store.reusePolicy.shouldReuse start.length = false) ∧
      (world.next (.lookup tenant key tokens)).contents = world.contents
  | .insert tenant key tokens blocks =>
    match world.store.insert tenant key tokens blocks with
    | .ok _ =>
      Relation.ReflTransGen (Evicts tenant)
        (Function.update world.contents (tenant, key, tokens)
          (some ⟨tokens, blocks, bytesOf blocks, world.uses⟩))
        (world.next (.insert tenant key tokens blocks)).contents ∧
      (world.next (.insert tenant key tokens blocks)).contents (tenant, key, tokens) =
        some ⟨tokens, blocks, bytesOf blocks, world.uses⟩
    | .error _ => (world.next (.insert tenant key tokens blocks)).contents = world.contents
  | .evict tenant key =>
    ∀ place, (world.next (.evict tenant key)).contents place =
      if place.1 = tenant ∧ place.2.1 = key then none else world.contents place
  | .invalidate tenant start keys =>
    ∀ place, (world.next (.invalidate tenant start keys)).contents place =
      if start ≠ [] ∧ place.1 = tenant ∧ (keys = [] ∨ place.2.1 ∈ keys) ∧ start <+: place.2.2
      then none else world.contents place

/-- A call leaves the groups of other tenants alone.  Of its tenant, groups of other keys leave
where an insertion needs room. -/
def Isolates (world : PrefixWorld κ) (event : PrefixEvent κ) : Prop :=
  ∀ place, ¬ event.concerns place →
    (world.next event).contents place = world.contents place ∨
      (place.1 = event.tenant ∧ (world.next event).contents place = none ∧
        ∃ tenant key tokens blocks, event = .insert tenant key tokens blocks)

structure Invariant (world : PrefixWorld κ) : Prop where
  store : world.store.Sound
  nextTick : world.store.nextTick = world.uses
  blocks : ∀ place group, world.contents place = some group → group.blocks = world.inserted place
  recency : ∀ place group, world.contents place = some group → group.tick = world.lastUsed place

theorem new_invariant (budget : Nat) (policy : KvReusePolicy) :
    (new budget policy : PrefixWorld κ).Invariant where
  store := PrefixStore.new_sound budget policy
  nextTick := rfl
  blocks := fun place group impossible => by cases impossible
  recency := fun place group impossible => by cases impossible

variable {world : PrefixWorld κ}

omit [DecidableEq κ] in
theorem sum_groups (tenant : TenantId) (entries : List (Sigma fun _ : TenantId × κ => Partition))
    (each : ∀ entry ∈ entries,
      entry.2.totalBytes = sumOf (fun _ group => bytesOf group.blocks) entry.2.groups) :
    (entries.map fun entry => if entry.1.1 = tenant then entry.2.totalBytes else 0).sum =
      (((entries.filter fun entry => entry.1.1 = tenant).flatMap fun entry =>
        entry.2.groups.entries.map fun group => (entry.1.2, group.1, group.2)).map
          fun group => bytesOf group.2.2.blocks).sum := by
  induction entries with
  | nil => rfl
  | cons entry entries ih =>
    have rest := ih fun other isOther =>
      each other (mem_cons_of_mem _ isOther)
    rw [map_cons, sum_cons, rest, filter_cons]
    by_cases isTenant : entry.1.1 = tenant
    · rw [if_pos isTenant, if_pos (decide_eq_true isTenant), flatMap_cons, map_append,
        sum_append, List.map_map, each entry mem_cons_self]
      rfl
    · rw [if_neg isTenant, if_neg (mt of_decide_eq_true isTenant), Nat.zero_add]

theorem Invariant.sound (invariant : world.Invariant) : world.Sound := by
  have counted : ∀ key partition, world.store.partitions.lookup key = some partition →
      partition.totalBytes = sumOf (fun _ group => bytesOf group.blocks) partition.groups := by
    intro key partition present
    have partitionSound := invariant.store.partitions.each key partition present
    rw [partitionSound.totalBytes]
    apply sumOf_congr
    intro groupId group isEntry
    exact (partitionSound.groups groupId group isEntry).2.1
  refine ⟨invariant.store.partitions.each, fun tenant => ?_, sumOf_congr counted,
    invariant.store.budget, invariant.blocks, invariant.recency⟩
  apply sum_groups
  intro entry isEntry
  exact counted entry.1 entry.2 (AList.mem_lookup_iff.mpr isEntry)

theorem Invariant.of_shrinks (invariant : world.Invariant) {partitions : Partitions κ}
    {leaves : Place κ → Prop} [DecidablePred leaves]
    (shrinks : Partitions.Shrinks world.store.partitions partitions world.store.nextTick
      world.store.nextGroupId leaves) :
    Invariant { world with store := { world.store with partitions } } := by
  have subset : ∀ place group, partitions.stored place = some group →
      world.contents place = some group := by
    intro place group present
    rw [shrinks.stored] at present
    split at present
    · cases present
    · exact present
  exact {
    store := invariant.store.of_shrinks shrinks
    nextTick := invariant.nextTick
    blocks := fun place group present => invariant.blocks place group (subset place group present)
    recency := fun place group present =>
      invariant.recency place group (subset place group present) }

theorem step_lookup (invariant : world.Invariant) (tenant : TenantId) (key : κ)
    (tokens : List Token) :
    (world.next (.lookup tenant key tokens)).Invariant ∧
      world.Obeys (.lookup tenant key tokens) := by
  cases called : world.store.lookup tenant key tokens with
  | mk hit store =>
    cases hit with
    | none =>
      obtain ⟨rfl, tooShort⟩ := PrefixStore.lookup_none invariant.store called
      have isNext : world.next (.lookup tenant key tokens) = world := by
        simp only [next, called]
      simp only [Obeys, called, isNext]
      exact ⟨invariant, tooShort, trivial⟩
    | some hit =>
      obtain ⟨start, group, hasStart, isPrefix, matched, reuse, isStored, blocks, longest,
        sound, ticks, -, isContents⟩ := PrefixStore.lookup_some invariant.store called
      rw [invariant.nextTick] at isContents
      have isStart : tokens.take hit.matchedTokens = start := by
        rw [matched]
        exact (prefix_iff_eq_take.mp isPrefix).symm
      have isNext : world.next (.lookup tenant key tokens) =
          { world.use (tenant, key, start) with store } := by
        simp only [next, called, isStart]
      simp only [Obeys, called, isNext]
      refine ⟨⟨sound, ticks.trans (congrArg (· + 1) invariant.nextTick), ?_, ?_⟩, start, group,
        hasStart, isPrefix, matched, reuse, isStored, ?_, longest, isContents⟩
      · intro place found present
        change store.contents place = some found at present
        rw [isContents] at present
        by_cases isPlace : place = (tenant, key, start)
        · rw [isPlace, update_self] at present
          obtain rfl := some.inj present
          rw [isPlace]
          exact invariant.blocks _ group isStored
        · rw [update_of_ne isPlace] at present
          exact invariant.blocks place found present
      · intro place found present
        change store.contents place = some found at present
        rw [isContents] at present
        dsimp only [use]
        by_cases isPlace : place = (tenant, key, start)
        · rw [isPlace, update_self] at present
          obtain rfl := some.inj present
          rw [isPlace, update_self]
        · rw [update_of_ne isPlace] at present
          rw [update_of_ne isPlace]
          exact invariant.recency place found present
      · exact blocks.trans (invariant.blocks _ group isStored)

theorem step_insert (invariant : world.Invariant) (tenant : TenantId) (key : κ)
    (tokens : List Token) (blocks : List KvBlock) :
    (world.next (.insert tenant key tokens blocks)).Invariant ∧
      world.Obeys (.insert tenant key tokens blocks) := by
  cases called : world.store.insert tenant key tokens blocks with
  | error error =>
    have isNext : world.next (.insert tenant key tokens blocks) = world := by
      simp only [next, called]
    simp only [Obeys, called, isNext]
    exact ⟨invariant, trivial⟩
  | ok store =>
    have isNext : world.next (.insert tenant key tokens blocks) =
        { world.use (tenant, key, tokens) with
          store
          inserted := Function.update world.inserted (tenant, key, tokens) blocks } := by
      simp only [next, called]
    simp only [Obeys, called, isNext]
    obtain ⟨-, sound, ticks, -, -, evicted, isNew⟩ := PrefixStore.insert_ok invariant.store called
    rw [invariant.nextTick] at evicted isNew
    have others : ∀ place group, place ≠ (tenant, key, tokens) →
        store.contents place = some group → world.contents place = some group := by
      intro place group different present
      rcases evictions_spec evicted place with same | ⟨-, empty⟩
      · rw [update_of_ne different] at same
        exact same.symm.trans present
      · rw [empty] at present
        cases present
    refine ⟨⟨sound, ticks.trans (congrArg (· + 1) invariant.nextTick), ?_, ?_⟩, evicted, isNew⟩
    · intro place group present
      dsimp only [use]
      by_cases isPlace : place = (tenant, key, tokens)
      · rw [isPlace, update_self]
        rw [isPlace] at present
        obtain rfl := some.inj (isNew.symm.trans present)
        rfl
      · rw [update_of_ne isPlace]
        exact invariant.blocks place group (others place group isPlace present)
    · intro place group present
      dsimp only [use]
      by_cases isPlace : place = (tenant, key, tokens)
      · rw [isPlace, update_self]
        rw [isPlace] at present
        obtain rfl := some.inj (isNew.symm.trans present)
        rfl
      · rw [update_of_ne isPlace]
        exact invariant.recency place group (others place group isPlace present)

theorem Invariant.step (invariant : world.Invariant) (event : PrefixEvent κ) :
    (world.next event).Invariant ∧ world.Obeys event := by
  cases event with
  | lookup tenant key tokens => exact step_lookup invariant tenant key tokens
  | insert tenant key tokens blocks => exact step_insert invariant tenant key tokens blocks
  | evict tenant key =>
    obtain ⟨partitions, isNext, shrinks⟩ :=
      PrefixStore.evict_spec invariant.store tenant key
    simp only [Obeys, next, isNext]
    refine ⟨invariant.of_shrinks shrinks, fun place => (shrinks.stored place).trans ?_⟩
    exact if_congr Prod.mk_inj rfl rfl
  | invalidate tenant start keys =>
    obtain ⟨partitions, isNext, shrinks⟩ :=
      PrefixStore.invalidatePrefixScopeKeys_spec invariant.store tenant start keys
    simp only [Obeys, next, isNext]
    exact ⟨invariant.of_shrinks shrinks, shrinks.stored⟩

theorem Obeys.isolates {event : PrefixEvent κ} (obeys : world.Obeys event) :
    world.Isolates event := by
  intro place notConcerned
  cases event with
  | lookup tenant key tokens =>
    left
    cases called : (world.store.lookup tenant key tokens).1 with
    | none =>
      simp only [Obeys, called] at obeys
      exact congrFun obeys.2 place
    | some hit =>
      simp only [Obeys, called] at obeys
      obtain ⟨start, group, -, -, -, -, -, -, -, isContents⟩ := obeys
      rw [isContents]
      apply update_of_ne
      rintro rfl
      exact notConcerned ⟨rfl, rfl⟩
  | insert tenant key tokens blocks =>
    cases called : world.store.insert tenant key tokens blocks with
    | error error =>
      simp only [Obeys, called] at obeys
      exact .inl (congrFun obeys place)
    | ok store =>
      simp only [Obeys, called] at obeys
      have different : place ≠ (tenant, key, tokens) := by
        rintro rfl
        exact notConcerned ⟨rfl, rfl⟩
      rcases evictions_spec obeys.1 place with same | ⟨isTenant, empty⟩
      · rw [update_of_ne different] at same
        exact .inl same
      · exact .inr ⟨isTenant, empty, tenant, key, tokens, blocks, rfl⟩
  | evict tenant key =>
    left
    rw [obeys place]
    exact if_neg notConcerned
  | invalidate tenant start keys =>
    left
    rw [obeys place]
    exact if_neg fun leaves => notConcerned ⟨leaves.2.1, leaves.2.2.1⟩

/-- In every reachable state the store is sound, and the next call does to the stored groups what is
described and leaves the others alone. -/
theorem prefixes_sound (budget : Nat) (policy : KvReusePolicy) {events : List (PrefixEvent κ)}
    {world : PrefixWorld κ} (reached : run step (new budget policy) events = some world) :
    world.Sound ∧ ∀ event, world.Obeys event ∧ world.Isolates event := by
  have preserved : ∀ (state : PrefixWorld κ) event next, state.Invariant →
      step state event = some next → next.Invariant := by
    intro state event next invariant taken
    obtain rfl := some.inj taken
    exact (invariant.step event).1
  have invariant := run_preserves Invariant preserved (new_invariant budget policy) reached
  refine ⟨invariant.sound, fun event => ?_⟩
  have obeys := (invariant.step event).2
  exact ⟨obeys, obeys.isolates⟩

def oneByteBlock (id : Nat) : List KvBlock := [⟨id, [0]⟩]

/-- Two sequences in a budget of two bytes, a hit, and a third one. -/
theorem oneByteBlock_prefixes_sound :
    ∃ world, run step (new 2 .always : PrefixWorld Nat) [.insert 1 1 [7] (oneByteBlock 1),
        .insert 1 1 [7, 8] (oneByteBlock 2), .lookup 1 1 [7, 9],
        .insert 1 2 [7] (oneByteBlock 3)] = some world ∧
      world.Sound ∧ ∀ event, world.Obeys event ∧ world.Isolates event := by
  have reached : run step (new 2 .always : PrefixWorld Nat) [.insert 1 1 [7] (oneByteBlock 1),
      .insert 1 1 [7, 8] (oneByteBlock 2), .lookup 1 1 [7, 9],
      .insert 1 2 [7] (oneByteBlock 3)] = some _ := rfl
  exact ⟨_, reached, prefixes_sound 2 .always reached⟩

/-- An insertion under one key evicts the group of another key of the tenant, and a stored sequence
of less than four tokens is not found by default. -/
theorem oneByteBlock_not_isolated :
    (∃ world, run step (new 1 .always : PrefixWorld Nat) [.insert 1 1 [7] (oneByteBlock 1)] =
          some world ∧
        ¬ ∀ (event : PrefixEvent Nat) (place : Place Nat), ¬ event.concerns place →
          (world.next event).contents place = world.contents place) ∧
      ∃ world, run step (new 268435456 (.costBased 4) : PrefixWorld Nat)
          [.insert 1 1 [7] (oneByteBlock 1)] = some world ∧
        ¬ ∀ (place : Place Nat) (group : BlockGroup), world.contents place = some group →
          ∃ hit, (world.store.lookup place.1 place.2.1 place.2.2).1 = some hit ∧
            hit.blocks = group.blocks := by
  constructor
  · refine ⟨_, rfl, fun isolated => ?_⟩
    have kept := isolated (.insert 1 2 [7] (oneByteBlock 2)) (1, 1, [7])
      fun concerns => absurd concerns.2 (by decide)
    exact absurd kept (by decide)
  · refine ⟨_, rfl, fun finds => ?_⟩
    obtain ⟨hit, isHit, -⟩ := finds (1, 1, [7]) ⟨[7], oneByteBlock 1, 1, 1⟩ rfl
    cases isHit

end PrefixWorld

end Contextra.KvCache
