import Contextra.KvCache.SegmentSound
import Contextra.Library.Run

/-!
# The segment store over all calls

A call works on the segments of one tenant under the lock of its shard.  A fair eviction takes one
segment after the other, each from one tenant.
-/

namespace Contextra.KvCache

open Library List Option

/-- An evicted segment, whether it was protected, and the id that was present already when its
insertion caused the eviction. -/
structure Eviction where
  tenant : TenantId
  id : Nat
  isProtected : Bool
  reinserted : Option Nat
  deriving DecidableEq

structure SegmentWorld where
  tenants : TenantId → Option TenantState
  refs : Refs
  now : Nat
  evictions : List Eviction
  lastInsert : Option TenantId

inductive SegmentEvent where
  | insert (tenant : TenantId) (segment : KvSegment) (directive : CacheDirective)
      (ranking : Ranking)
  | get (tenant : TenantId) (id : Nat)
  | acquireGuard (tenant : TenantId) (id : Nat)
  | dropGuard (counter : Nat)
  | releaseStep (tenant : TenantId) (stepId : Nat)
  | remove (tenant : TenantId) (ids : List Nat)
  | evict (tenant : TenantId) (ranking : Ranking)
  | wait (duration : Nat)

namespace SegmentWorld

def new : SegmentWorld := ⟨fun _ => none, fun _ => 0, 0, [], none⟩

def keep (state : TenantState) : Option TenantState :=
  if state.cache.len = 0 then none else some state

variable (capacity : Nat) (world : SegmentWorld)

def set (tenant : TenantId) (state : Option TenantState) : SegmentWorld :=
  { world with tenants := Function.update world.tenants tenant state, lastInsert := none }

def stateOf (tenant : TenantId) : TenantState :=
  (world.tenants tenant).getD (.new tenant capacity)

def record (tenant : TenantId) (state : TenantState) (reinserted : Option Nat) :
    Option KvSegment → List Eviction
  | some evicted =>
    [⟨tenant, evicted.segmentId,
      state.isProtected world.refs world.now evicted.segmentId evicted, reinserted⟩]
  | none => []

def insert (tenant : TenantId) (segment : KvSegment) (directive : CacheDirective)
    (ranking : Ranking) : SegmentWorld :=
  if directive = .neverCache then { world with lastInsert := some tenant }
  else
    let state := world.stateOf capacity tenant
    match state.insertReturningEvictedWithDirective world.refs world.now ranking segment
        directive with
    | .error _ => { world.set tenant (some state) with lastInsert := some tenant }
    | .ok (evicted, next) =>
      let reinserted :=
        (state.cache.entries.lookup segment.segmentId).map fun _ => segment.segmentId
      { world.set tenant (some next) with
        evictions := world.evictions ++ world.record tenant state reinserted evicted
        lastInsert := some tenant }

def step (world : SegmentWorld) : SegmentEvent → Option SegmentWorld
  | .insert tenant segment directive ranking =>
    some (world.insert capacity tenant segment directive ranking)
  | .get tenant id =>
    (world.tenants tenant).map fun state => world.set tenant (some (state.get id).2)
  | .acquireGuard tenant id =>
    (world.tenants tenant).bind fun state =>
      (state.get id).1.map fun segment =>
        { world.set tenant (some (state.get id).2) with
          refs := Function.update world.refs segment.activeRefs
            (world.refs segment.activeRefs + 1) }
  | .dropGuard counter =>
    if world.refs counter = 0 then none
    else some { world with
      refs := Function.update world.refs counter (world.refs counter - 1)
      lastInsert := none }
  | .releaseStep tenant stepId =>
    (world.tenants tenant).map fun state => world.set tenant (keep (state.releaseStep stepId))
  | .remove tenant ids =>
    (world.tenants tenant).map fun state => world.set tenant (keep (state.removeAll ids))
  | .evict tenant ranking =>
    (world.tenants tenant).map fun state =>
      let popped := state.popEvictionCandidate world.refs world.now ranking
      { world.set tenant (keep popped.2) with
        evictions := world.evictions ++ world.record tenant state none popped.1 }
  | .wait duration => some { world with now := world.now + duration, lastInsert := none }

/-- Counters are sums, what was evicted was not protected and made room for another segment, and
after an insertion no tenant without protected segments has too many. -/
structure Sound : Prop where
  states : ∀ tenant state, world.tenants tenant = some state → state.Sound
  evictions : ∀ eviction ∈ world.evictions, eviction.isProtected = false ∧
    ∀ id, eviction.reinserted = some id → eviction.id = id
  room : ∀ tenant state, world.lastInsert = some tenant → world.tenants tenant = some state →
    (∀ id segment, state.cache.entries.lookup id = some segment →
      state.isProtected world.refs world.now id segment = false) → state.cache.len ≤ capacity

/-- The cache has room, or a segment may be evicted: another one than the segments that are
present only where the new segment is not among them. -/
def InsertsInOrder (state : TenantState) (refs : Refs) (now : Nat) (segment : KvSegment) : Prop :=
  state.cache.len < state.cache.cap ∨
    (state.unrefIds refs now ≠ [] ∧
      ((state.cache.entries.lookup segment.segmentId).isSome →
        ∀ target ∈ state.unrefIds refs now, target = segment.segmentId))

def InOrder (world : SegmentWorld) : SegmentEvent → Prop
  | .insert tenant segment directive _ =>
    let state := world.stateOf capacity tenant
    directive ≠ .neverCache →
      (directive = .pin none →
        state.pinnedBytes + segment.len ≤ maxPinnedBytesPerTenant) →
      InsertsInOrder state world.refs world.now segment
  | _ => True

structure Invariant : Prop where
  states : ∀ tenant state, world.tenants tenant = some state →
    state.Sound ∧ state.cache.cap = capacity
  evictions : ∀ eviction ∈ world.evictions, eviction.isProtected = false ∧
    ∀ id, eviction.reinserted = some id → eviction.id = id

variable {capacity world} {next : SegmentWorld} {tenant : TenantId} {state : TenantState}

theorem Invariant.sound (invariant : Invariant capacity world) : world.Sound capacity where
  states := fun tenant state isState => (invariant.states tenant state isState).1
  evictions := invariant.evictions
  room := by
    intro tenant state _ isState _
    obtain ⟨sound, cap⟩ := invariant.states tenant state isState
    rw [← cap]
    exact sound.room

theorem Invariant.new : Invariant capacity new where
  states := nofun
  evictions := nofun

theorem Invariant.set (invariant : Invariant capacity world) {changed : Option TenantState}
    (sound : ∀ state, changed = some state → state.Sound ∧ state.cache.cap = capacity)
    {refs : Refs} {now : Nat} {evictions : List Eviction} {lastInsert : Option TenantId}
    (free : ∀ eviction ∈ evictions, eviction.isProtected = false ∧
      ∀ id, eviction.reinserted = some id → eviction.id = id) :
    Invariant capacity
      ⟨Function.update world.tenants tenant changed, refs, now, evictions, lastInsert⟩ where
  states := by
    intro other state isState
    dsimp only at isState
    by_cases same : other = tenant
    · rw [same, Function.update_self] at isState
      exact sound state isState
    · rw [Function.update_of_ne same] at isState
      exact invariant.states other state isState
  evictions := free

theorem Invariant.stateOf (invariant : Invariant capacity world) (tenant : TenantId) :
    (world.stateOf capacity tenant).Sound ∧
      (world.stateOf capacity tenant).cache.cap = capacity := by
  unfold SegmentWorld.stateOf
  cases present : world.tenants tenant with
  | some state => exact invariant.states tenant state present
  | none => exact ⟨TenantState.new_sound, rfl⟩

theorem keep_eq_some {kept : TenantState} (isKept : keep state = some kept) : kept = state := by
  unfold keep at isKept
  split at isKept
  · cases isKept
  · exact (some.inj isKept).symm

theorem remove_cap (id : Nat) : (state.remove id).2.cache.cap = state.cache.cap := by
  rw [TenantState.remove_eq]
  split
  · rfl
  · rfl

theorem removeAll_cap (ids : List Nat) : (state.removeAll ids).cache.cap = state.cache.cap := by
  induction ids generalizing state with
  | nil => rfl
  | cons id ids ih => exact ih.trans (remove_cap id)

theorem get_cap (id : Nat) : (state.get id).2.cache.cap = state.cache.cap := by
  unfold TenantState.get LruCache.get
  cases state.cache.entries.lookup id with
  | some segment => rfl
  | none => rfl

theorem record_free {target : Nat} {reinserted : Option Nat}
    (sound : state.Sound) {segment : KvSegment}
    (free : target ∈ state.unrefIds world.refs world.now)
    (present : state.cache.entries.lookup target = some segment)
    (own : ∀ id, reinserted = some id → target = id) :
    ∀ eviction ∈ world.record tenant state reinserted (some segment),
      eviction.isProtected = false ∧ ∀ id, eviction.reinserted = some id → eviction.id = id := by
  intro eviction mem
  rw [mem_singleton.mp mem]
  have isKey := sound.keyed target segment present
  obtain ⟨other, alsoPresent, isFree⟩ := TenantState.mem_unrefIds.mp free
  rw [present] at alsoPresent
  obtain rfl := some.inj alsoPresent
  dsimp only
  rw [isKey]
  exact ⟨isFree, own⟩

theorem Invariant.append (invariant : Invariant capacity world) {more : List Eviction}
    (free : ∀ eviction ∈ more, eviction.isProtected = false ∧
      ∀ id, eviction.reinserted = some id → eviction.id = id) :
    ∀ eviction ∈ world.evictions ++ more, eviction.isProtected = false ∧
      ∀ id, eviction.reinserted = some id → eviction.id = id := by
  intro eviction mem
  rcases mem_append.mp mem with old | new
  · exact invariant.evictions eviction old
  · exact free eviction new

theorem Invariant.insert {segment : KvSegment} {directive : CacheDirective} {ranking : Ranking}
    (invariant : Invariant capacity world)
    (inOrder : world.InOrder capacity (.insert tenant segment directive ranking)) :
    Invariant capacity (world.insert capacity tenant segment directive ranking) := by
  obtain ⟨sound, cap⟩ := invariant.stateOf tenant
  unfold SegmentWorld.insert
  split
  · exact ⟨invariant.states, invariant.evictions⟩
  · rename_i cached
    dsimp only [InOrder] at inOrder
    generalize world.stateOf capacity tenant = state at *
    dsimp only
    split
    · apply invariant.set _ invariant.evictions
      intro kept isKept
      rw [← some.inj isKept]
      exact ⟨sound, cap⟩
    · rename_i evicted next inserted
      have nextSound := sound.insert inserted
      obtain ⟨withinBudget, rfl, rfl⟩ := TenantState.insert_eq_ok inserted
      have ordered := inOrder cached withinBudget
      obtain ⟨-, room, -⟩ := sound.makeRoom world.refs world.now ranking
      suffices both : (state.makeRoom world.refs world.now ranking).2.cache.cap = capacity ∧
          ∀ eviction ∈ world.record tenant state
            ((state.cache.entries.lookup segment.segmentId).map fun _ => segment.segmentId)
            (state.makeRoom world.refs world.now ranking).1,
          eviction.isProtected = false ∧ ∀ id, eviction.reinserted = some id → eviction.id = id by
        apply invariant.set _ (invariant.append both.2)
        intro kept isKept
        rw [← some.inj isKept]
        exact ⟨nextSound, (TenantState.pushSegment_cap room).trans both.1⟩
      rcases TenantState.makeRoom_eq sound world.refs world.now ranking with
        ⟨unchanged, -⟩ | ⟨-, isFull, allProtected⟩ |
        ⟨target, free, evicted, present, evicts, isFull⟩
      · rw [unchanged]
        exact ⟨cap, nofun⟩
      · rcases ordered with below | ⟨some, -⟩
        · exact absurd isFull (Nat.not_le_of_lt below)
        · exact absurd allProtected some
      · rw [evicts]
        refine ⟨cap, record_free sound free present ?_⟩
        intro id isReinserted
        obtain ⟨old, isPresent, rfl⟩ := map_eq_some_iff.mp isReinserted
        rcases ordered with below | ⟨-, onlyItself⟩
        · exact absurd isFull (Nat.not_le_of_lt below)
        · exact onlyItself (by rw [isPresent]; rfl) target free

theorem Invariant.step {event : SegmentEvent} (invariant : Invariant capacity world)
    (inOrder : world.InOrder capacity event) (taken : step capacity world event = some next) :
    Invariant capacity next := by
  cases event with
  | insert tenant segment directive ranking =>
    cases taken
    exact invariant.insert inOrder
  | get tenant id =>
    obtain ⟨state, isState, rfl⟩ := map_eq_some_iff.mp taken
    obtain ⟨sound, cap⟩ := invariant.states tenant state isState
    apply invariant.set _ invariant.evictions
    intro changed isChanged
    rw [← some.inj isChanged]
    exact ⟨sound.get id, (get_cap id).trans cap⟩
  | acquireGuard tenant id =>
    obtain ⟨state, isState, found⟩ := bind_eq_some_iff.mp taken
    obtain ⟨segment, -, rfl⟩ := map_eq_some_iff.mp found
    obtain ⟨sound, cap⟩ := invariant.states tenant state isState
    apply invariant.set _ invariant.evictions
    intro changed isChanged
    rw [← some.inj isChanged]
    exact ⟨sound.get id, (get_cap id).trans cap⟩
  | dropGuard counter =>
    dsimp only [SegmentWorld.step] at taken
    split at taken
    · cases taken
    · cases taken
      exact ⟨invariant.states, invariant.evictions⟩
  | releaseStep tenant stepId =>
    obtain ⟨state, isState, rfl⟩ := map_eq_some_iff.mp taken
    obtain ⟨sound, cap⟩ := invariant.states tenant state isState
    apply invariant.set _ invariant.evictions
    intro changed isChanged
    rw [keep_eq_some isChanged]
    exact ⟨sound.removeAll _, (removeAll_cap _).trans cap⟩
  | remove tenant ids =>
    obtain ⟨state, isState, rfl⟩ := map_eq_some_iff.mp taken
    obtain ⟨sound, cap⟩ := invariant.states tenant state isState
    apply invariant.set _ invariant.evictions
    intro changed isChanged
    rw [keep_eq_some isChanged]
    exact ⟨sound.removeAll ids, (removeAll_cap ids).trans cap⟩
  | evict tenant ranking =>
    obtain ⟨state, isState, rfl⟩ := map_eq_some_iff.mp taken
    obtain ⟨sound, cap⟩ := invariant.states tenant state isState
    rcases state.popEvictionCandidate_eq world.refs world.now ranking with
      ⟨unchanged, -⟩ | ⟨target, free, removed⟩
    · dsimp only
      rw [unchanged]
      apply invariant.set _
        (invariant.append fun _ mem => absurd mem not_mem_nil)
      intro changed isChanged
      rw [keep_eq_some isChanged]
      exact ⟨sound, cap⟩
    · obtain ⟨segment, present, -⟩ := TenantState.mem_unrefIds.mp free
      dsimp only
      rw [removed]
      apply invariant.set
      · intro changed isChanged
        rw [keep_eq_some isChanged]
        exact ⟨sound.remove target, (remove_cap target).trans cap⟩
      · apply invariant.append
        rw [TenantState.remove_eq, present]
        exact record_free sound free present nofun
  | wait duration =>
    cases taken
    exact ⟨invariant.states, invariant.evictions⟩

/-- In every run whose insertions find room in order, the counters are sums, no protected segment
and no other than a re-inserted one is evicted, and the capacity holds. -/
theorem accounting_sound {events : List SegmentEvent}
    (inOrder : Along (step capacity) (InOrder capacity) new events)
    (reached : run (step capacity) new events = some world) : world.Sound capacity := by
  have preserved : ∀ state event next, Invariant capacity state → InOrder capacity state event →
      step capacity state event = some next → Invariant capacity next :=
    fun _ _ _ invariant isInOrder taken => invariant.step isInOrder taken
  exact (run_invariant preserved .new inOrder reached).sound

def oneByte (id : Nat) : KvSegment := ⟨id, [0], id⟩

/-- Three segments in a cache of two, and one more insertion. -/
theorem oneByte_accounting_sound :
    ∃ world, run (step 2) new [.insert 1 (oneByte 1) .auto .lru, .get 1 1,
        .insert 1 (oneByte 2) (.pin none) .lru, .insert 1 (oneByte 3) .auto .lru] = some world ∧
      world.Sound 2 := by
  have reached : run (step 2) new [.insert 1 (oneByte 1) .auto .lru, .get 1 1,
      .insert 1 (oneByte 2) (.pin none) .lru, .insert 1 (oneByte 3) .auto .lru] = some _ := rfl
  refine ⟨_, reached, accounting_sound ?_ reached⟩
  refine ⟨fun _ _ => .inl (by decide), fun _ first => ⟨trivial, fun _ second => ?_⟩⟩
  cases first
  cases second
  refine ⟨fun _ _ => .inl (by decide), fun _ third => ?_⟩
  cases third
  refine ⟨fun _ _ => .inr ⟨by decide, by decide⟩, fun _ _ => trivial⟩

/-- A segment inserted again into a full cache evicts another; and a cache that has grown around a
pinned segment stays larger after the pin has expired. -/
theorem oneByte_not_sound :
    (∃ world, run (step 2) new [.insert 1 (oneByte 1) .auto .lru, .insert 1 (oneByte 2) .auto .lru,
        .insert 1 (oneByte 2) .auto .lru] = some world ∧ ¬ world.Sound 2) ∧
      ∃ world, run (step 1) new [.insert 1 (oneByte 1) (.pin (some 5)) .lru,
        .insert 1 (oneByte 2) .auto .lru, .wait 10, .insert 1 (oneByte 3) .auto .lru] =
          some world ∧ ¬ world.Sound 1 := by
  constructor
  · refine ⟨_, rfl, fun sound => ?_⟩
    have onlyItself := (sound.evictions ⟨1, 1, false, some 2⟩ (by decide)).2 2 rfl
    cases onlyItself
  · refine ⟨_, rfl, fun sound => ?_⟩
    refine absurd (sound.room 1 _ rfl rfl ?_) (by decide)
    intro id segment present
    rcases mem_cons.mp (AList.mem_lookup_iff.mp present) with isThird | later
    · cases isThird
      rfl
    · cases mem_singleton.mp later
      rfl

end SegmentWorld

end Contextra.KvCache
