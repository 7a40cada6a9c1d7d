import Contextra.KvCache.PrefixSound

/-!
# The calls of the prefix store as changes of one map

The groups of all tenants are a map from places: a tenant, a prefix key and a token sequence.  An
insertion sets one place and then empties places of its tenant, the least recently used first.
-/

namespace Contextra.KvCache

open Library List Option Function

abbrev Place (κ : Type) := TenantId × κ × List Token

abbrev Contents (κ : Type) := Place κ → Option BlockGroup

section Contents

variable {κ : Type} [DecidableEq κ]

/-- A place of the tenant that no other of its places is older than becomes empty. -/
def Evicts (tenant : TenantId) (contents next : Contents κ) : Prop :=
  ∃ place group, place.1 = tenant ∧ contents place = some group ∧
    (∀ other otherGroup, other.1 = tenant → contents other = some otherGroup →
      group.tick ≤ otherGroup.tick) ∧
    next = Function.update contents place none

theorem evictions_spec {tenant : TenantId} {contents next : Contents κ}
    (evicted : Relation.ReflTransGen (Evicts tenant) contents next) (place : Place κ) :
    next place = contents place ∨ (place.1 = tenant ∧ next place = none) := by
  induction evicted with
  | refl => exact .inl rfl
  | tail _ evicts ih =>
    obtain ⟨target, group, isTenant, -, -, rfl⟩ := evicts
    by_cases isTarget : place = target
    · subst isTarget
      exact .inr ⟨isTenant, update_self _ _ _⟩
    · rw [update_of_ne isTarget]
      exact ih

end Contents

namespace Partitions

variable {κ : Type} [DecidableEq κ] {partitions : Partitions κ} {key : TenantId × κ}
  {partition : Partition} {place : Place κ} {nextTick nextGroupId : Nat} {tenant : TenantId}

def stored (partitions : Partitions κ) (place : Place κ) : Option BlockGroup :=
  (partitions.lookup (place.1, place.2.1)).bind fun partition => partition.groupOf place.2.2

/-- Sound partitions, whose groups were used at different times. -/
structure Sound (partitions : Partitions κ) (nextTick nextGroupId : Nat) : Prop where
  each : ∀ key partition, partitions.lookup key = some partition → partition.Sound nextGroupId
  ticks : ∀ place group, partitions.stored place = some group → group.tick < nextTick
  distinct : ∀ place other group otherGroup, partitions.stored place = some group →
    partitions.stored other = some otherGroup → group.tick = otherGroup.tick → place = other

variable {group : BlockGroup}

theorem stored_eq_some (sound : partitions.Sound nextTick nextGroupId) :
    partitions.stored place = some group ↔
      ∃ partition groupId, partitions.lookup (place.1, place.2.1) = some partition ∧
        partition.groups.lookup groupId = some group ∧ group.tokens = place.2.2 := by
  constructor
  · intro isStored
    obtain ⟨partition, present, isGroup⟩ := bind_eq_some_iff.mp isStored
    obtain ⟨groupId, isEntry, ownTokens⟩ :=
      (Partition.groupOf_eq_some (sound.each _ _ present)).mp isGroup
    exact ⟨partition, groupId, present, isEntry, ownTokens⟩
  · rintro ⟨partition, groupId, present, isEntry, ownTokens⟩
    apply bind_eq_some_iff.mpr
    refine ⟨partition, present, ?_⟩
    exact (Partition.groupOf_eq_some (sound.each _ _ present)).mpr ⟨groupId, isEntry, ownTokens⟩

theorem stored_insert : stored (partitions.insert key partition) place =
    if (place.1, place.2.1) = key then partition.groupOf place.2.2
    else partitions.stored place := by
  unfold stored
  split
  · rename_i same
    rw [same, AList.lookup_insert]
    rfl
  · rename_i different
    rw [AList.lookup_insert_ne different]

theorem stored_erase : stored (partitions.erase key) place =
    if (place.1, place.2.1) = key then none else partitions.stored place := by
  unfold stored
  split
  · rename_i same
    rw [same, AList.lookup_erase]
    rfl
  · rename_i different
    rw [AList.lookup_erase_ne different]

theorem stored_keep (sound : partition.Sound nextGroupId) :
    stored (keep partitions key partition) place =
      if (place.1, place.2.1) = key then partition.groupOf place.2.2
      else partitions.stored place := by
  unfold keep
  split
  · rename_i isEmpty
    rw [stored_erase, (sound.of_empty isEmpty).2]
  · exact stored_insert

theorem each_insert (each : ∀ key partition, partitions.lookup key = some partition →
      partition.Sound nextGroupId) (sound : partition.Sound nextGroupId) :
    ∀ found changed, (partitions.insert key partition).lookup found = some changed →
      changed.Sound nextGroupId := by
  intro found changed present
  by_cases same : found = key
  · rw [same, AList.lookup_insert] at present
    cases present
    exact sound
  · rw [AList.lookup_insert_ne same] at present
    exact each found changed present

theorem each_erase (each : ∀ key partition, partitions.lookup key = some partition →
      partition.Sound nextGroupId) :
    ∀ found changed, (partitions.erase key).lookup found = some changed →
      changed.Sound nextGroupId := by
  intro found changed present
  by_cases same : found = key
  · rw [same, AList.lookup_erase] at present
    cases present
  · rw [AList.lookup_erase_ne same] at present
    exact each found changed present

theorem each_keep (each : ∀ key partition, partitions.lookup key = some partition →
      partition.Sound nextGroupId) (sound : partition.Sound nextGroupId) :
    ∀ found changed, (keep partitions key partition).lookup found = some changed →
      changed.Sound nextGroupId := by
  unfold keep
  split
  · exact each_erase each
  · exact each_insert each sound

theorem Sound.of_subset (sound : partitions.Sound nextTick nextGroupId) {next : Partitions κ}
    (each : ∀ key partition, next.lookup key = some partition → partition.Sound nextGroupId)
    (subset : ∀ place group, next.stored place = some group →
      partitions.stored place = some group) : next.Sound nextTick nextGroupId where
  each := each
  ticks := fun place group present => sound.ticks place group (subset place group present)
  distinct := fun place other group otherGroup present isOther =>
    sound.distinct place other group otherGroup (subset place group present)
      (subset other otherGroup isOther)

theorem Sound.of_newest (sound : partitions.Sound nextTick nextGroupId) {next : Partitions κ}
    {bound : Nat} (isNext : group.tick = nextTick)
    (each : ∀ key partition, next.lookup key = some partition → partition.Sound bound)
    (isStored : next.stored = Function.update partitions.stored place (some group)) :
    next.Sound (nextTick + 1) bound where
  each := each
  ticks := fun other otherGroup present => by
    rw [isStored] at present
    by_cases same : other = place
    · subst same
      rw [update_self] at present
      obtain rfl := some.inj present
      exact isNext ▸ Nat.lt_succ_self _
    · rw [update_of_ne same] at present
      exact (sound.ticks other otherGroup present).trans (Nat.lt_succ_self _)
  distinct := fun first second firstGroup secondGroup isFirst isSecond sameTick => by
    rw [isStored] at isFirst isSecond
    by_cases firstNew : first = place
    · by_cases secondNew : second = place
      · exact firstNew.trans secondNew.symm
      · rw [firstNew, update_self] at isFirst
        rw [update_of_ne secondNew] at isSecond
        obtain rfl := some.inj isFirst
        exact absurd (sameTick.symm.trans isNext) (sound.ticks _ _ isSecond).ne
    · by_cases secondNew : second = place
      · rw [secondNew, update_self] at isSecond
        rw [update_of_ne firstNew] at isFirst
        obtain rfl := some.inj isSecond
        exact absurd (sameTick.trans isNext) (sound.ticks _ _ isFirst).ne
      · rw [update_of_ne firstNew] at isFirst
        rw [update_of_ne secondNew] at isSecond
        exact sound.distinct _ _ _ _ isFirst isSecond sameTick

theorem tenantBytes_erase (partitions : Partitions κ) (key : TenantId × κ) (tenant : TenantId) :
    partitions.tenantBytes tenant = tenantBytes (partitions.erase key) tenant +
      weightAt (fun key partition => if key.1 = tenant then partition.totalBytes else 0)
        partitions key :=
  sumOf_erase partitions key

theorem tenantBytes_split (present : partitions.lookup key = some partition) :
    partitions.tenantBytes tenant = tenantBytes (partitions.erase key) tenant +
      if key.1 = tenant then partition.totalBytes else 0 := by
  have split := tenantBytes_erase partitions key tenant
  rw [weightAt, present] at split
  exact split

theorem tenantBytes_insert : tenantBytes (partitions.insert key partition) tenant =
    tenantBytes (partitions.erase key) tenant +
      if key.1 = tenant then partition.totalBytes else 0 :=
  sumOf_insert

theorem tenantBytes_keep (sound : partition.Sound nextGroupId) :
    tenantBytes (keep partitions key partition) tenant =
      tenantBytes (partitions.erase key) tenant +
        if key.1 = tenant then partition.totalBytes else 0 := by
  unfold keep
  split
  · rename_i isEmpty
    rw [(sound.of_empty isEmpty).1, ite_self, Nat.add_zero]
  · exact tenantBytes_insert

theorem tenantBytes_erase_le : tenantBytes (partitions.erase key) tenant ≤
    partitions.tenantBytes tenant := by
  have split := tenantBytes_erase partitions key tenant
  apply le_of_le_of_eq _ split.symm
  exact Nat.le_add_right _ _

theorem groupCount_keep : PrefixStore.groupCount (keep partitions key partition) =
    PrefixStore.groupCount (partitions.erase key) + partition.groups.entries.length := by
  unfold keep
  split
  · rename_i isEmpty
    rw [isEmpty]
    rfl
  · exact sumOf_insert

theorem mem_groupsOf {entry : κ × Nat × BlockGroup} :
    entry ∈ partitions.groupsOf tenant ↔
      ∃ partition, partitions.lookup (tenant, entry.1) = some partition ∧
        partition.groups.lookup entry.2.1 = some entry.2.2 := by
  simp only [groupsOf, mem_flatMap, mem_filter, List.mem_map, decide_eq_true_eq]
  constructor
  · rintro ⟨⟨⟨owner, key⟩, partition⟩, ⟨isPartition, rfl⟩, ⟨groupId, group⟩, isGroup, rfl⟩
    exact ⟨partition, AList.mem_lookup_iff.mpr isPartition, AList.mem_lookup_iff.mpr isGroup⟩
  · rintro ⟨partition, isPartition, isGroup⟩
    exact ⟨⟨(tenant, entry.1), partition⟩, ⟨AList.mem_lookup_iff.mp isPartition, rfl⟩,
      ⟨entry.2.1, entry.2.2⟩, AList.mem_lookup_iff.mp isGroup, rfl⟩

omit [DecidableEq κ] in
theorem isOlder_tick {group other : κ × Nat × BlockGroup} :
    (isOlder group other = true → group.2.2.tick ≤ other.2.2.tick) ∧
      (isOlder group other = false → other.2.2.tick ≤ group.2.2.tick) := by
  unfold isOlder
  constructor
  · intro older
    simp only [Bool.or_eq_true, Bool.and_eq_true, decide_eq_true_eq] at older
    omega
  · intro notOlder
    simp only [Bool.or_eq_false_iff, decide_eq_false_iff_not] at notOlder
    exact Nat.le_of_not_lt notOlder.1

omit [DecidableEq κ] in
theorem oldestOf_spec {groups : List (κ × Nat × BlockGroup)} {oldest : κ × Nat × BlockGroup}
    (isOldest : oldestOf groups = some oldest) :
    oldest ∈ groups ∧ ∀ other ∈ groups, oldest.2.2.tick ≤ other.2.2.tick := by
  have search : ∀ (groups : List (κ × Nat × BlockGroup)) (best : κ × Nat × BlockGroup),
      let found := groups.foldl (fun best group => if isOlder group best then group else best) best
      (found = best ∨ found ∈ groups) ∧ found.2.2.tick ≤ best.2.2.tick ∧
        ∀ other ∈ groups, found.2.2.tick ≤ other.2.2.tick := by
    intro groups
    induction groups with
    | nil => exact fun best => ⟨.inl rfl, le_rfl, nofun⟩
    | cons group groups ih =>
      intro best
      rw [foldl_cons]
      cases older : isOlder group best with
      | true =>
        obtain ⟨isMember, le, least⟩ := ih group
        refine ⟨.inr ?_, le.trans (isOlder_tick.1 older), ?_⟩
        · rcases isMember with same | isLater
          · rw [if_pos rfl, same]
            exact mem_cons_self
          · exact mem_cons_of_mem _ isLater
        · intro other mem
          rcases mem_cons.mp mem with rfl | isLater
          · exact le
          · exact least other isLater
      | false =>
        obtain ⟨isMember, le, least⟩ := ih best
        refine ⟨isMember.imp_right (mem_cons_of_mem _), le, ?_⟩
        intro other mem
        rcases mem_cons.mp mem with rfl | isLater
        · exact le.trans (isOlder_tick.2 older)
        · exact least other isLater
  cases groups with
  | nil => cases isOldest
  | cons group groups =>
    obtain rfl := some.inj isOldest
    obtain ⟨isMember, le, least⟩ := search groups group
    constructor
    · rcases isMember with same | isLater
      · rw [same]
        exact mem_cons_self
      · exact mem_cons_of_mem _ isLater
    · intro other mem
      rcases mem_cons.mp mem with rfl | isLater
      · exact le
      · exact least other isLater

theorem evictOne_spec (sound : partitions.Sound nextTick nextGroupId) {scope : κ} {groupId : Nat}
    (isGroup : (scope, groupId, group) ∈ partitions.groupsOf tenant) :
    let next := partitions.evictOne tenant scope groupId
    next.Sound nextTick nextGroupId ∧
      next.stored = Function.update partitions.stored (tenant, scope, group.tokens) none ∧
      (∀ other, partitions.tenantBytes other =
        next.tenantBytes other + if tenant = other then group.bytes else 0) ∧
      PrefixStore.groupCount partitions = PrefixStore.groupCount next + 1 := by
  obtain ⟨partition, isPartition, isEntry⟩ := mem_groupsOf.mp isGroup
  have partitionSound := sound.each _ _ isPartition
  have unfolded : partitions.evictOne tenant scope groupId =
      keep partitions (tenant, scope) (partition.without groupId group) := by
    simp only [evictOne, isPartition, Partition.evictGroup_eq partitionSound isEntry]
  have remains := Partition.without_sound partitionSound isEntry
  have isStored : stored (keep partitions (tenant, scope) (partition.without groupId group)) =
      Function.update partitions.stored (tenant, scope, group.tokens) none := by
    funext place
    rw [stored_keep remains, Partition.groupOf_without partitionSound isEntry]
    by_cases isPlace : place = (tenant, scope, group.tokens)
    · rw [isPlace, update_self, if_pos rfl, if_pos rfl]
    · rw [update_of_ne isPlace]
      split
      · rename_i sameScope
        rw [if_neg]
        · rw [stored, sameScope, isPartition]
          rfl
        · intro sameTokens
          apply isPlace
          obtain ⟨sameOwner, sameKey⟩ := Prod.mk.inj sameScope
          exact Prod.ext sameOwner (Prod.ext sameKey sameTokens)
      · rfl
  dsimp only
  rw [unfolded]
  refine ⟨?_, isStored, ?_, ?_⟩
  · apply sound.of_subset (each_keep sound.each remains)
    intro place stored present
    rw [isStored] at present
    by_cases isPlace : place = (tenant, scope, group.tokens)
    · rw [isPlace, update_self] at present
      cases present
    · rwa [update_of_ne isPlace] at present
  · intro other
    rw [tenantBytes_split isPartition, tenantBytes_keep remains,
      Partition.totalBytes_without partitionSound isEntry]
    split
    · exact (Nat.add_assoc _ _ _).symm
    · rfl
  · have split : PrefixStore.groupCount partitions =
        PrefixStore.groupCount (partitions.erase (tenant, scope)) + weightAt _ _ _ :=
      sumOf_erase partitions (tenant, scope)
    rw [weightAt, isPartition] at split
    have lengths : sumOf (fun _ _ => 1) partition.groups =
        sumOf (fun _ _ => 1) (partition.groups.erase groupId) + weightAt _ _ _ :=
      sumOf_erase partition.groups groupId
    rw [weightAt, isEntry] at lengths
    simp only [sumOf, map_const', sum_replicate, smul_eq_mul, Nat.mul_one] at lengths
    rw [groupCount_keep, Nat.add_assoc]
    exact split.trans (congrArg (_ + ·) lengths)

theorem tenantBytes_eq_zero (sound : partitions.Sound nextTick nextGroupId)
    (noGroups : ∀ place : Place κ, place.1 = tenant → partitions.stored place = none) :
    partitions.tenantBytes tenant = 0 := by
  apply sum_eq_zero
  intro bytes isWeight
  obtain ⟨⟨⟨owner, scope⟩, partition⟩, mem, rfl⟩ := List.mem_map.mp isWeight
  dsimp only
  split
  · rename_i isTenant
    have present := AList.mem_lookup_iff.mpr mem
    have partitionSound := sound.each _ _ present
    apply (partitionSound.of_empty _).1
    apply eq_nil_iff_forall_not_mem.mpr
    intro entry isEntry
    have isStored : partitions.stored (owner, scope, entry.2.tokens) = some entry.2 :=
      (stored_eq_some sound).mpr ⟨partition, entry.1, present, AList.mem_lookup_iff.mpr isEntry, rfl⟩
    rw [noGroups _ isTenant] at isStored
    cases isStored
  · rfl

theorem groupsOf_stored (sound : partitions.Sound nextTick nextGroupId) {place : Place κ}
    (isTenant : place.1 = tenant) (present : partitions.stored place = some group) :
    ∃ groupId, (place.2.1, groupId, group) ∈ partitions.groupsOf tenant := by
  obtain ⟨partition, groupId, isPartition, isEntry, -⟩ := (stored_eq_some sound).mp present
  exact ⟨groupId, mem_groupsOf.mpr ⟨partition, isTenant ▸ isPartition, isEntry⟩⟩

theorem stored_groupsOf (sound : partitions.Sound nextTick nextGroupId)
    {entry : κ × Nat × BlockGroup} (mem : entry ∈ partitions.groupsOf tenant) :
    partitions.stored (tenant, entry.1, entry.2.2.tokens) = some entry.2.2 := by
  obtain ⟨partition, isPartition, isEntry⟩ := mem_groupsOf.mp mem
  exact (stored_eq_some sound).mpr ⟨partition, entry.2.1, isPartition, isEntry, rfl⟩

theorem evictToBudget_spec (sound : partitions.Sound nextTick nextGroupId) {newest : Place κ}
    {budget fuel : Nat} (isTenant : newest.1 = tenant)
    (isStored : partitions.stored newest = some group) (fits : group.bytes ≤ budget)
    (isNewest : ∀ place other, partitions.stored place = some other → other.tick ≤ group.tick)
    (enough : PrefixStore.groupCount partitions ≤ fuel) :
    let next := evictToBudget tenant budget fuel partitions
    next.Sound nextTick nextGroupId ∧
      Relation.ReflTransGen (Evicts tenant) partitions.stored next.stored ∧
      next.stored newest = some group ∧ next.tenantBytes tenant ≤ budget ∧
      ∀ other, other ≠ tenant → next.tenantBytes other = partitions.tenantBytes other := by
  induction fuel generalizing partitions with
  | zero =>
    obtain ⟨groupId, mem⟩ := groupsOf_stored sound isTenant isStored
    obtain ⟨-, -, -, count⟩ := evictOne_spec sound mem
    rw [count] at enough
    exact absurd enough (Nat.not_succ_le_zero _)
  | succ fuel ih =>
    dsimp only
    rw [evictToBudget]
    by_cases within : partitions.tenantBytes tenant ≤ budget
    · rw [if_pos within]
      exact ⟨sound, .refl, isStored, within, fun _ _ => rfl⟩
    · rw [if_neg within]
      obtain ⟨groupId, mem⟩ := groupsOf_stored sound isTenant isStored
      cases isOldest : oldestOf (partitions.groupsOf tenant) with
      | none =>
        cases isList : partitions.groupsOf tenant with
        | nil =>
          rw [isList] at mem
          exact absurd mem not_mem_nil
        | cons first others =>
          rw [isList] at isOldest
          cases isOldest
      | some oldest =>
        obtain ⟨scope, oldestId, oldestGroup⟩ := oldest
        obtain ⟨isMember, least⟩ := oldestOf_spec isOldest
        obtain ⟨nextSound, isNext, bytes, count⟩ := evictOne_spec sound isMember
        have oldestStored := stored_groupsOf sound isMember
        have minimal : ∀ other otherGroup, other.1 = tenant →
            partitions.stored other = some otherGroup →
            oldestGroup.tick ≤ otherGroup.tick := by
          intro other otherGroup otherTenant present
          obtain ⟨otherId, isOther⟩ := groupsOf_stored sound otherTenant present
          exact least _ isOther
        have different : newest ≠ (tenant, scope, oldestGroup.tokens) := by
          rintro rfl
          obtain rfl : group = oldestGroup :=
            some.inj (isStored.symm.trans oldestStored)
          -- The newest group is the only one of its tenant.
          have alone : tenantBytes (evictOne partitions tenant scope oldestId) tenant = 0 := by
            apply tenantBytes_eq_zero nextSound
            intro place placeTenant
            rw [isNext]
            by_cases isPlace : place = (tenant, scope, group.tokens)
            · rw [isPlace, update_self]
            · rw [update_of_ne isPlace]
              apply eq_none_iff_forall_ne_some.mpr
              intro other present
              have sameTick := Nat.le_antisymm (isNewest place other present)
                (minimal place other placeTenant present)
              exact isPlace (sound.distinct _ _ _ _ present isStored sameTick)
          have total := bytes tenant
          rw [alone, if_pos rfl, Nat.zero_add] at total
          exact within (total ▸ fits)
        have remains : (evictOne partitions tenant scope oldestId).stored newest =
            some group := by
          rw [isNext, update_of_ne different]
          exact isStored
        have stillNewest : ∀ place other,
            (evictOne partitions tenant scope oldestId).stored place = some other →
            other.tick ≤ group.tick := by
          intro place other present
          apply isNewest place other
          rw [isNext] at present
          by_cases isPlace : place = (tenant, scope, oldestGroup.tokens)
          · rw [isPlace, update_self] at present
            cases present
          · rwa [update_of_ne isPlace] at present
        have less : PrefixStore.groupCount (evictOne partitions tenant scope oldestId) ≤
            fuel := by
          rw [count] at enough
          exact Nat.le_of_succ_le_succ enough
        obtain ⟨lastSound, evicted, kept, inBudget, others⟩ :=
          ih nextSound remains stillNewest less
        refine ⟨lastSound, .head ?_ evicted, kept, inBudget, ?_⟩
        · exact ⟨_, oldestGroup, rfl, oldestStored, minimal, isNext⟩
        · intro other otherTenant
          rw [others other otherTenant, bytes other, if_neg (Ne.symm otherTenant), Nat.add_zero]

/-- Groups leave the places that `leaves` names. -/
structure Shrinks (partitions next : Partitions κ) (nextTick nextGroupId : Nat)
    (leaves : Place κ → Prop) [DecidablePred leaves] : Prop where
  sound : next.Sound nextTick nextGroupId
  stored : ∀ place, next.stored place = if leaves place then none else partitions.stored place
  tenantBytes : ∀ tenant, next.tenantBytes tenant ≤ partitions.tenantBytes tenant

theorem erase_shrinks (sound : partitions.Sound nextTick nextGroupId) (key : TenantId × κ) :
    Shrinks partitions (partitions.erase key) nextTick nextGroupId
      fun place => (place.1, place.2.1) = key where
  sound := by
    apply sound.of_subset (each_erase sound.each)
    intro place group present
    rw [stored_erase] at present
    split at present
    · cases present
    · exact present
  stored := fun _ => stored_erase
  tenantBytes := fun _ => tenantBytes_erase_le

theorem invalidateIn_shrinks (sound : partitions.Sound nextTick nextGroupId) (start : List Token)
    (key : TenantId × κ) :
    Shrinks partitions (partitions.invalidateIn start key).2 nextTick nextGroupId
      fun place => (place.1, place.2.1) = key ∧ start <+: place.2.2 := by
  unfold invalidateIn
  cases present : partitions.lookup key with
  | none =>
    refine ⟨sound, fun place => ?_, fun _ => le_rfl⟩
    by_cases leaves : (place.1, place.2.1) = key ∧ start <+: place.2.2
    · rw [if_pos leaves]
      dsimp only
      rw [stored, leaves.1, present]
      rfl
    · exact (if_neg leaves).symm
  | some partition =>
    obtain ⟨nextSound, less, view⟩ := Partition.invalidate_spec (sound.each _ _ present) start
    have isStored : ∀ place : Place κ, stored (keep partitions key
        ((partition.startingWith start).foldl Partition.evictGroup partition)) place =
          if (place.1, place.2.1) = key ∧ start <+: place.2.2 then none
          else partitions.stored place := by
      intro place
      rw [stored_keep nextSound, view]
      by_cases isKey : (place.1, place.2.1) = key
      · have isPartition : partitions.stored place = partition.groupOf place.2.2 := by
          rw [stored, isKey, present]
          rfl
        rw [if_pos isKey, isPartition]
        simp only [isKey, true_and]
      · rw [if_neg isKey, if_neg]
        exact fun leaves => isKey leaves.1
    refine ⟨?_, isStored, ?_⟩
    · apply sound.of_subset (each_keep sound.each nextSound)
      intro place group isGroup
      rw [isStored] at isGroup
      split at isGroup
      · cases isGroup
      · exact isGroup
    · intro tenant
      dsimp only
      rw [tenantBytes_keep nextSound, tenantBytes_split present]
      apply Nat.add_le_add_left
      split
      · exact less
      · exact le_rfl

theorem invalidateAll_shrinks (sound : partitions.Sound nextTick nextGroupId) (tenant : TenantId)
    (start : List Token) (keys : List κ) (count : Nat) :
    Shrinks partitions
      (keys.foldl
        (fun (count, partitions) key =>
          let (more, partitions) := invalidateIn partitions start (tenant, key)
          (count + more, partitions))
        (count, partitions)).2
      nextTick nextGroupId
      fun place => place.1 = tenant ∧ place.2.1 ∈ keys ∧ start <+: place.2.2 := by
  induction keys generalizing partitions count with
  | nil =>
    refine ⟨sound, fun place => ?_, fun _ => le_rfl⟩
    rw [if_neg]
    · rfl
    · exact fun leaves => not_mem_nil leaves.2.1
  | cons key keys ih =>
    have first := invalidateIn_shrinks sound start (tenant, key)
    have rest := ih first.sound (count + (partitions.invalidateIn start (tenant, key)).1)
    refine ⟨rest.sound, fun place => ?_, fun other => ?_⟩
    · rw [foldl_cons]
      rw [rest.stored, first.stored]
      simp only [Prod.mk.injEq, mem_cons]
      by_cases isTenant : place.1 = tenant
      · by_cases starts : start <+: place.2.2
        · by_cases isFirst : place.2.1 = key
          · simp [isTenant, starts, isFirst]
          · simp [isTenant, starts, isFirst]
        · simp [starts]
      · simp [isTenant]
    · exact (rest.tenantBytes other).trans (first.tenantBytes other)

end Partitions

namespace PrefixStore

variable {κ : Type} [DecidableEq κ] {store next : PrefixStore κ} {tenant : TenantId} {key : κ}
  {tokens : List Token}

/-- Sound partitions, each tenant within its budget. -/
structure Sound (store : PrefixStore κ) : Prop where
  partitions : store.partitions.Sound store.nextTick store.nextGroupId
  budget : ∀ tenant, store.partitions.tenantBytes tenant ≤ store.byteBudgetPerTenant

def contents (store : PrefixStore κ) : Contents κ := store.partitions.stored

theorem new_sound (budget : Nat) (policy : KvReusePolicy) :
    (new budget policy : PrefixStore κ).Sound where
  partitions := {
    each := fun key partition impossible => by cases impossible
    ticks := fun place group impossible => by cases impossible
    distinct := fun place other group otherGroup impossible => by cases impossible }
  budget := fun _ => Nat.zero_le _

theorem stored_of_lookup {partition : Partition}
    (present : store.partitions.lookup (tenant, key) = some partition) :
    store.contents (tenant, key, tokens) = partition.groupOf tokens := by
  rw [contents, Partitions.stored, present]
  rfl

theorem lookup_some (sound : store.Sound) {hit : KvPrefixHit}
    (isHit : store.lookup tenant key tokens = (some hit, next)) :
    ∃ start group, start ≠ [] ∧ start <+: tokens ∧ hit.matchedTokens = start.length ∧
      store.reusePolicy.shouldReuse start.length = true ∧
      store.contents (tenant, key, start) = some group ∧ hit.blocks = group.blocks ∧
      (∀ longer, longer <+: tokens → start.length < longer.length →
        store.contents (tenant, key, longer) = none) ∧
      next.Sound ∧ next.nextTick = store.nextTick + 1 ∧
      next.byteBudgetPerTenant = store.byteBudgetPerTenant ∧
      next.contents = Function.update store.contents (tenant, key, start)
        (some { group with tick := store.nextTick }) := by
  unfold lookup at isHit
  by_cases hasTokens : tokens = []
  · rw [if_pos hasTokens] at isHit
    cases isHit
  · rw [if_neg hasTokens] at isHit
    cases present : store.partitions.lookup (tenant, key) with
    | none =>
      rw [present] at isHit
      cases isHit
    | some partition =>
      rw [present] at isHit
      dsimp only at isHit
      have partitionSound := sound.partitions.each _ _ present
      cases isFound : partition.tree.findLongestPrefix tokens store.reusePolicy with
      | none =>
        rw [isFound] at isHit
        cases isHit
      | some found =>
        rw [isFound] at isHit
        dsimp only at isHit
        obtain ⟨isPrefix, isLength, reuse, isStored, longest⟩ :=
          RadixNodes.findLongestPrefix_eq_some partitionSound.wellFormed isFound
        obtain ⟨group, isEntry, ownTokens⟩ :=
          (partitionSound.corresponds _ _).mp isStored
        obtain ⟨hasStart, -⟩ := partitionSound.groups _ _ isEntry
        rw [isEntry] at isHit
        cases isHit
        have isGroup : partition.groupOf group.tokens = some group :=
          (Partition.groupOf_eq_some partitionSound).mpr ⟨_, isEntry, rfl⟩
        have touched := Partition.touch_sound partitionSound isEntry store.nextTick
        have isContents : Partitions.stored (store.partitions.insert (tenant, key)
            (partition.touch found.blockId store.nextTick group)) =
              Function.update store.contents (tenant, key, group.tokens)
                (some { group with tick := store.nextTick }) := by
          funext place
          rw [Partitions.stored_insert, Partition.groupOf_touch partitionSound isEntry]
          by_cases isPlace : place = (tenant, key, group.tokens)
          · rw [isPlace, update_self, if_pos rfl, if_pos rfl]
          · rw [update_of_ne isPlace]
            split
            · rename_i sameKey
              obtain ⟨sameTenant, sameScope⟩ := Prod.mk.inj sameKey
              rw [if_neg, contents, Partitions.stored, sameKey, present]
              · rfl
              · intro sameTokens
                exact isPlace (Prod.ext sameTenant (Prod.ext sameScope sameTokens))
            · rfl
        rw [← ownTokens] at isPrefix isLength
        refine ⟨group.tokens, group, hasStart, isPrefix, isLength, isLength ▸ reuse, ?_, rfl,
          ?_, ⟨?_, fun other => ?_⟩, rfl, rfl, isContents⟩
        · exact (stored_of_lookup present).trans isGroup
        · intro longer isLonger more
          rw [stored_of_lookup present, Partition.groupOf,
            longest longer isLonger (isLength ▸ more)]
          rfl
        · apply sound.partitions.of_newest rfl _ isContents
          exact Partitions.each_insert sound.partitions.each touched
        · have bytes : store.partitions.tenantBytes other = _ :=
            Partitions.tenantBytes_split present
          have after : Partitions.tenantBytes (store.partitions.insert (tenant, key)
              (partition.touch found.blockId store.nextTick group)) other = _ :=
            Partitions.tenantBytes_insert
          exact (after.trans bytes.symm).trans_le (sound.budget other)

theorem lookup_none (sound : store.Sound)
    (isMiss : store.lookup tenant key tokens = (none, next)) :
    next = store ∧ ∀ start, start <+: tokens → store.contents (tenant, key, start) ≠ none →
      store.reusePolicy.shouldReuse start.length = false := by
  have noEmpty : ∀ partition : Partition, partition.Sound store.nextGroupId →
      ∀ start, partition.groupOf start ≠ none → start ≠ [] := by
    intro partition partitionSound start isStored
    obtain ⟨group, isGroup⟩ := ne_none_iff_exists'.mp isStored
    obtain ⟨groupId, isEntry, rfl⟩ := (Partition.groupOf_eq_some partitionSound).mp isGroup
    exact (partitionSound.groups groupId group isEntry).1
  unfold lookup at isMiss
  by_cases hasTokens : tokens = []
  · rw [if_pos hasTokens] at isMiss
    cases isMiss
    refine ⟨rfl, fun start isPrefix isStored => ?_⟩
    rw [hasTokens, List.prefix_nil] at isPrefix
    cases present : store.partitions.lookup (tenant, key) with
    | none => exact absurd (by rw [contents, Partitions.stored, present]; rfl) isStored
    | some partition =>
      rw [stored_of_lookup present] at isStored
      exact absurd isPrefix (noEmpty _ (sound.partitions.each _ _ present) start isStored)
  · rw [if_neg hasTokens] at isMiss
    cases present : store.partitions.lookup (tenant, key) with
    | none =>
      rw [present] at isMiss
      cases isMiss
      refine ⟨rfl, fun start isPrefix isStored => ?_⟩
      exact absurd (by rw [contents, Partitions.stored, present]; rfl) isStored
    | some partition =>
      rw [present] at isMiss
      dsimp only at isMiss
      have partitionSound := sound.partitions.each _ _ present
      cases isFound : partition.tree.findLongestPrefix tokens store.reusePolicy with
      | none =>
        rw [isFound] at isMiss
        cases isMiss
        refine ⟨rfl, fun start isPrefix isStored => ?_⟩
        rw [stored_of_lookup present] at isStored
        have hasStart := noEmpty partition partitionSound start isStored
        apply RadixNodes.findLongestPrefix_eq_none partitionSound.wellFormed isFound hasStart
          isPrefix
        obtain ⟨group, isGroup⟩ := ne_none_iff_exists'.mp isStored
        obtain ⟨groupId, isTree, -⟩ := bind_eq_some_iff.mp isGroup
        exact isSome_iff_exists.mpr ⟨groupId, isTree⟩
      | some found =>
        obtain ⟨-, -, -, isStored, -⟩ :=
          RadixNodes.findLongestPrefix_eq_some partitionSound.wellFormed isFound
        obtain ⟨group, isEntry, -⟩ := (partitionSound.corresponds _ _).mp isStored
        rw [isFound] at isMiss
        dsimp only at isMiss
        rw [isEntry] at isMiss
        cases isMiss

theorem insert_ok (sound : store.Sound) {blocks : List KvBlock}
    (inserted : store.insert tenant key tokens blocks = .ok next) :
    tokens ≠ [] ∧ next.Sound ∧ next.nextTick = store.nextTick + 1 ∧
      next.byteBudgetPerTenant = store.byteBudgetPerTenant ∧
      next.reusePolicy = store.reusePolicy ∧
      Relation.ReflTransGen (Evicts tenant)
        (Function.update store.contents (tenant, key, tokens)
          (some ⟨tokens, blocks, bytesOf blocks, store.nextTick⟩))
        next.contents ∧
      next.contents (tenant, key, tokens) =
        some ⟨tokens, blocks, bytesOf blocks, store.nextTick⟩ := by
  unfold insert at inserted
  by_cases noTokens : tokens = []
  · rw [if_pos noTokens] at inserted
    cases inserted
  rw [if_neg noTokens] at inserted
  by_cases noBlocks : blocks = []
  · rw [if_pos noBlocks] at inserted
    cases inserted
  rw [if_neg noBlocks] at inserted
  by_cases tooLarge : store.byteBudgetPerTenant < bytesOf blocks
  · rw [if_pos tooLarge] at inserted
    cases inserted
  rw [if_neg tooLarge] at inserted
  cases inserted
  have partitionSound : ((store.partitions.lookup (tenant, key)).getD .new).Sound
      store.nextGroupId := by
    cases present : store.partitions.lookup (tenant, key) with
    | none => exact Partition.new_sound
    | some partition => exact sound.partitions.each _ _ present
  obtain ⟨putSound, view⟩ :=
    Partition.putGroup_spec partitionSound noTokens store.nextTick blocks
  have isStored : Partitions.stored (store.partitions.insert (tenant, key)
      (((store.partitions.lookup (tenant, key)).getD .new).putGroup store.nextGroupId
        store.nextTick tokens blocks)) =
        Function.update store.contents (tenant, key, tokens)
          (some ⟨tokens, blocks, bytesOf blocks, store.nextTick⟩) := by
    funext place
    rw [Partitions.stored_insert, view]
    by_cases isPlace : place = (tenant, key, tokens)
    · rw [isPlace, update_self, if_pos rfl, if_pos rfl]
    · rw [update_of_ne isPlace]
      split
      · rename_i sameKey
        obtain ⟨sameTenant, sameScope⟩ := Prod.mk.inj sameKey
        rw [if_neg, contents, Partitions.stored, sameKey]
        · cases store.partitions.lookup (tenant, key) with
          | none => rfl
          | some partition => rfl
        · intro sameTokens
          exact isPlace (Prod.ext sameTenant (Prod.ext sameScope sameTokens))
      · rfl
  have larger : ∀ found partition, store.partitions.lookup found = some partition →
      partition.Sound (store.nextGroupId + 1) := fun found partition present =>
    (sound.partitions.each found partition present).mono (Nat.le_succ _)
  have each : ∀ found changed, (store.partitions.insert (tenant, key) _).lookup found =
      some changed → changed.Sound (store.nextGroupId + 1) :=
    Partitions.each_insert larger putSound
  have newSound := sound.partitions.of_newest rfl each isStored
  have isNew := congrFun isStored (tenant, key, tokens)
  rw [update_self] at isNew
  have newest : ∀ place other, Partitions.stored _ place = some other →
      other.tick ≤ store.nextTick :=
    fun place other present => Nat.le_of_lt_succ (newSound.ticks place other present)
  obtain ⟨lastSound, evicted, kept, within, others⟩ :=
    Partitions.evictToBudget_spec newSound rfl isNew (Nat.le_of_not_lt tooLarge) newest le_rfl
  refine ⟨noTokens, ⟨lastSound, fun other => ?_⟩, rfl, rfl, rfl, isStored ▸ evicted, kept⟩
  by_cases isTenant : other = tenant
  · exact isTenant ▸ within
  · refine (others other isTenant).trans_le ?_
    rw [Partitions.tenantBytes_insert, if_neg (Ne.symm isTenant)]
    exact Partitions.tenantBytes_erase_le.trans (sound.budget other)

theorem Sound.of_shrinks (sound : store.Sound) {partitions : Partitions κ}
    {leaves : Place κ → Prop} [DecidablePred leaves]
    (shrinks : Partitions.Shrinks store.partitions partitions store.nextTick store.nextGroupId
      leaves) : Sound { store with partitions } where
  partitions := shrinks.sound
  budget := fun tenant => (shrinks.tenantBytes tenant).trans (sound.budget tenant)

theorem evict_spec (sound : store.Sound) (tenant : TenantId) (key : κ) :
    ∃ partitions, (store.evict tenant key).2 = { store with partitions } ∧
      Partitions.Shrinks store.partitions partitions store.nextTick store.nextGroupId
        fun place => (place.1, place.2.1) = (tenant, key) := by
  have erased := Partitions.erase_shrinks sound.partitions (tenant, key)
  unfold evict
  cases present : store.partitions.lookup (tenant, key) with
  | some partition => exact ⟨_, rfl, erased⟩
  | none =>
    refine ⟨store.partitions, rfl, sound.partitions, fun place => ?_, fun _ => le_rfl⟩
    split
    · rename_i isKey
      rw [Partitions.stored, isKey, present]
      rfl
    · rfl

theorem invalidatePrefixScopeKeys_spec (sound : store.Sound) (tenant : TenantId)
    (start : List Token) (keys : List κ) :
    ∃ partitions, (store.invalidatePrefixScopeKeys tenant start keys).2 =
        { store with partitions } ∧
      Partitions.Shrinks store.partitions partitions store.nextTick store.nextGroupId
        fun place => start ≠ [] ∧ place.1 = tenant ∧ (keys = [] ∨ place.2.1 ∈ keys) ∧
          start <+: place.2.2 := by
  unfold invalidatePrefixScopeKeys
  by_cases hasStart : start = []
  · rw [if_pos hasStart]
    refine ⟨store.partitions, rfl, sound.partitions, fun place => ?_, fun _ => le_rfl⟩
    rw [if_neg]
    exact fun leaves => leaves.1 hasStart
  · rw [if_neg hasStart]
    have shrinks := Partitions.invalidateAll_shrinks sound.partitions tenant start
      (if keys = [] then (store.partitions.keys.filter fun key => key.1 = tenant).map (·.2)
        else keys) 0
    refine ⟨_, rfl, shrinks.sound, fun place => ?_, shrinks.tenantBytes⟩
    rw [shrinks.stored]
    by_cases allKeys : keys = []
    · simp only [if_pos allKeys]
      by_cases present : store.partitions.lookup (place.1, place.2.1) = none
      · have isAbsent : store.partitions.stored place = none := by
          rw [Partitions.stored, present]
          rfl
        rw [isAbsent, ite_self, ite_self]
      · have isListed : place.1 = tenant →
            place.2.1 ∈ (store.partitions.keys.filter fun key => key.1 = tenant).map (·.2) := by
          intro isTenant
          apply List.mem_map.mpr
          refine ⟨(place.1, place.2.1), mem_filter.mpr ⟨?_, decide_eq_true isTenant⟩, rfl⟩
          apply AList.mem_keys.mp
          exact AList.lookup_isSome.mp (isSome_iff_ne_none.mpr present)
        apply if_congr _ rfl rfl
        constructor
        · rintro ⟨isTenant, -, starts⟩
          exact ⟨hasStart, isTenant, .inl allKeys, starts⟩
        · rintro ⟨-, isTenant, -, starts⟩
          exact ⟨isTenant, isListed isTenant, starts⟩
    · simp only [if_neg allKeys]
      apply if_congr _ rfl rfl
      constructor
      · rintro ⟨isTenant, listed, starts⟩
        exact ⟨hasStart, isTenant, .inr listed, starts⟩
      · rintro ⟨-, isTenant, listed, starts⟩
        exact ⟨isTenant, listed.resolve_left allKeys, starts⟩

end PrefixStore

end Contextra.KvCache
