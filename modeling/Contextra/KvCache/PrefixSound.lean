import Contextra.KvCache.PrefixStore

/-!
# Partitions as finite maps

A sound partition stores a group under its own tokens.  Its tree, its groups and its byte total are
three views of one map from token sequences to groups.
-/

namespace Contextra.KvCache

open Library List Option

/-- The groups are those of the tree, and their ids are below `bound`. -/
structure Partition.Sound (partition : Partition) (bound : Nat) : Prop where
  wellFormed : partition.tree.WellFormed
  corresponds : ∀ tokens groupId, partition.tree.get tokens = some groupId ↔
    ∃ group, partition.groups.lookup groupId = some group ∧ group.tokens = tokens
  groups : ∀ groupId group, partition.groups.lookup groupId = some group →
    group.tokens ≠ [] ∧ group.bytes = bytesOf group.blocks ∧ groupId < bound
  totalBytes : partition.totalBytes = sumOf (fun _ group => group.bytes) partition.groups

namespace Partition

variable {partition : Partition} {bound groupId : Nat} {group : BlockGroup} {tokens : List Token}

theorem bytes_split (groups : AList fun _ : Nat => BlockGroup) (groupId : Nat) :
    sumOf (fun _ group => group.bytes) groups =
      sumOf (fun _ group => group.bytes) (groups.erase groupId) +
        weightAt (fun _ group => group.bytes) groups groupId :=
  sumOf_erase groups groupId

def groupOf (partition : Partition) (tokens : List Token) : Option BlockGroup :=
  (partition.tree.get tokens).bind fun groupId => partition.groups.lookup groupId

theorem groupOf_eq_some (sound : partition.Sound bound) :
    partition.groupOf tokens = some group ↔
      ∃ groupId, partition.groups.lookup groupId = some group ∧ group.tokens = tokens := by
  unfold groupOf
  constructor
  · intro isGroup
    obtain ⟨groupId, isStored, present⟩ := bind_eq_some_iff.mp isGroup
    obtain ⟨stored, isEntry, sameTokens⟩ := (sound.corresponds tokens groupId).mp isStored
    obtain rfl : stored = group := some.inj (isEntry.symm.trans present)
    exact ⟨groupId, present, sameTokens⟩
  · rintro ⟨groupId, present, sameTokens⟩
    have isStored := (sound.corresponds tokens groupId).mpr ⟨group, present, sameTokens⟩
    exact bind_eq_some_iff.mpr ⟨groupId, isStored, present⟩

theorem Sound.mono (sound : partition.Sound bound) {larger : Nat} (le : bound ≤ larger) :
    partition.Sound larger where
  wellFormed := sound.wellFormed
  corresponds := sound.corresponds
  groups := fun groupId group present => by
    obtain ⟨hasTokens, isSize, below⟩ := sound.groups groupId group present
    exact ⟨hasTokens, isSize, below.trans_le le⟩
  totalBytes := sound.totalBytes

theorem new_sound : new.Sound bound where
  wellFormed := trivial
  corresponds := fun tokens groupId => by
    constructor
    · intro impossible
      cases impossible
    · rintro ⟨group, impossible, -⟩
      cases impossible
  groups := fun groupId group impossible => by cases impossible
  totalBytes := rfl

theorem Sound.of_empty (sound : partition.Sound bound) (isEmpty : partition.groups.entries = []) :
    partition.totalBytes = 0 ∧ ∀ tokens, partition.groupOf tokens = none := by
  constructor
  · rw [sound.totalBytes, sumOf, isEmpty]
    rfl
  · intro tokens
    apply eq_none_iff_forall_ne_some.mpr
    intro group present
    obtain ⟨groupId, isEntry, -⟩ := (groupOf_eq_some sound).mp present
    have mem := AList.mem_lookup_iff.mp isEntry
    rw [isEmpty] at mem
    exact not_mem_nil mem

def without (partition : Partition) (groupId : Nat) (group : BlockGroup) : Partition where
  tree := (partition.tree.removeFromVec group.tokens).2
  groups := partition.groups.erase groupId
  totalBytes := partition.totalBytes - group.bytes

theorem evictGroup_eq (sound : partition.Sound bound)
    (present : partition.groups.lookup groupId = some group) :
    partition.evictGroup groupId = partition.without groupId group := by
  obtain ⟨hasTokens, -⟩ := sound.groups groupId group present
  simp only [evictGroup, removeGroup, present, removeTokens, if_neg hasTokens]
  rfl

theorem evictGroup_absent (absent : partition.groups.lookup groupId = none) :
    partition.evictGroup groupId = partition := by
  rw [evictGroup, absent]

section Without

variable (sound : partition.Sound bound)
  (present : partition.groups.lookup groupId = some group)
include sound present

theorem get_without : (partition.without groupId group).tree.get tokens =
    if partition.tree.get tokens = some groupId then none else partition.tree.get tokens := by
  have isStored := (sound.corresponds group.tokens groupId).mpr ⟨group, present, rfl⟩
  rw [without, RadixNodes.get_removeFromVec]
  by_cases sameTokens : tokens = group.tokens
  · rw [if_pos sameTokens, sameTokens, if_pos isStored]
  · rw [if_neg sameTokens, if_neg]
    intro other
    obtain ⟨stored, isEntry, ownTokens⟩ := (sound.corresponds tokens groupId).mp other
    obtain rfl : stored = group := some.inj (isEntry.symm.trans present)
    exact sameTokens ownTokens.symm

theorem totalBytes_without :
    partition.totalBytes = (partition.without groupId group).totalBytes + group.bytes := by
  have split := bytes_split partition.groups groupId
  rw [weightAt, present] at split
  rw [without, sound.totalBytes, split]
  exact (congrArg (· + _) (Nat.add_sub_cancel _ _)).symm

theorem without_sound : (partition.without groupId group).Sound bound where
  wellFormed := sound.wellFormed.removeFromVec
  corresponds := fun tokens other => by
    rw [get_without sound present]
    by_cases same : other = groupId
    · subst same
      constructor
      · split
        · intro impossible
          cases impossible
        · intro isStored
          contradiction
      · rintro ⟨stored, isEntry, -⟩
        rw [without, AList.lookup_erase] at isEntry
        cases isEntry
    · rw [without, AList.lookup_erase_ne same, ← sound.corresponds]
      split
      · rename_i isStored
        rw [isStored]
        constructor
        · intro impossible
          cases impossible
        · intro sameId
          exact absurd (some.inj sameId).symm same
      · rfl
  groups := fun other otherGroup isEntry => by
    by_cases same : other = groupId
    · rw [without, same, AList.lookup_erase] at isEntry
      cases isEntry
    · rw [without, AList.lookup_erase_ne same] at isEntry
      exact sound.groups other otherGroup isEntry
  totalBytes := by
    have split := bytes_split partition.groups groupId
    rw [weightAt, present] at split
    rw [without, sound.totalBytes, split]
    exact Nat.add_sub_cancel _ _

theorem groupOf_without : (partition.without groupId group).groupOf tokens =
    if tokens = group.tokens then none else partition.groupOf tokens := by
  have isStored := (sound.corresponds group.tokens groupId).mpr ⟨group, present, rfl⟩
  unfold groupOf
  rw [get_without sound present]
  by_cases sameTokens : tokens = group.tokens
  · rw [sameTokens, if_pos isStored, if_pos rfl]
    rfl
  · have other : partition.tree.get tokens ≠ some groupId := by
      intro same
      obtain ⟨stored, isEntry, ownTokens⟩ := (sound.corresponds tokens groupId).mp same
      obtain rfl : stored = group := some.inj (isEntry.symm.trans present)
      exact sameTokens ownTokens.symm
    rw [if_neg other, if_neg sameTokens]
    cases isOther : partition.tree.get tokens with
    | none => rfl
    | some otherId =>
      have different : otherId ≠ groupId := by
        rintro rfl
        exact other isOther
      exact AList.lookup_erase_ne different

end Without

def withGroup (partition : Partition) (groupId : Nat) (group : BlockGroup) : Partition where
  tree := partition.tree.insertIntoVec groupId group.tokens
  groups := partition.groups.insert groupId group
  totalBytes := partition.totalBytes + group.bytes

section WithGroup

variable (sound : partition.Sound groupId) (hasTokens : group.tokens ≠ [])
  (isSize : group.bytes = bytesOf group.blocks) (isNew : partition.tree.get group.tokens = none)
include sound

theorem lookup_fresh : partition.groups.lookup groupId = none := by
  apply eq_none_iff_forall_ne_some.mpr
  intro stored isEntry
  obtain ⟨-, -, below⟩ := sound.groups groupId stored isEntry
  exact lt_irrefl groupId below

include hasTokens

theorem get_withGroup : (partition.withGroup groupId group).tree.get tokens =
    if tokens = group.tokens then some groupId else partition.tree.get tokens :=
  RadixNodes.get_insertIntoVec sound.wellFormed hasTokens

theorem groupOf_withGroup : (partition.withGroup groupId group).groupOf tokens =
    if tokens = group.tokens then some group else partition.groupOf tokens := by
  unfold groupOf
  rw [get_withGroup sound hasTokens]
  split
  · exact AList.lookup_insert _
  · cases isOther : partition.tree.get tokens with
    | none => rfl
    | some otherId =>
      have different : otherId ≠ groupId := by
        rintro rfl
        obtain ⟨stored, isEntry, -⟩ := (sound.corresponds tokens otherId).mp isOther
        rw [lookup_fresh sound] at isEntry
        cases isEntry
      exact AList.lookup_insert_ne different

include isSize isNew

theorem withGroup_sound : (partition.withGroup groupId group).Sound (groupId + 1) where
  wellFormed := sound.wellFormed.insertIntoVec hasTokens
  corresponds := fun tokens other => by
    rw [get_withGroup sound hasTokens]
    by_cases same : other = groupId
    · subst same
      rw [withGroup, AList.lookup_insert]
      constructor
      · intro isStored
        refine ⟨group, rfl, ?_⟩
        split at isStored
        · rename_i sameTokens
          exact sameTokens.symm
        · obtain ⟨stored, isEntry, -⟩ := (sound.corresponds tokens other).mp isStored
          rw [lookup_fresh sound] at isEntry
          cases isEntry
      · rintro ⟨stored, isGroup, ownTokens⟩
        cases isGroup
        exact if_pos ownTokens.symm
    · rw [withGroup, AList.lookup_insert_ne same, ← sound.corresponds]
      split
      · rename_i sameTokens
        rw [sameTokens, isNew]
        constructor
        · intro sameId
          exact absurd (some.inj sameId).symm same
        · intro impossible
          cases impossible
      · rfl
  groups := fun other otherGroup isEntry => by
    by_cases same : other = groupId
    · rw [withGroup, same, AList.lookup_insert] at isEntry
      cases isEntry
      exact ⟨hasTokens, isSize, same ▸ Nat.lt_succ_self _⟩
    · rw [withGroup, AList.lookup_insert_ne same] at isEntry
      exact (sound.mono (Nat.le_succ groupId)).groups other otherGroup isEntry
  totalBytes := by
    have split := bytes_split partition.groups groupId
    rw [weightAt, lookup_fresh sound] at split
    rw [withGroup, sumOf_insert, sound.totalBytes, split]
    rfl

end WithGroup

/-- A used group gets a new tick. -/
def touch (partition : Partition) (groupId tick : Nat) (group : BlockGroup) : Partition :=
  { partition with groups := partition.groups.insert groupId { group with tick } }

section Touch

variable (sound : partition.Sound bound) (present : partition.groups.lookup groupId = some group)
  (tick : Nat)
include sound present

theorem touch_sound : (partition.touch groupId tick group).Sound bound where
  wellFormed := sound.wellFormed
  corresponds := fun tokens other => by
    refine (sound.corresponds tokens other).trans ?_
    by_cases same : other = groupId
    · subst same
      rw [touch, AList.lookup_insert, present]
      constructor
      · rintro ⟨stored, isGroup, ownTokens⟩
        cases isGroup
        exact ⟨_, rfl, ownTokens⟩
      · rintro ⟨stored, isGroup, ownTokens⟩
        cases isGroup
        exact ⟨_, rfl, ownTokens⟩
    · rw [touch, AList.lookup_insert_ne same]
  groups := fun other otherGroup isEntry => by
    by_cases same : other = groupId
    · rw [touch, same, AList.lookup_insert] at isEntry
      cases isEntry
      exact same ▸ sound.groups groupId group present
    · rw [touch, AList.lookup_insert_ne same] at isEntry
      exact sound.groups other otherGroup isEntry
  totalBytes := by
    have split := bytes_split partition.groups groupId
    rw [weightAt, present] at split
    rw [touch, sumOf_insert]
    exact sound.totalBytes.trans split

theorem groupOf_touch : (partition.touch groupId tick group).groupOf tokens =
    if tokens = group.tokens then some { group with tick } else partition.groupOf tokens := by
  have isStored := (sound.corresponds group.tokens groupId).mpr ⟨group, present, rfl⟩
  by_cases sameTokens : tokens = group.tokens
  · rw [if_pos sameTokens, groupOf, touch, sameTokens, isStored]
    exact AList.lookup_insert _
  · rw [if_neg sameTokens, groupOf, groupOf, touch]
    cases isOther : partition.tree.get tokens with
    | none => rfl
    | some otherId =>
      have different : otherId ≠ groupId := by
        rintro rfl
        obtain ⟨stored, isEntry, ownTokens⟩ := (sound.corresponds tokens otherId).mp isOther
        obtain rfl : stored = group := some.inj (isEntry.symm.trans present)
        exact sameTokens ownTokens.symm
      exact AList.lookup_insert_ne different

end Touch

theorem Sound.removeTokens (sound : partition.Sound bound)
    (absent : partition.tree.get tokens = none) :
    Sound { partition with tree := (partition.tree.removeFromVec tokens).2 } bound ∧
      ∀ query, (partition.tree.removeFromVec tokens).2.get query = partition.tree.get query := by
  have same : ∀ query,
      (partition.tree.removeFromVec tokens).2.get query = partition.tree.get query := by
    intro query
    rw [RadixNodes.get_removeFromVec]
    split
    · rename_i isQuery
      rw [isQuery, absent]
    · rfl
  refine ⟨⟨sound.wellFormed.removeFromVec, ?_, sound.groups, sound.totalBytes⟩, same⟩
  intro query groupId
  rw [same]
  exact sound.corresponds query groupId

theorem putGroup_spec (sound : partition.Sound groupId) (hasTokens : tokens ≠ []) (tick : Nat)
    (blocks : List KvBlock) :
    let next := partition.putGroup groupId tick tokens blocks
    next.Sound (groupId + 1) ∧
      (∀ query, next.groupOf query =
        if query = tokens then some ⟨tokens, blocks, bytesOf blocks, tick⟩
        else partition.groupOf query) := by
  have step : ∀ cleaned : Partition, cleaned.Sound groupId → cleaned.tree.get tokens = none →
      (∀ query, query ≠ tokens → cleaned.groupOf query = partition.groupOf query) →
      (cleaned.withGroup groupId ⟨tokens, blocks, bytesOf blocks, tick⟩).Sound (groupId + 1) ∧
        ∀ query, (cleaned.withGroup groupId ⟨tokens, blocks, bytesOf blocks, tick⟩).groupOf query =
          if query = tokens then some ⟨tokens, blocks, bytesOf blocks, tick⟩
          else partition.groupOf query := by
    intro cleaned cleanedSound isNew others
    refine ⟨withGroup_sound cleanedSound hasTokens rfl isNew, fun query => ?_⟩
    rw [groupOf_withGroup cleanedSound hasTokens]
    split
    · rfl
    · rename_i different
      exact others query different
  cases isOld : partition.tree.get tokens with
  | none =>
    obtain ⟨cleanedSound, same⟩ := sound.removeTokens isOld
    have unfolded : partition.putGroup groupId tick tokens blocks =
        withGroup { partition with tree := (partition.tree.removeFromVec tokens).2 } groupId
          ⟨tokens, blocks, bytesOf blocks, tick⟩ := by
      simp only [putGroup, Partition.removeTokens, if_neg hasTokens, RadixNodes.removeFromVec_fst,
        isOld]
      rfl
    rw [unfolded]
    apply step _ cleanedSound ((same tokens).trans isOld)
    intro query _
    exact congrArg (Option.bind · _) (same query)
  | some oldId =>
    obtain ⟨old, present, ownTokens⟩ := (sound.corresponds tokens oldId).mp isOld
    subst ownTokens
    have unfolded : partition.putGroup groupId tick old.tokens blocks =
        withGroup (partition.without oldId old) groupId
          ⟨old.tokens, blocks, bytesOf blocks, tick⟩ := by
      simp only [putGroup, Partition.removeTokens, if_neg hasTokens, RadixNodes.removeFromVec_fst,
        isOld, removeGroup, present]
      rfl
    rw [unfolded]
    apply step _ (without_sound sound present)
    · rw [get_without sound present, if_pos isOld]
    · intro query different
      rw [groupOf_without sound present, if_neg different]

theorem evictGroup_spec (sound : partition.Sound bound) (groupId : Nat) :
    (partition.evictGroup groupId).Sound bound ∧
      (partition.evictGroup groupId).totalBytes ≤ partition.totalBytes ∧
      ∀ tokens, (partition.evictGroup groupId).tree.get tokens =
          (if partition.tree.get tokens = some groupId then none else partition.tree.get tokens) ∧
        (partition.evictGroup groupId).groupOf tokens =
          if partition.tree.get tokens = some groupId then none else partition.groupOf tokens := by
  cases isEntry : partition.groups.lookup groupId with
  | none =>
    rw [evictGroup_absent isEntry]
    refine ⟨sound, le_rfl, fun tokens => ?_⟩
    have other : partition.tree.get tokens ≠ some groupId := by
      intro isStored
      obtain ⟨group, present, -⟩ := (sound.corresponds tokens groupId).mp isStored
      rw [isEntry] at present
      cases present
    rw [if_neg other, if_neg other]
    exact ⟨rfl, rfl⟩
  | some group =>
    rw [evictGroup_eq sound isEntry]
    have total := totalBytes_without sound isEntry
    refine ⟨without_sound sound isEntry, total ▸ Nat.le_add_right _ _, fun tokens => ?_⟩
    refine ⟨get_without sound isEntry, ?_⟩
    rw [groupOf_without sound isEntry]
    by_cases sameTokens : tokens = group.tokens
    · have isStored := (sound.corresponds tokens groupId).mpr ⟨group, isEntry, sameTokens.symm⟩
      rw [if_pos sameTokens, if_pos isStored]
    · rw [if_neg sameTokens, if_neg]
      intro isStored
      obtain ⟨stored, present, ownTokens⟩ := (sound.corresponds tokens groupId).mp isStored
      obtain rfl : stored = group := some.inj (present.symm.trans isEntry)
      exact sameTokens ownTokens.symm

theorem evictGroups_spec (sound : partition.Sound bound) (ids : List Nat) :
    (ids.foldl evictGroup partition).Sound bound ∧
      (ids.foldl evictGroup partition).totalBytes ≤ partition.totalBytes ∧
      ∀ tokens, (ids.foldl evictGroup partition).groupOf tokens =
        if ∃ groupId ∈ ids, partition.tree.get tokens = some groupId then none
        else partition.groupOf tokens := by
  induction ids generalizing partition with
  | nil => exact ⟨sound, le_rfl, fun tokens => by simp⟩
  | cons groupId ids ih =>
    obtain ⟨evictedSound, less, views⟩ := evictGroup_spec sound groupId
    obtain ⟨restSound, restLess, restView⟩ := ih evictedSound
    refine ⟨restSound, restLess.trans less, fun tokens => ?_⟩
    obtain ⟨isTree, isGroup⟩ := views tokens
    rw [foldl_cons, restView, isTree, isGroup]
    by_cases isFirst : partition.tree.get tokens = some groupId
    · simp [isFirst]
    · simp [isFirst]

theorem mem_startingWith {start : List Token} : groupId ∈ partition.startingWith start ↔
    ∃ group, partition.groups.lookup groupId = some group ∧ start <+: group.tokens := by
  simp only [startingWith, List.mem_map, mem_filter, isPrefixOf_iff_prefix]
  constructor
  · rintro ⟨entry, ⟨mem, starts⟩, rfl⟩
    exact ⟨entry.2, AList.mem_lookup_iff.mpr mem, starts⟩
  · rintro ⟨group, present, starts⟩
    exact ⟨⟨groupId, group⟩, ⟨AList.mem_lookup_iff.mp present, starts⟩, rfl⟩

theorem invalidate_spec (sound : partition.Sound bound) (start : List Token) :
    ((partition.startingWith start).foldl evictGroup partition).Sound bound ∧
      ((partition.startingWith start).foldl evictGroup partition).totalBytes ≤
        partition.totalBytes ∧
      ∀ tokens, ((partition.startingWith start).foldl evictGroup partition).groupOf tokens =
        if start <+: tokens then none else partition.groupOf tokens := by
  obtain ⟨nextSound, less, view⟩ := evictGroups_spec sound (partition.startingWith start)
  refine ⟨nextSound, less, fun tokens => ?_⟩
  rw [view]
  by_cases starts : start <+: tokens
  · rw [if_pos starts]
    split
    · rfl
    · rename_i notListed
      apply eq_none_iff_forall_ne_some.mpr
      intro group present
      obtain ⟨groupId, isEntry, ownTokens⟩ := (groupOf_eq_some sound).mp present
      apply notListed
      refine ⟨groupId, mem_startingWith.mpr ⟨group, isEntry, ownTokens ▸ starts⟩, ?_⟩
      exact (sound.corresponds tokens groupId).mpr ⟨group, isEntry, ownTokens⟩
  · rw [if_neg starts, if_neg]
    rintro ⟨groupId, listed, isStored⟩
    obtain ⟨group, isEntry, isStart⟩ := mem_startingWith.mp listed
    obtain ⟨stored, present, ownTokens⟩ := (sound.corresponds tokens groupId).mp isStored
    obtain rfl : stored = group := some.inj (present.symm.trans isEntry)
    exact starts (ownTokens ▸ isStart)

end Partition

end Contextra.KvCache
