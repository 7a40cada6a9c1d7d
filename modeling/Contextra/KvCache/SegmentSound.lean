import Contextra.KvCache.SegmentStore

/-!
# The counters of a tenant's segments

Every operation keeps the counters equal to the sums over the segments that are present.
-/

namespace Contextra.KvCache

open Library List Option

namespace TenantState

variable {state : TenantState} {refs : Refs} {now id : Nat} {ranking : Ranking}
  {segment : KvSegment} {directive : CacheDirective}

theorem new_sound {tenantId : TenantId} {capacity : Nat} : (new tenantId capacity).Sound where
  total := rfl
  pinned := rfl
  budget := Nat.zero_le _
  sameIds := fun _ => rfl
  keyed := nofun
  room := Nat.zero_le _

def without (state : TenantState) (id : Nat) (segment : KvSegment) : TenantState :=
  { state with
    cache := { state.cache with entries := state.cache.entries.erase id }
    totalBytes := state.totalBytes - segment.len
    pinnedBytes :=
      if state.isUnlimited id then state.pinnedBytes - segment.len else state.pinnedBytes
    segmentMeta := state.segmentMeta.erase id }

theorem remove_eq :
    state.remove id = match state.cache.entries.lookup id with
      | some segment => (some segment, state.without id segment)
      | none => (none, state) := by
  unfold remove LruCache.pop
  cases state.cache.entries.lookup id with
  | some segment => rfl
  | none => rfl

theorem isUnlimited_without {other : Nat} (different : other ≠ id) :
    (state.without id segment).isUnlimited other = state.isUnlimited other :=
  congrArg (Option.any SegmentMeta.isUnlimited) (AList.lookup_erase_ne different)

theorem Sound.without (sound : state.Sound)
    (present : state.cache.entries.lookup id = some segment) :
    (state.without id segment).Sound := by
  have totalSum := sound.total
  have pinnedSum := sound.pinned
  rw [sumOf_erase _ id] at totalSum pinnedSum
  simp only [weightAt, present] at totalSum pinnedSum
  have othersPinned : sumOf (state.without id segment).pinnedWeight (state.cache.entries.erase id) =
      sumOf state.pinnedWeight (state.cache.entries.erase id) := by
    apply sumOf_erase_congr
    intro other value different
    rw [pinnedWeight, pinnedWeight, isUnlimited_without different]
  constructor
  case total =>
    simp only [TenantState.without]
    omega
  case pinned =>
    change (state.without id segment).pinnedBytes = sumOf _ (state.cache.entries.erase id)
    rw [othersPinned]
    simp only [TenantState.without]
    cases unlimited : state.isUnlimited id with
    | true =>
      simp only [pinnedWeight, unlimited, if_true] at pinnedSum ⊢
      omega
    | false =>
      simp only [pinnedWeight, unlimited, Bool.false_eq_true, if_false] at pinnedSum ⊢
      omega
  case budget =>
    apply le_trans _ sound.budget
    simp only [TenantState.without]
    split
    · exact Nat.sub_le _ _
    · exact le_rfl
  case sameIds =>
    intro other
    simp only [TenantState.without]
    by_cases same : other = id
    · rw [same, AList.lookup_erase, AList.lookup_erase]
      rfl
    · rw [AList.lookup_erase_ne same, AList.lookup_erase_ne same]
      exact sound.sameIds other
  case keyed =>
    intro other value stored
    simp only [TenantState.without] at stored
    by_cases same : other = id
    · rw [same, AList.lookup_erase] at stored
      cases stored
    · rw [AList.lookup_erase_ne same] at stored
      exact sound.keyed other value stored
  case room =>
    simp only [TenantState.without, LruCache.len]
    rw [LruCache.length_erase]
    exact (Nat.sub_le _ _).trans sound.room

theorem Sound.remove (sound : state.Sound) (id : Nat) : (state.remove id).2.Sound := by
  rw [remove_eq]
  cases present : state.cache.entries.lookup id with
  | some segment => exact sound.without present
  | none => exact sound

theorem Sound.removeAll (sound : state.Sound) (ids : List Nat) : (state.removeAll ids).Sound := by
  induction ids generalizing state with
  | nil => exact sound
  | cons id ids ih => exact ih (sound.remove id)

theorem popEvictionCandidate_eq (refs : Refs) (now : Nat) (ranking : Ranking) :
    (state.popEvictionCandidate refs now ranking = (none, state) ∧
      state.unrefIds refs now = []) ∨
      ∃ target ∈ state.unrefIds refs now,
        state.popEvictionCandidate refs now ranking = state.remove target := by
  unfold popEvictionCandidate
  split
  · rename_i isEmpty
    exact .inl ⟨rfl, isEmpty⟩
  · rename_i target isSingle
    rw [isSingle]
    exact .inr ⟨target, mem_singleton_self target, rfl⟩
  · rename_i notEmpty notSingle
    have sorted := ranking.property (state.unrefIds refs now)
    split
    · rename_i target rest isRanked
      rw [isRanked] at sorted
      exact .inr ⟨target, sorted.subset mem_cons_self, rfl⟩
    · rename_i isRanked
      rw [isRanked] at sorted
      exact .inl ⟨rfl, sorted.symm.eq_nil⟩

theorem mem_unrefIds {target : Nat} :
    target ∈ state.unrefIds refs now ↔
      ∃ segment, state.cache.entries.lookup target = some segment ∧
        state.isProtected refs now target segment = false := by
  simp only [unrefIds, LruCache.oldestFirst, List.mem_map, mem_filter, mem_reverse,
    Bool.not_eq_true']
  constructor
  · rintro ⟨⟨key, segment⟩, ⟨isEntry, free⟩, rfl⟩
    exact ⟨segment, AList.mem_lookup_iff.mpr isEntry, free⟩
  · rintro ⟨segment, present, free⟩
    exact ⟨⟨target, segment⟩, ⟨AList.mem_lookup_iff.mp present, free⟩, rfl⟩

theorem Sound.get (sound : state.Sound) (id : Nat) : (state.get id).2.Sound := by
  unfold TenantState.get LruCache.get
  cases present : state.cache.entries.lookup id with
  | none => exact sound
  | some segment =>
    have sums : ∀ weight : Nat → KvSegment → Nat,
        sumOf weight (state.cache.entries.insert id segment) =
          sumOf weight state.cache.entries := by
      intro weight
      rw [sumOf_insert, sumOf_erase state.cache.entries id]
      simp only [weightAt, present]
    constructor
    case total => exact sound.total.trans (sums _).symm
    case pinned => exact sound.pinned.trans (sums _).symm
    case budget => exact sound.budget
    case sameIds =>
      intro other
      dsimp only
      rw [sound.sameIds other]
      by_cases same : other = id
      · rw [same, AList.lookup_insert, present]
      · rw [AList.lookup_insert_ne same]
    case keyed =>
      intro other value stored
      dsimp only at stored
      by_cases same : other = id
      · rw [same, AList.lookup_insert, ← present, ← same] at stored
        exact sound.keyed other value stored
      · rw [AList.lookup_insert_ne same] at stored
        exact sound.keyed other value stored
    case room =>
      have same := LruCache.length_insert state.cache id segment
      rw [present] at same
      change (state.cache.entries.insert id segment).entries.length ≤ _
      rw [same]
      exact sound.room

def withSegment (state : TenantState) (now : Nat) (segment : KvSegment)
    (directive : CacheDirective) : TenantState :=
  { state with
    cache := { state.cache with
      entries := state.cache.entries.insert segment.segmentId segment }
    totalBytes := state.totalBytes + segment.len
    pinnedBytes :=
      if directive = .pin none then state.pinnedBytes + segment.len else state.pinnedBytes
    segmentMeta := state.segmentMeta.insert segment.segmentId ⟨directive, now⟩ }

theorem Sound.withSegment (sound : state.Sound)
    (absent : state.cache.entries.lookup segment.segmentId = none)
    (room : state.cache.len < state.cache.cap)
    (budget : directive = .pin none →
      state.pinnedBytes + segment.len ≤ maxPinnedBytesPerTenant) :
    (state.withSegment now segment directive).Sound := by
  let next := state.withSegment now segment directive
  have sums : ∀ weight : Nat → KvSegment → Nat,
      sumOf weight next.cache.entries =
        sumOf weight state.cache.entries + weight segment.segmentId segment := by
    intro weight
    rw [sumOf_erase state.cache.entries segment.segmentId]
    simp only [weightAt, absent, Nat.add_zero]
    exact sumOf_insert
  have othersPinned : sumOf next.pinnedWeight state.cache.entries =
      sumOf state.pinnedWeight state.cache.entries := by
    apply sumOf_congr
    intro other value present
    have different : other ≠ segment.segmentId := by
      rintro rfl
      rw [absent] at present
      cases present
    have same : next.isUnlimited other = state.isUnlimited other :=
      congrArg (Option.any SegmentMeta.isUnlimited) (AList.lookup_insert_ne different)
    rw [pinnedWeight, pinnedWeight, same]
  have isOwn : next.isUnlimited segment.segmentId = decide (directive = .pin none) :=
    congrArg (Option.any SegmentMeta.isUnlimited) (AList.lookup_insert state.segmentMeta)
  constructor
  case total =>
    rw [sums, ← sound.total]
    rfl
  case pinned =>
    rw [sums, othersPinned, ← sound.pinned, pinnedWeight, isOwn]
    simp only [TenantState.withSegment, decide_eq_true_eq]
    split
    · rfl
    · rfl
  case budget =>
    simp only [TenantState.withSegment]
    split
    · rename_i isPin
      exact budget isPin
    · exact sound.budget
  case sameIds =>
    intro other
    simp only [TenantState.withSegment]
    by_cases same : other = segment.segmentId
    · rw [same, AList.lookup_insert, AList.lookup_insert]
      rfl
    · rw [AList.lookup_insert_ne same, AList.lookup_insert_ne same]
      exact sound.sameIds other
  case keyed =>
    intro other value stored
    simp only [TenantState.withSegment] at stored
    by_cases same : other = segment.segmentId
    · rw [same, AList.lookup_insert] at stored
      rw [same, ← some.inj stored]
    · rw [AList.lookup_insert_ne same] at stored
      exact sound.keyed other value stored
  case room =>
    have same := LruCache.length_insert state.cache segment.segmentId segment
    rw [absent] at same
    change (state.cache.entries.insert segment.segmentId segment).entries.length ≤ _
    rw [same]
    exact room

/-- The state that a segment is put into: its predecessor under the same id is gone. -/
def replaced (state : TenantState) (id : Nat) : TenantState :=
  match state.cache.entries.lookup id with
  | some old => state.without id old
  | none => state

theorem pushSegment_eq (room : state.cache.len < state.cache.cap ∨
      (state.cache.entries.lookup segment.segmentId).isSome) :
    state.pushSegment now segment directive =
      (state.replaced segment.segmentId).withSegment now segment directive := by
  unfold pushSegment replaced
  dsimp only
  rw [LruCache.push_eq room]
  cases state.cache.entries.lookup segment.segmentId with
  | none => rfl
  | some old =>
    simp only [map_some, TenantState.withSegment, TenantState.without,
      LruCache.insert_erase]

theorem without_len_lt (sound : state.Sound)
    (present : state.cache.entries.lookup id = some segment) :
    (state.without id segment).cache.len < state.cache.cap := by
  have fewer : (state.without id segment).cache.len = _ := LruCache.length_erase state.cache id
  have some := state.cache.len_pos present
  have room := sound.room
  rw [present, isSome_some, if_pos rfl] at fewer
  omega

theorem Sound.pushSegment (sound : state.Sound)
    (room : state.cache.len < state.cache.cap ∨
      (state.cache.entries.lookup segment.segmentId).isSome)
    (budget : directive = .pin none →
      state.pinnedBytes + segment.len ≤ maxPinnedBytesPerTenant) :
    (state.pushSegment now segment directive).Sound := by
  rw [pushSegment_eq room]
  unfold replaced
  cases present : state.cache.entries.lookup segment.segmentId with
  | none =>
    rw [present] at room
    exact sound.withSegment present (room.resolve_right (by simp)) budget
  | some old =>
    have isWithout := sound.without present
    have absent : (state.without segment.segmentId old).cache.entries.lookup segment.segmentId =
        none := AList.lookup_erase _ _
    apply isWithout.withSegment absent
    · exact without_len_lt sound present
    · intro isPin
      apply le_trans _ (budget isPin)
      simp only [TenantState.without]
      split
      · exact Nat.add_le_add_right (Nat.sub_le _ _) _
      · exact le_rfl

theorem isFull_iff : state.isFull = true ↔ state.cache.cap ≤ state.cache.len := by
  simp [isFull]

theorem makeRoom_eq (sound : state.Sound) (refs : Refs) (now : Nat) (ranking : Ranking) :
    (state.makeRoom refs now ranking = (none, state) ∧ state.cache.len < state.cache.cap) ∨
      (state.makeRoom refs now ranking =
          (none, { state with cache := { state.cache with cap := state.cache.cap + 1 } }) ∧
        state.cache.cap ≤ state.cache.len ∧ state.unrefIds refs now = []) ∨
      ∃ target ∈ state.unrefIds refs now, ∃ segment,
        state.cache.entries.lookup target = some segment ∧
        state.makeRoom refs now ranking = (some segment, state.without target segment) ∧
        state.cache.cap ≤ state.cache.len := by
  unfold makeRoom
  by_cases full : state.isFull = true
  · rw [if_pos full]
    have isFull := isFull_iff.mp full
    right
    rcases state.popEvictionCandidate_eq refs now ranking with
      ⟨none, empty⟩ | ⟨target, free, removed⟩
    · left
      rw [none]
      dsimp only
      rw [full, Bool.true_and, isNone_none, if_pos rfl,
        LruCache.resize_of_le (Nat.le_succ_of_le sound.room)]
      exact ⟨rfl, isFull, empty⟩
    · right
      obtain ⟨segment, present, -⟩ := mem_unrefIds.mp free
      refine ⟨target, free, segment, present, ?_, isFull⟩
      rw [removed, remove_eq, present]
      dsimp only
      rw [isNone_some, Bool.and_false, if_neg Bool.false_ne_true]
  · rw [if_neg full]
    left
    dsimp only
    rw [Bool.eq_false_iff.mpr full, Bool.false_and, if_neg Bool.false_ne_true]
    exact ⟨rfl, Nat.lt_of_not_le fun isFull => full (isFull_iff.mpr isFull)⟩

theorem Sound.makeRoom (sound : state.Sound) (refs : Refs) (now : Nat) (ranking : Ranking) :
    let roomy := (state.makeRoom refs now ranking).2
    roomy.Sound ∧ roomy.cache.len < roomy.cache.cap ∧ roomy.pinnedBytes ≤ state.pinnedBytes := by
  rcases makeRoom_eq sound refs now ranking with
    ⟨unchanged, room⟩ | ⟨grown, -, -⟩ | ⟨target, -, segment, present, evicts, -⟩
  · rw [unchanged]
    exact ⟨sound, room, le_rfl⟩
  · rw [grown]
    have grown : state.cache.len ≤ state.cache.cap + 1 := Nat.le_succ_of_le sound.room
    exact ⟨{ sound with room := grown }, Nat.lt_succ_of_le sound.room, le_rfl⟩
  · rw [evicts]
    refine ⟨sound.without present, without_len_lt sound present, ?_⟩
    simp only [TenantState.without]
    split
    · exact Nat.sub_le _ _
    · exact le_rfl

theorem pushSegment_cap (room : state.cache.len < state.cache.cap) :
    (state.pushSegment now segment directive).cache.cap = state.cache.cap := by
  rw [pushSegment_eq (.inl room)]
  unfold replaced
  split
  · rfl
  · rfl

theorem insert_eq_ok {evicted : Option KvSegment} {next : TenantState}
    (inserted : state.insertReturningEvictedWithDirective refs now ranking segment directive =
      .ok (evicted, next)) :
    (directive = .pin none → state.pinnedBytes + segment.len ≤ maxPinnedBytesPerTenant) ∧
      evicted = (state.makeRoom refs now ranking).1 ∧
      next = (state.makeRoom refs now ranking).2.pushSegment now segment directive := by
  unfold insertReturningEvictedWithDirective at inserted
  split at inserted
  · cases inserted
  · rename_i withinBudget
    cases inserted
    rw [not_and] at withinBudget
    exact ⟨fun isPin => Nat.le_of_not_lt (withinBudget isPin), rfl, rfl⟩

theorem Sound.insert (sound : state.Sound) {evicted : Option KvSegment} {next : TenantState}
    (inserted : state.insertReturningEvictedWithDirective refs now ranking segment directive =
      .ok (evicted, next)) : next.Sound := by
  obtain ⟨withinBudget, -, rfl⟩ := insert_eq_ok inserted
  obtain ⟨roomy, room, pinned⟩ := sound.makeRoom refs now ranking
  apply roomy.pushSegment (.inl room)
  intro isPin
  exact (Nat.add_le_add_right pinned _).trans (withinBudget isPin)

end TenantState

end Contextra.KvCache
