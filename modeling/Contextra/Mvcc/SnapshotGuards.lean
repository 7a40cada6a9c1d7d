import Contextra.Mvcc.SnapshotRegistry

/-!
# What a live guard may rely on

A release may take the registration of another holder of the same sequence.  That is harmless as
long as the registrations that stay can be shared out: for every creation time and every set of
tenants, at least as many registrations as guards.  Own releases, revocations and reapings keep
this, and a release of one that is not needed.
-/

namespace Contextra.Mvcc

open Library List
open Std (TreeMap)

/-- The registration that `releaseMeta` takes. -/
def releasedMeta (tenant : Option TenantId) (createdAt : Option Nat) (metas : List SnapshotMeta) :
    Option SnapshotMeta :=
  match createdAt, tenant with
  | some time, _ =>
    (metas.find? (fun entry =>
        entry.createdAt = time && (tenant.isNone || decide (entry.tenant = tenant)))).or
      ((metas.find? (fun entry => entry.createdAt = time)).or metas.getLast?)
  | none, some owner =>
    (metas.find? (fun entry => entry.tenant = some owner)).or metas.getLast?
  | none, none => metas.getLast?

variable {α : Type}

theorem swapRemove_perm {values : List α} {position : Nat} (inside : position < values.length) :
    List.Perm values (values[position] :: swapRemove values position) := by
  rcases eq_nil_or_concat' values with rfl | ⟨init, last, rfl⟩
  · simp at inside
  · simp only [length_append, length_cons, length_nil] at inside
    simp only [swapRemove, getLast?_concat]
    by_cases atEnd : position = init.length
    · subst atEnd
      simp [perm_append_singleton last init]
    · have inInit : position < init.length := by omega
      have moved : (init ++ [last]).set position last = init.set position last ++ [last] := by
        simp [set_append_left, inInit]
      rw [moved, dropLast_concat, getElem_append_left inInit]
      have taken := getElem_cons_eraseIdx_perm inInit
      have placed := set_perm_cons_eraseIdx inInit last
      calc List.Perm (init ++ [last]) (last :: init) := perm_append_singleton last init
        _ |>.Perm (last :: init[position] :: init.eraseIdx position) := taken.symm.cons last
        _ |>.Perm (init[position] :: last :: init.eraseIdx position) := List.Perm.swap ..
        _ |>.Perm (init[position] :: init.set position last) := placed.symm.cons _

theorem dropLast_perm {values : List α} {last : α} (found : values.getLast? = some last) :
    List.Perm values (last :: values.dropLast) := by
  rcases eq_nil_or_concat' values with rfl | ⟨init, final, rfl⟩
  · simp at found
  · simp only [getLast?_concat, Option.some.injEq] at found
    subst found
    simp [perm_append_singleton final init]

theorem find?_of_findIdx? {p : α → Bool} {values : List α} {position : Nat}
    (found : values.findIdx? p = some position) :
    ∃ value, values.find? p = some value ∧
      List.Perm values (value :: swapRemove values position) := by
  obtain ⟨inside, holds, first⟩ := findIdx?_eq_some_iff_getElem.mp found
  refine ⟨values[position], ?_, swapRemove_perm inside⟩
  exact find?_eq_some_iff_getElem.mpr ⟨holds, position, inside, rfl,
    fun earlier before => by simpa using first earlier before⟩

theorem find?_of_findIdx?_none {p : α → Bool} {values : List α}
    (missing : values.findIdx? p = none) : values.find? p = none := by
  rw [findIdx?_eq_none_iff] at missing
  exact find?_eq_none.mpr fun value mem => by simp [missing value mem]

variable {metas : List SnapshotMeta} {tenant : Option TenantId}

theorem releaseMeta_perm {createdAt : Option Nat} {entry : SnapshotMeta}
    (released : releasedMeta tenant createdAt metas = some entry) :
    List.Perm metas (entry :: releaseMeta tenant createdAt metas) := by
  cases createdAt with
  | some time =>
    simp only [releasedMeta] at released
    simp only [releaseMeta]
    split
    · rename_i position search
      obtain ⟨value, found, perm⟩ := find?_of_findIdx? search
      rw [found, Option.some_or, Option.some.injEq] at released
      exact released ▸ perm
    · rename_i missing
      rw [find?_of_findIdx?_none missing, Option.none_or] at released
      split
      · rename_i position search
        obtain ⟨value, found, perm⟩ := find?_of_findIdx? search
        rw [found, Option.some_or, Option.some.injEq] at released
        exact released ▸ perm
      · rename_i nobody
        rw [find?_of_findIdx?_none nobody, Option.none_or] at released
        exact dropLast_perm released
  | none =>
    cases tenant with
    | none => exact dropLast_perm released
    | some owner =>
      simp only [releasedMeta] at released
      simp only [releaseMeta]
      split
      · rename_i position search
        obtain ⟨value, found, perm⟩ := find?_of_findIdx? search
        rw [found, Option.some_or, Option.some.injEq] at released
        exact released ▸ perm
      · rename_i missing
        rw [find?_of_findIdx?_none missing, Option.none_or] at released
        exact dropLast_perm released

theorem releaseMeta_of_none {createdAt : Option Nat}
    (released : releasedMeta tenant createdAt metas = none) : metas = [] := by
  unfold releasedMeta at released
  cases createdAt with
  | some time => simpa using (Option.or_eq_none_iff.mp (Option.or_eq_none_iff.mp released).2).2
  | none =>
    cases tenant with
    | none => simpa using released
    | some owner => simpa using (Option.or_eq_none_iff.mp released).2

theorem releasedMeta_time {time : Nat}
    {entry : SnapshotMeta} (released : releasedMeta tenant (some time) metas = some entry)
    (present : ∃ other ∈ metas, other.createdAt = time) :
    entry.createdAt = time ∧ (tenant = none ∨ entry.tenant = tenant ∨
      ∀ other ∈ metas, other.createdAt = time → other.tenant ≠ tenant) := by
  simp only [releasedMeta] at released
  cases own : metas.find? (fun entry =>
      entry.createdAt = time && (tenant.isNone || decide (entry.tenant = tenant))) with
  | some value =>
    rw [own, Option.some_or, Option.some.injEq] at released
    subst released
    have holds := find?_some own
    simp only [Bool.and_eq_true, Bool.or_eq_true, decide_eq_true_eq, Option.isNone_iff_eq_none]
      at holds
    exact ⟨holds.1, holds.2.imp_right .inl⟩
  | none =>
    rw [own, Option.none_or] at released
    have foreign : ∀ other ∈ metas, other.createdAt = time → other.tenant ≠ tenant := by
      intro other mem sameTime sameTenant
      have refused := find?_eq_none.mp own other mem
      simp [sameTime, sameTenant] at refused
    cases sameTime : metas.find? (fun entry => decide (entry.createdAt = time)) with
    | some value =>
      rw [sameTime, Option.some_or, Option.some.injEq] at released
      subst released
      exact ⟨by simpa using find?_some sameTime, .inr (.inr foreign)⟩
    | none =>
      obtain ⟨other, mem, created⟩ := present
      have refused := find?_eq_none.mp sameTime other mem
      simp [created] at refused

/-- Created at `time`, and of no tenant or of one of `tenants`. -/
def SnapshotMeta.within (time : Nat) (tenants : TenantId → Bool) (entry : SnapshotMeta) : Bool :=
  decide (entry.createdAt = time) && entry.tenant.all tenants

/-- Every holder can be given a registration of its creation time that is its tenant's
or nobody's. -/
def Backs (entries holders : List SnapshotMeta) : Prop :=
  ∀ time tenants, holders.countP (·.within time tenants) ≤ entries.countP (·.within time tenants)

namespace Backs

variable {entries holders : List SnapshotMeta}

theorem push (backs : Backs entries holders) (entry : SnapshotMeta) :
    Backs (entries ++ [entry]) (holders ++ [entry]) := by
  intro time tenants
  simp only [countP_append]
  exact Nat.add_le_add_right (backs time tenants) _

theorem more (backs : Backs entries holders) (entry : SnapshotMeta) :
    Backs (entries ++ [entry]) holders := by
  intro time tenants
  simp only [countP_append]
  exact (backs time tenants).trans (Nat.le_add_right _ _)

theorem exists_mem (backs : Backs entries holders) {holder : SnapshotMeta}
    (mem : holder ∈ holders) : ∃ entry ∈ entries, entry.createdAt = holder.createdAt := by
  have counted : 0 < holders.countP (·.within holder.createdAt fun _ => true) :=
    countP_pos_iff.mpr ⟨holder, mem, by
      cases same : holder.tenant <;> simp [SnapshotMeta.within, same]⟩
  obtain ⟨entry, inEntries, holds⟩ :=
    countP_pos_iff.mp (counted.trans_le (backs holder.createdAt fun _ => true))
  simp only [SnapshotMeta.within, Bool.and_eq_true, decide_eq_true_eq] at holds
  exact ⟨entry, inEntries, holds.1⟩

theorem release_spare (backs : Backs entries holders) {entry : SnapshotMeta}
    {left : List SnapshotMeta} (taken : List.Perm entries (entry :: left))
    (spare : ∀ tenants : TenantId → Bool, entry.tenant.all tenants = true →
      holders.countP (·.within entry.createdAt tenants) <
        entries.countP (·.within entry.createdAt tenants)) : Backs left holders := by
  intro time tenants
  have before := backs time tenants
  rw [taken.countP_eq, countP_cons] at before
  cases inside : entry.within time tenants with
  | false => simpa [inside] using before
  | true =>
    simp only [SnapshotMeta.within, Bool.and_eq_true, decide_eq_true_eq] at inside
    obtain ⟨rfl, inSet⟩ := inside
    have strict := spare tenants inSet
    rw [taken.countP_eq, countP_cons_of_pos (by simp [SnapshotMeta.within, inSet])] at strict
    omega

theorem release_own (backs : Backs entries holders) {entry holder : SnapshotMeta}
    {left others : List SnapshotMeta} (taken : List.Perm entries (entry :: left))
    (leaves : List.Perm holders (holder :: others)) (sameTime : entry.createdAt = holder.createdAt)
    (fits : holder.tenant = none ∨ entry.tenant = holder.tenant ∨
      ∀ other ∈ entries, other.createdAt = holder.createdAt → other.tenant ≠ holder.tenant) :
    Backs left others := by
  intro time tenants
  have before := backs time tenants
  rw [taken.countP_eq, leaves.countP_eq, countP_cons, countP_cons] at before
  cases entryIn : entry.within time tenants with
  | false =>
    simp only [entryIn, Bool.false_eq_true, if_false] at before
    omega
  | true =>
    cases holderIn : holder.within time tenants with
    | true =>
      simp only [entryIn, holderIn, if_true] at before
      omega
    | false =>
      -- the holder's tenant is outside the set, so it may be added to the set
      simp only [SnapshotMeta.within, Bool.and_eq_true, decide_eq_true_eq] at entryIn
      obtain ⟨rfl, inSet⟩ := entryIn
      have outside : holder.tenant.all tenants = false := by
        simpa [SnapshotMeta.within, sameTime] using holderIn
      cases owner : holder.tenant with
      | none => simp [owner] at outside
      | some tenant =>
        have foreign : ∀ other ∈ entries, other.createdAt = entry.createdAt →
            other.tenant ≠ some tenant := by
          rcases fits with none | same | foreign
          · simp [owner] at none
          · rw [same, outside] at inSet
            cases inSet
          · rwa [owner, ← sameTime] at foreign
        have wider := backs entry.createdAt fun other => tenants other || decide (other = tenant)
        have same : entries.countP (·.within entry.createdAt fun other =>
              tenants other || decide (other = tenant)) =
            entries.countP (·.within entry.createdAt tenants) := by
          refine countP_congr fun other mem => ?_
          have apart := foreign other mem
          cases tenantOf : other.tenant with
          | none => simp [SnapshotMeta.within, tenantOf]
          | some its =>
            by_cases created : other.createdAt = entry.createdAt
            · have different : its ≠ tenant := fun equal =>
                apart created (tenantOf.trans (congrArg some equal))
              simp [SnapshotMeta.within, tenantOf, different]
            · simp [SnapshotMeta.within, created]
        have grows : others.countP (·.within entry.createdAt tenants) ≤
            others.countP (·.within entry.createdAt fun other =>
              tenants other || decide (other = tenant)) := by
          refine countP_mono_left fun other _ inside => ?_
          simp only [SnapshotMeta.within, Bool.and_eq_true] at inside ⊢
          refine ⟨inside.1, ?_⟩
          cases tenantOf : other.tenant with
          | none => rfl
          | some its =>
            have inTenants : tenants its = true := by simpa [tenantOf] using inside.2
            simp [inTenants]
        rw [same, leaves.countP_eq, countP_cons_of_pos (by
          simp [SnapshotMeta.within, sameTime, owner]), taken.countP_eq,
          countP_cons_of_pos (by simp [SnapshotMeta.within, inSet])] at wider
        omega

theorem filter_tenant (backs : Backs entries holders) (tenant : TenantId) :
    Backs (entries.filter fun entry => !decide (entry.tenant = some tenant))
      (holders.filter fun entry => !decide (entry.tenant = some tenant)) := by
  intro time tenants
  have smaller := backs time fun other => tenants other && !decide (other = tenant)
  have same (list : List SnapshotMeta) :
      (list.filter fun entry => !decide (entry.tenant = some tenant)).countP
          (·.within time tenants) =
        list.countP (·.within time fun other => tenants other && !decide (other = tenant)) := by
    rw [countP_filter]
    refine countP_congr fun entry _ => ?_
    cases tenantOf : entry.tenant with
    | none => simp [SnapshotMeta.within, tenantOf]
    | some its => simp [SnapshotMeta.within, tenantOf, and_assoc]
  rwa [same, same]

theorem filter_time (backs : Backs entries holders) (gone : Nat → Bool) :
    Backs (entries.filter fun entry => !gone entry.createdAt)
      (holders.filter fun entry => !gone entry.createdAt) := by
  intro time tenants
  simp only [countP_filter]
  cases expired : gone time with
  | true =>
    have nobody : holders.countP (fun entry =>
        entry.within time tenants && !gone entry.createdAt) = 0 := by
      refine countP_eq_zero.mpr fun entry _ holds => ?_
      simp only [SnapshotMeta.within, Bool.and_eq_true, decide_eq_true_eq] at holds
      obtain ⟨⟨rfl, -⟩, stays⟩ := holds
      simp [expired] at stays
    rw [nobody]
    exact Nat.zero_le _
  | false =>
    have same (list : List SnapshotMeta) :
        list.countP (fun entry => entry.within time tenants && !gone entry.createdAt) =
          list.countP (·.within time tenants) := by
      refine countP_congr fun entry _ => ?_
      by_cases created : entry.createdAt = time
      · simp [SnapshotMeta.within, created, expired]
      · simp [SnapshotMeta.within, created]
    rw [same, same]
    exact backs time tenants

end Backs

namespace SnapshotRegistry

def entriesAt (registry : SnapshotRegistry) (seqNo : Nat) : List SnapshotMeta :=
  (registry.active[seqNo]?).getD []

/-- The published minimum is the smallest registered sequence, or the sentinel. -/
structure Exact (registry : SnapshotRegistry) : Prop where
  lower : ∀ seqNo, registry.entriesAt seqNo ≠ [] → registry.minActiveSeqno ≤ seqNo
  attained : registry.entriesAt registry.minActiveSeqno ≠ [] ∨
    (registry.minActiveSeqno = noSnapshot ∧ ∀ seqNo, registry.entriesAt seqNo = [])

/-- No list of the map is empty, and the published minimum is up to date. -/
structure WellFormed (registry : SnapshotRegistry) : Prop where
  filled : ∀ seqNo : Nat, registry.active[seqNo]? ≠ some []
  current : registry.minActiveSeqno = registry.active.keys.head?.getD noSnapshot

variable {registry : SnapshotRegistry}

theorem WellFormed.exact (wellFormed : registry.WellFormed) : registry.Exact := by
  have listed (seqNo : Nat) (registered : registry.entriesAt seqNo ≠ []) :
      seqNo ∈ registry.active.keys := by
    refine TreeMap.mem_keys.mpr (TreeMap.mem_iff_isSome_getElem?.mpr ?_)
    cases found : registry.active[seqNo]? with
    | none => simp [entriesAt, found] at registered
    | some metas => rfl
  have ascending := registry.active.ordered_keys.imp Nat.compare_eq_lt.mp
  cases keys : registry.active.keys with
  | nil =>
    have empty (seqNo : Nat) : registry.entriesAt seqNo = [] := by
      by_contra registered
      simpa [keys] using listed seqNo registered
    exact ⟨fun seqNo registered => absurd (empty seqNo) registered,
      .inr ⟨by simp [wellFormed.current, keys], empty⟩⟩
  | cons first rest =>
    have minimum : registry.minActiveSeqno = first := by simp [wellFormed.current, keys]
    rw [keys] at ascending
    constructor
    · intro seqNo registered
      have mem := listed seqNo registered
      rw [keys] at mem
      rw [minimum]
      rcases mem_cons.mp mem with rfl | later
      · exact le_rfl
      · exact ((pairwise_cons.mp ascending).1 seqNo later).le
    · refine .inl ?_
      have present : first ∈ registry.active :=
        TreeMap.mem_keys.mp (keys ▸ mem_cons_self)
      obtain ⟨metas, found⟩ :=
        Option.isSome_iff_exists.mp (TreeMap.mem_iff_isSome_getElem?.mp present)
      intro empty
      rw [minimum, entriesAt, found, Option.getD_some] at empty
      exact wellFormed.filled first (empty ▸ found)

theorem new_wellFormed : new.WellFormed := ⟨by simp [new], rfl⟩

@[simp] theorem entriesAt_updateMin (active : TreeMap Nat (List SnapshotMeta)) (seqNo : Nat) :
    (updateMin active).entriesAt seqNo = (active[seqNo]?).getD [] := rfl

theorem updateMin_wellFormed {active : TreeMap Nat (List SnapshotMeta)}
    (filled : ∀ seqNo : Nat, active[seqNo]? ≠ some []) : (updateMin active).WellFormed :=
  ⟨filled, rfl⟩

theorem entriesAt_push (registry : SnapshotRegistry) (target seqNo : Nat) (entry : SnapshotMeta) :
    (registry.push target entry).entriesAt seqNo =
      if seqNo = target then registry.entriesAt target ++ [entry] else registry.entriesAt seqNo := by
  simp only [push, entriesAt_updateMin, TreeMap.getElem?_insert, Nat.compare_eq_eq]
  by_cases same : seqNo = target
  · subst same
    simp [entriesAt]
  · rw [if_neg (fun h => same h.symm), if_neg same]
    rfl

theorem push_wellFormed (wellFormed : registry.WellFormed) (target : Nat) (entry : SnapshotMeta) :
    (registry.push target entry).WellFormed := by
  refine updateMin_wellFormed fun seqNo => ?_
  rw [TreeMap.getElem?_insert]
  split
  · simp
  · exact wellFormed.filled seqNo

theorem entriesAt_releaseForTenantAt (registry : SnapshotRegistry) (tenant : Option TenantId)
    {word : Nat} (createdAt : Option Nat) (seqNo : Nat) :
    (registry.releaseForTenantAt tenant word createdAt).entriesAt seqNo =
      if seqNo = word % tombstoneBit then
        releaseMeta tenant createdAt (registry.entriesAt seqNo)
      else registry.entriesAt seqNo := by
  simp only [releaseForTenantAt]
  by_cases same : seqNo = word % tombstoneBit
  · subst same
    rw [if_pos rfl]
    cases found : registry.active[word % tombstoneBit]? with
    | none =>
      have nothing : releaseMeta tenant createdAt [] = [] := by
        cases createdAt <;> cases tenant <;> rfl
      simp [entriesAt, found, nothing, updateMin]
    | some metas =>
      simp only [entriesAt, found, Option.getD_some]
      cases releaseMeta tenant createdAt metas <;> simp [updateMin]
  · have other : ¬ word % tombstoneBit = seqNo := fun h => same h.symm
    rw [if_neg same]
    split
    · split <;> simp [entriesAt, TreeMap.getElem?_erase, TreeMap.getElem?_insert, updateMin, other]
    · rfl

theorem releaseForTenantAt_wellFormed (wellFormed : registry.WellFormed)
    (tenant : Option TenantId) (word : Nat) (createdAt : Option Nat) :
    (registry.releaseForTenantAt tenant word createdAt).WellFormed := by
  simp only [releaseForTenantAt]
  split
  · split
    · refine updateMin_wellFormed fun seqNo => ?_
      rw [TreeMap.getElem?_erase]
      split
      · simp
      · exact wellFormed.filled seqNo
    · rename_i metas _ left nonempty
      refine updateMin_wellFormed fun seqNo => ?_
      rw [TreeMap.getElem?_insert]
      split
      · intro empty
        exact nonempty (Option.some.inj empty)
      · exact wellFormed.filled seqNo
  · exact updateMin_wellFormed wellFormed.filled

theorem retained_getElem? (registry : SnapshotRegistry) (keep : Nat → SnapshotMeta → Bool)
    (seqNo : Nat) :
    (registry.retain keep).active[seqNo]? =
      (registry.active[seqNo]?).bind fun metas =>
        match metas.filter (keep seqNo) with
        | [] => none
        | left => some left :=
  TreeMap.getElem?_filterMap'

theorem entriesAt_retain (registry : SnapshotRegistry) (keep : Nat → SnapshotMeta → Bool)
    (seqNo : Nat) :
    (registry.retain keep).entriesAt seqNo = (registry.entriesAt seqNo).filter (keep seqNo) := by
  simp only [entriesAt, retained_getElem?]
  cases registry.active[seqNo]? with
  | none => rfl
  | some metas =>
    simp only [Option.bind_some, Option.getD_some]
    cases metas.filter (keep seqNo) <;> rfl

theorem retain_wellFormed (registry : SnapshotRegistry) (keep : Nat → SnapshotMeta → Bool) :
    (registry.retain keep).WellFormed := by
  refine ⟨fun seqNo => ?_, rfl⟩
  rw [retained_getElem?]
  cases registry.active[seqNo]? with
  | none => simp
  | some metas =>
    simp only [Option.bind_some]
    split
    · simp
    · rename_i nonempty
      intro empty
      exact nonempty (Option.some.inj empty)

end SnapshotRegistry

namespace Snapshots

open SnapshotRegistry

/-- The guard still counts on its registration at the sequence. -/
def LiveGuard.holds (seqNo : Nat) (live : LiveGuard) : Bool :=
  !live.lapsed && decide (live.guard.seqNo = seqNo)

def holdersOf (guards : List LiveGuard) (seqNo : Nat) : List SnapshotMeta :=
  (guards.filter (LiveGuard.holds seqNo)).map (·.guard.entry)

/-- The registrations of the guards that neither were revoked nor expired. -/
def holders (state : Snapshots) (seqNo : Nat) : List SnapshotMeta := holdersOf state.guards seqNo

/-- The registration is not needed: in every set of tenants with its own, the
registrations of its creation time outnumber the guards. -/
def Spare (state : Snapshots) (seqNo : Nat) (entry : SnapshotMeta) : Prop :=
  ∀ tenants : TenantId → Bool, entry.tenant.all tenants = true →
    (state.holders seqNo).countP (·.within entry.createdAt tenants) <
      (state.registry.entriesAt seqNo).countP (·.within entry.createdAt tenants)

/-- A release that has no registration of its own to give back takes one that is not
needed: the drop of a revoked or expired guard, and an unpin. -/
def Spares (state : Snapshots) : Event → Prop
  | .unpin seqNo =>
    ∀ entry ∈ releasedMeta none none (state.registry.entriesAt (seqNo % tombstoneBit)),
      state.Spare (seqNo % tombstoneBit) entry
  | .dropGuard index =>
    ∀ live ∈ state.guards[index]?, live.lapsed = true →
      ∀ entry ∈ releasedMeta live.guard.tenant (some live.guard.createdAt)
        (state.registry.entriesAt live.guard.seqNo), state.Spare live.guard.seqNo entry
  | _ => True

/-- A guard that neither was revoked nor expired holds the minimum down. -/
def Protected (state : Snapshots) : Prop :=
  ∀ live ∈ state.guards, live.lapsed = false → state.registry.minActiveSeqno ≤ live.guard.seqNo

/-- The invariant of sparing runs. -/
structure Guarded (state : Snapshots) : Prop where
  wellFormed : state.registry.WellFormed
  masked : ∀ live ∈ state.guards, live.guard.seqNo < tombstoneBit
  backed : ∀ seqNo, Backs (state.registry.entriesAt seqNo) (state.holders seqNo)

theorem holdersOf_append (left right : List LiveGuard) (seqNo : Nat) :
    holdersOf (left ++ right) seqNo = holdersOf left seqNo ++ holdersOf right seqNo := by
  simp [holdersOf]

@[simp] theorem holdersOf_singleton (live : LiveGuard) (seqNo : Nat) :
    holdersOf [live] seqNo = if LiveGuard.holds seqNo live then [live.guard.entry] else [] := by
  simp only [holdersOf, filter_cons, filter_nil]
  split <;> rfl

theorem holdersOf_lapse (covered : SnapshotGuard → Bool) (gone : SnapshotMeta → Bool)
    (guards : List LiveGuard) (seqNo : Nat)
    (same : ∀ live ∈ guards, live.guard.seqNo = seqNo → covered live.guard = gone live.guard.entry) :
    holdersOf (lapse covered guards) seqNo =
      (holdersOf guards seqNo).filter fun entry => !gone entry := by
  induction guards with
  | nil => rfl
  | cons live guards ih =>
    have rest := ih fun other inRest => same other (mem_cons_of_mem _ inRest)
    have head := same live mem_cons_self
    obtain ⟨guard, lapsed⟩ := live
    simp only [holdersOf, lapse] at rest ⊢
    simp only [map_cons, filter_cons, LiveGuard.holds] at rest ⊢
    by_cases here : guard.seqNo = seqNo
    · have covers : covered guard = gone guard.entry := head here
      cases lapsed <;> cases isGone : gone guard.entry <;> simp_all
    · simp_all

variable {state : Snapshots}

theorem Guarded.protected (guarded : state.Guarded) : state.Protected := by
  intro live mem current
  have holder : live.guard.entry ∈ state.holders live.guard.seqNo :=
    List.mem_map.mpr ⟨live, mem_filter.mpr
      ⟨mem, by simp [LiveGuard.holds, current]⟩, rfl⟩
  obtain ⟨entry, registered, -⟩ := (guarded.backed live.guard.seqNo).exists_mem holder
  exact guarded.wellFormed.exact.lower _ (ne_nil_of_mem registered)

theorem initial_guarded : initial.Guarded where
  wellFormed := new_wellFormed
  masked := by simp [initial]
  backed seqNo := by
    intro time tenants
    simp [holders, holdersOf, initial]

theorem step_wellFormed {state next : Snapshots} {event : Event}
    (wellFormed : state.registry.WellFormed) (taken : state.step event = some next) :
    next.registry.WellFormed := by
  cases event with
  | register tenant seqNo atNanos =>
    obtain rfl := Option.some.inj taken
    cases tenant <;> exact push_wellFormed wellFormed _ _
  | pin tenant seqNo atNanos =>
    obtain rfl := Option.some.inj taken
    cases tenant <;> exact push_wellFormed wellFormed _ _
  | unpin seqNo =>
    simp only [step] at taken
    split at taken
    · obtain rfl := Option.some.inj taken
      exact releaseForTenantAt_wellFormed wellFormed none seqNo none
    · cases taken
  | dropGuard index =>
    simp only [step] at taken
    split at taken
    · obtain rfl := Option.some.inj taken
      exact releaseForTenantAt_wellFormed wellFormed _ _ _
    · cases taken
  | revokeCovering tenant start stop gatedSeq =>
    obtain rfl := Option.some.inj taken
    exact retain_wellFormed _ _
  | reapExpiredPins maxNanos nowNanos =>
    obtain rfl := Option.some.inj taken
    exact retain_wellFormed _ _

theorem backs_push (guarded : state.Guarded) (seqNo target : Nat) (entry : SnapshotMeta) :
    Backs ((state.registry.push target entry).entriesAt seqNo) (state.holders seqNo) := by
  rw [entriesAt_push]
  split
  · rename_i same
    exact same ▸ (guarded.backed seqNo).more entry
  · exact guarded.backed seqNo

theorem register_guarded (guarded : state.Guarded) (tenant : Option TenantId)
    (word atNanos : Nat) :
    Guarded { state with
      registry := (state.registry.register tenant word atNanos).1
      guards := state.guards ++ [⟨(state.registry.register tenant word atNanos).2, false⟩] } where
  wellFormed := push_wellFormed guarded.wellFormed _ _
  masked := by
    intro live mem
    rcases mem_append.mp mem with old | new
    · exact guarded.masked live old
    · rw [mem_singleton.mp new]
      exact Nat.mod_lt _ (by decide)
  backed := by
    intro seqNo
    simp only [holders, holdersOf_append, register]
    rw [entriesAt_push]
    by_cases same : seqNo = word % tombstoneBit
    · subst same
      rw [if_pos rfl]
      have pushed := (guarded.backed (word % tombstoneBit)).push ⟨tenant, atNanos⟩
      simp only [holdersOf_singleton, LiveGuard.holds, Bool.not_false, decide_true, Bool.and_self,
        if_true]
      exact pushed
    · have other : ¬ word % tombstoneBit = seqNo := fun h => same h.symm
      rw [if_neg same]
      simp only [holdersOf_singleton, LiveGuard.holds, decide_eq_false other, Bool.and_false,
        Bool.false_eq_true, if_false, append_nil]
      exact guarded.backed seqNo

theorem dropGuard_guarded (guarded : state.Guarded) {index : Nat}
    {live : LiveGuard} (alive : state.guards[index]? = some live)
    (spares : state.Spares (.dropGuard index)) :
    Guarded { state with
      registry := state.registry.dropGuard live.guard
      guards := state.guards.eraseIdx index } := by
  obtain ⟨inside, isLive⟩ := List.getElem?_eq_some_iff.mp alive
  have leaves : List.Perm (live :: state.guards.eraseIdx index) state.guards :=
    isLive ▸ getElem_cons_eraseIdx_perm inside
  have mem : live ∈ state.guards := leaves.subset mem_cons_self
  have raw : live.guard.seqNo % tombstoneBit = live.guard.seqNo :=
    Nat.mod_eq_of_lt (guarded.masked live mem)
  have holdersPerm (seqNo : Nat) : List.Perm (holdersOf [live] seqNo ++
      holdersOf (state.guards.eraseIdx index) seqNo) (state.holders seqNo) := by
    rw [← holdersOf_append]
    exact (leaves.filter _).map _
  refine ⟨releaseForTenantAt_wellFormed guarded.wellFormed _ _ _,
    fun other inRest => guarded.masked other (mem_of_mem_eraseIdx inRest), fun seqNo => ?_⟩
  simp only [holders, SnapshotRegistry.dropGuard]
  rw [entriesAt_releaseForTenantAt, raw]
  by_cases same : seqNo = live.guard.seqNo
  · subst same
    rw [if_pos rfl]
    have backs := guarded.backed live.guard.seqNo
    cases released : releasedMeta live.guard.tenant (some live.guard.createdAt)
        (state.registry.entriesAt live.guard.seqNo) with
    | none =>
      have empty := releaseMeta_of_none released
      intro time tenants
      have nobody := backs time tenants
      rw [empty, ← (holdersPerm live.guard.seqNo).countP_eq, countP_append] at nobody
      simp only [countP_nil] at nobody ⊢
      omega
    | some entry =>
      have left := releaseMeta_perm released
      cases lapsed : live.lapsed with
      | true =>
        have others : holdersOf [live] live.guard.seqNo = [] := by
          simp [LiveGuard.holds, lapsed]
        have rest := backs.release_spare left (spares live alive lapsed entry released)
        have same := holdersPerm live.guard.seqNo
        rw [others, nil_append] at same
        intro time tenants
        rw [same.countP_eq]
        exact rest time tenants
      | false =>
        have own : holdersOf [live] live.guard.seqNo = [live.guard.entry] := by
          simp [LiveGuard.holds, lapsed]
        have same := (holdersPerm live.guard.seqNo).symm
        rw [own] at same
        have held : live.guard.entry ∈ state.holders live.guard.seqNo :=
          same.symm.subset mem_cons_self
        obtain ⟨sameTime, fits⟩ := releasedMeta_time released (backs.exists_mem held)
        exact backs.release_own left same sameTime fits
  · have apart : ¬ live.guard.seqNo = seqNo := fun h => same h.symm
    have other : holdersOf [live] seqNo = [] := by simp [LiveGuard.holds, apart]
    have same' := holdersPerm seqNo
    rw [other, nil_append] at same'
    rw [if_neg same]
    intro time tenants
    rw [same'.countP_eq]
    exact guarded.backed seqNo time tenants

theorem step_guarded {state next : Snapshots} {event : Event} (guarded : state.Guarded)
    (spares : state.Spares event) (taken : state.step event = some next) : next.Guarded := by
  have wellFormed := step_wellFormed guarded.wellFormed taken
  cases event with
  | register tenant seqNo atNanos =>
    obtain rfl := Option.some.inj taken
    cases tenant with
    | none => exact register_guarded guarded none seqNo atNanos
    | some owner => exact register_guarded guarded (some owner) seqNo atNanos
  | pin tenant seqNo atNanos =>
    obtain rfl := Option.some.inj taken
    refine ⟨wellFormed, guarded.masked, fun target => ?_⟩
    cases tenant <;> exact backs_push guarded target _ _
  | unpin seqNo =>
    simp only [step] at taken
    split at taken
    · obtain rfl := Option.some.inj taken
      refine ⟨wellFormed, guarded.masked, fun target => ?_⟩
      simp only [SnapshotRegistry.unpin, holders]
      rw [entriesAt_releaseForTenantAt]
      split
      · rename_i same
        subst same
        cases released : releasedMeta none none
            (state.registry.entriesAt (seqNo % tombstoneBit)) with
        | none =>
          have empty := releaseMeta_of_none released
          have backs := guarded.backed (seqNo % tombstoneBit)
          rw [empty] at backs ⊢
          exact backs
        | some entry =>
          exact (guarded.backed (seqNo % tombstoneBit)).release_spare
            (releaseMeta_perm released) (spares entry released)
      · exact guarded.backed target
    · cases taken
  | dropGuard index =>
    simp only [step] at taken
    split at taken
    · rename_i live alive
      obtain rfl := Option.some.inj taken
      exact dropGuard_guarded guarded alive spares
    · cases taken
  | revokeCovering tenant start stop gatedSeq =>
    obtain rfl := Option.some.inj taken
    refine ⟨wellFormed, fun live mem => ?_, fun seqNo => ?_⟩
    · obtain ⟨old, inGuards, rfl⟩ := List.mem_map.mp mem
      exact guarded.masked old inGuards
    · simp only [holders, SnapshotRegistry.revokeCovering]
      rw [entriesAt_retain, holdersOf_lapse _ (fun entry =>
        revokes start stop gatedSeq seqNo && decide (entry.tenant = some tenant)) _ _
        (by rintro live - rfl; rfl)]
      cases revokes start stop gatedSeq seqNo with
      | true =>
        simp only [Bool.true_and]
        exact (guarded.backed seqNo).filter_tenant tenant
      | false =>
        simp only [Bool.false_and, Bool.not_false, filter_true]
        exact guarded.backed seqNo
  | reapExpiredPins maxNanos nowNanos =>
    obtain rfl := Option.some.inj taken
    refine ⟨wellFormed, fun live mem => ?_, fun seqNo => ?_⟩
    · obtain ⟨old, inGuards, rfl⟩ := List.mem_map.mp mem
      exact guarded.masked old inGuards
    · simp only [holders, SnapshotRegistry.reapExpiredPinsAt]
      rw [entriesAt_retain, holdersOf_lapse _ (fun entry =>
        expired maxNanos nowNanos entry.createdAt) _ _ (by rintro live - rfl; rfl)]
      exact (guarded.backed seqNo).filter_time (expired maxNanos nowNanos)

/-- In every run the published minimum is exact.  Where every release without an own registration
takes one that is not needed, a guard neither revoked nor expired holds the minimum down while it is
alive. -/
theorem guards_protected {events : List Event} {final : Snapshots}
    (finished : run step initial events = some final) :
    final.registry.Exact ∧ (Along step Spares initial events → final.Protected) := by
  constructor
  · have wellFormed := run_preserves (fun state : Snapshots => state.registry.WellFormed)
      (fun state event next => step_wellFormed) new_wellFormed finished
    exact wellFormed.exact
  · intro sparing
    have guarded : final.Guarded := run_invariant
      (fun state event next => step_guarded) initial_guarded sparing finished
    exact guarded.protected

/-- Two tenants hold sequence 100.  The first one is revoked, and the drop of its guard
takes the second one's registration. -/
theorem revokedDrop_releases_other :
    ¬ ∀ events final, run step initial events = some final → final.Protected := by
  intro claim
  obtain ⟨final, finished⟩ : ∃ final, run step initial
      [.register (some 1) 100 1, .register (some 2) 100 2, .revokeCovering 1 50 150 100,
        .dropGuard 0] = some final := ⟨_, rfl⟩
  have values : (run step initial
      [.register (some 1) 100 1, .register (some 2) 100 2, .revokeCovering 1 50 150 100,
        .dropGuard 0]).map (fun state => (state.registry.minActiveSeqno, state.guards)) =
      some (noSnapshot, [⟨⟨100, 2, some 2⟩, false⟩]) := by decide +kernel
  rw [finished] at values
  simp only [Option.map_some, Option.some.injEq, Prod.mk.injEq] at values
  have held := claim _ final finished ⟨⟨100, 2, some 2⟩, false⟩ (by simp [values.2]) rfl
  rw [values.1] at held
  exact absurd held (by decide)

/-- A pin of the same sequence is there to be taken instead. -/
theorem pinnedSequence_protects :
    ∃ final, run step initial [.register (some 1) 100 1, .register (some 2) 100 2,
        .pin none 100 3, .revokeCovering 1 50 150 100, .dropGuard 0] = some final ∧
      final.registry.Exact ∧ final.Protected := by
  obtain ⟨final, finished⟩ : ∃ final, run step initial [.register (some 1) 100 1,
      .register (some 2) 100 2, .pin none 100 3, .revokeCovering 1 50 150 100, .dropGuard 0] =
        some final := ⟨_, rfl⟩
  obtain ⟨exact, sparing⟩ := guards_protected finished
  refine ⟨final, finished, exact, sparing ?_⟩
  refine ⟨trivial, fun first taken => ?_⟩
  obtain rfl := Option.some.inj taken
  refine ⟨trivial, fun second taken => ?_⟩
  obtain rfl := Option.some.inj taken
  refine ⟨trivial, fun third taken => ?_⟩
  obtain rfl := Option.some.inj taken
  refine ⟨trivial, fun fourth taken => ?_⟩
  have guards : fourth.guards = [⟨⟨100, 1, some 1⟩, true⟩, ⟨⟨100, 2, some 2⟩, false⟩] := by
    obtain rfl := Option.some.inj taken
    decide +kernel
  have entries : fourth.registry.entriesAt 100 = [⟨some 2, 2⟩, ⟨none, 3⟩] := by
    obtain rfl := Option.some.inj taken
    decide +kernel
  refine ⟨?_, fun _ _ => trivial⟩
  intro live isLive _ entry released tenants _
  rw [guards] at isLive
  obtain rfl : _ = live := Option.some.inj isLive
  rw [entries] at released ⊢
  obtain rfl : _ = entry := Option.some.inj released
  simp [holders, holdersOf, LiveGuard.holds, guards, SnapshotMeta.within, SnapshotGuard.entry]

end Snapshots

end Contextra.Mvcc
