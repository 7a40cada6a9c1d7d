import Contextra.Store.TenantScoped

/-!
# What a tenant sees

The view of a tenant is the part of the shared store under the tenant's prefix, with the
prefix taken off.  A call through the tenant's wrapper is the same call on the view, and the
calls of other users leave the view as it is, except for `rollback_to_tx`.
-/

namespace Contextra.Store

open Library List Option Function
open scoped Library.ByteOrder

namespace TenantScopedStorage

variable (tenant : TenantId)

theorem makeKey_injective : Function.Injective (makeKey tenant) :=
  fun _ _ same => append_cancel_left same

theorem stripKey_eq_some (key sub : Bytes) :
    stripKey tenant key = some sub ↔ makeKey tenant sub = key := by
  unfold stripKey makeKey
  constructor
  · intro stripped
    split at stripped
    · rename_i starts
      rw [← some.inj stripped]
      exact prefix_iff_eq_append.mp starts
    · contradiction
  · rintro rfl
    rw [if_pos (prefix_append _ sub), drop_left]

@[simp] theorem stripKey_makeKey (key : Bytes) : stripKey tenant (makeKey tenant key) = some key :=
  (stripKey_eq_some tenant _ key).mpr rfl

theorem stripKey_isSome_iff {key : Bytes} :
    (stripKey tenant key).isSome = true ↔ TenantKeyCodec.scanPrefix tenant <+: key := by
  unfold stripKey
  split <;> simp_all

def view (store : OrderedStore) : OrderedStore where
  versions := store.versions.filterMap (VersionedMap.restrict (stripKey tenant))
  buffer := store.buffer.filterMap (VersionedMap.restrict (stripKey tenant))
  staged key := store.staged (makeKey tenant key)
  intentLocks key := store.intentLocks (makeKey tenant key)

section Reads

variable {tenant} {store : OrderedStore}

theorem get_view (key : Bytes) : (view tenant store).get key = store.get (makeKey tenant key) :=
  VersionedMap.lookup_restrict (stripKey_eq_some tenant) store.versions key

def physicalEntry (tenant : TenantId) (entry : KeyValue) : KeyValue :=
  (makeKey tenant entry.1, entry.2)

theorem filter_view (selects : Bytes → Bool) (selected : Bytes → Bool)
    (inside : ∀ key, selects key = true → TenantKeyCodec.scanPrefix tenant <+: key)
    (agree : ∀ key, selects (makeKey tenant key) = selected key) :
    (store.entries.filter fun entry => selects entry.1) =
      ((view tenant store).entries.filter fun entry => selected entry.1).map
        (physicalEntry tenant) := by
  have own := VersionedMap.entries_restrict (stripKey_eq_some tenant)
    (append_strictMono (TenantKeyCodec.scanPrefix tenant)) store.versions
  have narrowed : (store.entries.filter fun entry => selects entry.1) =
      (store.entries.filter fun entry => (stripKey tenant entry.1).isSome).filter
        fun entry => selects entry.1 := by
    rw [List.filter_filter]
    apply filter_congr
    intro entry _
    by_cases chosen : selects entry.1 = true
    · simp [chosen, (stripKey_isSome_iff tenant).mpr (inside entry.1 chosen)]
    · simp [chosen]
  rw [narrowed, OrderedStore.entries, own, List.filter_map]
  congr 1
  apply filter_congr
  intro entry _
  exact agree entry.1

theorem filterStripBatch_map (batch : List KeyValue) :
    filterStripBatch tenant (batch.map (physicalEntry tenant)) = batch := by
  rw [filterStripBatch, filterMap_map]
  have each : (fun entry : KeyValue => (stripKey tenant entry.1).map fun key => (key, entry.2)) ∘
      physicalEntry tenant = some := by
    funext entry
    simp [physicalEntry]
  rw [each, filterMap_some]

theorem limited_map (limit : Nat) (batch : List KeyValue) :
    limited limit (batch.map (physicalEntry tenant)) =
      (limited limit batch).map (physicalEntry tenant) := by
  unfold limited
  split
  · rfl
  · rw [map_take]

theorem page_map (limit : Nat) (batch : List KeyValue) :
    page limit (batch.map (physicalEntry tenant)) =
      ((page limit batch).1.map (physicalEntry tenant),
        (page limit batch).2.map (makeKey tenant)) := by
  unfold page
  simp only [limited_map, length_map, getLast?_map, Prod.mk.injEq, true_and]
  split
  · simp only [Option.map_map]
    rfl
  · rfl

theorem stripResult_page (limit : Nat) (batch : List KeyValue) :
    stripResult tenant (.page (page limit (batch.map (physicalEntry tenant))).1
        (page limit (batch.map (physicalEntry tenant))).2) =
      .page (page limit batch).1 (page limit batch).2 := by
  rw [page_map]
  simp only [stripResult, filterStripBatch_map, bind_map]
  congr 1
  cases (page limit batch).2 <;> simp

theorem upperBound_scanPrefix (tenant : TenantId) :
    upperBoundForPrefix (TenantKeyCodec.scanPrefix tenant) =
      some (tenantMark ++ (decimal tenant ++ [0x3B])) := by
  unfold upperBoundForPrefix TenantKeyCodec.scanPrefix
  rw [← append_assoc, reverse_append, reverse_singleton, singleton_append,
    raiseLast, if_pos (by decide), map_some, reverse_cons, reverse_reverse,
    append_assoc]
  rfl

theorem aboveStart_makeKey (start : Bound) (key : Bytes) :
    (physicalStart tenant start).AboveStart (makeKey tenant key) ↔ start.AboveStart key := by
  cases start with
  | included start => exact append_le_append_iff _
  | excluded start => exact append_lt_append_iff _
  | unbounded => exact iff_of_true (le_append _ key) trivial

theorem belowEnd_makeKey (finish : Bound) (key : Bytes) :
    (physicalEnd tenant finish).BelowEnd (makeKey tenant key) ↔ finish.BelowEnd key := by
  cases finish with
  | included finish => exact append_le_append_iff _
  | excluded finish => exact append_lt_append_iff _
  | unbounded =>
    have raised := upperBound_scanPrefix tenant
    have below := (upperBoundForPrefix_bound raised (makeKey tenant key)).mp
      (prefix_append _ key)
    simp only [physicalEnd, raised]
    exact iff_of_true below.2 trivial

theorem scanPrefix_le_of_aboveStart {start : Bound} {key : Bytes}
    (above : (physicalStart tenant start).AboveStart key) :
    TenantKeyCodec.scanPrefix tenant ≤ key := by
  cases start with
  | included start => exact (le_append _ start).trans above
  | excluded start => exact (le_append _ start).trans (le_of_lt above)
  | unbounded => exact above

theorem prefix_of_inRange {start finish : Bound} {key : Bytes}
    (above : (physicalStart tenant start).AboveStart key)
    (below : (physicalEnd tenant finish).BelowEnd key) :
    TenantKeyCodec.scanPrefix tenant <+: key := by
  have least := scanPrefix_le_of_aboveStart above
  have least' : TenantKeyCodec.scanPrefix tenant ++ [] ≤ key := by rwa [append_nil]
  cases finish with
  | included finish => exact prefix_of_between least' below
  | excluded finish => exact prefix_of_between least' (le_of_lt below)
  | unbounded =>
    have raised := upperBound_scanPrefix tenant
    simp only [physicalEnd, raised] at below
    exact (upperBoundForPrefix_bound raised key).mpr ⟨least, below⟩

theorem range_view (start finish : Bound) :
    (store.entries.filter fun entry =>
        checkInRange (physicalStart tenant start) (physicalEnd tenant finish) entry.1) =
      ((view tenant store).entries.filter fun entry => checkInRange start finish entry.1).map
        (physicalEntry tenant) := by
  apply filter_view
  · intro key inRange
    rw [checkInRange, Bool.and_eq_true, decide_eq_true_eq, decide_eq_true_eq] at inRange
    exact prefix_of_inRange inRange.1 inRange.2
  · intro key
    simp only [checkInRange, aboveStart_makeKey, belowEnd_makeKey]

theorem makeKey_prefix_iff {start key : Bytes} :
    makeKey tenant start <+: makeKey tenant key ↔ start <+: key :=
  prefix_append_right_inj _

theorem scanPrefix_view (start : Bytes) :
    store.scanPrefix (makeKey tenant start) =
      ((view tenant store).scanPrefix start).map (physicalEntry tenant) := by
  apply filter_view (fun key => makeKey tenant start <+: key) fun key => start <+: key
  · intro key chosen
    rw [decide_eq_true_eq] at chosen
    exact (prefix_append _ start).trans chosen
  · intro key
    simp only [makeKey_prefix_iff]

theorem scanPrefixBounded_view (start : Bytes) (cursor : Option Bytes) :
    (store.entries.filter fun entry => makeKey tenant start <+: entry.1 ∧
        ∀ after ∈ cursor.map (makeKey tenant), after < entry.1) =
      ((view tenant store).entries.filter fun entry => start <+: entry.1 ∧
        ∀ after ∈ cursor, after < entry.1).map (physicalEntry tenant) := by
  apply filter_view (fun key => makeKey tenant start <+: key ∧
      ∀ after ∈ cursor.map (makeKey tenant), after < key)
    fun key => start <+: key ∧ ∀ after ∈ cursor, after < key
  · intro key chosen
    rw [decide_eq_true_eq] at chosen
    exact (prefix_append _ start).trans chosen.1
  · intro key
    rw [decide_eq_decide, makeKey_prefix_iff]
    cases cursor with
    | none => simp
    | some after => simp [makeKey, append_lt_append_iff]

end Reads

section Writes

variable {tenant} {store : OrderedStore}

theorem restrict_makeKey (tx : TxId) (key : Bytes) (value : Option Bytes) :
    VersionedMap.restrict (stripKey tenant) (⟨tx, makeKey tenant key, value⟩ : KeyVersion) =
      some ⟨tx, key, value⟩ := by
  simp [VersionedMap.restrict]

theorem update_makeKey {β : Type} (values : Bytes → β) (key : Bytes) (value : β) :
    (fun sub => Function.update values (makeKey tenant key) value (makeKey tenant sub)) =
      Function.update (fun sub => values (makeKey tenant sub)) key value :=
  update_comp_eq_of_injective values (makeKey_injective tenant) key value

theorem view_stageKv (tx : TxId) (key : Bytes) (value : Option Bytes) :
    view tenant (store.stageKv tx (makeKey tenant key) value) =
      (view tenant store).stageKv tx key value := by
  simp only [view, OrderedStore.stageKv, filterMap_append, filterMap_cons,
    restrict_makeKey, filterMap_nil, Intents.trackKeyStage, update_makeKey]

theorem view_lockIntent (key : Bytes) (holder : Option TxId) :
    view tenant (store.lockIntent (makeKey tenant key) holder) =
      (view tenant store).lockIntent key holder := by
  simp only [view, OrderedStore.lockIntent, update_makeKey]

theorem view_putBatch (tx : TxId) (batch : List KeyValue) :
    view tenant (store.putBatch tx (batch.map (physicalEntry tenant))) =
      (view tenant store).putBatch tx batch := by
  induction batch generalizing store with
  | nil => rfl
  | cons entry batch ih =>
    have first : view tenant (store.stageKv tx (makeKey tenant entry.1) (some entry.2)) =
        (view tenant store).stageKv tx entry.1 (some entry.2) := view_stageKv tx _ _
    have later := @ih (store.stageKv tx (makeKey tenant entry.1) (some entry.2))
    rw [first] at later
    exact later

theorem view_deleteMany (tx : TxId) (keys : List Bytes) :
    view tenant (store.deleteMany tx (keys.map (makeKey tenant))).2 =
      ((view tenant store).deleteMany tx keys).2 := by
  have stripped : (keys.map fun key => (⟨tx, makeKey tenant key, none⟩ : KeyVersion)).filterMap
      (VersionedMap.restrict (stripKey tenant)) =
        keys.map fun key => (⟨tx, key, none⟩ : KeyVersion) := by
    rw [filterMap_map]
    have each : (VersionedMap.restrict (stripKey tenant) ∘
        fun key => (⟨tx, makeKey tenant key, none⟩ : KeyVersion)) =
          fun key => some (⟨tx, key, none⟩ : KeyVersion) := by
      funext key
      exact restrict_makeKey tx key none
    rw [each, filterMap_eq_map']
  simp only [view, OrderedStore.deleteMany, List.map_map, filterMap_append,
    comp_def, stripped]

theorem view_putIfAbsent (tx : TxId) (key value : Bytes) :
    (store.putIfAbsent tx (makeKey tenant key) value).1 =
        ((view tenant store).putIfAbsent tx key value).1 ∧
      view tenant (store.putIfAbsent tx (makeKey tenant key) value).2 =
        ((view tenant store).putIfAbsent tx key value).2 := by
  have sameStaged : Intents.stagedStatus (view tenant store).staged key =
      Intents.stagedStatus store.staged (makeKey tenant key) := rfl
  have sameLock : (view tenant store).intentLocks key =
      store.intentLocks (makeKey tenant key) := rfl
  unfold OrderedStore.putIfAbsent
  rw [sameStaged, sameLock, get_view]
  split
  · exact ⟨rfl, rfl⟩
  · split
    · exact ⟨rfl, rfl⟩
    · split
      · exact ⟨rfl, view_lockIntent key none⟩
      · refine ⟨rfl, ?_⟩
        rw [view_stageKv, view_lockIntent]

theorem opsOf_view (tx : TxId) :
    (view tenant store).opsOf tx =
      (store.opsOf tx).filterMap (VersionedMap.restrict (stripKey tenant)) :=
  (VersionedMap.filter_tx_restrict (stripKey tenant) (fun other => other = tx) store.buffer).symm

theorem mem_keys_restrict {ops : List KeyVersion} {key : Bytes} :
    key ∈ (ops.filterMap (VersionedMap.restrict (stripKey tenant))).map Version.key ↔
      makeKey tenant key ∈ ops.map Version.key := by
  simp only [List.mem_map, mem_filterMap, VersionedMap.restrict]
  constructor
  · rintro ⟨_, ⟨op, mem, restricted⟩, rfl⟩
    obtain ⟨sub, stripped, rfl⟩ := map_eq_some_iff.mp restricted
    exact ⟨op, mem, ((stripKey_eq_some tenant _ _).mp stripped).symm⟩
  · rintro ⟨op, mem, own⟩
    refine ⟨⟨op.tx, key, op.value⟩, ⟨op, mem, ?_⟩, rfl⟩
    rw [own, stripKey_makeKey]
    rfl

theorem view_finish (tx : TxId) :
    view tenant (store.finish tx) = (view tenant store).finish tx := by
  have buffer := VersionedMap.filter_tx_restrict (stripKey tenant)
    (fun other => other ≠ tx) store.buffer
  unfold OrderedStore.finish
  rw [opsOf_view]
  simp only [mem_keys_restrict]
  simp only [view, buffer]

theorem view_commit (tx : TxId) :
    view tenant (store.commit tx) = (view tenant store).commit tx := by
  have finished : view tenant (store.finish tx) = (view tenant store).finish tx := view_finish tx
  unfold OrderedStore.commit
  rw [← finished, opsOf_view]
  simp only [view, filterMap_append]

theorem view_rollbackToTx (target : TxId) :
    view tenant (store.rollbackToTx target) = (view tenant store).rollbackToTx target := by
  have versions := VersionedMap.filter_tx_restrict (stripKey tenant)
    (fun tx => tx ≤ target) store.versions
  simp only [OrderedStore.rollbackToTx, view, versions]

theorem call_view (op : StorageOp) :
    ((call tenant store op).1, view tenant (call tenant store op).2) =
      (view tenant store).call op := by
  unfold call
  cases op with
  | get key => simp only [physicalOp, OrderedStore.call, stripResult, get_view]
  | put tx key value => simp only [physicalOp, OrderedStore.call, stripResult, view_stageKv]
  | putIfAbsent tx key value =>
    obtain ⟨answer, effect⟩ := @view_putIfAbsent tenant store tx key value
    simp only [physicalOp, OrderedStore.call, stripResult, answer, effect]
  | putBatch tx batch =>
    have effect := @view_putBatch tenant store tx batch
    exact Prod.ext rfl effect
  | delete tx key => simp only [physicalOp, OrderedStore.call, stripResult, view_stageKv]
  | deleteMany tx keys =>
    have effect := @view_deleteMany tenant store tx keys
    refine Prod.ext ?_ effect
    simp [physicalOp, OrderedStore.call, stripResult, OrderedStore.deleteMany]
  | deletePrefix tx start =>
    have keys : (store.scanPrefix (makeKey tenant start)).map Prod.fst =
        (((view tenant store).scanPrefix start).map Prod.fst).map (makeKey tenant) := by
      rw [scanPrefix_view, List.map_map, List.map_map]
      rfl
    have effect := @view_deleteMany tenant store tx
      (((view tenant store).scanPrefix start).map Prod.fst)
    simp only [physicalOp, OrderedStore.call, stripResult, OrderedStore.deletePrefix, keys, effect]
    simp only [OrderedStore.deleteMany, length_map]
  | commit tx => simp only [physicalOp, OrderedStore.call, stripResult, view_commit]
  | rollback tx => simp only [physicalOp, OrderedStore.call, stripResult, view_finish]
  | rollbackToTx target => simp only [physicalOp, OrderedStore.call, stripResult, view_rollbackToTx]
  | scanPrefix start =>
    simp only [physicalOp, OrderedStore.call, stripResult, scanPrefix_view, filterStripBatch_map]
  | scanPrefixBounded start limit cursor =>
    simp only [physicalOp, OrderedStore.call, OrderedStore.scanPrefixBounded,
      scanPrefixBounded_view, stripResult_page]
  | scan start finish limit =>
    simp only [physicalOp, OrderedStore.call, OrderedStore.scan, stripResult, range_view,
      limited_map, filterStripBatch_map]
  | scanBounded start finish limit cursor =>
    -- the cursor is a bound like the start it takes the place of
    cases cursor with
    | none =>
      have inRange := @range_view tenant store start finish
      simp only [physicalOp, OrderedStore.call, OrderedStore.scanBounded, map_none,
        inRange, stripResult_page]
    | some after =>
      have inRange := @range_view tenant store (.excluded after) finish
      simp only [physicalStart] at inRange
      simp only [physicalOp, OrderedStore.call, OrderedStore.scanBounded, map_some,
        inRange, stripResult_page]

end Writes

end TenantScopedStorage

/-- The staged operations and the intent locks of a transaction are its user's. -/
structure Owned (owner : TxId → User) (store : OrderedStore) : Prop where
  buffer : ∀ op ∈ store.buffer, (owner op.tx).Owns op.key
  locks : ∀ key tx, store.intentLocks key = some tx → (owner tx).Owns key

namespace Owned

variable {owner : TxId → User} {store : OrderedStore}

variable {tx : TxId} {key : Bytes}

theorem stageKv (owned : Owned owner store) (own : (owner tx).Owns key)
    (value : Option Bytes) : Owned owner (store.stageKv tx key value) := by
  refine ⟨?_, owned.locks⟩
  intro op mem
  rcases mem_append.mp mem with before | new
  · exact owned.buffer op before
  · rw [mem_singleton] at new
    exact new ▸ own

theorem putBatch (owned : Owned owner store) {batch : List KeyValue}
    (own : ∀ entry ∈ batch, (owner tx).Owns entry.1) : Owned owner (store.putBatch tx batch) := by
  induction batch generalizing store with
  | nil => exact owned
  | cons entry batch ih =>
    apply ih (owned.stageKv (own entry mem_cons_self) (some entry.2))
    exact fun other mem => own other (mem_cons_of_mem _ mem)

theorem deleteMany (owned : Owned owner store) {keys : List Bytes}
    (own : ∀ key ∈ keys, (owner tx).Owns key) : Owned owner (store.deleteMany tx keys).2 := by
  refine ⟨?_, owned.locks⟩
  intro op mem
  rcases mem_append.mp mem with before | new
  · exact owned.buffer op before
  · obtain ⟨key, key_mem, rfl⟩ := List.mem_map.mp new
    exact own key key_mem

theorem lockIntent (owned : Owned owner store) {holder : Option TxId}
    (own : ∀ tx ∈ holder, (owner tx).Owns key) : Owned owner (store.lockIntent key holder) := by
  refine ⟨owned.buffer, ?_⟩
  intro other tx locked
  change Function.update store.intentLocks key holder other = some tx at locked
  by_cases same : other = key
  · subst same
    rw [update_self] at locked
    exact own tx locked
  · rw [update_of_ne same] at locked
    exact owned.locks other tx locked

theorem finish (owned : Owned owner store) (tx : TxId) : Owned owner (store.finish tx) := by
  constructor
  · intro op mem
    exact owned.buffer op (mem_of_mem_filter mem)
  · intro key holder locked
    exact owned.locks key holder (filter_eq_some_iff.mp locked).1

theorem putIfAbsent (owned : Owned owner store) (own : (owner tx).Owns key) (value : Bytes) :
    Owned owner (store.putIfAbsent tx key value).2 := by
  unfold OrderedStore.putIfAbsent
  split
  · exact owned
  · split
    · exact owned
    · split
      · exact owned.lockIntent (by simp)
      · exact (owned.lockIntent (by simpa using own)).stageKv own (some value)

theorem mem_scanPrefix_keys {start key : Bytes}
    (mem : key ∈ (store.scanPrefix start).map Prod.fst) : start <+: key := by
  obtain ⟨entry, found, rfl⟩ := List.mem_map.mp mem
  simpa using of_mem_filter found

theorem call (owned : Owned owner store) {op : StorageOp}
    (own : ∀ tx ∈ op.tx, ∀ key, op.Writes key → (owner tx).Owns key) :
    Owned owner (store.call op).2 := by
  cases op with
  | put tx key value => exact owned.stageKv (own tx rfl key rfl) (some value)
  | putIfAbsent tx key value => exact owned.putIfAbsent (own tx rfl key rfl) value
  | putBatch tx batch =>
    apply owned.putBatch
    exact fun entry mem => own tx rfl entry.1 (List.mem_map_of_mem mem)
  | delete tx key => exact owned.stageKv (own tx rfl key rfl) none
  | deleteMany tx keys => exact owned.deleteMany (own tx rfl)
  | deletePrefix tx start =>
    apply owned.deleteMany
    exact fun key mem => own tx rfl key (mem_scanPrefix_keys mem)
  | commit tx => exact ⟨(owned.finish tx).buffer, (owned.finish tx).locks⟩
  | rollback tx => exact owned.finish tx
  | rollbackToTx target =>
    refine ⟨owned.buffer, fun key holder locked => ?_⟩
    exact owned.locks key holder (filter_eq_some_iff.mp locked).1
  | get key => exact owned
  | scanPrefix start => exact owned
  | scanPrefixBounded start limit cursor => exact owned
  | scan start finish limit => exact owned
  | scanBounded start finish limit cursor => exact owned

end Owned

namespace TenantScopedStorage

variable {tenant : TenantId} {owner : TxId → User} {store : OrderedStore}

variable {user : User} {key : Bytes}

theorem stripKey_foreign (own : user.Owns key)
    (other : user ≠ .tenant tenant) : stripKey tenant key = none := by
  unfold stripKey
  apply if_neg
  intro starts
  have owned : (User.tenant tenant).Owns key := starts
  exact other (User.owns_unique own owned)

theorem ne_makeKey (own : user.Owns key)
    (other : user ≠ .tenant tenant) (sub : Bytes) : makeKey tenant sub ≠ key := by
  intro same
  have stripped := stripKey_foreign own other
  rw [← same, stripKey_makeKey] at stripped
  contradiction

theorem restrict_foreign {versions : List KeyVersion}
    (own : ∀ version ∈ versions, user.Owns version.key) (other : user ≠ .tenant tenant) :
    versions.filterMap (VersionedMap.restrict (stripKey tenant)) = [] := by
  rw [filterMap_eq_nil_iff]
  intro version mem
  rw [VersionedMap.restrict, stripKey_foreign (own version mem) other]
  rfl

variable {tx : TxId}

theorem view_stageKv_foreign (own : user.Owns key)
    (other : user ≠ .tenant tenant) (value : Option Bytes) :
    view tenant (store.stageKv tx key value) = view tenant store := by
  have nothing : [(⟨tx, key, value⟩ : KeyVersion)].filterMap
      (VersionedMap.restrict (stripKey tenant)) = [] :=
    restrict_foreign (by simpa using own) other
  have staged : ∀ sub, Intents.trackKeyStage store.staged tx key value.isSome (makeKey tenant sub) =
      store.staged (makeKey tenant sub) :=
    fun sub => update_of_ne (ne_makeKey own other sub) _ _
  simp only [view, OrderedStore.stageKv, filterMap_append, nothing, append_nil, staged]

theorem view_lockIntent_foreign (own : user.Owns key)
    (other : user ≠ .tenant tenant) (holder : Option TxId) :
    view tenant (store.lockIntent key holder) = view tenant store := by
  have locks : ∀ sub, Function.update store.intentLocks key holder (makeKey tenant sub) =
      store.intentLocks (makeKey tenant sub) :=
    fun sub => update_of_ne (ne_makeKey own other sub) _ _
  simp only [view, OrderedStore.lockIntent, locks]

theorem view_putBatch_foreign {batch : List KeyValue}
    (own : ∀ entry ∈ batch, user.Owns entry.1) (other : user ≠ .tenant tenant) :
    view tenant (store.putBatch tx batch) = view tenant store := by
  induction batch generalizing store with
  | nil => rfl
  | cons entry batch ih =>
    have later := @ih (store.stageKv tx entry.1 (some entry.2))
      fun other mem => own other (mem_cons_of_mem _ mem)
    exact later.trans (view_stageKv_foreign (own entry mem_cons_self) other _)

theorem view_deleteMany_foreign {keys : List Bytes}
    (own : ∀ key ∈ keys, user.Owns key) (other : user ≠ .tenant tenant) :
    view tenant (store.deleteMany tx keys).2 = view tenant store := by
  have nothing : (keys.map fun key => (⟨tx, key, none⟩ : KeyVersion)).filterMap
      (VersionedMap.restrict (stripKey tenant)) = [] := by
    refine restrict_foreign ?_ other
    intro version mem
    obtain ⟨key, key_mem, rfl⟩ := List.mem_map.mp mem
    exact own key key_mem
  simp only [view, OrderedStore.deleteMany, filterMap_append, nothing, append_nil]

theorem view_putIfAbsent_foreign (own : user.Owns key)
    (other : user ≠ .tenant tenant) (value : Bytes) :
    view tenant (store.putIfAbsent tx key value).2 = view tenant store := by
  unfold OrderedStore.putIfAbsent
  split
  · rfl
  · split
    · rfl
    · split
      · exact view_lockIntent_foreign own other none
      · rw [view_stageKv_foreign own other, view_lockIntent_foreign own other]

theorem opsOf_foreign (owned : Owned owner store) (other : owner tx ≠ .tenant tenant) :
    (store.opsOf tx).filterMap (VersionedMap.restrict (stripKey tenant)) = [] := by
  refine restrict_foreign ?_ other
  intro op mem
  obtain ⟨buffered, same⟩ := mem_filter.mp mem
  rw [decide_eq_true_eq] at same
  exact same ▸ owned.buffer op buffered

theorem view_finish_foreign (owned : Owned owner store)
    (other : owner tx ≠ .tenant tenant) : view tenant (store.finish tx) = view tenant store := by
  -- the view's own step, at a transaction that has nothing in the view
  have noOps : (view tenant store).opsOf tx = [] := by
    rw [opsOf_view, opsOf_foreign owned other]
  have noLocks : ∀ key, ((view tenant store).intentLocks key).filter (· ≠ tx) =
      (view tenant store).intentLocks key := by
    intro key
    cases locked : (view tenant store).intentLocks key with
    | none => rfl
    | some holder =>
      have different : holder ≠ tx := by
        rintro rfl
        have own := owned.locks (makeKey tenant key) holder locked
        exact ne_makeKey own other key rfl
      simp [Option.filter, different]
  have keeps : ((view tenant store).buffer.filter fun op => op.tx ≠ tx) =
      (view tenant store).buffer := by
    rw [filter_eq_self]
    intro op mem
    rw [decide_eq_true_eq]
    rintro rfl
    have listed : op ∈ (view tenant store).opsOf op.tx := mem_filter.mpr ⟨mem, by simp⟩
    rw [noOps] at listed
    contradiction
  rw [view_finish, OrderedStore.finish, noOps]
  simp only [map_nil, not_mem_nil, if_false, noLocks, keeps]

theorem view_call_foreign (owned : Owned owner store) {op : StorageOp}
    (other : user ≠ .tenant tenant) (inside : ∀ tx ∈ op.tx, owner tx = user)
    (own : ∀ key, op.Writes key → user.Owns key) (noRollback : ∀ target, op ≠ .rollbackToTx target) :
    view tenant (store.call op).2 = view tenant store := by
  cases op with
  | put tx key value => exact view_stageKv_foreign (own key rfl) other (some value)
  | putIfAbsent tx key value => exact view_putIfAbsent_foreign (own key rfl) other value
  | putBatch tx batch =>
    refine view_putBatch_foreign ?_ other
    exact fun entry mem => own entry.1 (List.mem_map_of_mem mem)
  | delete tx key => exact view_stageKv_foreign (own key rfl) other none
  | deleteMany tx keys => exact view_deleteMany_foreign own other
  | deletePrefix tx start =>
    refine view_deleteMany_foreign ?_ other
    exact fun key mem => own key (Owned.mem_scanPrefix_keys mem)
  | commit tx =>
    have foreign : owner tx ≠ .tenant tenant := by rwa [inside tx rfl]
    have finished := view_finish_foreign owned foreign
    have noOps := opsOf_foreign owned foreign
    rw [← finished]
    simp only [OrderedStore.call, OrderedStore.commit, view, filterMap_append, noOps,
      append_nil]
    rfl
  | rollback tx =>
    refine view_finish_foreign owned ?_
    rwa [inside tx rfl]
  | rollbackToTx target => exact absurd rfl (noRollback target)
  | get key => rfl
  | scanPrefix start => rfl
  | scanPrefixBounded start limit cursor => rfl
  | scan start finish limit => rfl
  | scanBounded start finish limit cursor => rfl

end TenantScopedStorage

theorem TenantScopedStorage.writes_physicalOp {tenant : TenantId} {op : StorageOp} {key : Bytes}
    (writes : (physicalOp tenant op).Writes key) : (User.tenant tenant).Owns key := by
  have own : ∀ sub, (User.tenant tenant).Owns (makeKey tenant sub) :=
    fun sub => prefix_append _ sub
  cases op with
  | put tx written value | putIfAbsent tx written value =>
    rw [show key = makeKey tenant written from writes]
    exact own written
  | delete tx written =>
    rw [show key = makeKey tenant written from writes]
    exact own written
  | putBatch tx batch =>
    obtain ⟨entry, mem, rfl⟩ := List.mem_map.mp writes
    obtain ⟨entry, _, rfl⟩ := List.mem_map.mp mem
    exact own entry.1
  | deleteMany tx keys =>
    obtain ⟨written, _, rfl⟩ := List.mem_map.mp writes
    exact own written
  | deletePrefix tx start => exact List.IsPrefix.trans (own start) writes
  | get _ | commit _ | rollback _ | rollbackToTx _ | scanPrefix _ | scanPrefixBounded _ _ _
  | scan _ _ _ | scanBounded _ _ _ _ => exact False.elim writes

theorem User.tx_physicalOp (user : User) (op : StorageOp) : (user.physicalOp op).tx = op.tx := by
  cases user with
  | tenant id => cases op <;> rfl
  | direct => rfl

namespace UserCall

variable {owner : TxId → User} {call : UserCall}

theorem Admissible.of_tenant {id : TenantId} {op : StorageOp}
    (owned : ∀ tx ∈ op.tx, owner tx = .tenant id) : Admissible owner ⟨.tenant id, op⟩ :=
  ⟨owned, fun direct => User.noConfusion direct⟩

theorem Admissible.writes (admissible : call.Admissible owner) {key : Bytes}
    (writes : (call.user.physicalOp call.op).Writes key) : call.user.Owns key := by
  obtain ⟨user, op⟩ := call
  cases user with
  | tenant id => exact TenantScopedStorage.writes_physicalOp writes
  | direct => exact admissible.outside rfl key writes

theorem Admissible.inside (admissible : call.Admissible owner) :
    ∀ tx ∈ (call.user.physicalOp call.op).tx, owner tx = call.user := by
  rw [User.tx_physicalOp]
  exact admissible.owned

end UserCall

theorem sharedRun_owned {owner : TxId → User} {calls : List UserCall}
    (admissible : ∀ call ∈ calls, call.Admissible owner) : Owned owner (sharedRun calls) := by
  induction calls using reverseRecOn with
  | nil => exact ⟨by simp [sharedRun, OrderedStore.empty], by simp [sharedRun, OrderedStore.empty]⟩
  | append_singleton calls call ih =>
    have before := ih fun other mem =>
      admissible other (mem_append_left _ mem)
    have last := admissible call (mem_append_right _ mem_cons_self)
    rw [sharedRun, foldl_append]
    refine before.call ?_
    intro tx mem key writes
    rw [last.inside tx mem]
    exact last.writes writes

theorem view_sharedRun {owner : TxId → User} {calls : List UserCall}
    (admissible : ∀ call ∈ calls, call.Admissible owner) (tenant : TenantId) :
    TenantScopedStorage.view tenant (sharedRun calls) =
      privateRun (calls.filterMap (seenOp tenant)) := by
  induction calls using reverseRecOn with
  | nil => rfl
  | append_singleton calls call ih =>
    have earlier : ∀ other ∈ calls, other.Admissible owner := fun other mem =>
      admissible other (mem_append_left _ mem)
    have before := ih earlier
    have owned := sharedRun_owned earlier
    have last := admissible call (mem_append_right _ mem_cons_self)
    have shared : sharedRun (calls ++ [call]) =
        ((sharedRun calls).call (call.user.physicalOp call.op)).2 := by
      simp [sharedRun]
    rw [shared, filterMap_append, privateRun, foldl_append]
    change _ = List.foldl _ (privateRun (calls.filterMap (seenOp tenant))) _
    rw [← before]
    by_cases own : call.user = .tenant tenant
    · -- the tenant's own call
      have seen : seenOp tenant call = some call.op := by
        unfold seenOp
        split
        · rename_i target same
          rw [same]
        · rw [if_pos own]
      have step := congrArg Prod.snd
        (@TenantScopedStorage.call_view tenant (sharedRun calls) call.op)
      rw [own, filterMap_cons_some seen]
      exact step
    · by_cases rolls : ∃ target, call.op = .rollbackToTx target
      · obtain ⟨target, same⟩ := rolls
        have seen : seenOp tenant call = some (.rollbackToTx target) := by
          rw [seenOp, same]
        have physical : call.user.physicalOp call.op = .rollbackToTx target := by
          rw [same]
          cases call.user <;> rfl
        rw [physical, filterMap_cons_some seen]
        exact TenantScopedStorage.view_rollbackToTx target
      · have seen : seenOp tenant call = none := by
          unfold seenOp
          split
          · rename_i target same
            exact absurd ⟨target, same⟩ rolls
          · rw [if_neg own]
        have physical : ∀ target, call.user.physicalOp call.op ≠ .rollbackToTx target := by
          intro target same
          apply rolls
          obtain ⟨user, op⟩ := call
          cases user with
          | tenant id =>
            refine ⟨target, ?_⟩
            cases op <;> simp_all [User.physicalOp, TenantScopedStorage.physicalOp]
          | direct => exact ⟨target, same⟩
        have step := TenantScopedStorage.view_call_foreign owned own last.inside
          (fun key writes => last.writes writes) physical
        rw [filterMap_cons_none seen]
        exact step

theorem seenOp_eq_ownOp {tenant : TenantId} {call : UserCall}
    (noRollback : call.user ≠ .tenant tenant → ∀ target, call.op ≠ .rollbackToTx target) :
    seenOp tenant call = ownOp tenant call := by
  unfold seenOp ownOp
  split
  · rename_i target same
    by_cases own : call.user = .tenant tenant
    · rw [if_pos own, same]
    · exact absurd same (noRollback own target)
  · rfl

/-- A call through a tenant's wrapper answers as on a store that received the tenant's own
operations and every `rollback_to_tx`; where no other user calls that, only the tenant's own. -/
theorem tenant_call_eq {owner : TxId → User} {calls : List UserCall}
    (admissible : ∀ call ∈ calls, call.Admissible owner) (tenant : TenantId) (op : StorageOp) :
    (TenantScopedStorage.call tenant (sharedRun calls) op).1 =
        ((privateRun (calls.filterMap (seenOp tenant))).call op).1 ∧
      ((∀ call ∈ calls, call.user ≠ .tenant tenant → ∀ target, call.op ≠ .rollbackToTx target) →
        (TenantScopedStorage.call tenant (sharedRun calls) op).1 =
          ((privateRun (calls.filterMap (ownOp tenant))).call op).1) := by
  have answers : (TenantScopedStorage.call tenant (sharedRun calls) op).1 =
      ((privateRun (calls.filterMap (seenOp tenant))).call op).1 := by
    rw [← view_sharedRun admissible, ← TenantScopedStorage.call_view]
  refine ⟨answers, fun noRollback => ?_⟩
  have ownOnly : calls.filterMap (seenOp tenant) = calls.filterMap (ownOp tenant) :=
    filterMap_congr fun call mem => seenOp_eq_ownOp (noRollback call mem)
  rw [answers, ownOnly]

/-- Two tenants and a direct user, each with its own transaction. -/
def threeUsers (tx : TxId) : User :=
  if tx = 5 then .tenant 1 else if tx = 6 then .tenant 12 else .direct

/-- Both tenants write the same key, and the direct user deletes what is outside `t:`. -/
def threeUsersCalls : List UserCall :=
  [⟨.tenant 1, .put 5 [0x6B] [1]⟩, ⟨.tenant 12, .put 6 [0x6B] [2]⟩,
    ⟨.direct, .deletePrefix 7 [0x75]⟩, ⟨.tenant 1, .commit 5⟩, ⟨.tenant 12, .commit 6⟩]

/-- The first tenant counts and deletes one key. -/
theorem tenant_call_eq_two_tenants :
    (TenantScopedStorage.call 1 (sharedRun threeUsersCalls) (.deletePrefix 5 [])).1 =
      ((privateRun [.put 5 [0x6B] [1], .commit 5]).call (.deletePrefix 5 [])).1 := by
  have outside : ∀ key : Bytes, [0x75] <+: key → ¬ tenantMark <+: key := by
    rintro _ ⟨later, rfl⟩ ⟨other, same⟩
    exact absurd (List.cons.inj same).1 (by decide)
  have admissible : ∀ call ∈ threeUsersCalls, call.Admissible threeUsers := by
    simp only [threeUsersCalls, forall_mem_cons, not_mem_nil, false_imp_iff, implies_true,
      and_true]
    exact ⟨.of_tenant (by decide), .of_tenant (by decide), ⟨by decide, fun _ => outside⟩,
      .of_tenant (by decide), .of_tenant (by decide)⟩
  exact (tenant_call_eq admissible 1 (.deletePrefix 5 [])).2 (by simp [threeUsersCalls])

/-- The `rollback_to_tx` of a tenant takes away what another tenant has committed. -/
theorem rollbackToTx_hides_other_tenant :
    let calls : List UserCall := [⟨.tenant 1, .put 5 [0x6B] [1]⟩, ⟨.tenant 1, .commit 5⟩,
      ⟨.tenant 2, .rollbackToTx 4⟩]
    (∀ call ∈ calls, call.Admissible threeUsers) ∧
      (TenantScopedStorage.call 1 (sharedRun calls) (.get [0x6B])).1 ≠
        ((privateRun (calls.filterMap (ownOp 1))).call (.get [0x6B])).1 := by
  intro calls
  refine ⟨?_, by decide +kernel⟩
  simp only [calls, forall_mem_cons, not_mem_nil, false_imp_iff, implies_true, and_true]
  exact ⟨.of_tenant (by decide), .of_tenant (by decide), .of_tenant (by decide)⟩

end Contextra.Store
