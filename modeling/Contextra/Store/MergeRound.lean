import Contextra.Store.Merge

/-!
# One round of the compaction merge

What a round does to the loop's variables: the item is treated alone, an operator call fails, or it
folds the item and the heap's next item into one entry.  The rounds keep the streams sorted and the
output before everything that is left, so the builder refuses an oversized merged value only.
-/

namespace Contextra.Store

open Library List

namespace MergeState

/-- The retention decision of one round, from the flag of the item's key. -/
def keeps (floor : Nat) (emitted : Bool) (item : Entry) : Bool :=
  decide (floor < item.raw) || !emitted

def emittedAfter (floor : Nat) (emitted : Bool) (item : Entry) : Bool :=
  if floor < item.raw then emitted else true

/-- `should_gc_tombstone`. -/
def collects (config : MergeConfig) (item : Entry) : Bool :=
  item.seq.tombstone && config.isFullCompaction && decide (item.raw < config.minSnapshotSeq)

/-- What the retention branch adds to the output. -/
def emission (config : MergeConfig) (emitted : Bool) (item : Entry) : List Entry :=
  if keeps config.minSnapshotSeq emitted item && !collects config item then [item] else []

/-- The item is the heap's maximum, taken from the source `index`. -/
def Pops (state : MergeState) (index : Nat) (item : Entry) : Prop :=
  firstHead Entry.Before state.sources = some (index, item)

/-- The streams hold different versions in order, and the output is behind them. -/
structure Placed (state : MergeState) : Prop where
  sorted : ∀ source ∈ state.sources, source.Pairwise Entry.Before
  apart : DistinctVersions state.sources.flatten
  small : ∀ entry ∈ state.sources.flatten, entry.value.length ≤ maxValueSize
  built : ∀ entry ∈ state.builder.entries, ∀ later ∈ state.sources.flatten, entry.Before later

theorem emission_sublist (config : MergeConfig) (emitted : Bool) (item : Entry) :
    (emission config emitted item).Sublist [item] := by
  unfold emission
  split
  · exact List.Sublist.refl _
  · exact nil_sublist _

section Pop

variable {state : MergeState} {index : Nat} {item : Entry}

theorem Pops.perm (pops : state.Pops index item) :
    List.Perm state.sources.flatten (item :: (advance state.sources index).flatten) := by
  obtain ⟨tail, found⟩ := firstHead_getElem? pops
  exact flatten_advance found

theorem Pops.mem (pops : state.Pops index item) : item ∈ state.sources.flatten :=
  pops.perm.mem_iff.mpr mem_cons_self

theorem Pops.mem_of_rest (pops : state.Pops index item) {entry : Entry}
    (mem : entry ∈ (advance state.sources index).flatten) : entry ∈ state.sources.flatten :=
  pops.perm.mem_iff.mpr (mem_cons_of_mem item mem)

theorem Placed.apart_rest (placed : state.Placed) (pops : state.Pops index item) :
    (∀ entry ∈ (advance state.sources index).flatten, item.Apart entry) ∧
      DistinctVersions (advance state.sources index).flatten :=
  pairwise_cons.mp ((pops.perm.pairwise_iff (Std.Symm.symm _ _)).mp placed.apart)

theorem Placed.item_before (placed : state.Placed) (pops : state.Pops index item) {later : Entry}
    (left : later ∈ (advance state.sources index).flatten) : item.Before later := by
  refine Entry.before_total ?_ ((placed.apart_rest pops).1 later left)
  exact firstHead_first Entry.before_trans Entry.before_irrefl placed.sorted pops
    (pops.mem_of_rest left)

theorem Placed.builder_before (placed : state.Placed) (pops : state.Pops index item) :
    ∀ last ∈ state.builder.entries.getLast?, last.Before item := fun last isLast =>
  placed.built last (mem_of_getLast? isLast) item pops.mem

theorem heapDuring_set (state : MergeState) (index : Nat) :
    (state.heapDuring index).set index (state.sources.getD index []).tail =
      advance state.sources index := by
  rw [heapDuring, set_set, advance]
  refine ext_getElem? fun position => ?_
  rw [getElem?_set, getElem?_modify]
  split
  · rename_i same
    subst same
    split
    · rename_i inside
      rw [getElem?_eq_getElem inside, getD_eq_getElem _ _ inside]
      rfl
    · rename_i outside
      rw [getElem?_eq_none (not_lt.mp outside)]
      rfl
  · simp

theorem partner_ne {partner : Nat} {next : Entry}
    (chosen : firstHead Entry.Before (state.heapDuring index) = some (partner, next)) :
    index ≠ partner := by
  rintro rfl
  obtain ⟨tail, found⟩ := firstHead_getElem? chosen
  rw [heapDuring, getElem?_set] at found
  split at found
  · split at found <;> simp at found
  · contradiction

theorem advance_heapDuring_set {partner : Nat} (different : index ≠ partner) :
    (advance (state.heapDuring index) partner).set index (state.sources.getD index []).tail =
      advance (advance state.sources index) partner := by
  rw [← heapDuring_set, advance, advance]
  refine ext_getElem? fun position => ?_
  simp only [getElem?_set, getElem?_modify, length_modify]
  grind

end Pop

section Branches

variable {config : MergeConfig} {state : MergeState} {index : Nat} {item : Entry}

theorem retain_ok (config : MergeConfig) (state : MergeState)
    (fits : item.value.length ≤ maxValueSize)
    (after : ∀ last ∈ state.builder.entries.getLast?, last.Before item) (failed : Bool) :
    ∃ builder : Sstable,
      builder.entries = state.builder.entries ++ emission config state.floorEmitted item ∧
      state.retain config item failed = .ok { state with
        lastKey :=
          if keeps config.minSnapshotSeq state.floorEmitted item then some item.key
          else state.lastKey
        floorEmitted :=
          if failed then state.floorEmitted
          else emittedAfter config.minSnapshotSeq state.floorEmitted item
        builder } := by
  obtain ⟨next, added⟩ := Sstable.add_ok fits after
  have grown := Sstable.add_entries added
  by_cases collected : collects config item = true
  · have silent : emission config state.floorEmitted item = [] := by simp [emission, collected]
    refine ⟨state.builder, by simp [silent], ?_⟩
    simp only [collects] at collected
    simp only [retain, keeps, emittedAfter]
    grind
  · by_cases kept : keeps config.minSnapshotSeq state.floorEmitted item = true
    · have emitted : emission config state.floorEmitted item = [item] := by
        simp [emission, collected, kept]
      refine ⟨next, by rw [grown, emitted], ?_⟩
      simp only [keeps, collects] at kept collected
      simp only [retain, keeps, emittedAfter, added]
      grind
    · have silent : emission config state.floorEmitted item = [] := by simp [emission, kept]
      refine ⟨state.builder, by simp [silent], ?_⟩
      simp only [keeps] at kept
      simp only [retain, keeps, emittedAfter]
      grind

/-- No operator call is made in this round. -/
def Alone (config : MergeConfig) (state : MergeState) (index : Nat) (item : Entry) : Prop :=
  config.mergeOperator = none ∨ mergePartner config (state.heapDuring index) item = none

theorem body_of_alone (alone : Alone config state index item) :
    state.body config index item =
      ((state.opened index item).retain config item false).map (state.closed index) := by
  rcases alone with noOperator | noPartner
  · simp only [body, noOperator]
  · simp only [body, noPartner]
    cases config.mergeOperator <;> rfl

theorem body_of_partner {operator : MergeOperator} {partner : Nat} {next : Entry}
    (given : config.mergeOperator = some operator)
    (paired : mergePartner config (state.heapDuring index) item = some (partner, next)) :
    state.body config index item =
      ((state.opened index item).merge config operator item partner next).map
        (state.closed index) := by
  simp only [body, given, paired]

theorem lastKey_after (state : MergeState) (floor : Nat) (item : Entry) :
    (if keeps floor (state.flagOf item) item then some item.key else state.lastKey) =
      some item.key := by
  split
  · rfl
  · rename_i dropped
    by_contra other
    exact dropped (by simp [keeps, flagOf, other])

theorem retain_round (placed : state.Placed) (pops : state.Pops index item) (inner : MergeState)
    (sources : inner.sources = state.heapDuring index) (lastKey : inner.lastKey = state.lastKey)
    (flag : inner.floorEmitted = state.flagOf item) (built : inner.builder = state.builder)
    (failed : Bool) :
    ∃ builder : Sstable,
      builder.entries = state.builder.entries ++ emission config (state.flagOf item) item ∧
      (inner.retain config item failed).map (state.closed index) = .ok {
        sources := advance state.sources index
        lastKey := some item.key
        floorEmitted :=
          if failed then state.flagOf item
          else emittedAfter config.minSnapshotSeq (state.flagOf item) item
        builder
        calls := inner.calls } := by
  obtain ⟨builder, grown, retained⟩ := retain_ok config inner
    (placed.small item pops.mem) (built ▸ placed.builder_before pops) failed
  rw [flag, built] at grown
  rw [flag, lastKey, lastKey_after] at retained
  refine ⟨builder, grown, ?_⟩
  rw [retained, Except.map, closed, sources, heapDuring_set]

theorem body_alone (placed : state.Placed) (pops : state.Pops index item)
    (alone : Alone config state index item) :
    ∃ builder : Sstable,
      builder.entries = state.builder.entries ++ emission config (state.flagOf item) item ∧
      state.body config index item = .ok {
        sources := advance state.sources index
        lastKey := some item.key
        floorEmitted := emittedAfter config.minSnapshotSeq (state.flagOf item) item
        builder
        calls := state.calls } := by
  rw [body_of_alone alone]
  exact retain_round placed pops (state.opened index item) rfl rfl rfl rfl false

section Calls

variable {operator : MergeOperator} {partner : Nat} {next : Entry}

theorem body_failed (placed : state.Placed) (pops : state.Pops index item)
    (given : config.mergeOperator = some operator)
    (paired : mergePartner config (state.heapDuring index) item = some (partner, next))
    (fails : operator state.calls.length next.value item.value = none) :
    ∃ builder : Sstable,
      builder.entries = state.builder.entries ++ emission config (state.flagOf item) item ∧
      state.body config index item = .ok {
        sources := advance state.sources index
        lastKey := some item.key
        floorEmitted := state.flagOf item
        builder
        calls := state.calls ++ [⟨next, item⟩] } := by
  rw [body_of_partner given paired]
  simp only [merge, show operator (state.opened index item).calls.length next.value item.value =
    none from fails]
  exact retain_round placed pops
    { state.opened index item with calls := state.calls ++ [⟨next, item⟩] }
    rfl rfl rfl rfl true

theorem mergePartner_eq_some {heap : List (List Entry)}
    (paired : mergePartner config heap item = some (partner, next)) :
    (config.encrypted = false ∧ item.seq.tombstone = false ∧ item.raw < config.minSnapshotSeq) ∧
      firstHead Entry.Before heap = some (partner, next) ∧ next.key = item.key ∧
      next.seq.tombstone = false ∧ next.raw < config.minSnapshotSeq ∧
      tombstoneInHeap heap item.key = false := by
  simp only [mergePartner] at paired
  grind

theorem body_merged (placed : state.Placed) (pops : state.Pops index item)
    (given : config.mergeOperator = some operator)
    (paired : mergePartner config (state.heapDuring index) item = some (partner, next))
    {mergedVal : Bytes} (gives : operator state.calls.length next.value item.value = some mergedVal)
    (fits : mergedVal.length ≤ maxValueSize) :
    ∃ builder : Sstable,
      builder.entries = state.builder.entries ++ [{ item with value := mergedVal }] ∧
      state.body config index item = .ok {
        sources := advance (advance state.sources index) partner
        lastKey := some item.key
        floorEmitted := true
        builder
        calls := state.calls ++ [⟨next, item⟩] } := by
  have chosen := (mergePartner_eq_some paired).2.1
  have behind := placed.builder_before pops
  obtain ⟨builder, added⟩ :=
    @Sstable.add_ok { item with value := mergedVal } state.builder fits behind
  refine ⟨builder, Sstable.add_entries added, ?_⟩
  rw [body_of_partner given paired]
  simp only [merge, opened, gives, added, Except.map, closed,
    advance_heapDuring_set (partner_ne chosen)]

theorem body_overflow (given : config.mergeOperator = some operator)
    (paired : mergePartner config (state.heapDuring index) item = some (partner, next))
    {mergedVal : Bytes} (gives : operator state.calls.length next.value item.value = some mergedVal)
    (large : ¬ mergedVal.length ≤ maxValueSize) :
    state.body config index item =
      .error ⟨.valueTooLarge item.key.bytes.length mergedVal.length,
        state.calls ++ [⟨next, item⟩]⟩ := by
  rw [body_of_partner given paired]
  simp only [merge, opened, gives, Sstable.add, large, dif_neg, not_false_iff, Except.map]

end Calls

end Branches

/-- The state a round leaves, by what became of the operator call. -/
inductive Round (config : MergeConfig) (state : MergeState) (index : Nat) (item : Entry) :
    MergeState → Prop
  | alone (builder : Sstable) (silent : Alone config state index item)
      (grown : builder.entries =
        state.builder.entries ++ emission config (state.flagOf item) item) :
      Round config state index item ⟨advance state.sources index, some item.key,
        emittedAfter config.minSnapshotSeq (state.flagOf item) item, builder, state.calls⟩
  | failed (builder : Sstable) (partner : Nat) (next : Entry)
      (paired : mergePartner config (state.heapDuring index) item = some (partner, next))
      (grown : builder.entries =
        state.builder.entries ++ emission config (state.flagOf item) item) :
      Round config state index item ⟨advance state.sources index, some item.key,
        state.flagOf item, builder, state.calls ++ [⟨next, item⟩]⟩
  | merged (builder : Sstable) (partner : Nat) (next : Entry) (mergedVal : Bytes)
      (paired : mergePartner config (state.heapDuring index) item = some (partner, next))
      (grown : builder.entries = state.builder.entries ++ [{ item with value := mergedVal }]) :
      Round config state index item ⟨advance (advance state.sources index) partner,
        some item.key, true, builder, state.calls ++ [⟨next, item⟩]⟩

section Outcomes

variable {config : MergeConfig} {state : MergeState} {index : Nat} {item : Entry}

theorem alone_or_partner (config : MergeConfig) (state : MergeState) (index : Nat)
    (item : Entry) :
    Alone config state index item ∨ ∃ operator partner next,
      config.mergeOperator = some operator ∧
        mergePartner config (state.heapDuring index) item = some (partner, next) := by
  cases given : config.mergeOperator with
  | none => exact .inl (.inl given)
  | some operator =>
    cases paired : mergePartner config (state.heapDuring index) item with
    | none => exact .inl (.inr paired)
    | some pick => exact .inr ⟨operator, pick.1, pick.2, rfl, rfl⟩

theorem round_of_body (placed : state.Placed) (pops : state.Pops index item)
    {final : MergeState} (taken : state.body config index item = .ok final) :
    Round config state index item final := by
  rcases alone_or_partner config state index item with silent | ⟨operator, partner, next, given, paired⟩
  · obtain ⟨builder, grown, result⟩ := body_alone placed pops silent
    obtain rfl := Except.ok.inj (result.symm.trans taken)
    exact .alone builder silent grown
  · cases gives : operator state.calls.length next.value item.value with
    | none =>
      obtain ⟨builder, grown, result⟩ := body_failed placed pops given paired gives
      obtain rfl := Except.ok.inj (result.symm.trans taken)
      exact .failed builder partner next paired grown
    | some mergedVal =>
      by_cases fits : mergedVal.length ≤ maxValueSize
      · obtain ⟨builder, grown, result⟩ := body_merged placed pops given paired gives fits
        obtain rfl := Except.ok.inj (result.symm.trans taken)
        exact .merged builder partner next mergedVal paired grown
      · rw [body_overflow given paired gives fits] at taken
        cases taken

theorem body_error (placed : state.Placed) (pops : state.Pops index item)
    {failure : MergeFailure} (taken : state.body config index item = .error failure) :
    ∃ partner next,
      mergePartner config (state.heapDuring index) item = some (partner, next) ∧
        failure.calls = state.calls ++ [⟨next, item⟩] := by
  rcases alone_or_partner config state index item with silent | ⟨operator, partner, next, given, paired⟩
  · obtain ⟨builder, -, result⟩ := body_alone placed pops silent
    cases result.symm.trans taken
  · refine ⟨partner, next, paired, ?_⟩
    cases gives : operator state.calls.length next.value item.value with
    | none =>
      obtain ⟨builder, -, result⟩ := body_failed placed pops given paired gives
      cases result.symm.trans taken
    | some mergedVal =>
      by_cases fits : mergedVal.length ≤ maxValueSize
      · obtain ⟨builder, -, result⟩ := body_merged placed pops given paired gives fits
        cases result.symm.trans taken
      · rw [body_overflow given paired gives fits] at taken
        rw [← Except.error.inj taken]

theorem partner_head {partner : Nat} {next : Entry}
    (paired : mergePartner config (state.heapDuring index) item = some (partner, next)) :
    ∃ tail, (advance state.sources index)[partner]? = some (next :: tail) := by
  have chosen := (mergePartner_eq_some paired).2.1
  have different := partner_ne chosen
  obtain ⟨tail, found⟩ := firstHead_getElem? chosen
  rw [heapDuring, getElem?_set_ne different] at found
  refine ⟨tail, ?_⟩
  rw [advance, getElem?_modify, found]
  simp [different]

end Outcomes

section Placement

variable {state : MergeState} {index : Nat} {item : Entry}

/-- Taking the item and adding nothing, or an entry in its place, keeps the streams
sorted and the output behind them. -/
theorem Placed.after (placed : state.Placed) (pops : state.Pops index item)
    (next : MergeState) (sources : next.sources = advance state.sources index)
    {added : List Entry} (grown : next.builder.entries = state.builder.entries ++ added)
    (inPlace : ∀ entry ∈ added, entry.key = item.key ∧ entry.seq = item.seq) : next.Placed where
  sorted := sources ▸ sorted_advance placed.sorted index
  apart := sources ▸ (placed.apart_rest pops).2
  small entry mem := placed.small entry (pops.mem_of_rest (sources ▸ mem))
  built entry mem later left := by
    rw [sources] at left
    rw [grown] at mem
    rcases mem_append.mp mem with old | new
    · exact placed.built entry old later (pops.mem_of_rest left)
    · obtain ⟨key, seq⟩ := inPlace entry new
      have before := placed.item_before pops left
      simp only [Entry.Before, Entry.raw] at before ⊢
      rw [key, seq]
      exact before

theorem Placed.advance_more (placed : state.Placed) {partner : Nat} {next : Entry}
    {tail : List Entry} (found : state.sources[partner]? = some (next :: tail)) :
    ({ state with sources := advance state.sources partner } : MergeState).Placed where
  sorted := sorted_advance placed.sorted partner
  apart :=
    (pairwise_cons.mp
      (((flatten_advance found).pairwise_iff (Std.Symm.symm _ _)).mp placed.apart)).2
  small entry mem :=
    placed.small entry ((flatten_advance found).mem_iff.mpr (mem_cons_of_mem _ mem))
  built entry mem later left :=
    placed.built entry mem later
      ((flatten_advance found).mem_iff.mpr (mem_cons_of_mem _ left))

theorem Round.placed {config : MergeConfig} {next : MergeState} (placed : state.Placed)
    (pops : state.Pops index item) (round : Round config state index item next) :
    next.Placed := by
  have inPlace (emitted : Bool) : ∀ entry ∈ emission config emitted item,
      entry.key = item.key ∧ entry.seq = item.seq := fun entry mem => by
    obtain rfl := mem_singleton.mp ((emission_sublist config emitted item).subset mem)
    exact ⟨rfl, rfl⟩
  cases round with
  | alone builder silent grown => exact placed.after pops _ rfl grown (inPlace _)
  | failed builder partner other paired grown => exact placed.after pops _ rfl grown (inPlace _)
  | merged builder partner other mergedVal paired grown =>
    obtain ⟨tail, found⟩ := partner_head paired
    have itemOut := placed.after pops
      ⟨advance state.sources index, some item.key, true, builder,
        state.calls ++ [⟨other, item⟩]⟩ rfl grown (by simp)
    exact itemOut.advance_more found

theorem Round.length_lt {config : MergeConfig} {next : MergeState}
    (pops : state.Pops index item) (round : Round config state index item next) :
    next.sources.flatten.length < state.sources.flatten.length := by
  have taken := pops.perm.length_eq
  simp only [length_cons] at taken
  cases round with
  | alone builder silent grown => simp only; omega
  | failed builder partner other paired grown => simp only; omega
  | merged builder partner other mergedVal paired grown =>
    obtain ⟨tail, found⟩ := partner_head paired
    have more := (flatten_advance found).length_eq
    simp only [length_cons] at more ⊢
    omega

end Placement

section Effects

variable {config : MergeConfig} {state after : MergeState} {index : Nat} {item deleted : Entry}

theorem Round.keeps_tombstone (pops : state.Pops index item)
    (round : Round config state index item after) (tombstone : deleted.seq.tombstone = true)
    (left : deleted ∈ state.sources.flatten) (other : deleted ≠ item) :
    deleted ∈ after.sources.flatten := by
  have inRest : deleted ∈ (advance state.sources index).flatten :=
    (mem_cons.mp (pops.perm.mem_iff.mp left)).resolve_left other
  cases round with
  | alone builder silent grown => exact inRest
  | failed builder partner next paired grown => exact inRest
  | merged builder partner next mergedVal paired grown =>
    obtain ⟨tail, found⟩ := partner_head paired
    refine (mem_cons.mp ((flatten_advance found).mem_iff.mp inRest)).resolve_left ?_
    rintro rfl
    exact absurd ((mergePartner_eq_some paired).2.2.2.1) (by simp [tombstone])

variable {entry : Entry}

theorem Round.sources_subset (round : Round config state index item after)
    (left : entry ∈ after.sources.flatten) : entry ∈ (advance state.sources index).flatten := by
  cases round with
  | alone builder silent grown => exact left
  | failed builder partner next paired grown => exact left
  | merged builder partner next mergedVal paired grown =>
    obtain ⟨tail, found⟩ := partner_head paired
    exact (flatten_advance found).mem_iff.mpr (mem_cons_of_mem next left)

theorem Round.lastKey (round : Round config state index item after) :
    after.lastKey = some item.key := by
  cases round <;> rfl

theorem Round.written (round : Round config state index item after)
    (mem : entry ∈ after.builder.entries) :
    entry ∈ state.builder.entries ∨ (entry.key = item.key ∧ entry.seq = item.seq) := by
  have emitted (flag : Bool) (inEmission : entry ∈ emission config flag item) :
      entry.key = item.key ∧ entry.seq = item.seq := by
    obtain rfl := mem_singleton.mp ((emission_sublist config flag item).subset inEmission)
    exact ⟨rfl, rfl⟩
  cases round with
  | alone builder silent grown
  | failed builder partner next paired grown =>
    rw [grown] at mem
    exact (mem_append.mp mem).imp_right (emitted _)
  | merged builder partner next mergedVal paired grown =>
    rw [grown] at mem
    refine (mem_append.mp mem).imp_right fun new => ?_
    obtain rfl := mem_singleton.mp new
    exact ⟨rfl, rfl⟩

theorem Round.builder_subset (round : Round config state index item after)
    (mem : entry ∈ state.builder.entries) : entry ∈ after.builder.entries := by
  cases round with
  | alone builder silent grown
  | failed builder partner next paired grown
  | merged builder partner next mergedVal paired grown =>
    rw [grown]
    exact mem_append_left _ mem

theorem Round.calls_subset (round : Round config state index item after) {call : MergeCall}
    (called : call ∈ state.calls) : call ∈ after.calls := by
  cases round with
  | alone builder silent grown => exact called
  | failed builder partner next paired grown
  | merged builder partner next mergedVal paired grown => exact mem_append_left _ called

end Effects

section Loop

variable {config : MergeConfig}

variable {fuel : Nat}

theorem loop_invariant {invariant : MergeState → Prop}
    (preserved : ∀ state index item next, state.Placed → state.Pops index item →
      invariant state → Round config state index item next → invariant next)
    {state final : MergeState} (placed : state.Placed) (start : invariant state)
    (finished : state.loop config fuel = .ok final) : invariant final := by
  induction fuel generalizing state with
  | zero => exact Except.ok.inj finished ▸ start
  | succ fuel ih =>
    simp only [loop] at finished
    split at finished
    · exact Except.ok.inj finished ▸ start
    · rename_i index item pops
      split at finished
      · rename_i next taken
        have round := round_of_body placed pops taken
        exact ih (round.placed placed pops)
          (preserved state index item next placed pops start round) finished
      · cases finished

theorem loop_error {invariant : MergeState → Prop}
    (preserved : ∀ state index item next, state.Placed → state.Pops index item →
      invariant state → Round config state index item next → invariant next)
    {state : MergeState} {failure : MergeFailure} (placed : state.Placed)
    (start : invariant state) (failed : state.loop config fuel = .error failure) :
    ∃ last index item, last.Placed ∧ last.Pops index item ∧ invariant last ∧
      last.body config index item = .error failure := by
  induction fuel generalizing state with
  | zero => cases failed
  | succ fuel ih =>
    simp only [loop] at failed
    split at failed
    · cases failed
    · rename_i index item pops
      split at failed
      · rename_i next taken
        have round := round_of_body placed pops taken
        exact ih (round.placed placed pops)
          (preserved state index item next placed pops start round) failed
      · rename_i same taken
        exact ⟨state, index, item, placed, pops, start, Except.error.inj failed ▸ taken⟩

theorem loop_drained {state final : MergeState} (placed : state.Placed)
    (enough : state.sources.flatten.length ≤ fuel)
    (finished : state.loop config fuel = .ok final) : final.sources.flatten = [] := by
  induction fuel generalizing state with
  | zero =>
    obtain rfl := Except.ok.inj finished
    exact length_eq_zero_iff.mp (Nat.le_zero.mp enough)
  | succ fuel ih =>
    simp only [loop] at finished
    split at finished
    · rename_i empty
      obtain rfl := Except.ok.inj finished
      exact flatten_eq_nil_iff.mpr (firstHead_eq_none.mp empty)
    · rename_i index item pops
      split at finished
      · rename_i next taken
        have round := round_of_body placed pops taken
        have shorter := round.length_lt pops
        exact ih (round.placed placed pops) (by omega) finished
      · cases finished

end Loop

theorem initial_flatten (inputs : List Sstable) :
    (initial inputs).sources.flatten = union inputs := by
  rw [union, flatMap_def]
  rfl

theorem initial_placed {inputs : List Sstable} (distinct : DistinctVersions (union inputs)) :
    (initial inputs).Placed where
  sorted source mem := by
    obtain ⟨table, -, rfl⟩ := mem_map.mp mem
    exact table.sorted
  apart := initial_flatten inputs ▸ distinct
  small entry mem := by
    rw [initial_flatten] at mem
    obtain ⟨table, -, inTable⟩ := mem_flatMap.mp mem
    exact table.small entry inTable
  built entry mem := by simp [initial, Sstable.empty] at mem

end MergeState

end Contextra.Store
