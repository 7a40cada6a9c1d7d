import Contextra.Store.MergeRound

/-!
# Compaction without a merge operator

The loop then pops the sorted union of the inputs and passes it through the
retention rule with one flag per key.  For every key this is `retain_key_versions`
followed, in a full compaction, by the collection of floor tombstones.
-/

namespace Contextra.Store

open Library List

namespace MergeState

/-- What the rounds add for the popped items. -/
def pass (config : MergeConfig) : Option Key → Bool → List Entry → List Entry
  | _, _, [] => []
  | lastKey, emitted, item :: items =>
    let flag := if lastKey = some item.key then emitted else false
    emission config flag item ++
      pass config (some item.key) (emittedAfter config.minSnapshotSeq flag item) items

section Pass

variable {config : MergeConfig}

theorem pass_sublist (lastKey : Option Key) (emitted : Bool) (items : List Entry) :
    (pass config lastKey emitted items).Sublist items := by
  induction items generalizing lastKey emitted with
  | nil => exact List.Sublist.slnil
  | cons item items ih =>
    simp only [pass]
    exact (emission_sublist config _ item).append (ih _ _)

theorem emission_append_retained (emitted : Bool) (item : Entry) (items : List Entry) :
    emission config emitted item ++
        (retainLoop Entry.seq config.minSnapshotSeq
          (emittedAfter config.minSnapshotSeq emitted item) items).filter (!collects config ·) =
      (retainLoop Entry.seq config.minSnapshotSeq emitted (item :: items)).filter
        (!collects config ·) := by
  simp only [retainLoop, emission, keeps, emittedAfter, Entry.raw]
  by_cases high : config.minSnapshotSeq < item.seq.raw
  · cases collected : collects config item <;> simp [high, collected]
  · cases emitted <;> cases collected : collects config item <;> simp [high, collected]

theorem versionsOf_pass {lastKey : Option Key} {emitted : Bool} {items : List Entry}
    (sorted : items.Pairwise Entry.Before)
    (behind : ∀ last ∈ lastKey, ∀ item ∈ items, last ≤ item.key) (key : Key) :
    versionsOf (pass config lastKey emitted items) key =
      (retainLoop Entry.seq config.minSnapshotSeq
        (if lastKey = some key then emitted else false)
        (versionsOf items key)).filter (!collects config ·) := by
  induction items generalizing lastKey emitted with
  | nil => rfl
  | cons item items ih =>
    obtain ⟨after, rest⟩ := pairwise_cons.mp sorted
    have ascending : ∀ other ∈ items, item.key ≤ other.key := fun other inRest => by
      rcases after other inRest with less | ⟨same, -⟩
      · exact less.le
      · exact same.le
    have behindItem : ∀ last ∈ some item.key, ∀ other ∈ items, last ≤ other.key := by
      rintro last ⟨⟩ other inRest
      exact ascending other inRest
    simp only [pass]
    generalize ahead : emittedAfter config.minSnapshotSeq
      (if lastKey = some item.key then emitted else false) item = flag
    have tail := @ih (some item.key) flag rest behindItem
    have split : versionsOf (emission config (if lastKey = some item.key then emitted else false)
        item ++ pass config (some item.key) flag items) key =
        versionsOf (emission config (if lastKey = some item.key then emitted else false) item)
          key ++ versionsOf (pass config (some item.key) flag items) key := by
      simp [versionsOf]
    rw [split, tail]
    by_cases own : item.key = key
    · subst own
      have head : versionsOf (item :: items) item.key = item :: versionsOf items item.key := by
        simp [versionsOf]
      have added : versionsOf (emission config (if lastKey = some item.key then emitted else
          false) item) item.key =
          emission config (if lastKey = some item.key then emitted else false) item := by
        refine filter_eq_self.mpr fun entry mem => ?_
        have same := (emission_sublist config _ item).subset mem
        simp [mem_singleton.mp same]
      rw [head, added, ← ahead, ← emission_append_retained]
      simp
    · have skipped : versionsOf (item :: items) key = versionsOf items key := by
        simp [versionsOf, own]
      have added : versionsOf (emission config (if lastKey = some item.key then emitted else
          false) item) key = [] := by
        refine filter_eq_nil_iff.mpr fun entry mem => ?_
        have same := (emission_sublist config _ item).subset mem
        simpa [mem_singleton.mp same] using own
      rw [skipped, added, if_neg (by simpa using own)]
      by_cases isLast : lastKey = some key
      · -- a key that was current is left behind for good when another one comes
        have less : key < item.key :=
          lt_of_le_of_ne (behind key isLast item mem_cons_self) (Ne.symm own)
        have gone : versionsOf items key = [] := by
          refine filter_eq_nil_iff.mpr fun other inRest => ?_
          simpa using (less.trans_le (ascending other inRest)).ne'
        rw [gone]
        rfl
      · rw [if_neg isLast]
        rfl

end Pass

section Loop

variable {config : MergeConfig} {state : MergeState}

theorem loop_alone (noOperator : config.mergeOperator = none) (placed : state.Placed)
    (fuel : Nat) :
    ∃ final, state.loop config fuel = .ok final ∧ final.calls = state.calls ∧
      final.builder.entries = state.builder.entries ++
        pass config state.lastKey state.floorEmitted (drain Entry.Before fuel state.sources) := by
  induction fuel generalizing state with
  | zero => exact ⟨state, rfl, rfl, by simp [drain, pass]⟩
  | succ fuel ih =>
    cases chosen : firstHead Entry.Before state.sources with
    | none => exact ⟨state, by simp [loop, chosen], rfl, by simp [drain, chosen, pass]⟩
    | some pick =>
      obtain ⟨index, item⟩ := pick
      have pops : state.Pops index item := chosen
      obtain ⟨builder, grown, taken⟩ := body_alone placed pops (.inl noOperator)
      obtain ⟨final, finished, calls, written⟩ := ih
        (placed.after pops ⟨advance state.sources index, some item.key,
          emittedAfter config.minSnapshotSeq (state.flagOf item) item, builder,
          state.calls⟩ rfl grown fun entry mem => by
            obtain rfl := mem_singleton.mp
              ((emission_sublist config _ item).subset mem)
            exact ⟨rfl, rfl⟩)
      refine ⟨final, by simp only [loop, chosen, taken, finished], calls, ?_⟩
      rw [written, grown]
      simp only [drain, chosen, pass, flagOf, append_assoc]

end Loop

def merged (inputs : List Sstable) : List Entry :=
  drain Entry.Before (union inputs).length (initial inputs).sources

theorem merged_perm (inputs : List Sstable) : List.Perm (merged inputs) (union inputs) := by
  have enough : (initial inputs).sources.flatten.length ≤ (union inputs).length :=
    (initial_flatten inputs ▸ le_rfl)
  exact (drain_perm enough).trans (List.Perm.of_eq (initial_flatten inputs))

theorem merged_sorted {inputs : List Sstable} (distinct : DistinctVersions (union inputs)) :
    (merged inputs).Pairwise Entry.Before := by
  have placed := initial_placed distinct
  have enough : (initial inputs).sources.flatten.length ≤ (union inputs).length :=
    (initial_flatten inputs ▸ le_rfl)
  have ordered := drain_sorted Entry.before_trans Entry.before_irrefl placed.sorted enough
  have apart : DistinctVersions (merged inputs) :=
    ((merged_perm inputs).symm.pairwise_iff (Std.Symm.symm _ _)).mp distinct
  exact (ordered.and apart).imp fun both => Entry.before_total both.1 both.2

theorem merged_descending {inputs : List Sstable} (distinct : DistinctVersions (union inputs))
    (key : Key) :
    (versionsOf (merged inputs) key).Pairwise (fun left right => right.raw < left.raw) := by
  have sorted : (versionsOf (merged inputs) key).Pairwise Entry.Before :=
    (merged_sorted distinct).filter _
  refine sorted.imp_of_mem fun inLeft inRight before => ?_
  rw [mem_versionsOf] at inLeft inRight
  exact Entry.raw_lt_of_before before (inLeft.2.trans inRight.2.symm)

theorem versionsOf_merged {inputs : List Sstable} (distinct : DistinctVersions (union inputs))
    {key : Key} {versions : List Entry}
    (permutation : List.Perm versions (versionsOf (union inputs) key))
    (descending : versions.Pairwise (fun left right => right.raw < left.raw)) :
    versionsOf (merged inputs) key = versions := by
  have same : List.Perm (versionsOf (merged inputs) key) versions :=
    ((merged_perm inputs).filter _).trans permutation.symm
  exact same.eq_of_pairwise (fun left right _ _ newer older => absurd newer older.asymm)
    (merged_descending distinct key) descending

end MergeState

open MergeState

section Reads

variable {config : MergeConfig} {inputs : List Sstable}

theorem mergeSstables_alone (noOperator : config.mergeOperator = none)
    (distinct : DistinctVersions (union inputs)) :
    ∃ final, mergeSstables config inputs = .ok final ∧ final.calls = [] ∧
      final.builder.entries = pass config none false (merged inputs) := by
  obtain ⟨final, finished, calls, written⟩ :=
    loop_alone noOperator (initial_placed distinct) (union inputs).length
  exact ⟨final, finished, calls, written⟩

theorem versionsOf_output (distinct : DistinctVersions (union inputs)) (key : Key) :
    versionsOf (pass config none false (merged inputs)) key =
      (retainKeyVersions (versionsOf (merged inputs) key) Entry.seq config.minSnapshotSeq).filter
        (!collects config ·) := by
  have passed := @versionsOf_pass config none false _ (merged_sorted distinct) (by simp) key
  simpa [retainKeyVersions] using passed

theorem output_retains (config : MergeConfig) (distinct : DistinctVersions (union inputs))
    (key : Key) (dead : Entry → Prop) (collected : ∀ entry, collects config entry = true → dead entry) :
    Retains Entry.raw dead (versionSet (union inputs) key)
      (versionSet (pass config none false (merged inputs)) key) config.minSnapshotSeq := by
  have retained := retainKeyVersions_filter_retains config.minSnapshotSeq dead
    (fun entry => !collects config entry) (merged_descending distinct key) fun entry dropped => by
      have isCollected : collects config entry = true := by simpa using dropped
      refine ⟨collected entry isCollected, ?_⟩
      simp only [collects, Bool.and_eq_true, decide_eq_true_eq] at isCollected
      exact isCollected.2
  have before : {entry | entry ∈ versionsOf (merged inputs) key} =
      versionSet (union inputs) key := by
    ext entry
    simp [(merged_perm inputs).mem_iff]
  have after : {entry | entry ∈ (retainKeyVersions (versionsOf (merged inputs) key) Entry.seq
      config.minSnapshotSeq).filter (!collects config ·)} =
      versionSet (pass config none false (merged inputs)) key := by
    ext entry
    rw [← versionsOf_output distinct key]
    simp
  rwa [before, after] at retained

/-- Compaction preserves every read a snapshot may still make: from the floor on the output reads as
the union of the inputs, but a full compaction may answer a tombstone with a missing key. -/
theorem mergeSstables_preserves_reads (config : MergeConfig) (inputs : List Sstable)
    (noOperator : config.mergeOperator = none) (distinct : DistinctVersions (union inputs)) :
    ∃ final, mergeSstables config inputs = .ok final ∧ final.sources.flatten = [] ∧
      final.builder.entries.Pairwise Entry.Before ∧
      (∀ entry ∈ final.builder.entries, entry ∈ union inputs) ∧
      (∀ key bound, config.minSnapshotSeq ≤ bound →
        readAt final.builder.entries key bound = readAt (union inputs) key bound) ∧
      (config.isFullCompaction = false →
        (∀ key bound, config.minSnapshotSeq ≤ bound →
          newestAt final.builder.entries key bound = newestAt (union inputs) key bound) ∧
        ∀ key versions, List.Perm versions (versionsOf (union inputs) key) →
          versions.Pairwise (fun left right => right.raw < left.raw) →
          versionsOf final.builder.entries key =
            retainKeyVersions versions Entry.seq config.minSnapshotSeq) := by
  obtain ⟨final, finished, -, written⟩ := mergeSstables_alone noOperator distinct
  have subset : ∀ entry ∈ final.builder.entries, entry ∈ union inputs := fun entry inOutput => by
    rw [written] at inOutput
    exact (merged_perm inputs).mem_iff.mp ((pass_sublist none false _).subset inOutput)
  have outputDistinct : DistinctVersions final.builder.entries := by
    have apart : DistinctVersions (merged inputs) :=
      ((merged_perm inputs).symm.pairwise_iff (Std.Symm.symm _ _)).mp distinct
    rw [written]
    exact apart.sublist (pass_sublist none false _)
  refine ⟨final, finished,
    loop_drained (initial_placed distinct) (initial_flatten inputs ▸ le_rfl) finished,
    final.builder.sorted, subset, fun key bound above => ?_, fun notFull => ⟨?_, ?_⟩⟩
  · have retained := output_retains config distinct key
      (fun entry => entry.seq.tombstone = true) fun entry collected => by
        simp only [collects, Bool.and_eq_true] at collected
        exact collected.1.1
    rw [← written] at retained
    exact readAt_eq_of_sameReads (distinct.injOn key)
      (retained.sameReads (fun _ => Entry.live_eq_none) (distinct.injOn key)).symm above
  · intro key bound above
    have retained := output_retains config distinct key (fun _ => False) fun entry collected => by
      simp [collects, notFull] at collected
    rw [← written] at retained
    refine Option.ext fun entry => ?_
    rw [newestAt_eq_some outputDistinct, newestAt_eq_some distinct]
    exact retained.isNewest_iff above
  · intro key versions permutation descending
    have nothing (entry : Entry) : collects config entry = false := by simp [collects, notFull]
    rw [written, versionsOf_output distinct key, versionsOf_merged distinct permutation descending]
    simp [nothing]

/-- Two tables with three versions of one key, merged with floor 5. -/
theorem threeVersions_preserved :
    let older : Sstable := ⟨[.put (.ofByte 1) [7] 2 1], by simp, by decide⟩
    let newer : Sstable := ⟨[.put (.ofByte 1) [9] 6 3, .delete (.ofByte 1) 4 2], by decide, by decide⟩
    ∃ final, mergeSstables ⟨none, false, 5, true⟩ [older, newer] = .ok final ∧
      readAt final.builder.entries (.ofByte 1) 5 = none ∧
      readAt final.builder.entries (.ofByte 1) 6 = some [9] := by
  intro older newer
  obtain ⟨final, finished, -, -, -, reads, -⟩ :=
    mergeSstables_preserves_reads ⟨none, false, 5, true⟩ [older, newer] rfl (by decide)
  refine ⟨final, finished, (reads (.ofByte 1) 5 (by decide)).trans ?_,
    (reads (.ofByte 1) 6 (by decide)).trans ?_⟩
  · decide
  · decide

end Reads

end Contextra.Store
