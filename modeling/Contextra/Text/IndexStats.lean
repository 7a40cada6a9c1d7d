import Contextra.Library.Run
import Contextra.Text.IndexFrames

/-!
# Corpus statistics

The staged change of a transaction is the difference between the corpus with its writes and the
committed corpus, as long as no document is written twice before its writes are committed or rolled
back.  Then the totals are exact after every call.
-/

namespace Contextra.Text

open Library List Option Function

def docWeight (entry : Option Bytes) : Int := if entry.isSome then 1 else 0

def tokenWeight (entry : Option Bytes) : Int :=
  ((entry.bind readU32).map fun len => (len.val : Int)).getD 0

def corpus (weight : Option Bytes → Int) (entries : DocIdRaw → Option Bytes) : Int :=
  ∑ docId, weight (entries docId)

theorem docWeight_nonneg (entry : Option Bytes) : 0 ≤ docWeight entry := by
  unfold docWeight
  split_ifs <;> omega

theorem tokenWeight_nonneg (entry : Option Bytes) : 0 ≤ tokenWeight entry := by
  unfold tokenWeight
  cases entry.bind readU32 with
  | none => exact le_rfl
  | some len => exact Int.natCast_nonneg _

variable {weight : Option Bytes → Int}

theorem corpus_nonneg (nonneg : ∀ entry, 0 ≤ weight entry)
    (entries : DocIdRaw → Option Bytes) : 0 ≤ corpus weight entries :=
  Finset.sum_nonneg fun _ _ => nonneg _

theorem corpus_update {entries entries' : DocIdRaw → Option Bytes}
    {docId : DocIdRaw} (others : ∀ other, other ≠ docId → entries' other = entries other) :
    corpus weight entries' = corpus weight entries + (weight (entries' docId) - weight (entries docId)) := by
  have difference : corpus weight entries' - corpus weight entries =
      weight (entries' docId) - weight (entries docId) := by
    rw [corpus, corpus, ← Finset.sum_sub_distrib]
    refine Finset.sum_eq_single docId (fun other _ different => ?_)
      (fun impossible => absurd (Finset.mem_univ docId) impossible)
    rw [others other different, sub_self]
  omega

theorem corpus_sub_congr {first second first' second' : DocIdRaw → Option Bytes}
    (same : ∀ docId, weight (first docId) - weight (second docId) =
      weight (first' docId) - weight (second' docId)) :
    corpus weight first - corpus weight second = corpus weight first' - corpus weight second' := by
  rw [corpus, corpus, corpus, corpus, ← Finset.sum_sub_distrib, ← Finset.sum_sub_distrib]
  exact Finset.sum_congr rfl fun docId _ => same docId

theorem lookup_write (committed : SortedMap Key Bytes) (entry : Key × Option Bytes) :
    (Storage.write committed entry).lookup =
      Function.update committed.lookup entry.1 entry.2 := by
  obtain ⟨key, value⟩ := entry
  funext other
  by_cases same : other = key
  · subst same
    rw [update_self]
    cases value with
    | some value => exact SortedMap.lookup_insert_self _ _
    | none =>
      exact SortedMap.lookup_eq_none.mpr fun value inside => (SortedMap.mem_erase.mp inside).2 rfl
  · rw [update_of_ne same]
    cases value with
    | some value => exact SortedMap.lookup_insert_ne same _
    | none =>
      refine Option.ext fun value => ?_
      rw [SortedMap.lookup_eq_some, SortedMap.lookup_eq_some]
      exact ⟨fun inside => (SortedMap.mem_erase.mp inside).1,
        fun inside => SortedMap.mem_erase.mpr ⟨inside, same⟩⟩

theorem lookup_commit (writes : Writes Key Bytes) (committed : SortedMap Key Bytes) :
    (writes.foldl Storage.write committed).lookup = applyWrites committed.lookup writes := by
  induction writes generalizing committed with
  | nil => rfl
  | cons entry writes ih =>
    rw [foldl_cons, ih, lookup_write]
    rfl

theorem applyWrites_touched {map map' : Key → Option Bytes} {writes : Writes Key Bytes} {key : Key}
    (touched : ∃ write ∈ writes, write.1 = key) :
    applyWrites map writes key = applyWrites map' writes key := by
  rw [applyWrites_eq, applyWrites_eq]
  cases last : lastWrite writes key with
  | some value => rfl
  | none =>
    obtain ⟨write, inside, same⟩ := touched
    rw [lastWrite, map_eq_none_iff, find?_eq_none] at last
    exact absurd (decide_eq_true same) (last write (mem_reverse.mpr inside))

theorem applyWrites_cases {map : Key → Option Bytes} {writes : Writes Key Bytes} {key : Key}
    {value : Bytes} (found : applyWrites map writes key = some value) :
    (∃ write ∈ writes, write.1 = key ∧ write.2 = some value) ∨ map key = some value := by
  rw [applyWrites_eq] at found
  cases last : lastWrite writes key with
  | none =>
    rw [last] at found
    exact Or.inr found
  | some written =>
    rw [last, getD_some] at found
    obtain ⟨write, isLast, rfl⟩ := map_eq_some_iff.mp last
    have isKey : write.1 = key := by simpa using find?_some isLast
    exact Or.inl ⟨write, mem_reverse.mp (mem_of_find?_eq_some isLast), isKey, found⟩

namespace InvertedIndex

def lengthEntry (index : InvertedIndex) (docId : DocIdRaw) : Option Bytes :=
  index.get (keyWithId index.root "dl:" docId)

def entryAfter (index : InvertedIndex) (tx : TxId) (docId : DocIdRaw) : Option Bytes :=
  applyWrites index.get (index.storage.staged tx) (keyWithId index.root "dl:" docId)

/-- The transaction has written the length of the document. -/
def Touches (index : InvertedIndex) (tx : TxId) (docId : DocIdRaw) : Prop :=
  ∃ write ∈ index.storage.staged tx, write.1 = keyWithId index.root "dl:" docId

variable {env : TextEnv} {index next : InvertedIndex} {tx other : TxId} {docId : DocIdRaw}
  {value : Option Bytes} {change : StagedStatsChange}

theorem entryAfter_untouched (untouched : ¬ Touches index tx docId) :
    index.entryAfter tx docId = index.lengthEntry docId :=
  applyWrites_of_untouched fun write inside same => untouched ⟨write, inside, same⟩

theorem Tidy.untouched {root : Key} {writes : Writes Key Bytes} (tidy : Tidy root writes)
    {write : Key × Option Bytes} (inside : write ∈ writes) :
    write.1 ≠ keyWithId root "dl:" docId :=
  fun same => tidy.length write inside ⟨decimal docId, same⟩

structure Consistent (index : InvertedIndex) : Prop where
  lists : KeptLists index
  batches : ∀ tx, ∀ write ∈ index.storage.staged tx, IsOfKind index.root "plb:" write.1 →
    ∀ bytes, write.2 = some bytes → postingListV2Magic.isPrefixOf bytes = true
  measured : ∀ docId bytes, index.lengthEntry docId = some bytes → (readU32 bytes).isSome = true
  measuredStaged : ∀ tx, ∀ write ∈ index.storage.staged tx, ∀ docId,
    write.1 = keyWithId index.root "dl:" docId →
      ∀ bytes, write.2 = some bytes → (readU32 bytes).isSome = true
  apart : ∀ tx other docId, Touches index tx docId → Touches index other docId → tx = other
  docs : ∀ tx, (index.change tx).docsDelta =
    corpus docWeight (index.entryAfter tx) - corpus docWeight index.lengthEntry
  tokens : ∀ tx, (index.change tx).tokensDelta =
    corpus tokenWeight (index.entryAfter tx) - corpus tokenWeight index.lengthEntry
  totalDocs : (index.totalDocs.val : Int) = corpus docWeight index.lengthEntry
  totalTokens : (index.totalTokens.val : Int) = corpus tokenWeight index.lengthEntry

theorem consistent_new (root : Key) : Consistent (.new root) where
  lists := by
    refine ⟨?_, ?_⟩
    · intro term list impossible
      cases impossible
    · intro term bytes impossible
      cases impossible
  batches := fun _ _ impossible => absurd impossible not_mem_nil
  measured := fun _ _ impossible => by cases impossible
  measuredStaged := fun _ _ impossible => absurd impossible not_mem_nil
  apart := by
    rintro tx other docId ⟨write, impossible, -⟩
    exact absurd impossible not_mem_nil
  docs := fun _ => (sub_self _).symm
  tokens := fun _ => (sub_self _).symm
  totalDocs := (Finset.sum_eq_zero fun _ _ => rfl).symm
  totalTokens := (Finset.sum_eq_zero fun _ _ => rfl).symm

theorem Staged.get (staged : Staged tx docId value change index next) : next.get = index.get := by
  funext key
  rw [InvertedIndex.get, InvertedIndex.get, Storage.get, Storage.get, staged.committed]

theorem Staged.lengthEntry (staged : Staged tx docId value change index next) :
    next.lengthEntry = index.lengthEntry := by
  funext other
  rw [InvertedIndex.lengthEntry, InvertedIndex.lengthEntry, staged.get, staged.root]

theorem Staged.others (staged : Staged tx docId value change index next) (different : other ≠ tx) :
    next.storage.staged other = index.storage.staged other := by
  obtain ⟨before, behind, isStaged, -⟩ := staged.writes
  rw [isStaged, update_of_ne different]

variable {docId' : DocIdRaw}

theorem Staged.touches_others (staged : Staged tx docId value change index next)
    (different : other ≠ tx) : Touches next other docId' ↔ Touches index other docId' := by
  unfold Touches
  rw [staged.others different, staged.root]

theorem Staged.touches_self (staged : Staged tx docId value change index next)
    (touches : Touches next tx docId') : docId' = docId ∨ Touches index tx docId' := by
  obtain ⟨before, behind, isStaged, tidy, tidy'⟩ := staged.writes
  obtain ⟨write, inside, same⟩ := touches
  rw [isStaged, update_self, append_assoc] at inside
  rw [staged.root] at same
  rcases mem_append.mp inside with old | new
  · exact Or.inr ⟨write, old, same⟩
  · rcases mem_append.mp new with isBefore | isBehind
    · exact absurd same (Tidy.untouched tidy isBefore)
    · rcases mem_cons.mp isBehind with rfl | isBehind
      · exact Or.inl (keyWithId_injective same).symm
      · exact absurd same (Tidy.untouched tidy' isBehind)

theorem Staged.entryAfter_self (staged : Staged tx docId value change index next) :
    next.entryAfter tx docId = value := by
  obtain ⟨before, behind, isStaged, tidy, tidy'⟩ := staged.writes
  have split : before ++ (keyWithId index.root "dl:" docId, value) :: behind =
      (before ++ [(keyWithId index.root "dl:" docId, value)]) ++ behind := by
    rw [append_assoc]
    rfl
  rw [entryAfter, isStaged, update_self, staged.root, append_assoc, split,
    ← append_assoc, applyWrites_append,
    applyWrites_of_untouched fun write inside => Tidy.untouched tidy' inside,
    ← append_assoc, applyWrites_concat, update_self]

theorem Staged.entryAfter_of_ne (staged : Staged tx docId value change index next)
    (different : docId' ≠ docId) : next.entryAfter tx docId' = index.entryAfter tx docId' := by
  obtain ⟨before, behind, isStaged, tidy, tidy'⟩ := staged.writes
  rw [entryAfter, entryAfter, isStaged, update_self, staged.root, staged.get,
    append_assoc, applyWrites_append]
  refine applyWrites_of_untouched fun write inside => ?_
  rcases mem_append.mp inside with isBefore | isBehind
  · exact Tidy.untouched tidy isBefore
  · rcases mem_cons.mp isBehind with rfl | isBehind
    · exact fun same => different (keyWithId_injective same).symm
    · exact Tidy.untouched tidy' isBehind

theorem Staged.change_self (staged : Staged tx docId value change index next) :
    next.change tx = (index.change tx).add change := by
  rw [InvertedIndex.change, staged.stats, AList.lookup_insert, getD_some]

theorem Staged.change_of_ne (staged : Staged tx docId value change index next)
    (different : other ≠ tx) : next.change other = index.change other := by
  rw [InvertedIndex.change, staged.stats, AList.lookup_insert_ne different]
  rfl

/-- Nothing that is staged concerns the document. -/
def Untouched (index : InvertedIndex) (docId : DocIdRaw) : Prop :=
  ∀ tx, ¬ Touches index tx docId

theorem Consistent.staged (consistent : Consistent index)
    (staged : Staged tx docId value change index next) (untouched : Untouched index docId)
    (measured : ∀ bytes, value = some bytes → (readU32 bytes).isSome = true)
    (docs : change.docsDelta = docWeight value - docWeight (index.lengthEntry docId))
    (tokens : change.tokensDelta = tokenWeight value - tokenWeight (index.lengthEntry docId)) :
    Consistent next := by
  have after (weight : Option Bytes → Int) : corpus weight (next.entryAfter tx) =
      corpus weight (index.entryAfter tx) + (weight value - weight (index.lengthEntry docId)) := by
    rw [corpus_update fun docId' different => staged.entryAfter_of_ne different,
      staged.entryAfter_self, entryAfter_untouched (untouched tx)]
  have afterOthers (other : TxId) (different : other ≠ tx) :
      next.entryAfter other = index.entryAfter other := by
    funext docId'
    rw [entryAfter, entryAfter, staged.get, staged.others different, staged.root]
  obtain ⟨before, behind, isStaged, tidy, tidy'⟩ := staged.writes
  have cases {write : Key × Option Bytes} {tx' : TxId} (inside : write ∈ next.storage.staged tx') :
      write ∈ index.storage.staged tx' ∨ write ∈ before ∨
        write = (keyWithId index.root "dl:" docId, value) ∨ write ∈ behind := by
    by_cases same : tx' = tx
    · subst same
      rw [isStaged, update_self, append_assoc] at inside
      rcases mem_append.mp inside with old | new
      · exact Or.inl old
      · rcases mem_append.mp new with isBefore | isBehind
        · exact Or.inr (Or.inl isBefore)
        · rcases mem_cons.mp isBehind with isWrite | isBehind
          · exact Or.inr (Or.inr (Or.inl isWrite))
          · exact Or.inr (Or.inr (Or.inr isBehind))
    · rw [staged.others same] at inside
      exact Or.inl inside
  refine ⟨staged.lists, fun tx' write inside isBatch => ?_, ?_, fun tx' write inside docId' isKey => ?_,
    fun tx' other docId' isFirst isSecond => ?_, fun tx' => ?_, fun tx' => ?_, ?_, ?_⟩
  · rw [staged.root] at isBatch
    rcases cases inside with old | isBefore | rfl | isBehind
    · exact consistent.batches tx' write old isBatch
    · exact tidy.batch write isBefore isBatch
    · exact absurd isBatch (not_isOfKind (isOfKind_withId _) (by decide) (by decide))
    · exact tidy'.batch write isBehind isBatch
  · rw [staged.lengthEntry]
    exact consistent.measured
  · rw [staged.root] at isKey
    rcases cases inside with old | isBefore | rfl | isBehind
    · exact consistent.measuredStaged tx' write old docId' isKey
    · exact absurd isKey (Tidy.untouched tidy isBefore)
    · exact measured
    · exact absurd isKey (Tidy.untouched tidy' isBehind)
  · have old {tx' : TxId} (touches : Touches next tx' docId') :
        (tx' = tx ∧ docId' = docId) ∨ Touches index tx' docId' := by
      by_cases same : tx' = tx
      · subst same
        rcases staged.touches_self touches with rfl | before
        · exact Or.inl ⟨rfl, rfl⟩
        · exact Or.inr before
      · exact Or.inr ((staged.touches_others same).mp touches)
    rcases old isFirst with ⟨rfl, rfl⟩ | isFirst
    · rcases old isSecond with ⟨rfl, -⟩ | isSecond
      · rfl
      · exact absurd isSecond (untouched other)
    · rcases old isSecond with ⟨rfl, rfl⟩ | isSecond
      · exact absurd isFirst (untouched tx')
      · exact consistent.apart tx' other docId' isFirst isSecond
  · rw [staged.lengthEntry]
    by_cases same : tx' = tx
    · subst same
      rw [staged.change_self, after]
      simp only [StagedStatsChange.add, consistent.docs, docs]
      omega
    · rw [staged.change_of_ne same, afterOthers tx' same]
      exact consistent.docs tx'
  · rw [staged.lengthEntry]
    by_cases same : tx' = tx
    · subst same
      rw [staged.change_self, after]
      simp only [StagedStatsChange.add, consistent.tokens, tokens]
      omega
    · rw [staged.change_of_ne same, afterOthers tx' same]
      exact consistent.tokens tx'
  · rw [staged.totals.1, staged.lengthEntry]
    exact consistent.totalDocs
  · rw [staged.totals.2, staged.lengthEntry]
    exact consistent.totalTokens

/-- The corpus with the writes of the transaction fits the counters. -/
def Fits (index : InvertedIndex) (tx : TxId) : Prop :=
  corpus docWeight (index.entryAfter tx) < 2 ^ 64 ∧ corpus tokenWeight (index.entryAfter tx) < 2 ^ 64

theorem shift_val {total : U64} {delta : Int} (nonneg : 0 ≤ total.val + delta)
    (fits : total.val + delta < 2 ^ 64) : ((shift total delta).val : Int) = total.val + delta := by
  have bound := total.isLt
  unfold shift
  split_ifs with positive negative
  · obtain ⟨amount, rfl⟩ := Int.eq_ofNat_of_zero_le positive.le
    rw [Fin.val_add]
    simp only [Fin.ofNat, Int.toNat_natCast]
    omega
  · obtain ⟨amount, isAmount⟩ := Int.eq_ofNat_of_zero_le (Int.neg_nonneg.mpr negative.le)
    have isAbs : delta.natAbs = amount := by omega
    rw [Fin.val_sub]
    simp only [Fin.ofNat, isAbs]
    omega
  · omega

theorem shift_zero (total : U64) : shift total 0 = total := rfl

theorem commitStats_spec (env : TextEnv) (index : InvertedIndex) (tx : TxId) :
    ∃ bytes, (index.commitStats env tx).storage = index.storage.put tx index.metaKey bytes ∧
      (index.commitStats env tx).root = index.root ∧
      (index.commitStats env tx).resident = index.resident ∧
      (index.commitStats env tx).stagedStats = index.stagedStats.erase tx ∧
      (index.commitStats env tx).totalDocs = shift index.totalDocs (index.change tx).docsDelta ∧
      (index.commitStats env tx).totalTokens =
        shift index.totalTokens (index.change tx).tokensDelta := by
  unfold commitStats
  by_cases changed : (index.change tx).docsDelta ≠ 0 ∨ (index.change tx).tokensDelta ≠ 0
  · simp only [if_pos changed]
    exact ⟨_, rfl, rfl, rfl, rfl, rfl, rfl⟩
  · obtain ⟨noDocs, noTokens⟩ := not_or.mp changed
    simp only [not_not.mp noDocs, not_not.mp noTokens, shift_zero]
    exact ⟨_, rfl, rfl, rfl, rfl, rfl, rfl⟩

theorem commit_spec (env : TextEnv) (index : InvertedIndex) (tx : TxId) :
    ∃ bytes, (index.commit env tx).get = applyWrites index.get
        (index.storage.staged tx ++ [(index.metaKey, some bytes)]) ∧
      (index.commit env tx).storage.staged = Function.update index.storage.staged tx [] ∧
      (index.commit env tx).root = index.root ∧
      (index.commit env tx).resident = index.resident ∧
      (index.commit env tx).stagedStats = index.stagedStats.erase tx ∧
      (index.commit env tx).totalDocs = shift index.totalDocs (index.change tx).docsDelta ∧
      (index.commit env tx).totalTokens =
        shift index.totalTokens (index.change tx).tokensDelta := by
  obtain ⟨bytes, isStorage, rest⟩ := commitStats_spec env index tx
  refine ⟨bytes, ?_, ?_, rest⟩
  · have isGet : (index.commit env tx).get =
        (((index.commitStats env tx).storage.staged tx).foldl Storage.write
          (index.commitStats env tx).storage.committed).lookup := rfl
    rw [isGet, lookup_commit, isStorage]
    simp only [Storage.put, Storage.stage, update_self]
    rfl
  · have isStaged : (index.commit env tx).storage.staged =
        Function.update (index.commitStats env tx).storage.staged tx [] := rfl
    rw [isStaged, isStorage]
    simp only [Storage.put, Storage.stage, update_idem]

theorem lengthEntry_commit (env : TextEnv) (index : InvertedIndex) (tx : TxId) :
    (index.commit env tx).lengthEntry = index.entryAfter tx := by
  obtain ⟨bytes, isGet, -, isRoot, -⟩ := commit_spec env index tx
  funext docId
  rw [lengthEntry, isGet, isRoot, applyWrites_append]
  refine applyWrites_of_untouched fun write inside same => ?_
  rw [mem_singleton.mp inside] at same
  exact not_isOfKind (isOfKind_meta index) (by decide) (by decide) ⟨decimal docId, same⟩

theorem change_erase {stagedStats : AList fun _ : TxId => StagedStatsChange}
    (isStats : next.stagedStats = stagedStats.erase tx) (same : index.stagedStats = stagedStats) :
    next.change other = if other = tx then ⟨0, 0⟩ else index.change other := by
  rw [InvertedIndex.change, isStats]
  split_ifs with isTx
  · rw [isTx, AList.lookup_erase]
    rfl
  · rw [AList.lookup_erase_ne isTx, InvertedIndex.change, same]

theorem Consistent.difference (consistent : Consistent index) (weight : Option Bytes → Int)
    (different : other ≠ tx) (isEntry : next.lengthEntry = index.entryAfter tx)
    (isRoot : next.root = index.root)
    (isStaged : next.storage.staged other = index.storage.staged other) :
    corpus weight (next.entryAfter other) - corpus weight next.lengthEntry =
      corpus weight (index.entryAfter other) - corpus weight index.lengthEntry := by
  refine corpus_sub_congr fun docId => ?_
  rw [isEntry]
  by_cases touches : Touches index other docId
  · have untouched : ¬ Touches index tx docId :=
      fun isTouched => different (consistent.apart other tx docId touches isTouched)
    have same : next.entryAfter other docId = index.entryAfter other docId := by
      rw [entryAfter, entryAfter, isStaged, isRoot]
      exact applyWrites_touched touches
    rw [same, entryAfter_untouched untouched]
  · have untouched : ¬ Touches next other docId := by
      unfold Touches
      rw [isStaged, isRoot]
      exact touches
    rw [entryAfter_untouched untouched, entryAfter_untouched touches, isEntry, sub_self, sub_self]

theorem Consistent.commit (consistent : Consistent index) (fits : Fits index tx) :
    Consistent (index.commit env tx) := by
  obtain ⟨bytes, isGet, isStaged, isRoot, isResident, isStats, isDocs, isTokens⟩ :=
    commit_spec env index tx
  have isEntry := lengthEntry_commit env index tx
  have stagedOther {tx' : TxId} (different : tx' ≠ tx) :
      (index.commit env tx).storage.staged tx' = index.storage.staged tx' := by
    rw [isStaged, update_of_ne different]
  have stagedSelf : (index.commit env tx).storage.staged tx = [] := by
    rw [isStaged, update_self]
  have inside {tx' : TxId} {write : Key × Option Bytes}
      (isWrite : write ∈ (index.commit env tx).storage.staged tx') :
      write ∈ index.storage.staged tx' := by
    by_cases same : tx' = tx
    · rw [same, stagedSelf] at isWrite
      exact absurd isWrite not_mem_nil
    · rwa [stagedOther same] at isWrite
  have touches {tx' : TxId} {docId : DocIdRaw} (isTouched : Touches (index.commit env tx) tx' docId) :
      Touches index tx' docId := by
    obtain ⟨write, isWrite, same⟩ := isTouched
    exact ⟨write, inside isWrite, isRoot ▸ same⟩
  have change (tx' : TxId) : (index.commit env tx).change tx' =
      if tx' = tx then ⟨0, 0⟩ else index.change tx' := change_erase isStats rfl
  have delta (weight : Option Bytes → Int) (of : StagedStatsChange → Int) (none : of ⟨0, 0⟩ = 0)
      (before : ∀ tx', of (index.change tx') =
        corpus weight (index.entryAfter tx') - corpus weight index.lengthEntry) (tx' : TxId) :
      of ((index.commit env tx).change tx') =
        corpus weight ((index.commit env tx).entryAfter tx') -
          corpus weight (index.commit env tx).lengthEntry := by
    rw [change]
    split_ifs with same
    · have untouched : (index.commit env tx).entryAfter tx' = (index.commit env tx).lengthEntry := by
        funext docId
        refine entryAfter_untouched ?_
        rintro ⟨write, isWrite, -⟩
        rw [same, stagedSelf] at isWrite
        exact absurd isWrite not_mem_nil
      rw [untouched, sub_self, none]
    · rw [before, consistent.difference weight same isEntry isRoot (stagedOther same)]
  refine ⟨⟨fun term list found => ?_, fun term value found => ?_⟩, fun tx' write isWrite isBatch => ?_,
    fun docId value found => ?_, fun tx' write isWrite docId isKey => ?_,
    fun tx' other docId first second => ?_, ?_, ?_, ?_, ?_⟩
  · rw [isResident] at found
    exact consistent.lists.resident term list found
  · rw [isGet, isRoot] at found
    rcases applyWrites_cases found with ⟨write, isWrite, isKey, isValue⟩ | old
    · have isBatch : IsOfKind index.root "plb:" write.1 := isKey ▸ isOfKind_batch
      rcases mem_append.mp isWrite with isStagedWrite | isMeta
      · exact consistent.batches tx write isStagedWrite isBatch value isValue
      · rw [mem_singleton.mp isMeta] at isBatch
        exact absurd isBatch (not_isOfKind (isOfKind_meta index) (by decide) (by decide))
    · exact consistent.lists.committed term value old
  · rw [isRoot] at isBatch
    exact consistent.batches tx' write (inside isWrite) isBatch
  · rw [isEntry] at found
    rcases applyWrites_cases found with ⟨write, isWrite, isKey, isValue⟩ | old
    · exact consistent.measuredStaged tx write isWrite docId isKey value isValue
    · exact consistent.measured docId value old
  · rw [isRoot] at isKey
    exact consistent.measuredStaged tx' write (inside isWrite) docId isKey
  · exact consistent.apart tx' other docId (touches first) (touches second)
  · exact delta docWeight StagedStatsChange.docsDelta rfl consistent.docs
  · exact delta tokenWeight StagedStatsChange.tokensDelta rfl consistent.tokens
  · have nonneg := corpus_nonneg docWeight_nonneg (index.entryAfter tx)
    have isSum : (index.totalDocs.val : Int) + (index.change tx).docsDelta =
        corpus docWeight (index.entryAfter tx) := by
      rw [consistent.totalDocs, consistent.docs]
      omega
    rw [isDocs, isEntry, shift_val (isSum ▸ nonneg) (isSum ▸ fits.1), isSum]
  · have nonneg := corpus_nonneg tokenWeight_nonneg (index.entryAfter tx)
    have isSum : (index.totalTokens.val : Int) + (index.change tx).tokensDelta =
        corpus tokenWeight (index.entryAfter tx) := by
      rw [consistent.totalTokens, consistent.tokens]
      omega
    rw [isTokens, isEntry, shift_val (isSum ▸ nonneg) (isSum ▸ fits.2), isSum]

theorem Consistent.rollback (consistent : Consistent index) : Consistent (index.rollback tx) := by
  have isStaged : (index.rollback tx).storage.staged = Function.update index.storage.staged tx [] := rfl
  have isEntry : (index.rollback tx).lengthEntry = index.lengthEntry := rfl
  have stagedOther {tx' : TxId} (different : tx' ≠ tx) :
      (index.rollback tx).storage.staged tx' = index.storage.staged tx' := by
    rw [isStaged, update_of_ne different]
  have inside {tx' : TxId} {write : Key × Option Bytes}
      (isWrite : write ∈ (index.rollback tx).storage.staged tx') :
      write ∈ index.storage.staged tx' := by
    by_cases same : tx' = tx
    · rw [same, isStaged, update_self] at isWrite
      exact absurd isWrite not_mem_nil
    · rwa [stagedOther same] at isWrite
  have change (tx' : TxId) : (index.rollback tx).change tx' =
      if tx' = tx then ⟨0, 0⟩ else index.change tx' := change_erase rfl rfl
  have after (tx' : TxId) : (index.rollback tx).entryAfter tx' =
      if tx' = tx then index.lengthEntry else index.entryAfter tx' := by
    funext docId
    split_ifs with same
    · rw [entryAfter, same, isStaged, update_self]
      rfl
    · rw [entryAfter, stagedOther same]
      rfl
  have lists : KeptLists (index.rollback tx) := by
    refine ⟨?_, consistent.lists.committed⟩
    intro term list impossible
    cases impossible
  refine ⟨lists,
    fun tx' write isWrite => consistent.batches tx' write (inside isWrite), consistent.measured,
    fun tx' write isWrite => consistent.measuredStaged tx' write (inside isWrite), ?_,
    fun tx' => ?_, fun tx' => ?_, consistent.totalDocs, consistent.totalTokens⟩
  · rintro tx' other docId ⟨write, isWrite, same⟩ ⟨write', isWrite', same'⟩
    exact consistent.apart tx' other docId ⟨write, inside isWrite, same⟩
      ⟨write', inside isWrite', same'⟩
  · rw [change, after, isEntry]
    split_ifs with same
    · exact (sub_self _).symm
    · exact consistent.docs tx'
  · rw [change, after, isEntry]
    split_ifs with same
    · exact (sub_self _).symm
    · exact consistent.tokens tx'

inductive Call where
  | upsert (tx : TxId) (docId : DocIdRaw) (text : List Char)
  | delete (tx : TxId) (docId : DocIdRaw)
  | commit (tx : TxId)
  | rollback (tx : TxId)
  deriving DecidableEq, Repr

def step (env : TextEnv) (index : InvertedIndex) : Call → Option InvertedIndex
  | .upsert tx docId text => some (index.upsertDocument env tx docId text).1
  | .delete tx docId => some (index.deleteDocument env tx docId).1
  | .commit tx => some (index.commit env tx)
  | .rollback tx => some (index.rollback tx)

/-- A document is staged once at a time, and the limits are kept. -/
def Apart (index : InvertedIndex) : Call → Prop
  | .upsert tx docId text =>
    maxTextBytes < utf8Len text ∨ (Untouched index docId ∧ Room index tx)
  | .delete tx docId => index.lengthEntry docId = none ∨ (Untouched index docId ∧ Room index tx)
  | .commit tx => Fits index tx
  | .rollback _ => True

/-- The totals are those of the committed lengths, and no pending change takes them below zero. -/
structure Exact (index : InvertedIndex) : Prop where
  docs : index.totalDocs.val =
    (Finset.univ.filter fun docId => (index.lengthEntry docId).isSome = true).card
  tokens : index.totalTokens.val =
    ∑ docId, (((index.lengthEntry docId).bind readU32).map Fin.val).getD 0
  docsKept : ∀ tx, 0 ≤ (index.totalDocs.val : Int) + (index.change tx).docsDelta
  tokensKept : ∀ tx, 0 ≤ (index.totalTokens.val : Int) + (index.change tx).tokensDelta

theorem corpus_docWeight (entries : DocIdRaw → Option Bytes) : corpus docWeight entries =
    ((Finset.univ.filter fun docId => (entries docId).isSome = true).card : Int) := by
  rw [corpus, Finset.card_filter, Nat.cast_sum]
  refine Finset.sum_congr rfl fun docId _ => ?_
  rw [docWeight, Nat.cast_ite, Nat.cast_one, Nat.cast_zero]

theorem corpus_tokenWeight (entries : DocIdRaw → Option Bytes) : corpus tokenWeight entries =
    ((∑ docId, (((entries docId).bind readU32).map Fin.val).getD 0 : Nat) : Int) := by
  rw [corpus, Nat.cast_sum]
  refine Finset.sum_congr rfl fun docId _ => ?_
  rw [tokenWeight]
  cases (entries docId).bind readU32 <;> rfl

theorem Consistent.exact (consistent : Consistent index) : Exact index where
  docs := by
    have isCorpus := consistent.totalDocs
    rw [corpus_docWeight] at isCorpus
    exact_mod_cast isCorpus
  tokens := by
    have isCorpus := consistent.totalTokens
    rw [corpus_tokenWeight] at isCorpus
    exact_mod_cast isCorpus
  docsKept := fun tx => by
    have nonneg := corpus_nonneg docWeight_nonneg (index.entryAfter tx)
    rw [consistent.totalDocs, consistent.docs]
    omega
  tokensKept := fun tx => by
    have nonneg := corpus_nonneg tokenWeight_nonneg (index.entryAfter tx)
    rw [consistent.totalTokens, consistent.tokens]
    omega

theorem Consistent.changeTo_docs (consistent : Consistent index) (new : Option U32) :
    (changeTo ((index.lengthEntry docId).bind readU32) new).docsDelta =
      docWeight (new.map u32Bytes) - docWeight (index.lengthEntry docId) := by
  have readable : ((index.lengthEntry docId).bind readU32).isSome =
      (index.lengthEntry docId).isSome := by
    cases found : index.lengthEntry docId with
    | none => rfl
    | some bytes => exact consistent.measured docId bytes found
  simp only [changeTo, docWeight, readable, isSome_map]

theorem changeTo_tokens (index : InvertedIndex) (docId : DocIdRaw) (new : Option U32) :
    (changeTo ((index.lengthEntry docId).bind readU32) new).tokensDelta =
      tokenWeight (new.map u32Bytes) - tokenWeight (index.lengthEntry docId) := by
  cases new with
  | none => rfl
  | some len =>
    simp only [changeTo, tokenWeight, map_some, bind_some, readU32_u32Bytes]

theorem Consistent.upsert (consistent : Consistent index) {text : List Char}
    (apart : Apart index (.upsert tx docId text)) :
    Consistent (index.upsertDocument env tx docId text).1 := by
  have room (accepted : utf8Len text ≤ maxTextBytes) : Room index tx :=
    apart.elim (fun oversized => absurd accepted (not_le.mpr oversized)) And.right
  rcases apart with oversized | ⟨untouched, -⟩
  · rw [upsertDocument, if_pos oversized]
    exact consistent
  · rcases @upsertDocument_cases env index tx docId text consistent.lists room with
      unchanged | ⟨newLen, staged⟩
    · rwa [unchanged]
    · refine consistent.staged staged untouched ?_ (consistent.changeTo_docs (some newLen))
        (changeTo_tokens index docId (some newLen))
      rintro bytes ⟨rfl⟩
      rw [readU32_u32Bytes]
      rfl

theorem Consistent.delete (consistent : Consistent index)
    (apart : Apart index (.delete tx docId)) :
    Consistent (index.deleteDocument env tx docId).1 := by
  have room (stored : index.lengthEntry docId ≠ none) : Room index tx :=
    apart.elim (fun missing => absurd missing stored) And.right
  rcases @deleteDocument_cases env index tx docId consistent.lists room with
    ⟨-, unchanged⟩ | ⟨bytes, found, staged⟩
  · rwa [unchanged]
  · have isEntry : index.lengthEntry docId = some bytes := found
    have untouched : Untouched index docId := by
      rcases apart with missing | ⟨untouched, -⟩
      · rw [isEntry] at missing
        cases missing
      · exact untouched
    obtain ⟨len, isLen⟩ := isSome_iff_exists.mp (consistent.measured docId bytes isEntry)
    have isRead : some ((readU32 bytes).getD 0) = (index.lengthEntry docId).bind readU32 := by
      rw [isEntry, bind_some, isLen, getD_some]
    rw [isRead] at staged
    refine consistent.staged staged untouched ?_ (consistent.changeTo_docs none)
      (changeTo_tokens index docId none)
    intro value impossible
    cases impossible

theorem consistent_step (consistent : Consistent index) {call : Call} (apart : Apart index call)
    (taken : step env index call = some next) : Consistent next := by
  cases call with
  | upsert tx docId text =>
    cases taken
    exact consistent.upsert apart
  | delete tx docId =>
    cases taken
    exact consistent.delete apart
  | commit tx =>
    cases taken
    exact consistent.commit apart
  | rollback tx =>
    cases taken
    exact consistent.rollback

/-- The statistics are exact in every state of a run in which no document is staged twice. -/
theorem statistics_exact {root : Key} {calls : List Call}
    (apart : Along (step env) Apart (.new root) calls)
    (reached : run (step env) (.new root) calls = some index) : Exact index :=
  (run_invariant (fun _ _ _ consistent isApart taken => consistent_step consistent isApart taken)
    (consistent_new root) apart reached).exact

def oneWord : TextEnv where
  tokenize := fun text => [text]
  serializeTerms := fun terms => toLeBytes 8 terms.length ++ terms.flatMap fun term =>
    toLeBytes 8 term.length ++ term.map fun letter => UInt8.ofNat letter.toNat
  deserializeTerms := fun _ => .ok []
  deserializePostings := fun _ => .error (.storage "bincode")
  serializeMetadata := fun metadata => toLeBytes 8 metadata.totalDocs ++
    toLeBytes 8 metadata.totalTokens ++ toLeBytes 8 metadata.avgDocLenX1000
  averageLen := fun totalDocs totalTokens =>
    Fin.ofNat (2 ^ 64) (totalTokens.val * 1000 / totalDocs.val)

theorem Consistent.fits (consistent : Consistent index)
    (docs : (index.totalDocs.val : Int) + (index.change tx).docsDelta < 2 ^ 64)
    (tokens : (index.totalTokens.val : Int) + (index.change tx).tokensDelta < 2 ^ 64) :
    Fits index tx := by
  rw [consistent.totalDocs, consistent.docs] at docs
  rw [consistent.totalTokens, consistent.tokens] at tokens
  exact ⟨by omega, by omega⟩

/-- One document, committed after another one was rolled back. -/
theorem statistics_exact_one : ∃ index,
    run (step oneWord) (.new "__txt:default:".toList)
      [.rollback 2, .upsert 1 5 "katze".toList, .commit 1] = some index ∧ Exact index := by
  have apart : Along (step oneWord) Apart (.new "__txt:default:".toList)
      [.rollback 2, .upsert 1 5 "katze".toList, .commit 1] := by
    refine ⟨trivial, ?_⟩
    rintro rolledBack ⟨rfl⟩
    have first : Consistent ((InvertedIndex.new "__txt:default:".toList).rollback 2) :=
      (consistent_new _).rollback
    have isApart : Apart ((InvertedIndex.new "__txt:default:".toList).rollback 2)
        (.upsert 1 5 "katze".toList) := by
      refine Or.inr ⟨?_, Or.inl (by decide)⟩
      rintro tx ⟨write, inside, -⟩
      have empty : ((InvertedIndex.new "__txt:default:".toList).rollback 2).storage.staged tx = [] :=
        congrFun (update_eq_self 2 _) tx
      rw [empty] at inside
      exact absurd inside not_mem_nil
    refine ⟨isApart, ?_⟩
    rintro inserted ⟨rfl⟩
    refine ⟨(first.upsert isApart).fits (by decide +kernel) (by decide +kernel), ?_⟩
    rintro committed ⟨rfl⟩
    trivial
  exact ⟨_, rfl, statistics_exact apart rfl⟩

theorem entryAfter_upsert {text : List Char} (kept : KeptLists index)
    (room : Room index tx) (different : docId' ≠ docId) :
    (index.upsertDocument env tx docId text).1.entryAfter tx docId' = index.entryAfter tx docId' := by
  rcases @upsertDocument_cases env index tx docId text kept fun _ => room with
    unchanged | ⟨newLen, staged⟩
  · rw [unchanged]
  · exact staged.entryAfter_of_ne different

/-- A document that a transaction inserts twice counts twice. -/
theorem inserted_twice_counts_twice : ∃ index,
    run (step oneWord) (.new "__txt:default:".toList)
      [.upsert 1 5 "katze".toList, .upsert 1 5 "katze".toList, .commit 1] = some index ∧
        ¬ Exact index := by
  refine ⟨_, rfl, fun exact => ?_⟩
  let start := InvertedIndex.new "__txt:default:".toList
  let once := (start.upsertDocument oneWord 1 5 "katze".toList).1
  let twice := (once.upsertDocument oneWord 1 5 "katze".toList).1
  have kept : KeptLists start := (consistent_new _).lists
  have roomStart : Room start 1 := Or.inl (by decide)
  have roomOnce : Room once 1 := Or.inl (by decide +kernel)
  have keptOnce : KeptLists once := by
    rcases @upsertDocument_cases oneWord start 1 5 "katze".toList kept fun _ => roomStart with
      unchanged | ⟨newLen, staged⟩
    · have isOnce : once = start := unchanged
      rwa [isOnce]
    · exact staged.lists
  have others {docId : DocIdRaw} (different : docId ≠ 5) :
      (twice.commit oneWord 1).lengthEntry docId = none := by
    rw [lengthEntry_commit, entryAfter_upsert keptOnce roomOnce different,
      entryAfter_upsert kept roomStart different]
    rfl
  have counted : (twice.commit oneWord 1).totalDocs.val = 2 := by decide +kernel
  have atMostOne : (Finset.univ.filter fun docId =>
      ((twice.commit oneWord 1).lengthEntry docId).isSome = true).card ≤ 1 := by
    refine Finset.card_le_one_iff_subset_singleton.mpr ⟨5, fun docId inside => ?_⟩
    by_contra outside
    have found := (Finset.mem_filter.mp inside).2
    rw [others fun same => outside (Finset.mem_singleton.mpr same)] at found
    cases found
  rw [← exact.docs, counted] at atMostOne
  omega

end InvertedIndex

end Contextra.Text
