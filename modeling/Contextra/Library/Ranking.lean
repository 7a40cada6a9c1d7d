import Mathlib

/-!
# Rankings by score

Elements in order of falling score, the smaller element first where two scores are equal.  The
front of a ranking is known as soon as each of its elements is known to come before everything
that is not in it; a bounded heap keeps such a front.
-/

namespace Contextra.Library

open List

variable {α K : Type} [LinearOrder α] [LinearOrder K]

def ScoredBefore (a b : α × K) : Prop := b.2 < a.2 ∨ (a.2 = b.2 ∧ a.1 ≤ b.1)

instance : DecidableRel (ScoredBefore (α := α) (K := K)) := fun a b =>
  inferInstanceAs (Decidable (b.2 < a.2 ∨ (a.2 = b.2 ∧ a.1 ≤ b.1)))

instance : Std.Total (ScoredBefore (α := α) (K := K)) where
  total a b := by
    rcases lt_trichotomy a.2 b.2 with less | same | greater
    · exact .inr (.inl less)
    · rcases le_total a.1 b.1 with below | above
      · exact .inl (.inr ⟨same, below⟩)
      · exact .inr (.inr ⟨same.symm, above⟩)
    · exact .inl (.inl greater)

instance : IsTrans (α × K) ScoredBefore where
  trans a b c := by
    rintro (higher | ⟨same, below⟩) (higher' | ⟨same', below'⟩)
    · exact .inl (higher'.trans higher)
    · exact .inl (same' ▸ higher)
    · exact .inl (same ▸ higher')
    · exact .inr ⟨same.trans same', below.trans below'⟩

instance : Std.Antisymm (ScoredBefore (α := α) (K := K)) where
  antisymm a b := by
    rintro (higher | ⟨same, below⟩) (higher' | ⟨same', above⟩)
    · exact absurd higher' higher.asymm
    · exact absurd same'.symm higher.ne'
    · exact absurd same.symm higher'.ne'
    · exact Prod.ext (le_antisymm below above) same

def RanksBefore (score : α → K) (a b : α) : Prop := ScoredBefore (a, score a) (b, score b)

section Order

variable (score : α → K)

instance : DecidableRel (RanksBefore score) := fun a b =>
  inferInstanceAs (Decidable (ScoredBefore (a, score a) (b, score b)))

instance : Std.Total (RanksBefore score) where
  total a b := Std.Total.total (r := ScoredBefore) (a, score a) (b, score b)

instance : IsTrans α (RanksBefore score) where
  trans a b c := IsTrans.trans (r := ScoredBefore) (a, score a) (b, score b) (c, score c)

instance : Std.Antisymm (RanksBefore score) where
  antisymm a b first second :=
    congrArg Prod.fst (Std.Antisymm.antisymm (r := ScoredBefore) (a, score a) (b, score b)
      first second)

end Order

def ranking (score : α → K) (elements : List α) : List α :=
  elements.dedup.insertionSort (RanksBefore score)

variable {score : α → K} {elements front : List α}

theorem ranking_pairwise : (ranking score elements).Pairwise (RanksBefore score) :=
  pairwise_insertionSort _ _

theorem ranking_perm : (ranking score elements).Perm elements.dedup :=
  perm_insertionSort _ _

@[simp] theorem mem_ranking {a : α} : a ∈ ranking score elements ↔ a ∈ elements := by
  rw [ranking_perm.mem_iff, mem_dedup]

theorem ranking_nodup : (ranking score elements).Nodup :=
  ranking_perm.nodup_iff.mpr (nodup_dedup elements)

theorem length_ranking_le : (ranking score elements).length ≤ elements.length := by
  rw [ranking_perm.length_eq]
  exact (dedup_sublist _).length_le

theorem take_ranking (different : front.Nodup) (contained : front ⊆ elements)
    (ordered : front.Pairwise (RanksBefore score))
    (later : ∀ a ∈ front, ∀ b ∈ elements, b ∉ front → RanksBefore score a b) :
    (ranking score elements).take front.length = front := by
  have rest : ∀ a, a ∈ ranking score (elements.filter (· ∉ front)) ↔
      a ∈ elements ∧ a ∉ front := by
    intro a
    rw [mem_ranking, mem_filter, decide_eq_true_iff]
  have whole : ranking score elements =
      front ++ ranking score (elements.filter (· ∉ front)) := by
    have sameMembers : (ranking score elements).Perm
        (front ++ ranking score (elements.filter (· ∉ front))) := by
      refine (perm_ext_iff_of_nodup ranking_nodup ?_).mpr fun a => ?_
      · refine different.append ranking_nodup fun a inFront inRest => ?_
        exact ((rest a).mp inRest).2 inFront
      · rw [mem_ranking, mem_append, rest]
        by_cases inFront : a ∈ front
        · simp [inFront, contained inFront]
        · simp [inFront]
    refine sameMembers.eq_of_pairwise' ranking_pairwise ?_
    refine pairwise_append.mpr ⟨ordered, ranking_pairwise, fun a inFront b inRest => ?_⟩
    obtain ⟨inElements, absent⟩ := (rest b).mp inRest
    exact later a inFront b inElements absent
  rw [whole, take_left]

theorem filter_ranking (test : α → Bool) :
    (ranking score elements).filter test = ranking score (elements.filter test) := by
  have sameMembers : ((ranking score elements).filter test).Perm
      (ranking score (elements.filter test)) := by
    apply (perm_ext_iff_of_nodup (ranking_nodup.filter _) ranking_nodup).mpr
    intro a
    rw [mem_filter, mem_ranking, mem_ranking, mem_filter]
  exact sameMembers.eq_of_pairwise' (ranking_pairwise.filter _) ranking_pairwise

/-- The rule for sorted records: records of different elements, in the order of their scores, are
the records of the ranking. -/
theorem eq_map_ranking {β : Type} {before : β → β → Prop} {record : α → β} (element : β → α)
    (inverse : ∀ a, element (record a) = a)
    (agree : ∀ a b, before (record a) (record b) → RanksBefore score a b)
    (different : elements.Nodup) {list : List β} (isPerm : list.Perm (elements.map record))
    (sorted : list.Pairwise before) : list = (ranking score elements).map record := by
  have isRecord : ∀ b ∈ list, record (element b) = b := by
    intro b isIn
    obtain ⟨a, -, rfl⟩ := mem_map.mp (isPerm.subset isIn)
    rw [inverse]
  have records : (list.map element).map record = list := by
    rw [map_map]
    exact (map_congr_left isRecord).trans (map_id list)
  have sameElements : (list.map element).Perm (ranking score elements) := by
    have mapped := isPerm.map element
    have identity : element ∘ record = id := funext inverse
    rw [map_map, identity, map_id] at mapped
    refine mapped.trans ?_
    have ranked : (ranking score elements).Perm elements.dedup := ranking_perm
    rw [different.dedup] at ranked
    exact ranked.symm
  have inOrder : (list.map element).Pairwise (RanksBefore score) := by
    rw [pairwise_map]
    refine sorted.imp_of_mem fun {a b} isA isB isBefore => agree _ _ ?_
    rwa [isRecord a isA, isRecord b isB]
  rw [← sameElements.eq_of_pairwise' inOrder ranking_pairwise, records]

theorem ranking_eq_of_mem_iff {others : List α} (same : ∀ a, a ∈ elements ↔ a ∈ others) :
    ranking score elements = ranking score others := by
  have sameMembers : (ranking score elements).Perm (ranking score others) :=
    (perm_ext_iff_of_nodup ranking_nodup ranking_nodup).mpr fun a => by simp [same a]
  exact sameMembers.eq_of_pairwise' ranking_pairwise ranking_pairwise

theorem ranking_of_sorted (different : elements.Nodup)
    (sorted : elements.Pairwise (RanksBefore score)) : ranking score elements = elements := by
  rw [ranking, different.dedup]
  exact List.Pairwise.insertionSort_eq sorted

theorem filter_take {β : Type} {test : β → Bool} {list : List β}
    (falls : list.Pairwise fun first second => test second = true → test first = true)
    (count : Nat) : (list.take count).filter test = (list.filter test).take count := by
  induction list generalizing count with
  | nil => simp
  | cons first list ih =>
    obtain ⟨below, rest⟩ := pairwise_cons.mp falls
    cases count with
    | zero => simp
    | succ count =>
      by_cases passes : test first = true
      · rw [take_succ_cons, filter_cons_of_pos passes, filter_cons_of_pos passes,
          take_succ_cons, ih rest]
      · have noneLater : list.filter test = [] :=
          filter_eq_nil_iff.mpr fun later isLater isTest =>
            passes (below later isLater isTest)
        rw [take_succ_cons, filter_cons_of_neg passes,
          filter_cons_of_neg passes, ih rest, noneLater,
          take_nil, take_nil]

theorem before_of_pairwise {β : Type} {before after : β → β → Prop} {list : List β} {a b : β}
    (first : list.Pairwise before) (second : list.Pairwise after) (inA : a ∈ list)
    (inB : b ∈ list) (different : a ≠ b) (notReversed : ¬ before b a) : after a b := by
  induction list with
  | nil => cases inA
  | cons head rest ih =>
    obtain ⟨headFirst, restFirst⟩ := pairwise_cons.mp first
    obtain ⟨headSecond, restSecond⟩ := pairwise_cons.mp second
    rcases mem_cons.mp inA with rfl | laterA
    · rcases mem_cons.mp inB with rfl | laterB
      · exact absurd rfl different
      · exact headSecond b laterB
    · rcases mem_cons.mp inB with rfl | laterB
      · exact absurd (headFirst a laterA) notReversed
      · exact ih restFirst restSecond laterA laterB

section FirstOccurrences

variable {β : Type} [BEq β] [LawfulBEq β]

theorem eraseDups_concat (list : List β) (element : β) :
    (list ++ [element]).eraseDups =
      if list.contains element then list.eraseDups else list.eraseDups ++ [element] := by
  rw [eraseDups_append]
  by_cases isIn : element ∈ list
  · simp [cons_removeAll, isIn]
  · simp [cons_removeAll, isIn, eraseDups_cons]

theorem nodup_eraseDups (list : List β) : list.eraseDups.Nodup := by
  induction list using reverseRecOn with
  | nil => simp
  | append_singleton list element ih =>
    rw [eraseDups_concat]
    split
    · exact ih
    · rename_i absent
      refine ih.append (nodup_singleton _) ?_
      rw [disjoint_singleton, mem_eraseDups]
      simpa using absent

theorem contains_eraseDups (list : List β) (element : β) :
    list.eraseDups.contains element = list.contains element := by
  rw [Bool.eq_iff_iff, contains_iff_mem, contains_iff_mem, mem_eraseDups]

end FirstOccurrences

section Bounded

variable {β : Type} (before : β → β → Prop) [DecidableRel before]

/-- Offer an element to the list of the best `capacity` ones: it takes free room, or the place of
the last one when it comes strictly before that. -/
def pushBounded (capacity : Nat) (best : List β) (element : β) : List β :=
  if best.length < capacity then best.orderedInsert before element
  else
    match best.getLast? with
    | some worst =>
      if ¬before worst element then best.dropLast.orderedInsert before element else best
    | none => best

variable {before}

theorem orderedInsert_append_of_not_before {element : β} {front : List β} (rest : List β)
    (later : ∀ a ∈ front, ¬before element a) :
    (front ++ rest).orderedInsert before element = front ++ rest.orderedInsert before element := by
  induction front with
  | nil => rfl
  | cons a front ih =>
    obtain ⟨notHead, notRest⟩ := forall_mem_cons.mp later
    rw [cons_append, orderedInsert_cons, if_neg notHead,
      ih notRest,
      cons_append]

theorem orderedInsert_append_of_before {element worst : β} (front rest : List β)
    (isBefore : before element worst) :
    (front ++ worst :: rest).orderedInsert before element =
      front.orderedInsert before element ++ worst :: rest := by
  induction front with
  | nil => simp [isBefore]
  | cons a front ih =>
    by_cases beforeHead : before element a
    · simp [orderedInsert_cons, beforeHead]
    · simp [orderedInsert_cons, beforeHead, ih]

variable [Std.Total before] [IsTrans β before]

theorem pushBounded_take {sorted : List β} (inOrder : sorted.Pairwise before) {element : β}
    (apart : ∀ a ∈ sorted, before element a → ¬before a element) (capacity : Nat) :
    pushBounded before capacity (sorted.take capacity) element =
      (sorted.orderedInsert before element).take capacity := by
  rcases Nat.lt_or_ge sorted.length capacity with room | full
  · have whole : (sorted.orderedInsert before element).length ≤ capacity := by
      rw [orderedInsert_length]
      exact room
    rw [take_of_length_le room.le, take_of_length_le whole, pushBounded, if_pos room]
  · cases capacity with
    | zero => simp [pushBounded]
    | succ capacity =>
      obtain ⟨front, worst, rest, isFront, rfl⟩ :
          ∃ front worst rest, front.length = capacity ∧ sorted = front ++ worst :: rest :=
        ⟨sorted.take capacity, sorted[capacity], sorted.drop (capacity + 1),
          by simp; omega, by rw [getElem_cons_drop, take_append_drop]⟩
      have upTo : (front ++ worst :: rest).take (capacity + 1) = front ++ [worst] := by
        rw [← isFront, ← singleton_append, ← append_assoc]
        exact take_left' (by simp)
      have isFull : ¬(front ++ [worst]).length < capacity + 1 := by simp [isFront]
      rw [upTo, pushBounded, if_neg isFull, getLast?_concat]
      dsimp only
      by_cases isWorst : before worst element
      · have notBefore : ∀ a ∈ front ++ [worst], ¬before element a := by
          intro a isKept elementFirst
          refine apart a ?_ elementFirst ?_
          · rcases mem_append.mp isKept with inFront | isLast
            · exact mem_append_left _ inFront
            · exact mem_append_right _ (by simp [mem_singleton.mp isLast])
          · rcases mem_append.mp isKept with inFront | isLast
            · have beforeWorst := (pairwise_append.mp inOrder).2.2 a inFront worst
                mem_cons_self
              exact IsTrans.trans a worst element beforeWorst isWorst
            · rw [mem_singleton.mp isLast]
              exact isWorst
        have regrouped : front ++ worst :: rest = (front ++ [worst]) ++ rest := by simp
        rw [if_neg (not_not.mpr isWorst), regrouped,
          orderedInsert_append_of_not_before rest notBefore]
        exact (take_left' (by simp [isFront])).symm
      · have isBetter : before element worst := (Std.Total.total element worst).resolve_right isWorst
        rw [if_pos isWorst, dropLast_concat, orderedInsert_append_of_before _ _ isBetter]
        exact (take_left' (by simp [orderedInsert_length, isFront])).symm

theorem foldl_pushBounded {offers : List β}
    (apart : offers.Pairwise fun a b => before b a → ¬before a b) (capacity : Nat) :
    offers.foldl (pushBounded before capacity) [] =
      (offers.reverse.insertionSort before).take capacity := by
  induction offers using reverseRecOn with
  | nil => simp
  | append_singleton offers element ih =>
    obtain ⟨earlier, -, fromEarlier⟩ := pairwise_append.mp apart
    have inOrder : (offers.reverse.insertionSort before).Pairwise before :=
      pairwise_insertionSort _ _
    rw [foldl_concat, ih earlier, reverse_concat,
      insertionSort_cons]
    refine pushBounded_take inOrder (fun a inSorted => ?_) capacity
    have inOffers : a ∈ offers := by
      rwa [(perm_insertionSort before offers.reverse).mem_iff, mem_reverse] at inSorted
    exact fromEarlier a inOffers element mem_cons_self

end Bounded

end Contextra.Library
