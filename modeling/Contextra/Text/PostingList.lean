import Contextra.Library.BinarySearch

/-!
# Posting lists

The postings of one term by ascending document id, and the summary of every block of 64 of them.
-/

namespace Contextra.Text

open Library List

/-- `u64`; `DocIdRaw` too, without the feature `docid-128`. -/
abbrev U64 := Fin (2 ^ 64)

abbrev U32 := Fin (2 ^ 32)

abbrev DocIdRaw := U64

instance neZeroU64 : NeZero (2 ^ 64) := ⟨by decide⟩

instance neZeroU32 : NeZero (2 ^ 32) := ⟨by decide⟩

def u32Max : U32 := Fin.last _

/-- `Posting`: an occurrence of the term. -/
structure Posting where
  docId : DocIdRaw
  tf : U32
  docLen : U32
  deriving DecidableEq, Repr

structure PostingBlockInfo where
  maxDocId : DocIdRaw
  maxTf : U32
  minDocLen : U32
  deriving DecidableEq, Repr

def blockSize : Nat := 64

def chunks {α : Type*} (size : Nat) (elements : List α) : List (List α) :=
  (List.range ((elements.length + size - 1) / size)).map fun index =>
    (elements.drop (size * index)).take size

/-- The body of the loop of `compute_blocks`. -/
def blockInfo (chunk : List Posting) : PostingBlockInfo :=
  let maxTf := chunk.foldl (fun maxTf posting => if posting.tf > maxTf then posting.tf else maxTf) 0
  let minDocLen := chunk.foldl (fun minDocLen posting =>
    if posting.docLen < minDocLen then posting.docLen else minDocLen) u32Max
  { maxDocId := (chunk.getLast?.map Posting.docId).getD 0
    maxTf
    minDocLen := if minDocLen = u32Max then 0 else minDocLen }

def computeBlocks (postings : List Posting) : List PostingBlockInfo :=
  if postings.isEmpty then [] else (chunks blockSize postings).map blockInfo

def probe (keys : List DocIdRaw) (key : DocIdRaw) (position : Nat) : Except Unit Ordering :=
  .ok ((keys[position]?.map fun other => compare other key).getD .gt)

/-- `slice::binary_search` -/
def searchKeys (keys : List DocIdRaw) (key : DocIdRaw) : SearchResult :=
  match binarySearch (probe keys key) 0 keys.length with
  | .ok result => result
  | .error _ => .missing 0

structure PostingList where
  postings : List Posting
  blocks : List PostingBlockInfo
  deriving DecidableEq, Repr

namespace PostingList

def ofPostings (postings : List Posting) : PostingList := ⟨postings, computeBlocks postings⟩

/-- `Vec::dedup_by_key`: of neighbours with one id the first stays. -/
def dedupByDocId (postings : List Posting) : List Posting :=
  postings.destutter fun left right => left.docId ≠ right.docId

/-- `slice::sort_unstable_by_key` may leave postings of one id in any order. -/
def SortsTo (postings sorted : List Posting) : Prop :=
  sorted.Perm postings ∧ sorted.Pairwise fun left right => left.docId ≤ right.docId

instance (postings sorted : List Posting) : Decidable (SortsTo postings sorted) :=
  inferInstanceAs (Decidable (_ ∧ _))

/-- `PostingList::new`, of the postings in the order the sort left them in. -/
def new (sorted : List Posting) : PostingList := ofPostings (dedupByDocId sorted)

def empty : PostingList := ⟨[], []⟩

/-- `binary_search_by_key` on the document ids. -/
def search (postings : List Posting) (docId : DocIdRaw) : SearchResult :=
  searchKeys (postings.map Posting.docId) docId

def upsert (list : PostingList) (posting : Posting) : PostingList :=
  match search list.postings posting.docId with
  | .found index => ofPostings (list.postings.set index posting)
  | .missing index => ofPostings (list.postings.insertIdx index posting)

def remove (list : PostingList) (docId : DocIdRaw) : PostingList :=
  match search list.postings docId with
  | .found index => ofPostings (list.postings.eraseIdx index)
  | .missing _ => ofPostings list.postings

end PostingList

/-- The ids ascend, but may repeat. -/
def Sorted (postings : List Posting) : Prop :=
  postings.Pairwise fun left right => left.docId ≤ right.docId

/-- No document occurs twice, and the ids ascend. -/
def Ascending (postings : List Posting) : Prop :=
  postings.Pairwise fun left right => left.docId < right.docId

theorem Ascending.sorted {postings : List Posting} (ascending : Ascending postings) :
    Sorted postings := ascending.imp le_of_lt

namespace PostingList

theorem ascending_dedup {sorted : List Posting}
    (isSorted : sorted.Pairwise fun left right => left.docId ≤ right.docId) :
    Ascending (dedupByDocId sorted) := by
  have weak : (dedupByDocId sorted).Pairwise fun left right => left.docId ≤ right.docId :=
    isSorted.sublist (destutter_sublist _ _)
  have apart : (dedupByDocId sorted).IsChain fun left right => left.docId ≠ right.docId :=
    isChain_destutter _ _
  have strict : (dedupByDocId sorted).IsChain fun left right => left.docId < right.docId := by
    rw [isChain_iff_getElem] at apart ⊢
    intro index inside
    exact lt_of_le_of_ne (isChain_iff_getElem.mp weak.isChain index inside)
      (apart index inside)
  have transitive : IsTrans Posting fun left right => left.docId < right.docId :=
    ⟨fun _ _ _ => lt_trans⟩
  exact isChain_iff_pairwise.mp strict

variable {postings : List Posting}

theorem search_cases (isSorted : Sorted postings) (docId : DocIdRaw) :
    (∃ low same high, postings = low ++ same :: high ∧ same.docId = docId ∧
      search postings docId = .found low.length) ∨
    ∃ low high, postings = low ++ high ∧ (∀ posting ∈ low, posting.docId < docId) ∧
      (∀ posting ∈ high, docId < posting.docId) ∧
      search postings docId = .missing low.length := by
  let orders (other : DocIdRaw) : Ordering := compare other docId
  have sorted : (postings.map Posting.docId).Pairwise (· ≤ ·) := pairwise_map.mpr isSorted
  have reads (position : Nat) (inside : position < (postings.map Posting.docId).length) :
      probe (postings.map Posting.docId) docId position =
        .ok (orders (postings.map Posting.docId)[position]) := by
    simp only [probe, orders, getElem?_eq_getElem inside, Option.map_some, Option.getD_some]
  obtain ⟨result, searched, located⟩ := binarySearch_sorted sorted reads
    (fun left right ordered isLess =>
      compare_lt_iff_lt.mpr (ordered.trans_lt (compare_lt_iff_lt.mp isLess)))
    (fun left right ordered isGreater =>
      compare_gt_iff_gt.mpr (lt_of_lt_of_le (compare_gt_iff_gt.mp isGreater) ordered))
  have ends : search postings docId = result := by
    simp only [search, searchKeys, searched]
  rw [length_map] at located
  have ordersAt {position : Nat} (inside : position < postings.length) :
      (((postings.map Posting.docId)[position]?.map orders).getD .gt) =
        compare postings[position].docId docId := by
    rw [getElem?_map, getElem?_eq_getElem inside]
    rfl
  cases located with
  | @found position inside hit =>
    refine Or.inl ⟨postings.take position, postings[position], postings.drop (position + 1),
      ?_, ?_, ?_⟩
    · rw [getElem_cons_drop, take_append_drop]
    · rw [ordersAt inside] at hit
      exact compare_eq_iff_eq.mp hit
    · rw [ends, length_take_of_le inside.le]
  | @missing position inside below above =>
    refine Or.inr ⟨postings.take position, postings.drop position,
      (take_append_drop _ _).symm, ?_, ?_, ?_⟩
    · intro posting isBefore
      obtain ⟨earlier, before, rfl⟩ := mem_take_iff_getElem.mp isBefore
      have isLess := below earlier (by omega)
      rw [ordersAt (by omega)] at isLess
      exact compare_lt_iff_lt.mp isLess
    · intro posting isBehind
      obtain ⟨later, behind, rfl⟩ := mem_drop_iff_getElem.mp isBehind
      have isGreater := above (position + later) (by omega) (by omega)
      rw [ordersAt (by omega)] at isGreater
      exact compare_gt_iff_gt.mp isGreater
    · rw [ends, length_take_of_le inside]

/-- The postings with a new one in the place of the old one of its document. -/
def inserted (postings : List Posting) (posting : Posting) : List Posting :=
  postings.filter (·.docId < posting.docId) ++
    posting :: postings.filter (posting.docId < ·.docId)

def others (postings : List Posting) (docId : DocIdRaw) : List Posting :=
  postings.filter (·.docId ≠ docId)

theorem inserted_append {low high : List Posting} {posting : Posting}
    (below : ∀ other ∈ low, other.docId < posting.docId)
    (above : ∀ other ∈ high, posting.docId < other.docId) :
    inserted (low ++ high) posting = low ++ posting :: high := by
  have lowBelow : low.filter (·.docId < posting.docId) = low :=
    filter_eq_self.mpr fun other isLow => decide_eq_true (below other isLow)
  have lowAbove : low.filter (posting.docId < ·.docId) = [] :=
    filter_eq_nil_iff.mpr fun other isLow => by simpa using (below other isLow).le
  have highBelow : high.filter (·.docId < posting.docId) = [] :=
    filter_eq_nil_iff.mpr fun other isHigh => by simpa using (above other isHigh).le
  have highAbove : high.filter (posting.docId < ·.docId) = high :=
    filter_eq_self.mpr fun other isHigh => decide_eq_true (above other isHigh)
  rw [inserted, filter_append, filter_append, lowBelow, lowAbove, highBelow, highAbove,
    append_nil, nil_append]

theorem inserted_replaces {low high : List Posting} {same posting : Posting}
    (isSame : same.docId = posting.docId) :
    inserted (low ++ same :: high) posting = inserted (low ++ high) posting := by
  have notBelow : ¬ same.docId < posting.docId := by rw [isSame]; exact lt_irrefl _
  have notAbove : ¬ posting.docId < same.docId := by rw [isSame]; exact lt_irrefl _
  simp [inserted, notBelow, notAbove]

theorem ascending_split {low high : List Posting} {same : Posting}
    (ascending : Ascending (low ++ same :: high)) :
    (∀ other ∈ low, other.docId < same.docId) ∧ ∀ other ∈ high, same.docId < other.docId := by
  obtain ⟨-, tail, across⟩ := pairwise_append.mp ascending
  exact ⟨fun other isLow => across other isLow same mem_cons_self,
    (pairwise_cons.mp tail).1⟩

theorem insertIdx_length {low high : List Posting} {posting : Posting} :
    (low ++ high).insertIdx low.length posting = low ++ posting :: high := by
  induction low with
  | nil => rfl
  | cons first low ih =>
    rw [cons_append, length_cons, insertIdx_succ_cons, ih,
      cons_append]

theorem upsert_eq {list : PostingList} (ascending : Ascending list.postings) (posting : Posting) :
    list.upsert posting = ofPostings (inserted list.postings posting) := by
  rcases search_cases ascending.sorted posting.docId with
    ⟨low, same, high, split, isSame, found⟩ | ⟨low, high, split, below, above, missing⟩
  · simp only [upsert, found]
    rw [split] at ascending ⊢
    obtain ⟨below, above⟩ := ascending_split ascending
    rw [isSame] at below above
    rw [inserted_replaces isSame, inserted_append below above]
    simp
  · simp only [upsert, missing]
    rw [split, insertIdx_length, inserted_append below above]

theorem remove_eq {list : PostingList} (ascending : Ascending list.postings) (docId : DocIdRaw) :
    list.remove docId = ofPostings (others list.postings docId) := by
  rcases search_cases ascending.sorted docId with
    ⟨low, same, high, split, isSame, found⟩ | ⟨low, high, split, below, above, missing⟩
  · simp only [remove, found]
    rw [split] at ascending ⊢
    obtain ⟨below, above⟩ := ascending_split ascending
    rw [isSame] at below above
    have lowStays : low.filter (·.docId ≠ docId) = low :=
      filter_eq_self.mpr fun other isLow => decide_eq_true (below other isLow).ne
    have highStays : high.filter (·.docId ≠ docId) = high :=
      filter_eq_self.mpr fun other isHigh => decide_eq_true (above other isHigh).ne'
    rw [others, filter_append, filter_cons_of_neg (by simpa using isSame), lowStays,
      highStays, eraseIdx_append_of_length_le le_rfl, Nat.sub_self, eraseIdx_cons_zero]
  · simp only [remove, missing]
    rw [split, others, filter_eq_self.mpr]
    intro other isOther
    rcases mem_append.mp isOther with isLow | isHigh
    · exact decide_eq_true (below other isLow).ne
    · exact decide_eq_true (above other isHigh).ne'

theorem ascending_inserted (ascending : Ascending postings)
    (posting : Posting) : Ascending (inserted postings posting) := by
  apply pairwise_append.mpr
  refine ⟨ascending.filter _, pairwise_cons.mpr ⟨?_, ascending.filter _⟩, ?_⟩
  · intro later isLater
    exact of_decide_eq_true (mem_filter.mp isLater).2
  · intro earlier isEarlier later isLater
    have below := of_decide_eq_true (mem_filter.mp isEarlier).2
    rcases mem_cons.mp isLater with rfl | above
    · exact below
    · exact below.trans (of_decide_eq_true (mem_filter.mp above).2)

theorem ascending_others (ascending : Ascending postings)
    (docId : DocIdRaw) : Ascending (others postings docId) := ascending.filter _

end PostingList

theorem mem_chunks {α : Type*} {size : Nat} (positive : 0 < size) {elements chunk : List α} :
    chunk ∈ chunks size elements ↔
      ∃ index, size * index < elements.length ∧ chunk = (elements.drop (size * index)).take size := by
  have inRange (index : Nat) :
      index < (elements.length + size - 1) / size ↔ size * index < elements.length := by
    rw [← Nat.succ_le_iff, Nat.le_div_iff_mul_le positive, Nat.succ_mul, Nat.mul_comm index size]
    omega
  rw [chunks, mem_map]
  constructor
  · rintro ⟨index, isIndex, rfl⟩
    exact ⟨index, (inRange index).mp (mem_range.mp isIndex), rfl⟩
  · rintro ⟨index, inside, rfl⟩
    exact ⟨index, mem_range.mpr ((inRange index).mpr inside), rfl⟩

theorem chunk_sublist {α : Type*} {size : Nat} (positive : 0 < size) {elements chunk : List α}
    (isChunk : chunk ∈ chunks size elements) : chunk ≠ [] ∧ chunk.Sublist elements := by
  obtain ⟨index, inside, rfl⟩ := (mem_chunks positive).mp isChunk
  constructor
  · apply ne_nil_of_length_pos
    rw [length_take, length_drop]
    omega
  · exact (take_sublist _ _).trans (drop_sublist _ _)

theorem foldl_greatest {α β : Type*} [LinearOrder β] (value : α → β) (elements : List α)
    (start : β) :
    let greatest := elements.foldl
      (fun greatest element => if greatest < value element then value element else greatest) start
    start ≤ greatest ∧ (∀ element ∈ elements, value element ≤ greatest) ∧
      (greatest = start ∨ ∃ element ∈ elements, value element = greatest) := by
  induction elements generalizing start with
  | nil => exact ⟨le_rfl, fun _ impossible => absurd impossible not_mem_nil, Or.inl rfl⟩
  | cons first elements ih =>
    intro greatest
    let next := if start < value first then value first else start
    obtain ⟨atLeast, bounds, attained⟩ := ih next
    have startLe : start ≤ next := by
      by_cases less : start < value first
      · exact less.le.trans_eq (if_pos less).symm
      · exact (if_neg less).symm.le
    have firstLe : value first ≤ next := by
      by_cases less : start < value first
      · exact (if_pos less).symm.le
      · exact (not_lt.mp less).trans_eq (if_neg less).symm
    refine ⟨startLe.trans atLeast, ?_, ?_⟩
    · intro element isElement
      rcases mem_cons.mp isElement with rfl | isRest
      · exact firstLe.trans atLeast
      · exact bounds element isRest
    · rcases attained with isNext | ⟨element, isElement, same⟩
      · by_cases less : start < value first
        · exact Or.inr ⟨first, mem_cons_self, (isNext.trans (if_pos less)).symm⟩
        · exact Or.inl (isNext.trans (if_neg less))
      · exact Or.inr ⟨element, mem_cons_of_mem _ isElement, same⟩

theorem foldl_least {α β : Type*} [LinearOrder β] (value : α → β) (elements : List α)
    (start : β) :
    let least := elements.foldl
      (fun least element => if value element < least then value element else least) start
    least ≤ start ∧ (∀ element ∈ elements, least ≤ value element) ∧
      (least = start ∨ ∃ element ∈ elements, value element = least) :=
  foldl_greatest (fun element => OrderDual.toDual (value element)) elements (OrderDual.toDual start)

structure BlockExact (chunk : List Posting) (info : PostingBlockInfo) : Prop where
  maxDocId : IsGreatest {docId | ∃ posting ∈ chunk, posting.docId = docId} info.maxDocId
  maxTf : IsGreatest {tf | ∃ posting ∈ chunk, posting.tf = tf} info.maxTf
  minDocLen : IsLeast {docLen | ∃ posting ∈ chunk, posting.docLen = docLen} info.minDocLen

theorem blockInfo_maxDocId {chunk : List Posting} (nonempty : chunk ≠ [])
    (sorted : chunk.Pairwise fun left right => left.docId ≤ right.docId) :
    IsGreatest {docId | ∃ posting ∈ chunk, posting.docId = docId} (blockInfo chunk).maxDocId := by
  obtain ⟨earlier, last, rfl⟩ := eq_nil_or_concat' chunk |>.resolve_left nonempty
  have isLast : (blockInfo (earlier ++ [last])).maxDocId = last.docId := by simp [blockInfo]
  rw [isLast]
  constructor
  · exact ⟨last, by simp, rfl⟩
  · rintro docId ⟨posting, isPosting, rfl⟩
    rcases mem_append.mp isPosting with isEarlier | isLast
    · exact (pairwise_append.mp sorted).2.2 posting isEarlier last mem_cons_self
    · rw [mem_singleton.mp isLast]

theorem blockInfo_maxTf {chunk : List Posting} (nonempty : chunk ≠ []) :
    IsGreatest {tf | ∃ posting ∈ chunk, posting.tf = tf} (blockInfo chunk).maxTf := by
  obtain ⟨-, bounds, attained⟩ := foldl_greatest Posting.tf chunk 0
  constructor
  · rcases attained with isZero | attained
    · -- all frequencies are zero
      obtain ⟨first, isFirst⟩ := exists_mem_of_ne_nil chunk nonempty
      have isLeast := bounds first isFirst
      rw [isZero] at isLeast
      exact ⟨first, isFirst, (le_antisymm isLeast (Fin.zero_le _)).trans isZero.symm⟩
    · exact attained
  · rintro tf ⟨posting, isPosting, rfl⟩
    exact bounds posting isPosting

theorem blockInfo_minDocLen (chunk : List Posting) :
    IsLeast {docLen | ∃ posting ∈ chunk, posting.docLen = docLen} (blockInfo chunk).minDocLen ↔
      ∃ posting ∈ chunk, posting.docLen ≠ u32Max := by
  obtain ⟨-, bounds, attained⟩ := foldl_least Posting.docLen chunk u32Max
  generalize folded : chunk.foldl (fun minDocLen posting =>
    if posting.docLen < minDocLen then posting.docLen else minDocLen) u32Max = least
    at bounds attained
  have reported : (blockInfo chunk).minDocLen = if least = u32Max then 0 else least := by
    rw [← folded]
    rfl
  rw [reported]
  by_cases isMax : least = u32Max
  · rw [if_pos isMax]
    have allMax (posting : Posting) (isPosting : posting ∈ chunk) : posting.docLen = u32Max :=
      le_antisymm (Fin.le_last _) (isMax.symm.le.trans (bounds posting isPosting))
    constructor
    · rintro ⟨⟨posting, isPosting, isZero⟩, -⟩
      rw [allMax posting isPosting] at isZero
      exact absurd isZero (by decide)
    · rintro ⟨posting, isPosting, short⟩
      exact absurd (allMax posting isPosting) short
  · rw [if_neg isMax]
    refine iff_of_true ⟨attained.resolve_left isMax, ?_⟩ ?_
    · rintro docLen ⟨posting, isPosting, rfl⟩
      exact bounds posting isPosting
    · obtain ⟨posting, isPosting, same⟩ := attained.resolve_left isMax
      exact ⟨posting, isPosting, by rwa [same]⟩

/-- Every block has a document whose length is not the largest number. -/
def Measured (postings : List Posting) : Prop :=
  ∀ chunk ∈ chunks blockSize postings, ∃ posting ∈ chunk, posting.docLen ≠ u32Max

instance (postings : List Posting) : Decidable (Measured postings) :=
  inferInstanceAs (Decidable (∀ chunk ∈ chunks blockSize postings, ∃ posting ∈ chunk,
    posting.docLen ≠ u32Max))

structure PostingList.WellFormed (list : PostingList) : Prop where
  ascending : Ascending list.postings
  blocksExact : List.Forall₂ BlockExact (chunks blockSize list.postings) list.blocks

namespace PostingList

theorem computeBlocks_eq (postings : List Posting) :
    computeBlocks postings = (chunks blockSize postings).map blockInfo := by
  cases postings with
  | nil => rfl
  | cons first postings => rfl

theorem wellFormed_ofPostings {postings : List Posting} (ascending : Ascending postings) :
    (ofPostings postings).WellFormed ↔ Measured postings := by
  have exact_iff : List.Forall₂ BlockExact (chunks blockSize postings) (computeBlocks postings) ↔
      ∀ chunk ∈ chunks blockSize postings, BlockExact chunk (blockInfo chunk) := by
    rw [computeBlocks_eq, forall₂_map_right_iff, forall₂_same]
  have perChunk (chunk : List Posting) (isChunk : chunk ∈ chunks blockSize postings) :
      BlockExact chunk (blockInfo chunk) ↔ ∃ posting ∈ chunk, posting.docLen ≠ u32Max := by
    obtain ⟨nonempty, inList⟩ := chunk_sublist (by decide) isChunk
    rw [← blockInfo_minDocLen chunk]
    constructor
    · exact BlockExact.minDocLen
    · exact fun least => ⟨blockInfo_maxDocId nonempty ((ascending.sublist inList).imp le_of_lt),
        blockInfo_maxTf nonempty, least⟩
  constructor
  · intro wellFormed chunk isChunk
    exact (perChunk chunk isChunk).mp (exact_iff.mp wellFormed.blocksExact chunk isChunk)
  · intro measured
    exact ⟨ascending, exact_iff.mpr fun chunk isChunk =>
      (perChunk chunk isChunk).mpr (measured chunk isChunk)⟩

end PostingList

/-! ## Keys

The keys under which documents and terms are stored, as texts: all of them are UTF-8. -/

abbrev Key := List Char

/-- A document id as `itoa` writes it. -/
def decimal (docId : DocIdRaw) : Key := Nat.toDigits 10 docId.val

/-- `str::parse` of a number; a plus sign may come first. -/
def parseDocId (text : Key) : Option DocIdRaw :=
  let digits := if text.head? = some '+' then text.tail else text
  if digits ≠ [] ∧ digits.all Char.isDigit = true then
    if fits : Nat.ofDigitChars 10 digits 0 < 2 ^ 64 then some ⟨_, fits⟩ else none
  else none

section Keys

-- the namespace of the index, `__txt:{namespace}:`
variable (root : Key)

def keyWithId (kind : String) (docId : DocIdRaw) : Key := root ++ kind.toList ++ decimal docId

def keyWithTermDoc (term : Key) (docId : DocIdRaw) : Key :=
  root ++ "pl:".toList ++ term ++ ':' :: decimal docId

def keyTermPrefix (term : Key) : Key := root ++ "pl:".toList ++ term ++ [':']

def keyBatchPostingList (term : Key) : Key := root ++ "plb:".toList ++ term

def keyTombstone (docId : DocIdRaw) (term : Key) : Key :=
  root ++ "tbs:".toList ++ decimal docId ++ ':' :: term

end Keys

theorem decimal_injective : Function.Injective decimal := by
  intro first second same
  have values := congrArg (fun digits => Nat.ofDigitChars 10 digits 0) same
  simp only [decimal, Nat.ofDigitChars_ten_toDigits] at values
  exact Fin.ext values

end Contextra.Text
