import Contextra.Mvcc.Ssi

/-!
# Coarsening never loses a key

The summary that `coarsen_keys_to_prefixes` leaves of a key list has, for every key
of the list, a prefix of that key.  This is the "no false negatives" half of the
register's capacity handling.
-/

namespace Contextra.Mvcc

open List

theorem commonPrefix_prefix_left (left right : Bytes) : commonPrefix left right <+: left := by
  fun_induction commonPrefix left right with
  | case1 first left right ih =>
    exact cons_prefix_cons.mpr ⟨rfl, ih⟩
  | case2 => exact nil_prefix
  | case3 => exact nil_prefix

theorem commonPrefix_prefix_right (left right : Bytes) : commonPrefix left right <+: right := by
  fun_induction commonPrefix left right with
  | case1 first left right ih =>
    exact cons_prefix_cons.mpr ⟨rfl, ih⟩
  | case2 => exact nil_prefix
  | case3 => exact nil_prefix

theorem foldl_commonPrefix_prefix_start (rest : List Bytes) (first : Bytes) :
    rest.foldl commonPrefix first <+: first := by
  induction rest generalizing first with
  | nil => exact prefix_rfl
  | cons head tail ih =>
    exact (ih (commonPrefix first head)).trans
      (commonPrefix_prefix_left first head)

theorem foldl_commonPrefix_prefix_mem (rest : List Bytes) (first key : Bytes)
    (mem : key ∈ rest) : rest.foldl commonPrefix first <+: key := by
  induction rest generalizing first with
  | nil => simp at mem
  | cons head tail ih =>
    rcases mem_cons.mp mem with rfl | later
    · exact (foldl_commonPrefix_prefix_start tail (commonPrefix first key)).trans
        (commonPrefix_prefix_right first key)
    · exact ih (commonPrefix first head) later

theorem subset_chunkPrefixes (later : List (List Bytes)) (found : List Bytes) :
    found ⊆ chunkPrefixes later found := by
  induction later generalizing found with
  | nil => exact List.Subset.refl _
  | cons chunk later ih =>
    cases chunk with
    | nil => exact ih found
    | cons first rest =>
      refine List.Subset.trans ?_ (ih _)
      split
      · exact List.Subset.refl _
      · exact subset_append_left _ _

variable {key : Bytes}

theorem chunkPrefixes_covers {later : List (List Bytes)} {chunk : List Bytes}
    (inChunks : chunk ∈ later) (mem : key ∈ chunk) (found : List Bytes) :
    ∃ p ∈ chunkPrefixes later found, p <+: key := by
  induction later generalizing found with
  | nil => simp at inChunks
  | cons head later ih =>
    rcases mem_cons.mp inChunks with rfl | inLater
    · cases chunk with
      | nil => simp at mem
      | cons first rest =>
        have covers : rest.foldl commonPrefix first <+: key := by
          rcases mem_cons.mp mem with rfl | inRest
          · exact foldl_commonPrefix_prefix_start rest key
          · exact foldl_commonPrefix_prefix_mem rest first key inRest
        have kept : rest.foldl commonPrefix first ∈
            (if rest.foldl commonPrefix first ∈ found then found
            else found ++ [rest.foldl commonPrefix first]) := by
          split
          · assumption
          · simp
        exact ⟨_, subset_chunkPrefixes later _ kept, covers⟩
    · cases head with
      | nil => exact ih inLater found
      | cons first rest => exact ih inLater _

theorem mem_chunks {size : Nat} (positive : 0 < size) {keys : List Bytes}
    (mem : key ∈ keys) : ∃ chunk ∈ chunks size keys, key ∈ chunk := by
  obtain ⟨position, inside, rfl⟩ := mem_iff_getElem.mp mem
  refine ⟨(keys.drop (position / size * size)).take size, ?_, ?_⟩
  · refine mem_map.mpr ⟨position / size, mem_range.mpr ?_, rfl⟩
    have bound : position / size * size ≤ position := Nat.div_mul_le_self position size
    rw [Nat.lt_div_iff_mul_lt positive]
    omega
  · have within : position % size < size := Nat.mod_lt position positive
    have decomposed : position / size * size + position % size = position :=
      Nat.div_add_mod' position size
    refine mem_iff_getElem.mpr ⟨position % size, ?_, ?_⟩
    · rw [length_take, length_drop]
      omega
    · simp only [getElem_take, getElem_drop, decomposed]

theorem coarsenKeysToPrefixes_covers {keys : List Bytes} {maxPrefixes : Nat}
    (positive : 0 < maxPrefixes) (mem : key ∈ keys) :
    ∃ p ∈ coarsenKeysToPrefixes keys maxPrefixes, p <+: key := by
  have inhabited : keys ≠ [] := ne_nil_of_mem mem
  simp only [coarsenKeysToPrefixes, List.isEmpty_iff, inhabited, if_false]
  split
  · exact ⟨key, mem, prefix_rfl⟩
  · have sortedMembership : key ∈ keys.insertionSort (· ≤ ·) :=
      (perm_insertionSort (· ≤ ·) keys).mem_iff.mpr mem
    have chunkPositive : 0 <
        ((keys.insertionSort (· ≤ ·)).length + maxPrefixes - 1) / maxPrefixes := by
      refine Nat.div_pos ?_ positive
      have := length_pos_of_mem sortedMembership
      omega
    obtain ⟨chunk, inChunks, inChunk⟩ := mem_chunks chunkPositive sortedMembership
    exact chunkPrefixes_covers inChunks inChunk []

theorem coarsenKeysToPrefixes_covers_prefix {prefixes : List Bytes} {p key : Bytes}
    {maxPrefixes : Nat} (positive : 0 < maxPrefixes) (mem : p ∈ prefixes)
    (starts : p <+: key) : ∃ q ∈ coarsenKeysToPrefixes prefixes maxPrefixes, q <+: key := by
  obtain ⟨q, inSummary, shorter⟩ := coarsenKeysToPrefixes_covers positive mem
  exact ⟨q, inSummary, shorter.trans starts⟩

end Contextra.Mvcc
