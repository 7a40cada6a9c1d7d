import Contextra.Library.SortedMap

/-!
# Paging through a sorted list

A page holds the first entries behind a cursor, and the cursor of the next page is the last key of
a page that has more behind it.  The pages that one follows from no cursor are the whole list.
-/

namespace Contextra.Library

open List

variable {Key Value ε : Type}

/-- The first `limit` entries, and their last key when there are more; a limit of zero is never
met. -/
def takePage (limit : Nat) (entries : List (Key × Value)) : List (Key × Value) × Option Key :=
  let results := if limit = 0 then entries else entries.take limit
  (results,
    if results.length = limit ∧ limit < entries.length then results.getLast?.map Prod.fst else none)

def behind [LinearOrder Key] (cursor : Option Key) (entries : List (Key × Value)) : List (Key × Value) :=
  match cursor with
  | none => entries
  | some key => entries.filter fun entry => key < entry.1

/-- The pages from a cursor on, up to a page without a next cursor. -/
inductive Pages (scan : Option Key → Except ε (List (Key × Value) × Option Key)) :
    Option Key → List (List (Key × Value)) → Prop where
  | last {cursor : Option Key} {page : List (Key × Value)} (read : scan cursor = .ok (page, none)) :
      Pages scan cursor [page]
  | more {cursor : Option Key} {page : List (Key × Value)} {next : Key}
      {pages : List (List (Key × Value))} (read : scan cursor = .ok (page, some next))
      (rest : Pages scan (some next) pages) : Pages scan cursor (page :: pages)

theorem mem_behind [LinearOrder Key] {cursor : Option Key} {entries : List (Key × Value)}
    {entry : Key × Value} :
    entry ∈ behind cursor entries ↔ entry ∈ entries ∧ ∀ last ∈ cursor, last < entry.1 := by
  cases cursor with
  | none => exact (and_iff_left fun last impossible => by cases impossible).symm
  | some key =>
    rw [behind, mem_filter, decide_eq_true_eq]
    refine and_congr_right fun _ => ⟨?_, fun above => above key rfl⟩
    intro above last isLast
    rw [← Option.some.inj isLast]
    exact above

theorem behind_behind [LinearOrder Key] (cursor : Option Key) (entries : List (Key × Value)) :
    behind cursor (behind cursor entries) = behind cursor entries := by
  cases cursor with
  | none => rfl
  | some key =>
    rw [behind, behind, filter_filter]
    exact filter_congr fun entry _ => Bool.and_self _

theorem length_behind_le [LinearOrder Key] (cursor : Option Key) (entries : List (Key × Value)) :
    (behind cursor entries).length ≤ entries.length := by
  cases cursor with
  | none => exact le_rfl
  | some key => exact length_filter_le _ _

theorem filterMap_behind [LinearOrder Key] {Other : Type} {f : Key × Value → Option (Key × Other)}
    (keeps : ∀ entry image, f entry = some image → image.1 = entry.1) (cursor : Option Key)
    (entries : List (Key × Value)) :
    (behind cursor entries).filterMap f = behind cursor (entries.filterMap f) := by
  cases cursor with
  | none => rfl
  | some key =>
    rw [behind, behind, filterMap_filter, filter_filterMap]
    apply filterMap_congr
    intro entry _
    cases isImage : f entry with
    | none => exact ite_self _
    | some image => rw [Option.filter_some, keeps entry image isImage]

theorem takePage_of_le {limit : Nat} (positive : 0 < limit) {entries : List (Key × Value)}
    (few : entries.length ≤ limit) : takePage limit entries = (entries, none) := by
  rw [takePage, if_neg positive.ne', take_of_length_le few, if_neg]
  exact fun more => absurd more.2 (not_lt.mpr few)

theorem takePage_of_lt {limit : Nat} (positive : 0 < limit) {entries : List (Key × Value)}
    (many : limit < entries.length) :
    ∃ entry ∈ entries, (entries.take limit).getLast? = some entry ∧
      takePage limit entries = (entries.take limit, some entry.1) := by
  have long : (entries.take limit).length = limit := by
    rw [length_take]
    exact min_eq_left many.le
  have nonempty : entries.take limit ≠ [] := by
    intro isEmpty
    rw [isEmpty] at long
    exact positive.ne long
  refine ⟨(entries.take limit).getLast nonempty, ?_, getLast?_eq_some_getLast nonempty, ?_⟩
  · exact mem_of_mem_take (getLast_mem nonempty)
  · rw [takePage, if_neg positive.ne', if_pos ⟨long, many⟩, getLast?_eq_some_getLast nonempty]
    rfl

section Sorted

variable [LinearOrder Key] {entries : List (Key × Value)}
  (sorted : entries.Pairwise fun left right => left.1 < right.1)
include sorted

theorem behind_sorted (cursor : Option Key) :
    (behind cursor entries).Pairwise fun left right => left.1 < right.1 := by
  cases cursor with
  | none => exact sorted
  | some key => exact sorted.filter _

omit sorted in
theorem entries_eq_behind {part whole : SortedMap Key Value} {cursor : Option Key}
    (kept : ∀ key, (∀ last ∈ cursor, last < key) → part.lookup key = whole.lookup key)
    (gone : ∀ key, (¬ ∀ last ∈ cursor, last < key) → part.lookup key = none) :
    part.entries = behind cursor whole.entries := by
  have same : part = ⟨behind cursor whole.entries, behind_sorted whole.sorted cursor⟩ := by
    apply SortedMap.ext_lookup
    intro key
    apply Option.ext
    intro value
    have isEntry : (⟨behind cursor whole.entries, behind_sorted whole.sorted cursor⟩ :
        SortedMap Key Value).lookup key = some value ↔ (key, value) ∈ behind cursor whole.entries :=
      SortedMap.lookup_eq_some
    rw [isEntry, mem_behind]
    by_cases isBehind : ∀ last ∈ cursor, last < key
    · rw [kept key isBehind, SortedMap.lookup_eq_some]
      exact (and_iff_left isBehind).symm
    · rw [gone key isBehind]
      exact iff_of_false (fun impossible => by cases impossible) fun both => isBehind both.2
  rw [same]

variable {limit : Nat}

theorem filter_behind_last {entry : Key × Value}
    (isLast : (entries.take limit).getLast? = some entry) :
    entries.filter (fun other => entry.1 < other.1) = entries.drop limit := by
  obtain ⟨before, split⟩ := getLast?_eq_some_iff.mp isLast
  have ordered := sorted
  rw [← take_append_drop limit entries] at ordered
  obtain ⟨first, _, across⟩ := pairwise_append.mp ordered
  have noneBefore : (entries.take limit).filter (fun other => entry.1 < other.1) = [] := by
    apply filter_eq_nil_iff.mpr
    intro other isOther
    rw [decide_eq_true_eq, not_lt]
    rw [split] at isOther first
    rcases mem_append.mp isOther with isBefore | same
    · exact ((pairwise_append.mp first).2.2 other isBefore entry
        (mem_singleton_self entry)).le
    · rw [mem_singleton.mp same]
  have isEntry : entry ∈ entries.take limit := by
    rw [split]
    exact mem_append_right _ (mem_singleton_self entry)
  have allBehind : (entries.drop limit).filter (fun other => entry.1 < other.1) =
      entries.drop limit := by
    apply filter_eq_self.mpr
    exact fun other isOther => decide_eq_true (across entry isEntry other isOther)
  calc entries.filter (fun other => entry.1 < other.1)
      = (entries.take limit ++ entries.drop limit).filter (fun other => entry.1 < other.1) := by
        rw [take_append_drop]
    _ = entries.drop limit := by
        rw [filter_append, noneBefore, allBehind, nil_append]

theorem behind_next {cursor : Option Key} {entry : Key × Value}
    (isLast : ((behind cursor entries).take limit).getLast? = some entry)
    (isBehind : entry ∈ behind cursor entries) :
    behind (some entry.1) entries = (behind cursor entries).drop limit := by
  rw [← filter_behind_last (behind_sorted sorted cursor) isLast]
  cases cursor with
  | none => rfl
  | some key =>
    have above : key < entry.1 := of_decide_eq_true (mem_filter.mp isBehind).2
    rw [behind, behind, filter_filter]
    apply filter_congr
    intro other _
    by_cases later : entry.1 < other.1
    · rw [decide_eq_true later, decide_eq_true (above.trans later)]
      rfl
    · rw [decide_eq_false later]
      rfl

theorem exists_pages {scan : Option Key → Except ε (List (Key × Value) × Option Key)}
    (positive : 0 < limit)
    (reads : ∀ cursor : Option Key, (∀ key ∈ cursor, ∃ value, (key, value) ∈ entries) →
      scan cursor = .ok (takePage limit (behind cursor entries))) :
    ∃ pages, Pages scan none pages ∧ pages.flatten = entries := by
  have from' (count : Nat) : ∀ cursor : Option Key,
      (∀ key ∈ cursor, ∃ value, (key, value) ∈ entries) →
      (behind cursor entries).length = count →
      ∃ pages, Pages scan cursor pages ∧ pages.flatten = behind cursor entries := by
    induction count using Nat.strong_induction_on with
    | _ count ih =>
      intro cursor isKey isLength
      have read := reads cursor isKey
      rcases Nat.lt_or_ge limit (behind cursor entries).length with many | few
      · obtain ⟨entry, isBehind, isLast, page⟩ := takePage_of_lt positive many
        rw [page] at read
        have next := behind_next sorted isLast isBehind
        have isEntry : entry ∈ entries := by
          cases cursor with
          | none => exact isBehind
          | some key => exact (mem_filter.mp isBehind).1
        have shorter : (behind (some entry.1) entries).length < count := by
          rw [next, length_drop, ← isLength]
          omega
        obtain ⟨pages, follows, whole⟩ := ih _ shorter (some entry.1)
          (fun key same => ⟨entry.2, by rw [← Option.some.inj same]; exact isEntry⟩) rfl
        refine ⟨_, .more read follows, ?_⟩
        rw [flatten_cons, whole, next, take_append_drop]
      · rw [takePage_of_le positive few] at read
        exact ⟨_, .last read, by rw [flatten_singleton]⟩
  exact from' _ none (fun key impossible => by cases impossible) rfl

end Sorted

theorem Pages.unique {scan : Option Key → Except ε (List (Key × Value) × Option Key)}
    {cursor : Option Key} {first second : List (List (Key × Value))}
    (left : Pages scan cursor first) (right : Pages scan cursor second) : first = second := by
  induction left generalizing second with
  | last read =>
    cases right with
    | last other =>
      rw [read] at other
      cases other
      rfl
    | more other _ =>
      rw [read] at other
      cases other
  | more read _ ih =>
    cases right with
    | last other =>
      rw [read] at other
      cases other
    | more other rest =>
      rw [read] at other
      cases other
      rw [ih rest]

end Contextra.Library
