import Contextra.Store.Entry

/-!
# The retention rule

`retain_key_versions` keeps, of the versions of one key in descending order, those
above the floor and the first one at or below it.
-/

namespace Contextra.Store

open Library List

/-- The loop of `retain_key_versions` with its flag `found_floor_version`. -/
def retainLoop {T : Type} (getSeq : T → SeqNo) (floor : Nat) : Bool → List T → List T
  | _, [] => []
  | foundFloorVersion, entry :: entries =>
    if floor < (getSeq entry).raw then entry :: retainLoop getSeq floor foundFloorVersion entries
    else if foundFloorVersion = false then entry :: retainLoop getSeq floor true entries
    else retainLoop getSeq floor foundFloorVersion entries

def retainKeyVersions {T : Type} (entries : List T) (getSeq : T → SeqNo) (floor : Nat) : List T :=
  retainLoop getSeq floor false entries

section Loop

variable {T : Type} {getSeq : T → SeqNo} {floor : Nat}

theorem retainLoop_sublist (getSeq : T → SeqNo) (floor : Nat) (found : Bool) (entries : List T) :
    (retainLoop getSeq floor found entries).Sublist entries := by
  induction entries generalizing found with
  | nil => exact List.Sublist.slnil
  | cons entry entries ih =>
    simp only [retainLoop]
    split
    · exact (ih found).cons_cons entry
    · split
      · exact (ih true).cons_cons entry
      · exact (ih found).cons entry

theorem retainLoop_true (entries : List T) :
    retainLoop getSeq floor true entries =
      entries.filter (fun entry => floor < (getSeq entry).raw) := by
  induction entries with
  | nil => rfl
  | cons entry entries ih =>
    simp only [retainLoop, ih, filter_cons]
    split <;> simp_all

variable {entries : List T} {entry : T}

theorem mem_retainLoop_of_above {found : Bool} (mem : entry ∈ entries) (above : floor < (getSeq entry).raw) :
    entry ∈ retainLoop getSeq floor found entries := by
  induction entries generalizing found with
  | nil => simp at mem
  | cons head entries ih =>
    simp only [retainLoop]
    rcases mem_cons.mp mem with rfl | later
    · simp [above]
    · split
      · exact mem_cons_of_mem _ (ih later)
      · split
        · exact mem_cons_of_mem _ (ih later)
        · exact ih later

theorem mem_retainLoop_of_first (mem : entry ∈ entries) (below : (getSeq entry).raw ≤ floor)
    (first : ∀ other ∈ entries, (getSeq other).raw ≤ floor →
      (getSeq other).raw ≤ (getSeq entry).raw)
    (descending : entries.Pairwise (fun left right => (getSeq right).raw < (getSeq left).raw)) :
    entry ∈ retainLoop getSeq floor false entries := by
  induction entries with
  | nil => simp at mem
  | cons head entries ih =>
    obtain ⟨newer, rest⟩ := pairwise_cons.mp descending
    simp only [retainLoop]
    rcases mem_cons.mp mem with rfl | later
    · rw [if_neg (not_lt.mpr below)]
      simp
    · have higher : floor < (getSeq head).raw := by
        by_contra notAbove
        have atMost := first head mem_cons_self (not_lt.mp notAbove)
        have := newer entry later
        omega
      rw [if_pos higher]
      exact mem_cons_of_mem _ (ih later
        (fun other inRest => first other (mem_cons_of_mem head inRest)) rest)

theorem newest_of_mem_retainLoop (descending : entries.Pairwise (fun left right => (getSeq right).raw < (getSeq left).raw))
    (kept : entry ∈ retainLoop getSeq floor false entries) (below : (getSeq entry).raw ≤ floor) :
    ∀ other ∈ entries, (getSeq other).raw ≤ floor →
      (getSeq other).raw ≤ (getSeq entry).raw := by
  induction entries with
  | nil => simp [retainLoop] at kept
  | cons head entries ih =>
    obtain ⟨newer, rest⟩ := pairwise_cons.mp descending
    intro other mem atMost
    simp only [retainLoop] at kept
    by_cases higher : floor < (getSeq head).raw
    · rw [if_pos higher] at kept
      have later : entry ∈ retainLoop getSeq floor false entries :=
        (mem_cons.mp kept).resolve_left fun same => by
          subst same
          omega
      rcases mem_cons.mp mem with rfl | inRest
      · omega
      · exact ih rest later other inRest atMost
    · rw [if_neg higher] at kept
      simp only [if_true] at kept
      rcases mem_cons.mp kept with rfl | later
      · rcases mem_cons.mp mem with rfl | inRest
        · exact le_rfl
        · exact (newer other inRest).le
      · -- a version behind the floor version is kept only above the floor
        rw [retainLoop_true, mem_filter] at later
        simp only [decide_eq_true_eq] at later
        omega

end Loop

theorem injOn_of_descending {versions : List Entry}
    (descending : versions.Pairwise (fun left right => right.raw < left.raw)) :
    Set.InjOn Entry.raw {entry | entry ∈ versions} := by
  have nodup : (versions.map Entry.raw).Nodup :=
    pairwise_map.mpr (descending.imp fun newer => newer.ne')
  exact fun left inLeft right inRight => inj_on_of_nodup_map nodup inLeft inRight

/-- The rule followed by a collection of versions below the floor: the newest version
at the floor may be gone, and then nothing at or below the floor is left. -/
theorem retainKeyVersions_filter_retains {versions : List Entry} (floor : Nat)
    (dead : Entry → Prop) (keep : Entry → Bool)
    (descending : versions.Pairwise (fun left right => right.raw < left.raw))
    (collected : ∀ entry, keep entry = false → dead entry ∧ entry.raw < floor) :
    Retains Entry.raw dead {entry | entry ∈ versions}
      {entry | entry ∈ (retainKeyVersions versions Entry.seq floor).filter keep} floor where
  subset _ mem :=
    (retainLoop_sublist _ _ _ _).subset (mem_filter.mp mem).1
  above entry mem high := by
    refine mem_filter.mpr ⟨mem_retainLoop_of_above mem high, ?_⟩
    by_contra dropped
    have := (collected entry (by simpa using dropped)).2
    omega
  floor entry newest := by
    have kept : entry ∈ retainKeyVersions versions Entry.seq floor :=
      mem_retainLoop_of_first newest.mem newest.le newest.newest descending
    cases keeps : keep entry with
    | true => exact .inl (mem_filter.mpr ⟨kept, keeps⟩)
    | false =>
      obtain ⟨isDead, below⟩ := collected entry keeps
      refine .inr ⟨isDead, fun other inOutput => ?_⟩
      obtain ⟨alsoKept, stays⟩ := mem_filter.mp inOutput
      by_contra notAbove
      -- two kept versions at or below the floor are the same version
      have upper := newest_of_mem_retainLoop descending alsoKept (not_lt.mp notAbove)
        entry newest.mem newest.le
      have lower := newest_of_mem_retainLoop descending kept newest.le
        other ((retainLoop_sublist _ _ _ _).subset alsoKept) (not_lt.mp notAbove)
      have same : other = entry := injOn_of_descending descending
        ((retainLoop_sublist _ _ _ _).subset alsoKept) newest.mem (le_antisymm lower upper)
      rw [same, keeps] at stays
      cases stays

end Contextra.Store
