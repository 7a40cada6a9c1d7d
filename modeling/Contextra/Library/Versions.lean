import Mathlib

/-!
# Reading versions at a bound

A set of versions with a sequence number each, read at a bound `s`: the newest
version at or below `s` decides.  The question of a multi-version store is which
versions may be thrown away without changing the reads from some bound on.
-/

namespace Contextra.Library

universe u v

variable {V : Type u} {X : Type v} {seq : V → ℕ} {S T U R : Set V} {s m n : ℕ} {x y : V}

/-- `x` is the newest version of `S` at `s`. -/
structure IsNewest (seq : V → ℕ) (S : Set V) (s : ℕ) (x : V) : Prop where
  mem : x ∈ S
  le : seq x ≤ s
  newest : ∀ y ∈ S, seq y ≤ s → seq y ≤ seq x

theorem IsNewest.unique (distinct : Set.InjOn seq S) (left : IsNewest seq S s x)
    (right : IsNewest seq S s y) : x = y :=
  distinct left.mem right.mem
    (le_antisymm (right.newest x left.mem left.le) (left.newest y right.mem right.le))

/-- Sequence numbers below a bound have a maximum, finitely many versions or not. -/
theorem exists_isNewest (mem : x ∈ S) (bounded : seq x ≤ s) :
    ∃ y, IsNewest seq S s y ∧ seq x ≤ seq y := by
  classical
  let attained : ℕ → Prop := fun k => ∃ y ∈ S, seq y = k
  have atX : attained (seq x) := ⟨x, mem, rfl⟩
  obtain ⟨y, inS, top⟩ : attained (Nat.findGreatest attained s) :=
    Nat.findGreatest_spec bounded atX
  refine ⟨y, ⟨inS, ?_, fun z inZ below => ?_⟩, ?_⟩
  · rw [top]; exact Nat.findGreatest_le s
  · rw [top]; exact Nat.le_findGreatest below ⟨z, inZ, rfl⟩
  · rw [top]; exact Nat.le_findGreatest bounded atX

/-- Reading `S` at `s` gives `result`; `value` is `none` for a deletion. -/
def ReadsAs (seq : V → ℕ) (value : V → Option X) (S : Set V) (s : ℕ) (result : Option X) : Prop :=
  (∃ x, IsNewest seq S s x ∧ value x = result) ∨ ((∀ x ∈ S, s < seq x) ∧ result = none)

def SameReads (seq : V → ℕ) (value : V → Option X) (S T : Set V) (m : ℕ) : Prop :=
  ∀ s, m ≤ s → ∀ result, ReadsAs seq value S s result ↔ ReadsAs seq value T s result

variable {value : V → Option X}

theorem readsAs_total (seq : V → ℕ) (value : V → Option X) (S : Set V) (s : ℕ) :
    ∃ result, ReadsAs seq value S s result := by
  by_cases visible : ∃ x ∈ S, seq x ≤ s
  · obtain ⟨x, mem, bounded⟩ := visible
    obtain ⟨y, newest, -⟩ := exists_isNewest mem bounded
    exact ⟨value y, .inl ⟨y, newest, rfl⟩⟩
  · refine ⟨none, .inr ⟨fun x mem => ?_, rfl⟩⟩
    by_contra notAbove
    exact visible ⟨x, mem, not_lt.mp notAbove⟩

theorem ReadsAs.unique (distinct : Set.InjOn seq S) {first second : Option X}
    (left : ReadsAs seq value S s first) (right : ReadsAs seq value S s second) :
    first = second := by
  rcases left with ⟨x, newest, rfl⟩ | ⟨none, rfl⟩
  · rcases right with ⟨y, other, rfl⟩ | ⟨none, -⟩
    · rw [newest.unique distinct other]
    · exact absurd newest.le (not_le.mpr (none x newest.mem))
  · rcases right with ⟨y, other, rfl⟩ | ⟨-, rfl⟩
    · exact absurd other.le (not_le.mpr (none y other.mem))
    · rfl

theorem SameReads.symm (same : SameReads seq value S T m) : SameReads seq value T S m :=
  fun s above result => (same s above result).symm

/-- `T` is `S` with floor `m`: everything above `m` is kept, and of the rest the
newest, which may be dropped as well when it is a `dead` version. -/
structure Retains (seq : V → ℕ) (dead : V → Prop) (S T : Set V) (m : ℕ) : Prop where
  subset : T ⊆ S
  above : ∀ x ∈ S, m < seq x → x ∈ T
  floor : ∀ x, IsNewest seq S m x → x ∈ T ∨ (dead x ∧ ∀ y ∈ T, m < seq y)

theorem Retains.isNewest_iff (retains : Retains seq (fun _ => False) S T m) (above : m ≤ s) :
    IsNewest seq T s x ↔ IsNewest seq S s x := by
  constructor
  · intro newest
    refine ⟨retains.subset newest.mem, newest.le, fun y inS below => ?_⟩
    by_cases high : m < seq y
    · exact newest.newest y (retains.above y inS high) below
    · obtain ⟨z, floor, le⟩ := exists_isNewest inS (not_lt.mp high)
      have kept : z ∈ T := (retains.floor z floor).resolve_right fun gone => gone.1
      exact le.trans (newest.newest z kept (floor.le.trans above))
  · intro newest
    refine ⟨?_, newest.le, fun y inT below => newest.newest y (retains.subset inT) below⟩
    by_cases high : m < seq x
    · exact retains.above x newest.mem high
    · have floor : IsNewest seq S m x :=
        ⟨newest.mem, not_lt.mp high, fun y inS below => newest.newest y inS (below.trans above)⟩
      exact (retains.floor x floor).resolve_right fun gone => gone.1

theorem Retains.sameReads {dead : V → Prop} (retains : Retains seq dead S T m)
    (deadValue : ∀ x, dead x → value x = none) (distinct : Set.InjOn seq S) :
    SameReads seq value S T m := by
  have forward (s : ℕ) (above : m ≤ s) (result : Option X)
      (reads : ReadsAs seq value S s result) : ReadsAs seq value T s result := by
    rcases reads with ⟨x, newest, rfl⟩ | ⟨none, rfl⟩
    · by_cases kept : x ∈ T
      · exact .inl ⟨x, ⟨kept, newest.le, fun y inT => newest.newest y (retains.subset inT)⟩, rfl⟩
      · have low : seq x ≤ m := by
          by_contra high
          exact kept (retains.above x newest.mem (not_le.mp high))
        have floor : IsNewest seq S m x :=
          ⟨newest.mem, low, fun y inS below => newest.newest y inS (below.trans above)⟩
        obtain ⟨gone, outside⟩ := (retains.floor x floor).resolve_left kept
        refine .inr ⟨fun y inT => ?_, deadValue x gone⟩
        by_contra below
        have notAbove := newest.newest y (retains.subset inT) (not_lt.mp below)
        have := outside y inT
        omega
    · exact .inr ⟨fun x inT => none x (retains.subset inT), rfl⟩
  intro s above result
  refine ⟨forward s above result, fun reads => ?_⟩
  obtain ⟨original, readsS⟩ := readsAs_total seq value S s
  have same := reads.unique (distinct.mono retains.subset) (forward s above original readsS)
  exact same ▸ readsS

variable {N : Set V} {x : V} {result : Option X}

/-- A floor above all versions is as one at the newest of them. -/
theorem Retains.lower {dead : V → Prop} (retains : Retains seq dead S T m)
    (newest : ∀ x ∈ S, seq x ≤ n) : Retains seq dead S T (min m n) where
  subset := retains.subset
  above x isIn high := retains.above x isIn
    ((min_lt_iff.mp high).resolve_right (not_lt.mpr (newest x isIn)))
  floor x isNewest := by
    have atFloor : IsNewest seq S m x := ⟨isNewest.mem, isNewest.le.trans (min_le_left m n),
      fun y isIn le => isNewest.newest y isIn (le_min le (newest y isIn))⟩
    refine (retains.floor x atFloor).imp_right (And.imp_right fun outside y isIn => ?_)
    exact (min_le_left m n).trans_lt (outside y isIn)

/-- Newer versions decide where there are any at the bound. -/
theorem isNewest_union (newer : ∀ x ∈ S, ∀ y ∈ N, seq x < seq y) :
    IsNewest seq (S ∪ N) s x ↔
      IsNewest seq N s x ∨ (∀ y ∈ N, s < seq y) ∧ IsNewest seq S s x := by
  constructor
  · rintro ⟨isOld | isNew, le, newest⟩
    · refine .inr ⟨fun y isNew => ?_, isOld, le, fun z isOld => newest z (.inl isOld)⟩
      by_contra below
      exact absurd (newest y (.inr isNew) (not_lt.mp below)) (not_le.mpr (newer x isOld y isNew))
    · exact .inl ⟨isNew, le, fun z isNew => newest z (.inr isNew)⟩
  · rintro (⟨isNew, le, newest⟩ | ⟨above, isOld, le, newest⟩)
    · exact ⟨.inr isNew, le, fun z isIn below =>
        isIn.elim (fun isOld => (newer z isOld x isNew).le) (newest z · below)⟩
    · exact ⟨.inl isOld, le, fun z isIn below =>
        isIn.elim (newest z · below) fun isNew => absurd below (not_le.mpr (above z isNew))⟩

theorem readsAs_union (newer : ∀ x ∈ S, ∀ y ∈ N, seq x < seq y) :
    ReadsAs seq value (S ∪ N) s result ↔
      (∃ x, IsNewest seq N s x ∧ value x = result) ∨
        (∀ y ∈ N, s < seq y) ∧ ReadsAs seq value S s result := by
  simp only [ReadsAs, isNewest_union newer, Set.mem_union, or_imp, forall_and, or_and_right,
    exists_or, and_assoc, exists_and_left]
  rw [or_assoc, and_or_left, and_left_comm]

theorem SameReads.union (same : SameReads seq value S T m)
    (newer : ∀ x ∈ S, ∀ y ∈ N, seq x < seq y) (newer' : ∀ x ∈ T, ∀ y ∈ N, seq x < seq y) :
    SameReads seq value (S ∪ N) (T ∪ N) m := by
  intro s above result
  rw [readsAs_union newer, readsAs_union newer', same s above result]

/-- Versions beside those of which some are dropped, when none of these is dead. -/
theorem Retains.union {dead : V → Prop} (retains : Retains seq dead S T m)
    (alive : R = ∅ ∨ ∀ x, ¬ dead x) : Retains seq dead (R ∪ S) (R ∪ T) m where
  subset := Set.union_subset_union_right R retains.subset
  above x isIn high := isIn.imp_right (retains.above x · high)
  floor x newest := by
    rcases newest.mem with isBeside | isIn
    · exact .inl (.inl isBeside)
    · have own : IsNewest seq S m x := ⟨isIn, newest.le, fun y isY => newest.newest y (.inr isY)⟩
      refine (retains.floor x own).imp .inr fun ⟨isDead, outside⟩ => ⟨isDead, ?_⟩
      obtain rfl := alive.resolve_right fun none => none x isDead
      exact fun y isY => outside y (isY.resolve_left (Set.notMem_empty y))

end Contextra.Library
