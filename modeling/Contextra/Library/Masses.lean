import Contextra.Library.SortedMap

/-!
# Masses

A sorted map whose values are added up is a finitely supported function of its keys.
-/

namespace Contextra.Library.SortedMap

open List

section Erase

variable {Key Value : Type} [LinearOrder Key]

def erase (map : SortedMap Key Value) (key : Key) : SortedMap Key Value where
  entries := map.others key
  sorted := map.sorted.filter _

theorem mem_erase {map : SortedMap Key Value} {key : Key} {entry : Key × Value} :
    entry ∈ (map.erase key).entries ↔ entry ∈ map.entries ∧ entry.1 ≠ key := mem_others

end Erase

section Lists

variable {Key K : Type} [AddCommMonoid K]

noncomputable def massesOf (entries : List (Key × K)) : Key →₀ K :=
  (entries.map fun entry => Finsupp.single entry.1 entry.2).sum

@[simp] theorem massesOf_nil : massesOf ([] : List (Key × K)) = 0 := rfl

@[simp] theorem massesOf_cons (entry : Key × K) (entries : List (Key × K)) :
    massesOf (entry :: entries) = Finsupp.single entry.1 entry.2 + massesOf entries := by
  rw [massesOf, map_cons, sum_cons]
  rfl

theorem massesOf_perm {first second : List (Key × K)} (same : first.Perm second) :
    massesOf first = massesOf second := (same.map _).sum_eq

end Lists

section Masses

variable {Key K : Type} [LinearOrder Key] [AddCommMonoid K]

def add (map : SortedMap Key K) (key : Key) (mass : K) : SortedMap Key K :=
  map.insert key ((map.lookup key).getD 0 + mass)

noncomputable def masses (map : SortedMap Key K) : Key →₀ K := massesOf map.entries

variable {map : SortedMap Key K}

theorem masses_erase {key : Key} {mass : K} (found : map.lookup key = some mass) :
    map.masses = (map.erase key).masses + Finsupp.single key mass := by
  rw [masses, massesOf_perm (perm_of_lookup found), massesOf_cons, add_comm]
  rfl

theorem masses_add (map : SortedMap Key K) (key : Key) (mass : K) :
    (map.add key mass).masses = map.masses + Finsupp.single key mass := by
  rw [add, masses, massesOf_perm (insert_perm ..), massesOf_cons]
  cases found : map.lookup key with
  | none =>
    rw [others_of_absent found, Option.getD_none, zero_add, add_comm]
    rfl
  | some before =>
    rw [masses_erase found, Option.getD_some, Finsupp.single_add]
    exact (add_comm _ _).trans (add_assoc _ _ _).symm

theorem foldl_add_masses {α : Type} (key : α → Key) (mass : α → K) (elements : List α) :
    (elements.foldl (fun map element => map.add (key element) (mass element)) map).masses =
      map.masses + massesOf (elements.map fun element => (key element, mass element)) := by
  induction elements generalizing map with
  | nil => exact (add_zero _).symm
  | cons element elements ih =>
    rw [foldl_cons, ih, masses_add, map_cons, massesOf_cons, add_assoc]

theorem add_forall {holds : Key → K → Prop} {key : Key} {mass : K}
    (all : ∀ entry ∈ map.entries, holds entry.1 entry.2) (isNew : holds key (0 + mass))
    (isMore : ∀ before, holds key before → holds key (before + mass)) :
    ∀ entry ∈ (map.add key mass).entries, holds entry.1 entry.2 := by
  intro entry isEntry
  rcases mem_insert.mp isEntry with rfl | ⟨isOld, -⟩
  · cases found : map.lookup key with
    | none => exact isNew
    | some before => exact isMore before (all _ (lookup_eq_some.mp found))
  · exact all entry isOld

end Masses

end Contextra.Library.SortedMap

/-!
## Pushing mass

A mass is split over the nodes into a settled part and a residual.  A push settles a share of
the residual of one node and hands the rest on to other nodes, by the column of the node.  The
settled part and the residual keep the identity of the personalized random walk.
-/

namespace Contextra.Library

open List

section Diffusion

variable {Node K : Type*} [Field K]

noncomputable def totalMass : (Node →₀ K) →ₗ[K] K := Finsupp.linearCombination K fun _ => (1 : K)

@[simp] theorem totalMass_single (node : Node) (mass : K) :
    totalMass (Finsupp.single node mass) = mass := by
  rw [totalMass, Finsupp.linearCombination_single, smul_eq_mul, mul_one]

variable (columns : Node → Node →₀ K)

noncomputable def handOn : (Node →₀ K) →ₗ[K] (Node →₀ K) := Finsupp.linearCombination K columns

@[simp] theorem handOn_single (node : Node) (mass : K) :
    handOn columns (Finsupp.single node mass) = mass • columns node :=
  Finsupp.linearCombination_single K mass node

variable {columns} (alpha : K) (seed : Node →₀ K)

/-- The identity of the personalized random walk with restart probability `alpha`. -/
def Balanced (columns : Node → Node →₀ K) (settled residual : Node →₀ K) : Prop :=
  alpha • residual + settled = alpha • seed + (1 - alpha) • handOn columns settled

variable {alpha seed} {settled rest : Node →₀ K} {node : Node} {mass : K}

theorem balanced_start : Balanced alpha seed columns 0 seed := by
  rw [Balanced, map_zero, smul_zero]

theorem Balanced.push
    (balanced : Balanced alpha seed columns settled (rest + Finsupp.single node mass)) :
    Balanced alpha seed columns (settled + Finsupp.single node (alpha * mass))
      (rest + ((1 - alpha) * mass) • columns node) := by
  have scaled : Finsupp.single node (alpha * mass) = alpha • Finsupp.single node mass := by
    rw [Finsupp.smul_single, smul_eq_mul]
  unfold Balanced at *
  rw [map_add, handOn_single, smul_add, scaled]
  rw [smul_add] at balanced
  calc alpha • rest + alpha • ((1 - alpha) * mass) • columns node +
        (settled + alpha • Finsupp.single node mass)
      = alpha • rest + alpha • Finsupp.single node mass + settled +
          alpha • ((1 - alpha) * mass) • columns node := by abel
    _ = alpha • seed + (1 - alpha) • handOn columns settled +
          alpha • ((1 - alpha) * mass) • columns node := by rw [balanced]
    _ = alpha • seed + ((1 - alpha) • handOn columns settled +
          (1 - alpha) • (alpha * mass) • columns node) := by
        rw [smul_smul, smul_smul, add_assoc]
        ring_nf
    _ = _ := by rw [← smul_add]

theorem totalMass_push (stochastic : totalMass (columns node) = 1) :
    totalMass (settled + Finsupp.single node (alpha * mass)) +
        totalMass (rest + ((1 - alpha) * mass) • columns node) =
      totalMass settled + totalMass (rest + Finsupp.single node mass) := by
  simp only [map_add, map_smul, totalMass_single, stochastic, smul_eq_mul, mul_one]
  ring

end Diffusion

end Contextra.Library
