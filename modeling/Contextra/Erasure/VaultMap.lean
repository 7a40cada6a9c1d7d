import Contextra.Erasure.VaultTable
import Contextra.Library.Run

/-!
# The vault as a map

Sequences of `put` and `destroy` on a new table, against the map that they describe.  An
insertion never looks for its key, so a second one leaves a copy that a deletion does not reach;
`isMap_iff` says that nothing else goes wrong.
-/

namespace Contextra.Erasure

open Library List Function

inductive VaultOp where
  | put (slot : SlotData)
  | destroy (key : SlotKey)

abbrev VaultMap := SlotKey → Option Payload

def VaultMap.step (payloads : VaultMap) : VaultOp → VaultMap
  | .put slot => Function.update payloads slot.key (some slot.payload)
  | .destroy key => Function.update payloads key none

/-- For each key the payload of its last insertion, unless it was destroyed after that. -/
def described (ops : List VaultOp) : VaultMap := ops.foldl VaultMap.step fun _ => none

/-- No insertion meets a key that was inserted before and not destroyed since. -/
def NoReput (ops : List VaultOp) : Prop :=
  ∀ before slot after, ops = before ++ .put slot :: after → described before slot.key = none

theorem described_concat (ops : List VaultOp) (op : VaultOp) :
    described (ops ++ [op]) = (described ops).step op := by
  simp [described]

theorem noReput_concat {ops : List VaultOp} {op : VaultOp} :
    NoReput (ops ++ [op]) ↔
      NoReput ops ∧ ∀ slot, op = .put slot → described ops slot.key = none := by
  constructor
  · intro noReput
    refine ⟨fun before slot after split => ?_, fun slot isPut => ?_⟩
    · exact noReput before slot (after ++ [op]) (by simp [split])
    · exact noReput ops slot [] (by rw [isPut])
  · rintro ⟨noReput, last⟩ before slot after split
    rcases eq_nil_or_concat after with rfl | ⟨rest, final, rfl⟩
    · obtain ⟨rfl, isPut⟩ := append_inj' split rfl
      exact last slot (singleton_inj.mp isPut)
    · rw [concat_eq_append, ← cons_append, ← append_assoc] at split
      exact noReput before slot rest (append_inj' split rfl).1

namespace VaultTable

section Runs

variable (blake3 : Blake3) (hmac : HmacSha256)

/-- A call on a table; an insertion is made below the load limit only. -/
def step (table : VaultTable) : VaultOp → Option VaultTable
  | .put slot => if table.loadExceeded then none else some (table.put blake3 hmac slot).1
  | .destroy key => some (table.destroy blake3 hmac key).1

def ActiveSlot (table : VaultTable) (key : SlotKey) : Prop :=
  ∃ slot ∈ table.raw, slot[1]? = some statusActive ∧ slotMatches key slot = true

structure Serves (payloads : VaultMap) (table : VaultTable) : Prop where
  lookup : ∀ key,
    (table.get blake3 hmac key).map (Option.map SlotData.payload) = .ok (payloads key)
  final : ∀ key, ¬ ActiveSlot (table.destroy blake3 hmac key).1 key

/-- In every state that the calls pass through, a new table is the map they describe. -/
def IsMap (capacity : Nat) (vaultId : VaultId) (macKey : MacKey) (ops : List VaultOp) : Prop :=
  ∀ before after table, ops = before ++ after →
    run (step blake3 hmac) (new capacity vaultId macKey) before = some table →
      Serves blake3 hmac (described before) table

end Runs

variable {blake3 : Blake3} {hmac : HmacSha256} {table : VaultTable} {cells : Nat → VaultCell}
  {key : SlotKey} {payloads : VaultMap}

theorem Holds.activeSlot_iff (holds : Holds blake3 hmac table cells) :
    table.ActiveSlot key ↔ Present cells key := by
  constructor
  · rintro ⟨slot, mem, active, isKey⟩
    obtain ⟨index, found⟩ := mem_iff_getElem?.mp mem
    have shows := holds.shows index slot found
    cases isCell : cells index with
    | empty =>
      rw [isCell] at shows
      rw [shows] at active
      exact absurd active (by decide)
    | deleted =>
      rw [isCell] at shows
      rw [shows, tombstoneImage_status] at active
      exact absurd active (by decide)
    | occupied other value =>
      rw [isCell] at shows
      rw [shows, slotMatches_encodeSlot] at isKey
      obtain rfl : other = key := of_decide_eq_true isKey
      exact ⟨index, value, isCell⟩
  · rintro ⟨index, value, occupied⟩
    have inside : index < table.capacity := by
      by_contra beyond
      rw [holds.outside index (Nat.le_of_not_lt beyond)] at occupied
      cases occupied
    obtain ⟨slot, found, shows⟩ := holds.slot_of_lt inside
    rw [occupied] at shows
    refine ⟨slot, mem_of_getElem? found, ?_, ?_⟩
    · rw [shows]
      exact encodeSlot_status
    · rw [shows, slotMatches_encodeSlot]
      exact decide_eq_true rfl

theorem Holds.reput (holds : Holds blake3 hmac table cells) (below : table.loadExceeded = false)
    {slot : SlotData} (present : Present cells slot.key) :
    ActiveSlot ((table.put blake3 hmac slot).1.destroy blake3 hmac slot.key).1 slot.key := by
  obtain ⟨old, value, isOld⟩ := present
  obtain ⟨index, free, -, -, -, after⟩ := holds.put below slot
  obtain ⟨-, -, -, -, notOccupied⟩ := freeFrom_eq_some free
  have different : old ≠ index := by
    rintro rfl
    exact notOccupied _ _ isOld
  have new : Function.update cells index (cellOf slot) index =
      .occupied slot.key (slot.payload, slot.gen) := update_self ..
  have stays : Function.update cells index (cellOf slot) old = .occupied slot.key value := by
    rw [update_of_ne different, isOld]
  obtain ⟨found, isFound⟩ := after.reachable.find_isSome_iff.mpr ⟨index, _, new⟩
  obtain ⟨-, destroyed⟩ := after.destroy_found isFound
  apply destroyed.activeSlot_iff.mpr
  by_cases first : old = found
  · exact ⟨index, _, by rw [update_of_ne (by omega), new]⟩
  · exact ⟨old, _, by rw [update_of_ne first, stays]⟩

/-- Every key of the map stands in one cell, with its payload, and no other key does. -/
structure Agrees (payloads : VaultMap) (cells : Nat → VaultCell) : Prop where
  single : Single cells
  payload : ∀ index key value, cells index = .occupied key value → payloads key = some value.1
  present : ∀ key payload, payloads key = some payload → Present cells key

theorem Agrees.absent (agrees : Agrees payloads cells) (absent : payloads key = none) :
    ¬ Present cells key := by
  rintro ⟨index, value, occupied⟩
  rw [agrees.payload index key value occupied] at absent
  cases absent

theorem Agrees.put (agrees : Agrees payloads cells) {slot : SlotData} {index : Nat}
    (absent : payloads slot.key = none) (free : ∀ key value, cells index ≠ .occupied key value) :
    Agrees (payloads.step (.put slot)) (Function.update cells index (cellOf slot)) where
  single := agrees.single.insert (agrees.absent absent) index _
  payload := by
    intro other key value occupied
    by_cases same : other = index
    · subst same
      rw [update_self] at occupied
      cases occupied
      exact update_self ..
    · rw [update_of_ne same] at occupied
      have known := agrees.payload other key value occupied
      have different : key ≠ slot.key := by
        rintro rfl
        rw [known] at absent
        cases absent
      rw [VaultMap.step, update_of_ne different, known]
  present := by
    intro key payload known
    by_cases same : key = slot.key
    · exact ⟨index, (slot.payload, slot.gen), by rw [update_self, same]; rfl⟩
    · rw [VaultMap.step, update_of_ne same] at known
      obtain ⟨other, value, occupied⟩ := agrees.present key payload known
      have different : other ≠ index := by
        rintro rfl
        exact free key value occupied
      exact ⟨other, value, by rw [update_of_ne different, occupied]⟩

theorem Agrees.destroy (agrees : Agrees payloads cells) {index : Nat} {value : Payload × Nat}
    (occupied : cells index = .occupied key value) :
    Agrees (payloads.step (.destroy key)) (Function.update cells index .deleted) where
  single := agrees.single.delete index
  payload := by
    intro other otherKey otherValue isOther
    by_cases same : other = index
    · subst same
      simp at isOther
    · rw [update_of_ne same] at isOther
      have different : otherKey ≠ key := by
        rintro rfl
        exact same (agrees.single other index _ _ _ isOther occupied)
      rw [VaultMap.step, update_of_ne different]
      exact agrees.payload other otherKey otherValue isOther
  present := by
    intro otherKey payload known
    have different : otherKey ≠ key := by
      rintro rfl
      simp [VaultMap.step] at known
    rw [VaultMap.step, update_of_ne different] at known
    obtain ⟨other, otherValue, isOther⟩ := agrees.present otherKey payload known
    have elsewhere : other ≠ index := by
      rintro rfl
      rw [occupied] at isOther
      cases isOther
      exact different rfl
    exact ⟨other, otherValue, by rw [update_of_ne elsewhere, isOther]⟩

theorem Agrees.destroy_missing (agrees : Agrees payloads cells) (absent : ¬ Present cells key) :
    Agrees (payloads.step (.destroy key)) cells := by
  have unknown : payloads key = none := by
    cases known : payloads key with
    | none => rfl
    | some payload => exact absurd (agrees.present key payload known) absent
  have same : payloads.step (.destroy key) = payloads := by
    rw [VaultMap.step, ← unknown, update_eq_self]
  rwa [same]

theorem Holds.serves (holds : Holds blake3 hmac table cells) (agrees : Agrees payloads cells) :
    Serves blake3 hmac payloads table where
  lookup := by
    intro key
    rcases holds.get_eq key with ⟨missing, answer⟩ | ⟨index, value, -, occupied, answer⟩
    · have absent : payloads key = none := by
        cases known : payloads key with
        | none => rfl
        | some payload =>
          obtain ⟨found, isFound⟩ :=
            holds.reachable.find_isSome_iff.mpr (agrees.present key payload known)
          rw [missing] at isFound
          cases isFound
      rw [answer, absent]
      rfl
    · rw [answer, agrees.payload index key value occupied]
      rfl
  final := by
    intro key active
    cases found : findFrom cells key (table.probe blake3 key) with
    | none =>
      rw [holds.destroy_missing found] at active
      obtain ⟨index, isFound⟩ := holds.reachable.find_isSome_iff.mpr (holds.activeSlot_iff.mp active)
      rw [found] at isFound
      cases isFound
    | some index =>
      obtain ⟨-, value, occupied⟩ := findFrom_eq_some found
      obtain ⟨-, destroyed⟩ := holds.destroy_found found
      obtain ⟨other, otherValue, isOther⟩ := destroyed.activeSlot_iff.mp active
      by_cases same : other = index
      · subst same
        simp at isOther
      · rw [update_of_ne same] at isOther
        exact same (agrees.single other index _ _ _ isOther occupied)

/-- One call keeps the table the image of some cells, and where it is no second insertion the
cells stay in agreement with the map. -/
theorem Holds.step (payloads : VaultMap) {next : VaultTable} {op : VaultOp}
    (holds : Holds blake3 hmac table cells) (taken : step blake3 hmac table op = some next) :
    ∃ cells', Holds blake3 hmac next cells' ∧
      (Agrees payloads cells → (∀ slot, op = .put slot → payloads slot.key = none) →
        Agrees (payloads.step op) cells') := by
  cases op with
  | put slot =>
    rw [VaultTable.step] at taken
    split at taken
    · cases taken
    · rename_i below
      cases taken
      obtain ⟨index, free, -, -, -, after⟩ := holds.put (eq_false_of_ne_true below) slot
      obtain ⟨-, -, -, -, notOccupied⟩ := freeFrom_eq_some free
      exact ⟨_, after, fun agrees fresh => agrees.put (fresh slot rfl) notOccupied⟩
  | destroy key =>
    cases taken
    cases found : findFrom cells key (table.probe blake3 key) with
    | none =>
      refine ⟨cells, by rwa [holds.destroy_missing found], fun agrees _ => ?_⟩
      apply agrees.destroy_missing
      rw [← holds.reachable.find_isSome_iff, found]
      simp
    | some index =>
      obtain ⟨-, value, occupied⟩ := findFrom_eq_some found
      obtain ⟨-, destroyed⟩ := holds.destroy_found found
      exact ⟨_, destroyed, fun agrees _ => agrees.destroy occupied⟩

section Sequences

variable {capacity : Nat} {vaultId : VaultId} {macKey : MacKey} {ops : List VaultOp}

theorem holds_run
    (accepted : run (step blake3 hmac) (new capacity vaultId macKey) ops = some table) :
    ∃ cells, Holds blake3 hmac table cells ∧ (NoReput ops → Agrees (described ops) cells) := by
  induction ops using reverseRecOn generalizing table with
  | nil =>
    cases accepted
    refine ⟨_, holds_new capacity vaultId macKey, fun _ => ⟨?_, ?_, ?_⟩⟩
    · exact fun _ _ _ _ _ occupied => nomatch occupied
    · exact fun _ _ _ occupied => nomatch occupied
    · exact fun _ _ known => nomatch known
  | append_singleton ops op ih =>
    obtain ⟨before, reached, last⟩ := run_append.mp accepted
    obtain ⟨next, taken, same⟩ := run_cons_eq_some.mp last
    obtain rfl := Option.some.inj same
    obtain ⟨cells, holds, agrees⟩ := ih reached
    obtain ⟨cells', holds', agrees'⟩ := holds.step (described ops) taken
    refine ⟨cells', holds', fun noReput => ?_⟩
    obtain ⟨earlier, fresh⟩ := noReput_concat.mp noReput
    rw [described_concat]
    exact agrees' (agrees earlier) fresh

theorem noReput_of_isMap
    (accepted : run (step blake3 hmac) (new capacity vaultId macKey) ops = some table)
    (isMap : IsMap blake3 hmac capacity vaultId macKey ops) : NoReput ops := by
  intro before slot after split
  by_contra known
  obtain ⟨payload, isKnown⟩ := Option.ne_none_iff_exists'.mp known
  rw [split] at accepted
  obtain ⟨middle, reached, rest⟩ := run_append.mp accepted
  obtain ⟨next, taken, -⟩ := run_cons_eq_some.mp rest
  have served := isMap before (.put slot :: after) middle split reached
  have servedNext := isMap (before ++ [.put slot]) after next (by simp [split])
    (run_append.mpr ⟨middle, reached, by simp [run, taken]⟩)
  obtain ⟨cells, holds, -⟩ := holds_run reached
  have present : Present cells slot.key := by
    rcases holds.get_eq slot.key with ⟨-, answer⟩ | ⟨index, value, -, occupied, -⟩
    · have looked := served.lookup slot.key
      rw [answer, isKnown] at looked
      cases looked
    · exact ⟨index, value, occupied⟩
  rw [step] at taken
  split at taken
  · cases taken
  · rename_i below
    cases taken
    exact servedNext.final slot.key (holds.reput (eq_false_of_ne_true below) present)

/-- Below the load limit a new vault is the map that the calls describe, and destroys its keys for
good, if and only if no key is inserted a second time. -/
theorem isMap_iff
    (accepted : run (step blake3 hmac) (new capacity vaultId macKey) ops = some table) :
    IsMap blake3 hmac capacity vaultId macKey ops ↔ NoReput ops := by
  refine ⟨noReput_of_isMap accepted, fun noReput => ?_⟩
  intro before after table split reached
  obtain ⟨cells, holds, agrees⟩ := holds_run reached
  apply holds.serves (agrees fun first slot rest isFirst => ?_)
  exact noReput first slot (rest ++ after) (by simp [split, isFirst])

theorem Holds.step_isSome (holds : Holds blake3 hmac table cells) (op : VaultOp)
    (room : 10 * (table.live + table.tombstones + 1) ≤ 9 * table.capacity) :
    ∃ next, VaultTable.step blake3 hmac table op = some next ∧ next.capacity = table.capacity ∧
      next.live + next.tombstones ≤ table.live + table.tombstones + 1 := by
  cases op with
  | put slot =>
    have below : table.loadExceeded = false := by
      apply decide_eq_false
      omega
    obtain ⟨index, -, -, sameCapacity, load, -⟩ := holds.put below slot
    exact ⟨_, by rw [VaultTable.step, if_neg (by simp [below])], sameCapacity, load⟩
  | destroy key =>
    refine ⟨_, rfl, ?_⟩
    unfold destroy
    split
    · exact ⟨rfl, Nat.le_succ _⟩
    · split
      · exact ⟨rfl, Nat.le_succ _⟩
      · split
        · simp only
          split <;> exact ⟨rfl, by simp only; omega⟩
        · exact ⟨rfl, Nat.le_succ _⟩

theorem Holds.run_isSome (holds : Holds blake3 hmac table cells) (ops : List VaultOp)
    (room : 10 * (table.live + table.tombstones + ops.length) ≤ 9 * table.capacity) :
    ∃ final, run (VaultTable.step blake3 hmac) table ops = some final := by
  induction ops generalizing table cells with
  | nil => exact ⟨table, rfl⟩
  | cons op ops ih =>
    rw [length_cons] at room
    obtain ⟨next, taken, sameCapacity, load⟩ := holds.step_isSome op (by omega)
    obtain ⟨cells', holds', -⟩ := holds.step (fun _ => none) taken
    obtain ⟨final, reached⟩ := ih holds' (by omega)
    exact ⟨final, run_cons_eq_some.mpr ⟨next, taken, reached⟩⟩

theorem new_run_isSome (blake3 : Blake3) (hmac : HmacSha256) (vaultId : VaultId) (macKey : MacKey)
    (ops : List VaultOp) (short : ops.length ≤ 3) :
    ∃ final, run (step blake3 hmac) (new 4 vaultId macKey) ops = some final := by
  apply (holds_new 4 vaultId macKey).run_isSome
  simp only [new]
  omega

def someKey : SlotKey := (.document, ⟨replicate 16 7, length_replicate⟩)

def putSome (byte : UInt8) : VaultOp :=
  .put ⟨someKey.1, someKey.2, ⟨replicate 32 byte, length_replicate⟩, 0⟩

/-- A key that is destroyed before it is inserted again. -/
theorem isMap_iff_destroyed :
    NoReput [putSome 1, .destroy someKey, putSome 2] ∧
      ∀ blake3 hmac vaultId macKey,
        IsMap blake3 hmac 4 vaultId macKey [putSome 1, .destroy someKey, putSome 2] := by
  have noReput : NoReput ((([] ++ [putSome 1]) ++ [.destroy someKey]) ++ [putSome 2]) := by
    rw [noReput_concat, noReput_concat, noReput_concat]
    refine ⟨⟨⟨fun before slot after split => ?_, ?_⟩, ?_⟩, ?_⟩
    · simp at split
    · exact fun _ _ => rfl
    · exact fun _ isPut => nomatch isPut
    · intro slot isPut
      cases isPut
      simp [described, VaultMap.step, someKey, SlotData.key]
  refine ⟨noReput, fun blake3 hmac vaultId macKey => ?_⟩
  obtain ⟨final, accepted⟩ := new_run_isSome blake3 hmac vaultId macKey
    [putSome 1, .destroy someKey, putSome 2] le_rfl
  exact (isMap_iff accepted).mpr noReput

/-- A key that is inserted twice: a slot of it outlives its destruction. -/
theorem put_put_not_isMap :
    described [putSome 1, putSome 2] someKey = some ⟨replicate 32 2, length_replicate⟩ ∧
      ∀ blake3 hmac vaultId macKey,
        ¬ IsMap blake3 hmac 4 vaultId macKey [putSome 1, putSome 2] := by
  refine ⟨?_, fun blake3 hmac vaultId macKey isMap => ?_⟩
  · simp [described, VaultMap.step, putSome, SlotData.key]
  obtain ⟨final, accepted⟩ := new_run_isSome blake3 hmac vaultId macKey
    [putSome 1, putSome 2] (Nat.le_succ 2)
  have fresh := noReput_of_isMap accepted isMap [putSome 1] _ [] rfl
  have known : described [putSome 1] someKey = some ⟨replicate 32 1, length_replicate⟩ := by
    simp [described, VaultMap.step, putSome, SlotData.key]
  exact absurd (known.symm.trans fresh) (by simp)

end Sequences

end VaultTable

end Contextra.Erasure
