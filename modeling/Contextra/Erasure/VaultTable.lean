import Contextra.Erasure.VaultSlot
import Contextra.Library.Probing

/-!
# The key vault's table

One shard of the vault of `table.rs`: slots in an open addressing table with tombstones.
`Holds` relates the bytes of a table to abstract cells; each operation is one lemma about them.
-/

namespace Contextra.Erasure

open Library List Function

structure VaultTable where
  raw : List Bytes
  capacity : Nat
  live : Nat
  tombstones : Nat
  vaultId : VaultId
  macKey : MacKey
  poisoned : Bool

namespace VaultTable

def new (capacity : Nat) (vaultId : VaultId) (macKey : MacKey) : VaultTable where
  raw := replicate (max capacity.nextPowerOfTwo 4) emptySlot
  capacity := max capacity.nextPowerOfTwo 4
  live := 0
  tombstones := 0
  vaultId := vaultId
  macKey := macKey
  poisoned := false

def poisonError : ErasureError :=
  .io "vault shard is poisoned due to previous sync or I/O failure (D-55)"

/-- Whether the next insertion would bring the load factor above 0.90.  The quotient by a power
of two is exact in floating point. -/
def loadExceeded (table : VaultTable) : Bool :=
  decide (table.capacity = 0 ∨
    9 * table.capacity < 10 * (table.live + table.tombstones + 1))

/-- The status byte of a slot; a slot outside the table counts as empty. -/
def statusAt (table : VaultTable) (index : Nat) : UInt8 :=
  (table.raw[index]?.bind (·[1]?)).getD statusEmpty

/-- The comparison of `find` on an active slot. -/
def slotMatches (key : SlotKey) (slot : Bytes) : Bool :=
  decide (slot[0]?.getD 0 = key.1.toU8 ∧ (slot.drop 8).take 16 = key.2.val)

section Operations

variable (blake3 : Blake3) (hmac : HmacSha256)

def probe (table : VaultTable) (key : SlotKey) : List Nat :=
  probePath (slotProbeStart blake3 key table.capacity).2 table.capacity

/-- The loop of `find`. -/
def findAlong (table : VaultTable) (key : SlotKey) : List Nat → Option Nat
  | [] => none
  | index :: path =>
    match table.raw[index]? with
    | none => none
    | some slot =>
      let status := slot[1]?.getD statusEmpty
      if status = statusEmpty then none
      else if status = statusTombstone then findAlong table key path
      else if status = statusActive then
        if slotMatches key slot then some index else findAlong table key path
      else findAlong table key path

def find (table : VaultTable) (key : SlotKey) : Option Nat :=
  table.findAlong key (table.probe blake3 key)

def get (table : VaultTable) (key : SlotKey) : Except ErasureError (Option SlotData) :=
  if table.poisoned then .error poisonError
  else
    match table.find blake3 key with
    | none => .ok none
    | some index =>
      match table.raw[index]? with
      | none => .error .corrupt
      | some slot => decodeSlot hmac table.macKey table.vaultId slot

def writeSlot (table : VaultTable) (index : Nat) (slot : SlotData) : Option VaultTable :=
  if index < table.raw.length then
    some { table with
      raw := table.raw.set index (encodeSlot hmac table.macKey table.vaultId slot) }
  else none

/-- The loop of `put`: the first empty or deleted slot of the probe is taken. -/
def putAlong (table : VaultTable) (slot : SlotData) :
    List Nat → VaultTable × Except ErasureError Unit
  | [] => (table, .error .capacity)
  | index :: path =>
    let status := table.statusAt index
    if status = statusEmpty ∨ status = statusTombstone then
      let table :=
        if status = statusTombstone then { table with tombstones := table.tombstones - 1 }
        else table
      match table.writeSlot hmac index slot with
      | none => (table, .error .corrupt)
      | some written => ({ written with live := written.live + 1 }, .ok ())
    else putAlong table slot path

def put (table : VaultTable) (slot : SlotData) : VaultTable × Except ErasureError Unit :=
  if table.poisoned then (table, .error poisonError)
  else if table.loadExceeded then (table, .error .capacity)
  else table.putAlong hmac slot (table.probe blake3 slot.key)

/-- The check of a destroyed slot, read back. -/
def verifyTombstone (table : VaultTable) (index : Nat) : Bool :=
  match table.raw[index]? with
  | none => false
  | some slot =>
    decide (slot[0]? = some 0 ∧ slot[1]? = some statusTombstone ∧
      ((slot.drop 2).take 54).all (· == 0) ∧
      (slot.drop 56).take 8 = computeSlotMac hmac table.macKey table.vaultId (slot.take 56))

def destroy (table : VaultTable) (key : SlotKey) : VaultTable × Except ErasureError Unit :=
  if table.poisoned then (table, .error poisonError)
  else
    match table.find blake3 key with
    | none => (table, .error .slotMissing)
    | some index =>
      if index < table.raw.length then
        let table := { table with
          raw := table.raw.set index (tombstoneImage hmac table.macKey table.vaultId)
          live := table.live - 1
          tombstones := table.tombstones + 1 }
        if table.verifyTombstone hmac index then (table, .ok ()) else (table, .error .corrupt)
      else (table, .error .corrupt)

end Operations

abbrev VaultCell := Cell SlotKey (Payload × Nat)

def cellOf (slot : SlotData) : VaultCell := .occupied slot.key (slot.payload, slot.gen)

variable {blake3 : Blake3} {hmac : HmacSha256} {table : VaultTable}

def Shows (hmac : HmacSha256) (table : VaultTable) (slot : Bytes) : VaultCell → Prop
  | .empty => slot = emptySlot
  | .deleted => slot = tombstoneImage hmac table.macKey table.vaultId
  | .occupied key value =>
    slot = encodeSlot hmac table.macKey table.vaultId ⟨key.1, key.2, value.1, value.2⟩

/-- The table, slot by slot, is the image of the cells. -/
structure Holds (blake3 : Blake3) (hmac : HmacSha256) (table : VaultTable)
    (cells : Nat → VaultCell) : Prop where
  healthy : table.poisoned = false
  size : table.raw.length = table.capacity
  shows : ∀ index slot, table.raw[index]? = some slot → Shows hmac table slot (cells index)
  outside : ∀ index, table.capacity ≤ index → cells index = .empty
  reachable : Reachable (table.probe blake3) cells
  counted : occupancy cells table.capacity = table.live

variable {cells : Nat → VaultCell} {key : SlotKey} {slot : SlotData} {index : Nat}

theorem mem_probe (blake3 : Blake3) (key : SlotKey) (inside : index < table.capacity) :
    index ∈ table.probe blake3 key :=
  mem_probePath inside

theorem lt_of_mem_probe (mem : index ∈ table.probe blake3 key) : index < table.capacity :=
  lt_of_mem_probePath mem

theorem slotMatches_encodeSlot (slot : SlotData) :
    slotMatches key (encodeSlot hmac table.macKey table.vaultId slot) = decide (slot.key = key) := by
  have typeByte : (encodeSlot hmac table.macKey table.vaultId slot)[0]?.getD 0 =
      slot.slotType.toU8 := rfl
  unfold slotMatches
  rw [typeByte, encodeSlot_tag]
  apply decide_eq_decide.mpr
  rw [SlotType.toU8_inj, ← Subtype.ext_iff, SlotData.key, Prod.ext_iff]

theorem Holds.slot_of_lt (holds : Holds blake3 hmac table cells) (inside : index < table.capacity) :
    ∃ slot, table.raw[index]? = some slot ∧ Shows hmac table slot (cells index) := by
  have bound : index < table.raw.length := by rw [holds.size]; exact inside
  exact ⟨table.raw[index], getElem?_eq_getElem bound,
    holds.shows index _ (getElem?_eq_getElem bound)⟩

theorem Holds.findAlong_eq (holds : Holds blake3 hmac table cells) {path : List Nat}
    (inside : ∀ index ∈ path, index < table.capacity) :
    table.findAlong key path = findFrom cells key path := by
  induction path with
  | nil => rfl
  | cons index path ih =>
    have later := ih fun other mem =>
      inside other (mem_cons_of_mem _ mem)
    obtain ⟨slot, found, shows⟩ := holds.slot_of_lt (inside index mem_cons_self)
    rw [findAlong, findFrom, found]
    cases isCell : cells index with
    | empty =>
      rw [isCell] at shows
      have status : slot[1]?.getD statusEmpty = statusEmpty := by rw [shows]; rfl
      simp only [status, if_true]
    | deleted =>
      rw [isCell] at shows
      have status : slot[1]?.getD statusEmpty = statusTombstone := by rw [shows]; rfl
      simp only [status]
      rw [if_neg (by decide), if_pos trivial, later]
    | occupied other value =>
      rw [isCell] at shows
      have status : slot[1]?.getD statusEmpty = statusActive := by rw [shows]; rfl
      have matching : slotMatches key slot = decide (other = key) := by
        rw [shows, slotMatches_encodeSlot]
        rfl
      simp only [status, matching, decide_eq_true_eq]
      rw [if_neg (by decide), if_neg (by decide), if_pos trivial, later]

theorem Holds.find_eq (holds : Holds blake3 hmac table cells) :
    table.find blake3 key = findFrom cells key (table.probe blake3 key) :=
  holds.findAlong_eq fun _ => lt_of_mem_probe

theorem Holds.get_eq (holds : Holds blake3 hmac table cells) (key : SlotKey) :
    (findFrom cells key (table.probe blake3 key) = none ∧
        table.get blake3 hmac key = .ok none) ∨
      ∃ index value, findFrom cells key (table.probe blake3 key) = some index ∧
        cells index = .occupied key value ∧
        table.get blake3 hmac key =
          .ok (some ⟨key.1, key.2, value.1, value.2 % 256 ^ 6⟩) := by
  unfold get
  rw [if_neg (by simp [holds.healthy]), holds.find_eq]
  cases found : findFrom cells key (table.probe blake3 key) with
  | none => exact .inl ⟨rfl, rfl⟩
  | some index =>
    obtain ⟨onPath, value, occupied⟩ := findFrom_eq_some found
    obtain ⟨slot, isSlot, shows⟩ := holds.slot_of_lt (lt_of_mem_probe onPath)
    refine .inr ⟨index, value, rfl, occupied, ?_⟩
    rw [occupied] at shows
    simp only [isSlot]
    rw [shows, decodeSlot_encodeSlot]

theorem Holds.replace (holds : Holds blake3 hmac table cells) (inside : index < table.capacity)
    {slot : Bytes} {cell : VaultCell} (shown : Shows hmac table slot cell) {live : Nat}
    (tombstones : Nat)
    (reachable : Reachable (table.probe blake3) (Function.update cells index cell))
    (counted : occupancy (Function.update cells index cell) table.capacity = live) :
    Holds blake3 hmac
      { table with raw := table.raw.set index slot, live := live, tombstones := tombstones }
      (Function.update cells index cell) where
  healthy := holds.healthy
  size := by rw [length_set, holds.size]
  shows := by
    intro other found isFound
    by_cases same : index = other
    · subst same
      have bound : index < table.raw.length := by rw [holds.size]; exact inside
      rw [getElem?_set_self bound] at isFound
      cases isFound
      rw [update_self]
      cases cell <;> exact shown
    · rw [getElem?_set_ne same] at isFound
      rw [update_of_ne (Ne.symm same)]
      have old := holds.shows other found isFound
      cases isCell : cells other <;> rw [isCell] at old <;> exact old
  outside := by
    intro other beyond
    have different : other ≠ index := by
      rintro rfl
      exact absurd beyond (Nat.not_le.mpr inside)
    rw [update_of_ne different]
    exact holds.outside other beyond
  reachable := reachable
  counted := counted

theorem Holds.statusAt_eq (holds : Holds blake3 hmac table cells) (inside : index < table.capacity) :
    table.statusAt index =
      match cells index with
      | .empty => statusEmpty
      | .deleted => statusTombstone
      | .occupied _ _ => statusActive := by
  obtain ⟨slot, found, shows⟩ := holds.slot_of_lt inside
  rw [statusAt, found]
  cases isCell : cells index <;> rw [isCell] at shows <;> rw [shows] <;> rfl

/-- The table after a slot is written into a cell that was deleted, or not. -/
def filled (hmac : HmacSha256) (table : VaultTable) (index : Nat) (slot : SlotData)
    (wasDeleted : Bool) : VaultTable :=
  { table with
    raw := table.raw.set index (encodeSlot hmac table.macKey table.vaultId slot)
    live := table.live + 1
    tombstones := table.tombstones - if wasDeleted then 1 else 0 }

theorem Holds.putAlong_eq (holds : Holds blake3 hmac table cells) {path : List Nat}
    (inside : ∀ index ∈ path, index < table.capacity) (free : freeFrom cells path = some index)
    (slot : SlotData) :
    table.putAlong hmac slot path =
      (table.filled hmac index slot (cells index).isDeleted, .ok ()) := by
  induction path with
  | nil => cases free
  | cons first path ih =>
    have firstInside := inside first mem_cons_self
    have bound : first < table.raw.length := by rw [holds.size]; exact firstInside
    have status := holds.statusAt_eq firstInside
    rw [freeFrom] at free
    rw [putAlong]
    cases isCell : cells first with
    | empty =>
      rw [isCell] at free status
      cases free
      simp only [status]
      rw [if_pos (.inl trivial), if_neg (by decide), writeSlot, if_pos bound, isCell]
      rfl
    | deleted =>
      rw [isCell] at free status
      cases free
      simp only [status]
      rw [if_pos (.inr trivial), if_pos trivial, writeSlot, if_pos bound, isCell]
      rfl
    | occupied other value =>
      rw [isCell] at free status
      simp only [status]
      rw [if_neg (by decide)]
      exact ih (fun other mem =>
        inside other (mem_cons_of_mem _ mem)) free

theorem Holds.put_eq (holds : Holds blake3 hmac table cells) (below : table.loadExceeded = false)
    (slot : SlotData) :
    ∃ index < table.capacity, freeFrom cells (table.probe blake3 slot.key) = some index ∧
      table.put blake3 hmac slot =
        (table.filled hmac index slot (cells index).isDeleted, .ok ()) ∧
      Holds blake3 hmac (table.filled hmac index slot (cells index).isDeleted)
        (Function.update cells index (cellOf slot)) := by
  have notFull : occupancy cells table.capacity < table.capacity := by
    rw [holds.counted]
    simp only [loadExceeded, decide_eq_false_iff_not, not_or] at below
    omega
  obtain ⟨position, inside, isFree⟩ := exists_free_of_occupancy_lt notFull
  have unoccupied : ∀ key value, cells position ≠ .occupied key value := by
    intro key value occupied
    rw [occupied] at isFree
    cases isFree
  obtain ⟨index, free⟩ := freeFrom_isSome (mem_probe blake3 slot.key inside)
    unoccupied
  obtain ⟨before, after, split, -, notOccupied⟩ := freeFrom_eq_some free
  have indexInside : index < table.capacity :=
    lt_of_mem_probe (by rw [split]; simp)
  have counted : occupancy (Function.update cells index (cellOf slot)) table.capacity =
      table.live + 1 := by
    have change := occupancy_update cells indexInside (cellOf slot)
    have was : (cells index).isOccupied = false := by
      cases isCell : cells index with
      | empty => rfl
      | deleted => rfl
      | occupied key value => exact absurd isCell (notOccupied key value)
    rw [was, holds.counted] at change
    simpa [cellOf, Cell.isOccupied] using change
  have unfolded : table.put blake3 hmac slot =
      table.putAlong hmac slot (table.probe blake3 slot.key) := by
    unfold VaultTable.put
    rw [if_neg (by simp [holds.healthy]), if_neg (by simp [below])]
  have shown : Shows hmac table (encodeSlot hmac table.macKey table.vaultId slot) (cellOf slot) :=
    rfl
  refine ⟨index, indexInside, free, ?_, ?_⟩
  · rw [unfolded, holds.putAlong_eq (fun _ => lt_of_mem_probe) free slot]
  · exact holds.replace indexInside shown _ (holds.reachable.insert free _) counted

theorem Holds.put (holds : Holds blake3 hmac table cells) (below : table.loadExceeded = false)
    (slot : SlotData) :
    ∃ index, freeFrom cells (table.probe blake3 slot.key) = some index ∧
      (table.put blake3 hmac slot).2 = .ok () ∧
      (table.put blake3 hmac slot).1.capacity = table.capacity ∧
      (table.put blake3 hmac slot).1.live + (table.put blake3 hmac slot).1.tombstones ≤
        table.live + table.tombstones + 1 ∧
      Holds blake3 hmac (table.put blake3 hmac slot).1
        (Function.update cells index (cellOf slot)) := by
  obtain ⟨index, -, free, result, after⟩ := holds.put_eq below slot
  rw [result]
  refine ⟨index, free, rfl, rfl, ?_, after⟩
  simp only [filled]
  omega

theorem verifyTombstone_tombstoneImage
    (found : table.raw[index]? = some (tombstoneImage hmac table.macKey table.vaultId)) :
    table.verifyTombstone hmac index = true := by
  have zeros : (((tombstoneImage hmac table.macKey table.vaultId).drop 2).take 54).all (· == 0) =
      true := by
    have body : (replicate 54 (0 : UInt8)).length = 54 := length_replicate
    rw [tombstoneImage, tombstoneBody, cons_append, cons_append, drop_succ_cons,
      drop_succ_cons, drop_zero, take_left' body]
    decide
  rw [verifyTombstone, found]
  exact decide_eq_true ⟨rfl, tombstoneImage_status, zeros, mac_matches (by decide)⟩

def buried (hmac : HmacSha256) (table : VaultTable) (index : Nat) : VaultTable :=
  { table with
    raw := table.raw.set index (tombstoneImage hmac table.macKey table.vaultId)
    live := table.live - 1
    tombstones := table.tombstones + 1 }

theorem Holds.verifyTombstone_buried (holds : Holds blake3 hmac table cells)
    (inside : index < table.capacity) : (table.buried hmac index).verifyTombstone hmac index := by
  apply verifyTombstone_tombstoneImage
  apply getElem?_set_self
  rw [holds.size]
  exact inside

theorem Holds.buried (holds : Holds blake3 hmac table cells) {value : Payload × Nat}
    (inside : index < table.capacity) (occupied : cells index = .occupied key value) :
    Holds blake3 hmac (table.buried hmac index) (Function.update cells index .deleted) := by
  have counted : occupancy (Function.update cells index .deleted) table.capacity =
      table.live - 1 := by
    have change := occupancy_update cells inside .deleted
    rw [occupied, holds.counted] at change
    simp only [Cell.isOccupied, if_true, Bool.false_eq_true, if_false] at change
    omega
  have shown : Shows hmac table (tombstoneImage hmac table.macKey table.vaultId) .deleted := rfl
  exact holds.replace inside shown _ (holds.reachable.delete index) counted

theorem Holds.destroy_found (holds : Holds blake3 hmac table cells)
    (found : findFrom cells key (table.probe blake3 key) = some index) :
    (table.destroy blake3 hmac key).2 = .ok () ∧
      Holds blake3 hmac (table.destroy blake3 hmac key).1
        (Function.update cells index .deleted) := by
  obtain ⟨onPath, value, occupied⟩ := findFrom_eq_some found
  have inside := lt_of_mem_probe onPath
  have bound : index < table.raw.length := by rw [holds.size]; exact inside
  have result : table.destroy blake3 hmac key = (table.buried hmac index, .ok ()) := by
    unfold destroy
    rw [if_neg (by simp [holds.healthy]), holds.find_eq, found]
    simp only
    rw [if_pos bound]
    exact if_pos (holds.verifyTombstone_buried inside)
  rw [result]
  exact ⟨rfl, holds.buried inside occupied⟩

theorem Holds.destroy_missing (holds : Holds blake3 hmac table cells)
    (missing : findFrom cells key (table.probe blake3 key) = none) :
    table.destroy blake3 hmac key = (table, .error .slotMissing) := by
  unfold destroy
  rw [if_neg (by simp [holds.healthy]), holds.find_eq, missing]

theorem holds_new (capacity : Nat) (vaultId : VaultId) (macKey : MacKey) :
    Holds blake3 hmac (new capacity vaultId macKey) fun _ => .empty where
  healthy := rfl
  size := length_replicate
  shows := by
    intro index slot found
    exact (mem_replicate.mp (mem_of_getElem? found)).2
  outside := fun _ _ => rfl
  reachable := fun _ _ _ occupied => nomatch occupied
  counted := by simp [occupancy, Cell.isOccupied, new]

end VaultTable

end Contextra.Erasure
