import Contextra.Mvcc.TxBufferReaping

/-!
# The floor of garbage collection

The reaper walks through the registered transactions only, and a read registers none.  When every
transaction has expired, it frees the floor just when every transaction that has recorded a read
is registered.
-/

namespace Contextra.Mvcc

open Library List

variable {Payload : Type} {lastShard : Nat}

/-- Each transaction was registered before a time, and each read set is of a transaction whose
place is here. -/
structure TxShard.Dated (shard : TxShard Payload) (limit : Nat) (isHere : TxId → Prop) : Prop where
  registered : ∀ tx entry, shard.ops.lookup tx = some entry → entry.2 < limit
  readSets : ∀ tx ∈ shard.readSets, isHere tx

namespace TxShard.Dated

variable {shard : TxShard Payload} {limit : Nat} {isHere : TxId → Prop}

theorem mem_orInsert {Value : Type} {map : TxMap Value} {tx other : TxId} {value : Value}
    (isEntry : other ∈ orInsert map tx value) : other = tx ∨ other ∈ map := by
  rw [orInsert] at isEntry
  split at isEntry
  · exact Or.inr isEntry
  · exact (AList.mem_insert _).mp isEntry

variable {now : Nat}

theorem entryOf (dated : shard.Dated limit isHere) (isPast : now < limit)
    (tx : TxId) : (shard.entryOf tx now).2 < limit := by
  rw [TxShard.entryOf]
  cases found : shard.ops.lookup tx with
  | none => exact isPast
  | some entry => exact dated.registered tx entry found

theorem touch (dated : shard.Dated limit isHere) (tx : TxId) : (shard.touch tx).Dated limit isHere :=
  ⟨dated.registered, dated.readSets⟩

theorem register (dated : shard.Dated limit isHere) (isPast : now < limit)
    (tx : TxId) : (shard.register tx now).Dated limit isHere where
  registered := by
    intro other entry found
    rw [TxShard.register, lookup_orInsert] at found
    split at found
    · cases found
      exact dated.entryOf isPast tx
    · exact dated.registered other entry found
  readSets := dated.readSets

theorem push [StagedOpSize Payload] (dated : shard.Dated limit isHere)
    (isPast : now < limit) (tx : TxId) (ops : List (IndexOp Payload)) :
    (shard.push tx ops now).Dated limit isHere where
  registered := by
    intro other entry found
    rw [TxShard.push] at found
    by_cases same : other = tx
    · rw [same, AList.lookup_insert] at found
      cases found
      exact dated.entryOf isPast tx
    · rw [AList.lookup_insert_ne same] at found
      exact dated.registered other entry found
  readSets := dated.readSets

theorem setReads (dated : shard.Dated limit isHere) {readSets : TxMap TrackedReads}
    (here : ∀ tx ∈ readSets, isHere tx) : { shard with readSets := readSets }.Dated limit isHere :=
  ⟨dated.registered, here⟩

end TxShard.Dated

namespace TxBuffer

variable {buffer after : TxBuffer Payload lastShard} {limit : Nat}

def Dated (buffer : TxBuffer Payload lastShard) (limit : Nat) : Prop :=
  ∀ index, (buffer.shards index).Dated limit fun tx => buffer.shardIdx tx = index

theorem dated_new (config : TxBufferConfig) (keyHash : Bytes → Nat) :
    (new lastShard config keyHash : TxBuffer Payload lastShard).Dated limit := by
  intro index
  constructor
  · intro tx entry impossible
    cases impossible
  · intro tx impossible
    exact absurd impossible (AList.notMem_empty tx)

namespace Dated

theorem setShard (dated : buffer.Dated limit) {index : Fin (lastShard + 1)}
    {shard : TxShard Payload} (isDated : shard.Dated limit fun tx => buffer.shardIdx tx = index) :
    (buffer.setShard index shard).Dated limit := by
  intro other
  rw [shards_setShard]
  by_cases same : other = index
  · rw [if_pos same, same]
    exact isDated
  · rw [if_neg same]
    exact dated other

theorem setReads (dated : buffer.Dated limit) (tx : TxId) (reads : TrackedReads) :
    (buffer.setReads tx reads).Dated limit := by
  have isDated := dated (buffer.shardIdx tx)
  apply dated.setShard
  apply isDated.setReads
  intro other isEntry
  rcases (AList.mem_insert _).mp isEntry with rfl | before
  · rfl
  · exact isDated.readSets other before

theorem beginAt (dated : buffer.Dated limit) {atNanos : Nat} (isPast : atNanos < limit)
    (tx : TxId) : (buffer.beginAt tx atNanos).Dated limit := by
  have isDated := dated (buffer.shardIdx tx)
  apply dated.setShard
  apply (isDated.register isPast tx).setReads
  intro other isEntry
  rcases TxShard.Dated.mem_orInsert isEntry with rfl | before
  · rfl
  · exact isDated.readSets other before

theorem stageMany [StagedOpSize Payload] (dated : buffer.Dated limit) {now : Nat}
    (isPast : now < limit) (tx : TxId) (ops : List (IndexOp Payload)) :
    (buffer.stageMany tx ops now).2.Dated limit := by
  have isDated := dated (buffer.shardIdx tx)
  rw [TxBuffer.stageMany]
  dsimp only
  split
  · exact dated.setShard (isDated.touch tx)
  · split
    · exact dated.setShard (isDated.touch tx)
    · split
      · exact dated.setShard (isDated.register isPast tx)
      · exact dated.setShard (isDated.push isPast tx ops)

theorem released (dated : buffer.Dated limit) {gone : Fin (lastShard + 1) → List TxId}
    (released : Released buffer after gone) : after.Dated limit := by
  intro index
  constructor
  · intro tx entry found
    rw [released.ops] at found
    split at found
    · cases found
    · exact (dated index).registered tx entry found
  · intro tx isEntry
    have isSome := AList.lookup_isSome.mpr isEntry
    rw [released.readSets] at isSome
    split at isSome
    · cases isSome
    · exact (dated index).readSets tx (AList.lookup_isSome.mp isSome)

theorem perform [StagedOpSize Payload] (dated : buffer.Dated limit)
    {call : TxCall Payload lastShard} (isPast : call.time < limit) :
    (buffer.perform call).Dated limit := by
  cases call with
  | beginAt tx atNanos => exact dated.beginAt isPast tx
  | registerRead tx key snapshotSeq now => exact dated.setReads tx _
  | tryRegisterRead tx key snapshotSeq maxKeys now =>
    rw [TxBuffer.perform, tryRegisterRead]
    split
    · exact dated.setReads tx _
    · exact dated.setReads tx _
  | stage tx op now => exact dated.stageMany isPast tx [op]
  | stageMany tx ops now => exact dated.stageMany isPast tx ops
  | drain tx now => exact dated.released (Released.releaseFrom buffer _ tx)
  | discard tx now => exact dated.released (Released.releaseFrom buffer _ tx)
  | reapOrphansBounded call =>
    obtain ⟨expired, reaps⟩ := reapOrphans_reaps call buffer
    exact dated.released reaps.toReleased

theorem performAll [StagedOpSize Payload] (dated : buffer.Dated limit)
    {calls : List (TxCall Payload lastShard)} (past : ∀ call ∈ calls, call.time < limit) :
    (buffer.performAll calls).Dated limit := by
  induction calls generalizing buffer with
  | nil => exact dated
  | cons call calls ih =>
    apply ih
    · exact dated.perform (past call mem_cons_self)
    · exact fun later isLater => past later (mem_cons_of_mem call isLater)

end Dated

theorem stageMany_config [StagedOpSize Payload] (buffer : TxBuffer Payload lastShard) (tx : TxId)
    (ops : List (IndexOp Payload)) (now : Nat) :
    (buffer.stageMany tx ops now).2.config = buffer.config := by
  rw [stageMany]
  dsimp only
  split
  · rfl
  · split
    · rfl
    · split <;> rfl

theorem perform_config [StagedOpSize Payload] (buffer : TxBuffer Payload lastShard)
    (call : TxCall Payload lastShard) : (buffer.perform call).config = buffer.config := by
  cases call with
  | beginAt tx atNanos => rfl
  | registerRead tx key snapshotSeq now => rfl
  | tryRegisterRead tx key snapshotSeq maxKeys now =>
    rw [perform, tryRegisterRead]
    split <;> rfl
  | stage tx op now => exact stageMany_config buffer tx [op] now
  | stageMany tx ops now => exact stageMany_config buffer tx ops now
  | drain tx now => exact (Released.releaseFrom buffer _ tx).config
  | discard tx now => exact (Released.releaseFrom buffer _ tx).config
  | reapOrphansBounded call =>
    obtain ⟨expired, reaps⟩ := reapOrphans_reaps call buffer
    exact reaps.config

theorem performAll_config [StagedOpSize Payload] (calls : List (TxCall Payload lastShard))
    (buffer : TxBuffer Payload lastShard) : (buffer.performAll calls).config = buffer.config := by
  induction calls generalizing buffer with
  | nil => rfl
  | cons call calls ih =>
    exact (ih _).trans (perform_config buffer call)

def ReadersRegistered (buffer : TxBuffer Payload lastShard) : Prop :=
  ∀ tx, (buffer.readSetOf tx).minSnapshotSeq.isSome = true → buffer.hasTx tx

theorem readSetOf_of_lookup (dated : buffer.Dated limit) {index : Fin (lastShard + 1)} {tx : TxId}
    {reads : TrackedReads} (found : (buffer.shards index).readSets.lookup tx = some reads) :
    buffer.readSetOf tx = reads := by
  have isEntry : tx ∈ (buffer.shards index).readSets := AList.lookup_isSome.mp (by rw [found]; rfl)
  have isHere := (dated index).readSets tx isEntry
  rw [readSetOf, shardOf, isHere, found]
  rfl

theorem minReadSnapshot_eq_none (dated : buffer.Dated limit) :
    buffer.minReadSnapshot = none ↔ ∀ tx, (buffer.readSetOf tx).minSnapshotSeq = none := by
  rw [minReadSnapshot, min?_eq_none_iff, flatMap_eq_nil_iff]
  constructor
  · intro free tx
    have noSnapshot := filterMap_eq_nil_iff.mp
      (free (buffer.shardIdx tx) (mem_finRange _))
    rw [readSetOf, shardOf]
    cases found : (buffer.shards (buffer.shardIdx tx)).readSets.lookup tx with
    | none => rfl
    | some reads => exact noSnapshot ⟨tx, reads⟩ (AList.mem_lookup_iff.mp found)
  · intro free index _
    apply filterMap_eq_nil_iff.mpr
    intro entry isEntry
    rw [← readSetOf_of_lookup dated (AList.mem_lookup_iff.mpr isEntry)]
    exact free entry.1

section Reaped

variable {call : ReapCall lastShard} {expired : Fin (lastShard + 1) → List TxId}

theorem Dated.isOrphanAt (dated : buffer.Dated (call.now - buffer.config.txTimeout))
    {index : Fin (lastShard + 1)} {tx : TxId} (isEntry : tx ∈ (buffer.shards index).ops) :
    buffer.IsOrphanAt call.now index tx := by
  obtain ⟨entry, found⟩ := Option.isSome_iff_exists.mp (AList.lookup_isSome.mpr isEntry)
  have isOld := (dated index).registered tx entry found
  rw [IsOrphanAt, found]
  apply decide_eq_true
  apply (Nat.min_le_left _ _).trans_lt
  omega

theorem Reaps.mem_iff (dated : buffer.Dated (call.now - buffer.config.txTimeout))
    (all : call.max = none) (free : ∀ index, call.contended index = false)
    (reaps : Reaps call (finRange (lastShard + 1)) buffer after expired)
    (index : Fin (lastShard + 1)) (tx : TxId) :
    tx ∈ expired index ↔ tx ∈ (buffer.shards index).ops := by
  constructor
  · intro isExpired
    exact (reaps.orphans index tx isExpired).2.2.mem_ops
  · intro isEntry
    apply reaps.complete all index (mem_finRange index) (free index) tx
    exact dated.isOrphanAt isEntry

theorem Reaps.isEmpty (taken : ∀ index tx, tx ∈ expired index ↔ tx ∈ (buffer.shards index).ops)
    (reaps : Reaps call (finRange (lastShard + 1)) buffer after expired) : after.isEmpty := by
  intro index
  apply AList.ext
  apply eq_nil_iff_forall_not_mem.mpr
  intro entry isEntry
  have found : (after.shards index).ops.lookup entry.1 = some entry.2 :=
    AList.mem_lookup_iff.mpr isEntry
  rw [reaps.ops] at found
  split at found
  · cases found
  · rename_i stays
    apply stays ((taken index entry.1).mpr _)
    exact AList.lookup_isSome.mp (by rw [found]; rfl)

theorem Reaps.readSetOf (taken : ∀ index tx, tx ∈ expired index ↔ tx ∈ (buffer.shards index).ops)
    (reaps : Reaps call (finRange (lastShard + 1)) buffer after expired) (tx : TxId) :
    after.readSetOf tx = if buffer.hasTx tx then .empty else buffer.readSetOf tx := by
  have found : (after.shardOf tx).readSets.lookup tx =
      if tx ∈ expired (buffer.shardIdx tx) then none else (buffer.shardOf tx).readSets.lookup tx :=
    reaps.readSets _ tx
  rw [TxBuffer.readSetOf, found, if_congr (taken _ tx) rfl rfl]
  by_cases isRegistered : buffer.hasTx tx
  · rw [if_pos isRegistered]
    exact if_pos isRegistered ▸ rfl
  · rw [if_neg isRegistered]
    exact if_neg isRegistered ▸ rfl

end Reaped

/-- After every call has timed out, the reaper leaves no transaction; and it frees the floor just
when the transactions with reads are registered. -/
theorem reap_freesFloor_iff [StagedOpSize Payload] {config : TxBufferConfig}
    {keyHash : Bytes → Nat} {calls : List (TxCall Payload lastShard)} {call : ReapCall lastShard}
    (all : call.max = none) (free : ∀ index, call.contended index = false)
    (later : ∀ earlier ∈ calls, earlier.time + config.txTimeout < call.now) :
    ((((new lastShard config keyHash).performAll calls).reapOrphansBoundedAt call).2.isEmpty ∧
      (((new lastShard config keyHash).performAll calls).reapOrphansBoundedAt call).2.minReadSnapshot
        = none) ↔
      ((new lastShard config keyHash).performAll calls).ReadersRegistered := by
  have sameConfig : ((new lastShard config keyHash).performAll calls).config = config :=
    performAll_config calls _
  have dated : ((new lastShard config keyHash).performAll calls).Dated
      (call.now - ((new lastShard config keyHash).performAll calls).config.txTimeout) := by
    rw [sameConfig]
    exact (dated_new config keyHash).performAll fun earlier isEarlier =>
      Nat.lt_sub_of_add_lt (later earlier isEarlier)
  generalize (new lastShard config keyHash).performAll calls = buffer at dated
  obtain ⟨expired, reaps⟩ := reapOrphans_reaps call buffer
  have taken := reaps.mem_iff dated all free
  rw [minReadSnapshot_eq_none (dated.released reaps.toReleased)]
  constructor
  · rintro ⟨_, noSnapshot⟩ tx hasRead
    by_contra unregistered
    have stays := reaps.readSetOf taken tx
    rw [if_neg unregistered] at stays
    rw [← stays, noSnapshot tx] at hasRead
    cases hasRead
  · intro registered
    refine ⟨reaps.isEmpty taken, fun tx => ?_⟩
    rw [reaps.readSetOf taken]
    by_cases isRegistered : buffer.hasTx tx
    · rw [if_pos isRegistered]
      rfl
    · rw [if_neg isRegistered]
      exact Option.not_isSome_iff_eq_none.mp (mt (registered tx) isRegistered)

/-- The reaper takes every orphan. -/
def reapEvery (now : Nat) : ReapCall 0 :=
  ⟨none, now, fun _ => false, fun _ => ⟨id, fun _ => .rfl⟩⟩

def begunRead : TxBuffer (Bytes × Bytes) 0 :=
  (new 0 ⟨30, 2, 100, 1000⟩ fun _ => 0).performAll [.beginAt 1 0, .registerRead 1 [7] 5 1]

theorem reap_freesFloor_begun :
    ((begunRead.reapOrphansBoundedAt (reapEvery 40)).2.isEmpty ∧
      (begunRead.reapOrphansBoundedAt (reapEvery 40)).2.minReadSnapshot = none) ↔
      begunRead.ReadersRegistered :=
  reap_freesFloor_iff rfl (fun _ => rfl) (by decide)

def bareRead : TxBuffer (Bytes × Bytes) 0 :=
  (new 0 ⟨30, 2, 100, 1000⟩ fun _ => 0).performAll [.registerRead 1 [7] 5 1]

theorem bareRead_keepsFloor :
    ¬ ((bareRead.reapOrphansBoundedAt (reapEvery 40)).2.isEmpty ∧
      (bareRead.reapOrphansBoundedAt (reapEvery 40)).2.minReadSnapshot = none) := by
  rintro ⟨_, isFree⟩
  have isHeld : (bareRead.reapOrphansBoundedAt (reapEvery 40)).2.minReadSnapshot = some 5 := by
    decide +kernel
  rw [isFree] at isHeld
  cases isHeld

end TxBuffer

end Contextra.Mvcc
