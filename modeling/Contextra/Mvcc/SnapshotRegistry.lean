import Contextra.Library.Run
import Contextra.Types

/-!
# The snapshot registry

The registrations of every pinned sequence, a list for each, and the published
minimum.  A guard gives its registration back by sequence, tenant and creation time;
when no registration fits, another one of the same sequence goes instead.
-/

namespace Contextra.Mvcc

open Contextra.Library
open Std (TreeMap)

/-- `u64::MAX`, the published minimum when nothing is registered. -/
def noSnapshot : Nat := 2 ^ 64 - 1

structure SnapshotMeta where
  tenant : Option TenantId
  createdAt : Nat
  deriving DecidableEq, Repr

/-- `Vec::swap_remove`: the last element takes the place of the removed one. -/
def swapRemove {α : Type} (values : List α) (position : Nat) : List α :=
  match values.getLast? with
  | some last => (values.set position last).dropLast
  | none => []

def releaseMeta (tenant : Option TenantId) (createdAt : Option Nat) (metas : List SnapshotMeta) :
    List SnapshotMeta :=
  match createdAt, tenant with
  | some time, _ =>
    match metas.findIdx? (fun entry =>
        entry.createdAt = time && (tenant.isNone || decide (entry.tenant = tenant))) with
    | some position => swapRemove metas position
    | none =>
      match metas.findIdx? (fun entry => entry.createdAt = time) with
      | some position => swapRemove metas position
      | none => metas.dropLast
  | none, some owner =>
    match metas.findIdx? (fun entry => entry.tenant = some owner) with
    | some position => swapRemove metas position
    | none => metas.dropLast
  | none, none => metas.dropLast

structure SnapshotRegistry where
  active : TreeMap Nat (List SnapshotMeta)
  minActiveSeqno : Nat

/-- The guard's own registration, as it keeps it for its release. -/
structure SnapshotGuard where
  seqNo : Nat
  createdAt : Nat
  tenant : Option TenantId
  deriving DecidableEq, Repr

def SnapshotGuard.entry (guard : SnapshotGuard) : SnapshotMeta := ⟨guard.tenant, guard.createdAt⟩

namespace SnapshotRegistry

def new : SnapshotRegistry := ⟨∅, noSnapshot⟩

/-- `update_min`: publish the first key of the map. -/
def updateMin (active : TreeMap Nat (List SnapshotMeta)) : SnapshotRegistry :=
  ⟨active, active.keys.head?.getD noSnapshot⟩

/-- `active.entry(seq_no).or_default().push(..)` and `update_min`. -/
def push (registry : SnapshotRegistry) (seqNo : Nat) (entry : SnapshotMeta) : SnapshotRegistry :=
  updateMin (registry.active.insert seqNo ((registry.active[seqNo]?).getD [] ++ [entry]))

/-- The body of `register_at` (no tenant) and of `register_for_tenant_at`. -/
def register (registry : SnapshotRegistry) (tenant : Option TenantId) (seqNo atNanos : Nat) :
    SnapshotRegistry × SnapshotGuard :=
  let raw := seqNo % tombstoneBit
  (registry.push raw ⟨tenant, atNanos⟩, ⟨raw, atNanos, tenant⟩)

def registerAt (registry : SnapshotRegistry) (seqNo atNanos : Nat) :
    SnapshotRegistry × SnapshotGuard :=
  registry.register none seqNo atNanos

def registerForTenantAt (registry : SnapshotRegistry) (tenant : TenantId) (seqNo atNanos : Nat) :
    SnapshotRegistry × SnapshotGuard :=
  registry.register (some tenant) seqNo atNanos

def pinAt (registry : SnapshotRegistry) (seqNo atNanos : Nat) : SnapshotRegistry :=
  registry.push (seqNo % tombstoneBit) ⟨none, atNanos⟩

def pinForTenantAt (registry : SnapshotRegistry) (tenant : TenantId) (seqNo atNanos : Nat) :
    SnapshotRegistry :=
  registry.push (seqNo % tombstoneBit) ⟨some tenant, atNanos⟩

def releaseForTenantAt (registry : SnapshotRegistry) (tenant : Option TenantId) (seqNo : Nat)
    (createdAt : Option Nat) : SnapshotRegistry :=
  let raw := seqNo % tombstoneBit
  match registry.active[raw]? with
  | some metas =>
    match releaseMeta tenant createdAt metas with
    | [] => updateMin (registry.active.erase raw)
    | left => updateMin (registry.active.insert raw left)
  | none => updateMin registry.active

/-- `release` without a creation time, the body of `unpin`. -/
def unpin (registry : SnapshotRegistry) (seqNo : Nat) : SnapshotRegistry :=
  registry.releaseForTenantAt none seqNo none

def dropGuard (registry : SnapshotRegistry) (guard : SnapshotGuard) : SnapshotRegistry :=
  registry.releaseForTenantAt guard.tenant guard.seqNo (some guard.createdAt)

/-- `retain` on every list; a sequence whose list becomes empty is removed. -/
def retain (registry : SnapshotRegistry) (keep : Nat → SnapshotMeta → Bool) : SnapshotRegistry :=
  updateMin (registry.active.filterMap fun seqNo metas =>
    match metas.filter (keep seqNo) with
    | [] => none
    | left => some left)

def revokes (start stop gatedSeq seqNo : Nat) : Bool :=
  decide (start ≤ seqNo) && decide (seqNo < stop) && decide (seqNo ≤ gatedSeq)

def revokeCovering (registry : SnapshotRegistry) (tenant : TenantId) (start stop gatedSeq : Nat) :
    SnapshotRegistry :=
  registry.retain fun seqNo entry =>
    !(revokes start stop gatedSeq seqNo && decide (entry.tenant = some tenant))

/-- Older than the limit; the subtraction saturates. -/
def expired (maxNanos nowNanos createdAt : Nat) : Bool := decide (maxNanos < nowNanos - createdAt)

def reapExpiredPinsAt (registry : SnapshotRegistry) (maxNanos nowNanos : Nat) : SnapshotRegistry :=
  registry.retain fun _ entry => !expired maxNanos nowNanos entry.createdAt

end SnapshotRegistry

/-- A guard that is alive; `lapsed` once its own registration was revoked or expired. -/
structure LiveGuard where
  guard : SnapshotGuard
  lapsed : Bool
  deriving DecidableEq, Repr

/-- The registry, the guards alive and the pinned sequences not unpinned yet. -/
structure Snapshots where
  registry : SnapshotRegistry
  guards : List LiveGuard
  pins : List Nat

namespace Snapshots

inductive Event where
  | register (tenant : Option TenantId) (seqNo atNanos : Nat)
  | pin (tenant : Option TenantId) (seqNo atNanos : Nat)
  | unpin (seqNo : Nat)
  | dropGuard (index : Nat)
  | revokeCovering (tenant : TenantId) (start stop gatedSeq : Nat)
  | reapExpiredPins (maxNanos nowNanos : Nat)
  deriving DecidableEq, Repr

def initial : Snapshots := ⟨.new, [], []⟩

def lapse (covered : SnapshotGuard → Bool) (guards : List LiveGuard) : List LiveGuard :=
  guards.map fun live => { live with lapsed := live.lapsed || covered live.guard }

/-- Only a pinned sequence is unpinned and only a guard that is alive is dropped. -/
def step (state : Snapshots) : Event → Option Snapshots
  | .register tenant seqNo atNanos =>
    let (registry, guard) :=
      match tenant with
      | none => state.registry.registerAt seqNo atNanos
      | some owner => state.registry.registerForTenantAt owner seqNo atNanos
    some { state with registry, guards := state.guards ++ [⟨guard, false⟩] }
  | .pin tenant seqNo atNanos =>
    let registry :=
      match tenant with
      | none => state.registry.pinAt seqNo atNanos
      | some owner => state.registry.pinForTenantAt owner seqNo atNanos
    some { state with registry, pins := state.pins ++ [seqNo % tombstoneBit] }
  | .unpin seqNo =>
    if seqNo % tombstoneBit ∈ state.pins then
      some { state with
        registry := state.registry.unpin seqNo
        pins := state.pins.erase (seqNo % tombstoneBit) }
    else none
  | .dropGuard index =>
    match state.guards[index]? with
    | some live =>
      some { state with
        registry := state.registry.dropGuard live.guard
        guards := state.guards.eraseIdx index }
    | none => none
  | .revokeCovering tenant start stop gatedSeq =>
    some { state with
      registry := state.registry.revokeCovering tenant start stop gatedSeq
      guards := lapse (fun guard => SnapshotRegistry.revokes start stop gatedSeq guard.seqNo &&
        decide (guard.tenant = some tenant)) state.guards }
  | .reapExpiredPins maxNanos nowNanos =>
    some { state with
      registry := state.registry.reapExpiredPinsAt maxNanos nowNanos
      guards := lapse (fun guard => SnapshotRegistry.expired maxNanos nowNanos guard.createdAt)
        state.guards }

end Snapshots

end Contextra.Mvcc
