import Contextra.Library.LruCache
import Contextra.Types

/-!
# Segments of a tenant

A tenant's segments lie in an LRU cache beside a map of their directives and two byte counters.
Instants and durations are natural numbers.
-/

namespace Contextra.KvCache

open Contextra.Library

inductive CacheDirective where
  | pin (ttl : Option Nat)
  | neverCache
  | auto
  | releaseAfterStep (stepId : Nat)
  deriving DecidableEq

/-- A segment with the reference counter that its guards share. -/
structure KvSegment where
  segmentId : Nat
  data : Bytes
  activeRefs : Nat
  deriving DecidableEq

def KvSegment.len (segment : KvSegment) : Nat := segment.data.length

structure SegmentMeta where
  directive : CacheDirective
  pinnedAt : Nat
  deriving DecidableEq

namespace SegmentMeta

/-- `matches!(directive, CacheDirective::Pin { ttl: None })` -/
def isUnlimited (record : SegmentMeta) : Bool := record.directive = .pin none

def isPinned (now : Nat) (record : SegmentMeta) : Bool :=
  match record.directive with
  | .pin none => true
  | .pin (some duration) => now < record.pinnedAt + duration
  | _ => false

end SegmentMeta

inductive KvError where
  | pinBudgetExceeded (message : String)
  deriving DecidableEq

def maxPinnedBytesPerTenant : Nat := 64 * 2 ^ 20

structure TenantState where
  tenantId : TenantId
  cache : LruCache Nat KvSegment
  totalBytes : Nat
  pinnedBytes : Nat
  segmentMeta : AList fun _ : Nat => SegmentMeta

abbrev Refs := Nat → Nat

/-- An order of eviction: attention scores, weighed against the time of the last use, sort the
candidates. -/
abbrev Ranking := { rank : List Nat → List Nat // ∀ ids, (rank ids).Perm ids }

/-- The order without attention scores. -/
def Ranking.lru : Ranking := ⟨id, fun _ => .refl _⟩

namespace TenantState

def new (tenantId : TenantId) (capacity : Nat) : TenantState := ⟨tenantId, .new capacity, 0, 0, ∅⟩

variable (state : TenantState)

def isUnlimited (id : Nat) : Bool := (state.segmentMeta.lookup id).any SegmentMeta.isUnlimited

def isProtected (refs : Refs) (now id : Nat) (segment : KvSegment) : Bool :=
  refs segment.activeRefs ≠ 0 || (state.segmentMeta.lookup id).any (SegmentMeta.isPinned now)

def remove (id : Nat) : Option KvSegment × TenantState :=
  match state.cache.pop id with
  | (some segment, cache) =>
    (some segment, { state with
      cache
      totalBytes := state.totalBytes - segment.len
      pinnedBytes :=
        if state.isUnlimited id then state.pinnedBytes - segment.len else state.pinnedBytes
      segmentMeta := state.segmentMeta.erase id })
  | (none, _) => (none, state)

/-- What may be evicted, from the segment that was not used for longest. -/
def unrefIds (refs : Refs) (now : Nat) : List Nat :=
  (state.cache.oldestFirst.filter fun entry =>
    !state.isProtected refs now entry.1 entry.2).map (·.1)

def popEvictionCandidate (refs : Refs) (now : Nat) (ranking : Ranking) :
    Option KvSegment × TenantState :=
  match state.unrefIds refs now with
  | [] => (none, state)
  | [id] => state.remove id
  | ids =>
    match ranking.val ids with
    | target :: _ => state.remove target
    | [] => (none, state)

/-- The segments of `insert_returning_evicted_with_directive` after room was made. -/
def pushSegment (now : Nat) (segment : KvSegment) (directive : CacheDirective) : TenantState :=
  let id := segment.segmentId
  let (old, cache) := state.cache.push id segment
  let freed :=
    match old with
    | some (_, old) =>
      { state with
        totalBytes := state.totalBytes - old.len
        pinnedBytes :=
          if state.isUnlimited id then state.pinnedBytes - old.len else state.pinnedBytes
        segmentMeta := state.segmentMeta.erase id }
    | none => state
  { freed with
    cache
    totalBytes := freed.totalBytes + segment.len
    pinnedBytes :=
      if directive = .pin none then freed.pinnedBytes + segment.len else freed.pinnedBytes
    segmentMeta := freed.segmentMeta.insert id ⟨directive, now⟩ }

def isFull : Bool := state.cache.cap ≤ state.cache.len

/-- The start of `insert_returning_evicted_with_directive`: a full cache evicts a segment, or
grows where every segment is protected. -/
def makeRoom (refs : Refs) (now : Nat) (ranking : Ranking) : Option KvSegment × TenantState :=
  let (evicted, popped) :=
    if state.isFull then state.popEvictionCandidate refs now ranking else (none, state)
  if popped.isFull && evicted.isNone then
    (evicted, { popped with cache := popped.cache.resize (popped.cache.cap + 1) })
  else (evicted, popped)

def insertReturningEvictedWithDirective (refs : Refs) (now : Nat) (ranking : Ranking)
    (segment : KvSegment) (directive : CacheDirective) :
    Except KvError (Option KvSegment × TenantState) :=
  if directive = .pin none ∧ maxPinnedBytesPerTenant < state.pinnedBytes + segment.len then
    .error (.pinBudgetExceeded ("Tenant TenantId(" ++ toString state.tenantId ++ ") requested " ++
      toString segment.len ++ " pinned bytes, exceeding limit of " ++
      toString maxPinnedBytesPerTenant ++ " bytes (current pinned: " ++
      toString state.pinnedBytes ++ ")"))
  else
    let (evicted, roomy) := state.makeRoom refs now ranking
    .ok (evicted, roomy.pushSegment now segment directive)

def get (id : Nat) : Option KvSegment × TenantState :=
  let (found, cache) := state.cache.get id
  (found, { state with cache })

def removeAll (ids : List Nat) : TenantState :=
  ids.foldl (fun state id => (state.remove id).2) state

def releaseStep (stepId : Nat) : TenantState :=
  state.removeAll ((state.segmentMeta.entries.filter fun entry =>
    entry.2.directive = .releaseAfterStep stepId).map (·.1))

/-- The bytes that count against the pin budget. -/
def pinnedWeight (id : Nat) (segment : KvSegment) : Nat :=
  if state.isUnlimited id then segment.len else 0

/-- The counters are the sums over the segments, and each segment has its directive and stands
under its own id. -/
structure Sound : Prop where
  total : state.totalBytes = sumOf (fun _ segment => segment.len) state.cache.entries
  pinned : state.pinnedBytes = sumOf state.pinnedWeight state.cache.entries
  budget : state.pinnedBytes ≤ maxPinnedBytesPerTenant
  sameIds : ∀ id, (state.segmentMeta.lookup id).isSome = (state.cache.entries.lookup id).isSome
  keyed : ∀ id segment, state.cache.entries.lookup id = some segment → segment.segmentId = id
  room : state.cache.len ≤ state.cache.cap

end TenantState

end Contextra.KvCache
