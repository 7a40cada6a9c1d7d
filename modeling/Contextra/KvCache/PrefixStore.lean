import Contextra.KvCache.RadixTree
import Contextra.Library.LruCache
import Contextra.Types

/-!
# Prefix stores

Each tenant has a partition for each prefix key: a tree from token sequences to group ids, the
groups, and their bytes.  A prefix key stands for any type whose equality is lawful; that of the
source is so for RoPE numbers other than NaN and zero.
-/

namespace Contextra.KvCache

open Contextra.Library

abbrev Token := UInt32

structure KvBlock where
  blockId : Nat
  data : Bytes
  deriving DecidableEq

structure BlockGroup where
  tokens : List Token
  blocks : List KvBlock
  bytes : Nat
  tick : Nat
  deriving DecidableEq

structure Partition where
  tree : RadixNodes Token
  groups : AList fun _ : Nat => BlockGroup
  totalBytes : Nat

inductive PrefixError where
  | invalidInput (message : String)
  | policyViolation (message : String)
  deriving DecidableEq

structure KvPrefixHit where
  matchedTokens : Nat
  blocks : List KvBlock
  deriving DecidableEq

def bytesOf (blocks : List KvBlock) : Nat := (blocks.map fun block => block.data.length).sum

namespace Partition

def new : Partition := ⟨.nil, ∅, 0⟩

variable (partition : Partition)

/-- `PrefixRadixTree::remove`, whose node keeps its place. -/
def removeTokens (tokens : List Token) : Option Nat × Partition :=
  if tokens = [] then (none, partition)
  else
    let (removed, tree) := partition.tree.removeFromVec tokens
    (removed, { partition with tree })

/-- A group that leaves the group map and the byte total. -/
def removeGroup (groupId : Nat) : Partition :=
  match partition.groups.lookup groupId with
  | some group =>
    { partition with
      groups := partition.groups.erase groupId
      totalBytes := partition.totalBytes - group.bytes }
  | none => partition

def putGroup (groupId tick : Nat) (tokens : List Token) (blocks : List KvBlock) : Partition :=
  let (old, without) := partition.removeTokens tokens
  let cleaned :=
    match old with
    | some oldId => without.removeGroup oldId
    | none => without
  { tree := cleaned.tree.insertIntoVec groupId tokens
    groups := cleaned.groups.insert groupId ⟨tokens, blocks, bytesOf blocks, tick⟩
    totalBytes := cleaned.totalBytes + bytesOf blocks }

def evictGroup (groupId : Nat) : Partition :=
  match partition.groups.lookup groupId with
  | some group => ((partition.removeGroup groupId).removeTokens group.tokens).2
  | none => partition

/-- The groups whose tokens start with a scratchpad's prefix. -/
def startingWith (start : List Token) : List Nat :=
  (partition.groups.entries.filter fun entry => start.isPrefixOf entry.2.tokens).map (·.1)

end Partition

abbrev Partitions (κ : Type) [DecidableEq κ] := AList fun _ : TenantId × κ => Partition

structure PrefixStore (κ : Type) [DecidableEq κ] where
  partitions : Partitions κ
  byteBudgetPerTenant : Nat
  reusePolicy : KvReusePolicy
  nextTick : Nat
  nextGroupId : Nat

namespace Partitions

variable {κ : Type} [DecidableEq κ] (partitions : Partitions κ)

def keep (key : TenantId × κ) (partition : Partition) : Partitions κ :=
  if partition.groups.entries = [] then partitions.erase key else partitions.insert key partition

def tenantBytes (tenant : TenantId) : Nat :=
  sumOf (fun key partition => if key.1 = tenant then partition.totalBytes else 0) partitions

def groupsOf (tenant : TenantId) : List (κ × Nat × BlockGroup) :=
  (partitions.entries.filter fun entry => entry.1.1 = tenant).flatMap fun entry =>
    entry.2.groups.entries.map fun group => (entry.1.2, group.1, group.2)

def isOlder (group other : κ × Nat × BlockGroup) : Bool :=
  group.2.2.tick < other.2.2.tick || (group.2.2.tick = other.2.2.tick && group.2.1 < other.2.1)

def oldestOf : List (κ × Nat × BlockGroup) → Option (κ × Nat × BlockGroup)
  | [] => none
  | group :: groups =>
    some (groups.foldl (fun best group => if isOlder group best then group else best) group)

def evictOne (tenant : TenantId) (key : κ) (groupId : Nat) : Partitions κ :=
  match partitions.lookup (tenant, key) with
  | some partition => keep partitions (tenant, key) (partition.evictGroup groupId)
  | none => partitions

/-- The loop of `evict_to_budget_internal`, for at most `fuel` groups. -/
def evictToBudget (tenant : TenantId) (budget : Nat) : Nat → Partitions κ → Partitions κ
  | 0, partitions => partitions
  | fuel + 1, partitions =>
    if tenantBytes partitions tenant ≤ budget then partitions
    else
      match oldestOf (groupsOf partitions tenant) with
      | some (key, groupId, _) =>
        evictToBudget tenant budget fuel (evictOne partitions tenant key groupId)
      | none => partitions

def invalidateIn (start : List Token) (key : TenantId × κ) : Nat × Partitions κ :=
  match partitions.lookup key with
  | some partition =>
    let ids := partition.startingWith start
    (ids.length, keep partitions key (ids.foldl Partition.evictGroup partition))
  | none => (0, partitions)

end Partitions

namespace PrefixStore

variable {κ : Type} [DecidableEq κ] (store : PrefixStore κ)

def new (byteBudgetPerTenant : Nat) (reusePolicy : KvReusePolicy) : PrefixStore κ :=
  ⟨∅, byteBudgetPerTenant, reusePolicy, 1, 1⟩

def lookup (tenant : TenantId) (key : κ) (tokens : List Token) :
    Option KvPrefixHit × PrefixStore κ :=
  if tokens = [] then (none, store)
  else
    match store.partitions.lookup (tenant, key) with
    | none => (none, store)
    | some partition =>
      match partition.tree.findLongestPrefix tokens store.reusePolicy with
      | none => (none, store)
      | some found =>
        match partition.groups.lookup found.blockId with
        | none => (none, store)
        | some group =>
          (some ⟨found.matchedLen, group.blocks⟩,
            { store with
              partitions := store.partitions.insert (tenant, key)
                { partition with
                  groups := partition.groups.insert found.blockId
                    { group with tick := store.nextTick } }
              nextTick := store.nextTick + 1 })

/-- The number of all groups, which bounds the evictions of an insertion. -/
def groupCount (partitions : Partitions κ) : Nat :=
  sumOf (fun _ partition => partition.groups.entries.length) partitions

def insert (tenant : TenantId) (key : κ) (tokens : List Token) (blocks : List KvBlock) :
    Except PrefixError (PrefixStore κ) :=
  if tokens = [] then .error (.invalidInput "Cannot insert with empty tokens")
  else if blocks = [] then .error (.invalidInput "Cannot insert with empty blocks")
  else if store.byteBudgetPerTenant < bytesOf blocks then
    .error (.policyViolation ("Block group size (" ++ toString (bytesOf blocks) ++
      " bytes) exceeds tenant byte budget (" ++ toString store.byteBudgetPerTenant ++ " bytes)"))
  else
    let partition := (store.partitions.lookup (tenant, key)).getD .new
    let partitions := store.partitions.insert (tenant, key)
      (partition.putGroup store.nextGroupId store.nextTick tokens blocks)
    .ok { store with
      partitions := Partitions.evictToBudget tenant store.byteBudgetPerTenant
        (groupCount partitions) partitions
      nextTick := store.nextTick + 1
      nextGroupId := store.nextGroupId + 1 }

/-- The number of removed blocks, and the store without the partition. -/
def evict (tenant : TenantId) (key : κ) : Nat × PrefixStore κ :=
  match store.partitions.lookup (tenant, key) with
  | some partition =>
    (sumOf (fun _ group => group.blocks.length) partition.groups,
      { store with partitions := store.partitions.erase (tenant, key) })
  | none => (0, store)

/-- The number of invalidated groups, and the store without them. -/
def invalidatePrefixScopeKeys (tenant : TenantId) (start : List Token) (keys : List κ) :
    Nat × PrefixStore κ :=
  if start = [] then (0, store)
  else
    let targets :=
      if keys = [] then (store.partitions.keys.filter fun key => key.1 = tenant).map (·.2) else keys
    let (count, partitions) := targets.foldl
      (fun (count, partitions) key =>
        let (more, partitions) := Partitions.invalidateIn partitions start (tenant, key)
        (count + more, partitions))
      (0, store.partitions)
    (count, { store with partitions })

end PrefixStore

end Contextra.KvCache
