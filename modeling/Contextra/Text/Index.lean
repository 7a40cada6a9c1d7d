import Contextra.Library.Bytes
import Contextra.Library.Masses
import Contextra.Library.StagedMap
import Contextra.Text.CompoundSplitter
import Contextra.Text.PostingCodec
import Contextra.Types

/-!
# The inverted index

The index of a namespace over a storage with transactions.  Writes are staged and reads see what is
committed; the resident posting lists and the statistics are kept beside the storage.
-/

namespace Contextra.Text

open Contextra.Library

/-- The part of a `StorageEngine` that the index uses. -/
structure Storage where
  committed : SortedMap Key Bytes
  staged : TxId → Writes Key Bytes

namespace Storage

def new : Storage := ⟨.empty, fun _ => []⟩

variable (storage : Storage)

def get (key : Key) : Option Bytes := storage.committed.lookup key

def scanPrefix (start : Key) : List (Key × Bytes) :=
  storage.committed.entries.filter fun entry => start.isPrefixOf entry.1

def stage (tx : TxId) (key : Key) (value : Option Bytes) : Storage :=
  { storage with staged := Function.update storage.staged tx (storage.staged tx ++ [(key, value)]) }

def put (tx : TxId) (key : Key) (value : Bytes) : Storage := storage.stage tx key (some value)

def delete (tx : TxId) (key : Key) : Storage := storage.stage tx key none

def write (committed : SortedMap Key Bytes) (entry : Key × Option Bytes) : SortedMap Key Bytes :=
  match entry.2 with
  | some value => committed.insert entry.1 value
  | none => committed.erase entry.1

def commit (tx : TxId) : Storage where
  committed := (storage.staged tx).foldl write storage.committed
  staged := Function.update storage.staged tx []

def rollback (tx : TxId) : Storage :=
  { storage with staged := Function.update storage.staged tx [] }

end Storage

structure TextIndexMetadata where
  totalDocs : U64
  totalTokens : U64
  avgDocLenX1000 : U64
  deriving DecidableEq, Repr

/-- The tokenizer, the serializer and the average of the lengths. -/
structure TextEnv where
  tokenize : List Char → List Key
  serializeTerms : List Key → Bytes
  deserializeTerms : Bytes → Except Failure (List Key)
  deserializePostings : Bytes → Except Failure PostingList
  serializeMetadata : TextIndexMetadata → Bytes
  averageLen : U64 → U64 → U64

/-- The sums stay far inside `i64`: a document changes them by less than `2 ^ 32`. -/
structure StagedStatsChange where
  docsDelta : Int
  tokensDelta : Int
  deriving DecidableEq, Repr

def StagedStatsChange.add (entry change : StagedStatsChange) : StagedStatsChange where
  docsDelta := entry.docsDelta + change.docsDelta
  tokensDelta := entry.tokensDelta + change.tokensDelta

structure InvertedIndex where
  root : Key
  storage : Storage
  totalDocs : U64
  totalTokens : U64
  avgDocLenX1000 : U64
  stagedStats : AList fun _ : TxId => StagedStatsChange
  /-- The lists of `ResidentPostingIndex`. -/
  resident : Key → Option PostingList

inductive IndexError where
  | invalidInput (message : String)
  | codec (failure : Failure)
  deriving DecidableEq, Repr

def maxTextBytes : Nat := 10 * 1024 * 1024

def maxStagedTransactions : Nat := 10000

/-- `u32::to_le_bytes` -/
def u32Bytes (value : U32) : Bytes := toLeBytes 4 value

/-- A value of four bytes, as `u32::from_le_bytes` reads it. -/
def readU32 (bytes : Bytes) : Option U32 :=
  if four : bytes.length = 4 then
    some ⟨fromLeBytes bytes, by
      have bound := fromLeBytes_lt bytes
      rw [four] at bound
      exact bound⟩
  else none

theorem readU32_u32Bytes (value : U32) : readU32 (u32Bytes value) = some value := by
  have four : (u32Bytes value).length = 4 := length_toLeBytes 4 value
  rw [readU32, dif_pos four]
  congr 1
  exact Fin.ext (fromLeBytes_toLeBytes value.isLt)

def termFrequencies (tokens : List Key) : List (Key × U32) :=
  (tokens.dedup.insertionSort (· ≤ ·)).map fun term => (term, Fin.ofNat (2 ^ 32) (tokens.count term))

namespace InvertedIndex

def new (root : Key) : InvertedIndex where
  root
  storage := .new
  totalDocs := 0
  totalTokens := 0
  avgDocLenX1000 := 0
  stagedStats := ∅
  resident := fun _ => none

variable (env : TextEnv) (index : InvertedIndex)

def get (key : Key) : Option Bytes := index.storage.get key

def put (tx : TxId) (key : Key) (value : Bytes) : InvertedIndex :=
  { index with storage := index.storage.put tx key value }

def delete (tx : TxId) (key : Key) : InvertedIndex :=
  { index with storage := index.storage.delete tx key }

def metaKey : Key := index.root ++ "meta:stats".toList

def scannedPosting (start : Key) (entry : Key × Bytes) : Option Posting := do
  let docId ← parseDocId (entry.1.drop start.length)
  let tf ← readU32 entry.2
  let docLen := ((index.get (keyWithId index.root "dl:" docId)).bind readU32).getD 0
  some ⟨docId, tf, docLen⟩

def storedList (term : Key) : PostingList :=
  let scanned := PostingList.new <|
    ((index.storage.scanPrefix (keyTermPrefix index.root term)).filterMap
      (index.scannedPosting (keyTermPrefix index.root term))).insertionSort
        fun left right => left.docId ≤ right.docId
  match index.get (keyBatchPostingList index.root term) with
  | some bytes =>
    match decodeCompact env.deserializePostings bytes with
    | .ok list => list
    | .error _ => scanned
  | none => scanned

def setResident (term : Key) (list : Option PostingList) : InvertedIndex :=
  { index with resident := Function.update index.resident term list }

def ensureTermLoaded (term : Key) : InvertedIndex :=
  match index.resident term with
  | some _ => index
  | none => index.setResident term (some (index.storedList env term))

/-- `upsert_posting` of the resident lists. -/
def upsertPosting (term : Key) (posting : Posting) : InvertedIndex :=
  index.setResident term <| some <|
    match index.resident term with
    | some list => list.upsert posting
    | none => .new [posting]

/-- `remove_posting_from_terms` of the resident lists, for one term. -/
def removePosting (term : Key) (docId : DocIdRaw) : InvertedIndex :=
  match index.resident term with
  | some list =>
    let updated := list.remove docId
    index.setResident term (if updated.postings.isEmpty then none else some updated)
  | none => index

def putBatch (tx : TxId) (term : Key) (list : PostingList) :
    InvertedIndex × Except IndexError Unit :=
  match encodeCompact list with
  | .ok bytes => (index.put tx (keyBatchPostingList index.root term) bytes, .ok ())
  | .error failure => (index, .error (.codec failure))

def change (tx : TxId) : StagedStatsChange := (index.stagedStats.lookup tx).getD ⟨0, 0⟩

def addChange (tx : TxId) (change : StagedStatsChange) : InvertedIndex :=
  { index with stagedStats := index.stagedStats.insert tx ((index.change tx).add change) }

def stageStatsChange (tx : TxId) (change : StagedStatsChange) :
    InvertedIndex × Except IndexError Unit :=
  if maxStagedTransactions ≤ index.stagedStats.entries.length ∧ tx ∉ index.stagedStats then
    (index, .error (.invalidInput ("Staged stats limit (" ++ toString maxStagedTransactions ++
      ") exceeded for uncommitted transactions")))
  else (index.addChange tx change, .ok ())

/-- `fetch_add` or `fetch_sub` of a delta; both wrap. -/
def shift (total : U64) (delta : Int) : U64 :=
  if 0 < delta then total + Fin.ofNat (2 ^ 64) delta.toNat
  else if delta < 0 then total - Fin.ofNat (2 ^ 64) delta.natAbs
  else total

def commitStats (tx : TxId) : InvertedIndex :=
  let change := index.change tx
  let index := { index with stagedStats := index.stagedStats.erase tx }
  let index :=
    if change.docsDelta ≠ 0 ∨ change.tokensDelta ≠ 0 then
      let totalDocs := shift index.totalDocs change.docsDelta
      let totalTokens := shift index.totalTokens change.tokensDelta
      { index with
        totalDocs
        totalTokens
        avgDocLenX1000 := if 0 < totalDocs then env.averageLen totalDocs totalTokens else 0 }
    else index
  index.put tx index.metaKey
    (env.serializeMetadata ⟨index.totalDocs, index.totalTokens, index.avgDocLenX1000⟩)

def rollbackStats (tx : TxId) : InvertedIndex :=
  { index with
    stagedStats := index.stagedStats.erase tx
    resident := fun _ => none }

/-- The body of the loop over the terms of a new document. -/
def storeTerm (tx : TxId) (docId : DocIdRaw) (newLen : U32) (term : Key) (tf : U32) :
    InvertedIndex × Except IndexError Unit :=
  let index := (index.ensureTermLoaded env term).put tx (keyWithTermDoc index.root term docId)
    (u32Bytes tf)
  let index := index.upsertPosting term ⟨docId, tf, newLen⟩
  match index.resident term with
  | some list => index.putBatch tx term list
  | none => (index, .ok ())

def storeTerms (tx : TxId) (docId : DocIdRaw) (newLen : U32) :
    InvertedIndex → List (Key × U32) → InvertedIndex × Except IndexError Unit
  | index, [] => (index, .ok ())
  | index, (term, tf) :: terms =>
    match index.storeTerm env tx docId newLen term tf with
    | (index, .ok ()) => storeTerms tx docId newLen index terms
    | (index, .error error) => (index, .error error)

def putTombstones (tx : TxId) (docId : DocIdRaw) (terms : List Key) : InvertedIndex :=
  terms.foldl (fun index term => index.put tx (keyTombstone index.root docId term) []) index

def lengthChange (oldLen : Option U32) (newLen : U32) : StagedStatsChange :=
  match oldLen with
  | some oldLen => ⟨0, (newLen.val : Int) - oldLen.val⟩
  | none => ⟨1, newLen.val⟩

/-- The part of `upsert_document` behind the reads. -/
def storeDocument (tx : TxId) (docId : DocIdRaw) (tokens : List Key) (oldLen : Option U32)
    (dropped : List Key) : InvertedIndex × Except IndexError Unit :=
  let newLen := Fin.ofNat (2 ^ 32) tokens.length
  let terms := termFrequencies tokens
  let index := (index.putTombstones tx docId dropped).put tx (keyWithId index.root "dl:" docId)
    (u32Bytes newLen)
  let index := index.put tx (keyWithId index.root "fw:" docId)
    (env.serializeTerms (terms.map Prod.fst))
  match index.stageStatsChange tx (lengthChange oldLen newLen) with
  | (index, .ok ()) => storeTerms env tx docId newLen index terms
  | (index, .error error) => (index, .error error)

def upsertDocument (tx : TxId) (docId : DocIdRaw) (text : List Char) :
    InvertedIndex × Except IndexError Unit :=
  if maxTextBytes < utf8Len text then
    (index, .error (.invalidInput ("Text length " ++ toString (utf8Len text) ++
      " exceeds maximum allowed size " ++ toString maxTextBytes)))
  else
    let tokens := env.tokenize text
    match (index.get (keyWithId index.root "dl:" docId)).bind readU32 with
    | none => index.storeDocument env tx docId tokens none []
    | some oldLen =>
      match index.get (keyWithId index.root "fw:" docId) with
      | none => index.storeDocument env tx docId tokens (some oldLen) []
      | some bytes =>
        match env.deserializeTerms bytes with
        | .error failure => (index, .error (.codec failure))
        | .ok oldTerms =>
          index.storeDocument env tx docId tokens (some oldLen)
            (oldTerms.filter fun term => !tokens.contains term)

/-- The body of the loop over the terms of a deleted document. -/
def removeTerm (tx : TxId) (docId : DocIdRaw) (term : Key) :
    InvertedIndex × Except IndexError Unit :=
  let index := (index.ensureTermLoaded env term).delete tx (keyWithTermDoc index.root term docId)
  let index := index.put tx (keyTombstone index.root docId term) []
  let index := index.removePosting term docId
  match index.resident term with
  | some list => index.putBatch tx term list
  | none => (index.delete tx (keyBatchPostingList index.root term), .ok ())

def removeTerms (tx : TxId) (docId : DocIdRaw) :
    InvertedIndex → List Key → InvertedIndex × Except IndexError Unit
  | index, [] => (index, .ok ())
  | index, term :: terms =>
    match index.removeTerm env tx docId term with
    | (index, .ok ()) => removeTerms tx docId index terms
    | (index, .error error) => (index, .error error)

def deleteDocument (tx : TxId) (docId : DocIdRaw) : InvertedIndex × Except IndexError Unit :=
  match index.get (keyWithId index.root "dl:" docId) with
  | none => (index, .ok ())
  | some bytes =>
    let docLen := (readU32 bytes).getD 0
    let terms :=
      match index.get (keyWithId index.root "fw:" docId) with
      | none => []
      | some bytes =>
        match env.deserializeTerms bytes with
        | .ok terms => terms
        | .error _ => []
    match removeTerms env tx docId (index.delete tx (keyWithId index.root "dl:" docId)) terms with
    | (index, .ok ()) =>
      (index.delete tx (keyWithId index.root "fw:" docId)).stageStatsChange tx
        ⟨-1, -(docLen.val : Int)⟩
    | (index, .error error) => (index, .error error)

def commit (tx : TxId) : InvertedIndex :=
  let index := index.commitStats env tx
  { index with storage := index.storage.commit tx }

def rollback (tx : TxId) : InvertedIndex :=
  let index := index.rollbackStats tx
  { index with storage := index.storage.rollback tx }

end InvertedIndex

end Contextra.Text
