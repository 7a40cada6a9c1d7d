import Contextra.Graph.SessionDag

/-!
# Saved session trees

The runs that save trees under namespaces.  No two namespaces share a key, but the scan of a
namespace may also read the keys of another one, and nodes saved earlier stay in the storage.
-/

namespace Contextra.Graph

open Library List Option

section Keys

variable {space other : SessionKey} {slot otherSlot : Slot}

/-- The part of a key before its last colon, and the part behind it. -/
def Slot.parts (space : SessionKey) : Slot → SessionKey × SessionKey
  | .node id => (rootText ++ space ++ ':' :: nodeText, Nat.toDigits 10 id)
  | .edges => (rootText ++ space, edgesText)
  | .headAndNext => (rootText ++ space, metaText)

theorem slotKey_eq_parts (space : SessionKey) (slot : Slot) :
    slotKey space slot = (slot.parts space).1 ++ ':' :: (slot.parts space).2 := by
  cases slot <;> simp [slotKey, sessionPrefix, Slot.text, Slot.parts]

theorem colon_notMem_digits (id : NodeIdx) : ':' ∉ Nat.toDigits 10 id := by
  intro mem
  have isDigit := Nat.isDigit_of_mem_toDigits (by decide) (by decide) mem
  revert isDigit
  decide

theorem colon_notMem_nodeText : ':' ∉ nodeText := by decide

theorem colon_notMem_edgesText : ':' ∉ edgesText := by decide

theorem colon_notMem_metaText : ':' ∉ metaText := by decide

theorem colon_notMem_parts (space : SessionKey) (slot : Slot) : ':' ∉ (slot.parts space).2 := by
  cases slot with
  | node id => exact colon_notMem_digits id
  | edges => exact colon_notMem_edgesText
  | headAndNext => exact colon_notMem_metaText

theorem split_last_colon {left left' right right' : List Char}
    (same : left ++ ':' :: right = left' ++ ':' :: right') (last : ':' ∉ right)
    (last' : ':' ∉ right') : left = left' ∧ right = right' := by
  rcases append_eq_append_iff.mp same with ⟨between, rfl, split⟩ | ⟨between, rfl, split⟩
  · cases between with
    | nil => simpa using split
    | cons first between =>
      have inside : ':' ∈ right := by
        rw [(List.cons.inj split).2]
        simp
      exact absurd inside last
  · cases between with
    | nil => simpa [eq_comm] using split
    | cons first between =>
      have inside : ':' ∈ right' := by
        rw [(List.cons.inj split).2]
        simp
      exact absurd inside last'

theorem digits_injective {id id' : NodeIdx} (same : Nat.toDigits 10 id = Nat.toDigits 10 id') :
    id = id' := by
  have values := congrArg (fun digits => Nat.ofDigitChars 10 digits 0) same
  simpa only [Nat.ofDigitChars_ten_toDigits] using values

theorem digits_ne {id : NodeIdx} {text : List Char} (letter : ∃ char ∈ text, char.isDigit = false) :
    Nat.toDigits 10 id ≠ text := by
  rintro rfl
  obtain ⟨char, inside, notDigit⟩ := letter
  have isDigit := Nat.isDigit_of_mem_toDigits (by decide) (by decide) inside
  rw [notDigit] at isDigit
  cases isDigit

theorem digits_ne_edgesText (id : NodeIdx) : Nat.toDigits 10 id ≠ edgesText :=
  digits_ne ⟨'e', by decide, by decide⟩

theorem digits_ne_metaText (id : NodeIdx) : Nat.toDigits 10 id ≠ metaText :=
  digits_ne ⟨'m', by decide, by decide⟩

theorem edgesText_ne_metaText : edgesText ≠ metaText := by decide

theorem slotKey_injective (same : slotKey space slot = slotKey other otherSlot) :
    space = other ∧ slot = otherSlot := by
  rw [slotKey_eq_parts, slotKey_eq_parts] at same
  obtain ⟨front, back⟩ := split_last_colon same (colon_notMem_parts _ _) (colon_notMem_parts _ _)
  cases slot with
  | node id =>
    cases otherSlot with
    | node id' =>
      refine ⟨?_, congrArg Slot.node (digits_injective back)⟩
      simpa [Slot.parts] using front
    | edges => exact absurd back (digits_ne_edgesText id)
    | headAndNext => exact absurd back (digits_ne_metaText id)
  | edges =>
    cases otherSlot with
    | node id => exact absurd back.symm (digits_ne_edgesText id)
    | edges => exact ⟨by simpa [Slot.parts] using front, rfl⟩
    | headAndNext => exact absurd back edgesText_ne_metaText
  | headAndNext =>
    cases otherSlot with
    | node id => exact absurd back.symm (digits_ne_metaText id)
    | edges => exact absurd back.symm edgesText_ne_metaText
    | headAndNext => exact ⟨by simpa [Slot.parts] using front, rfl⟩

def Overlaps (space other : SessionKey) : Prop :=
  space ++ [':'] <+: other ∨ space = other ++ ':' :: nodeText

theorem overlaps_of_prefix (scanned : sessionPrefix space <+: slotKey other slot) :
    space = other ∨ Overlaps space other := by
  have behind : space ++ [':'] <+: other ++ ':' :: slot.text := by
    rw [← prefix_append_right_inj rootText]
    simpa [sessionPrefix, slotKey] using scanned
  obtain ⟨rest, whole⟩ := behind
  rcases append_eq_append_iff.mp whole with ⟨between, isOther, -⟩ | ⟨between, split, isText⟩
  · exact .inr (.inl ⟨between, isOther.symm⟩)
  cases between with
  | nil => exact .inr (.inl (by rw [split, append_nil]))
  | cons first between =>
    obtain ⟨rfl, isText⟩ := List.cons.inj isText
    rcases eq_nil_or_concat between with rfl | ⟨front, last, rfl⟩
    · exact .inl (append_cancel_right split)
    · have parts : space ++ [':'] = (other ++ ':' :: front) ++ [last] := by
        simpa using split
      obtain ⟨isSpace, isColon⟩ := append_inj' parts rfl
      cases isColon
      refine .inr (.inr ?_)
      have slotText : slot.text = front ++ ':' :: rest := by simpa using isText
      cases slot with
      | node id =>
        have isFront : front = nodeText ∧ rest = Nat.toDigits 10 id := by
          rcases append_eq_append_iff.mp slotText with ⟨more, rfl, tail⟩ | ⟨more, isNode, tail⟩
          · cases more with
            | nil => simpa [eq_comm] using tail
            | cons letter more =>
              refine absurd ?_ (colon_notMem_digits id)
              rw [(List.cons.inj tail).2]
              simp
          · cases more with
            | nil => simpa [eq_comm] using And.intro isNode tail
            | cons letter more =>
              refine absurd ?_ colon_notMem_nodeText
              rw [isNode, ← (List.cons.inj tail).1]
              simp
        rw [isSpace, isFront.1]
      | edges =>
        refine absurd ?_ colon_notMem_edgesText
        rw [show edgesText = front ++ ':' :: rest from slotText]
        simp
      | headAndNext =>
        refine absurd ?_ colon_notMem_metaText
        rw [show metaText = front ++ ':' :: rest from slotText]
        simp

theorem prefix_slotKey (space : SessionKey) (slot : Slot) :
    sessionPrefix space <+: slotKey space slot := prefix_append _ _

theorem prefix_of_overlaps (overlaps : Overlaps space other) (id : NodeIdx) :
    sessionPrefix space <+: slotKey other (.node id) := by
  rcases overlaps with ⟨rest, rfl⟩ | rfl
  · exact ⟨rest ++ ':' :: Slot.text (.node id), by simp [sessionPrefix, slotKey]⟩
  · exact ⟨Nat.toDigits 10 id, by simp [sessionPrefix, slotKey, Slot.text]⟩

end Keys

section Contents

variable {Blob : Type} (codec : Bincode Blob) {space other : SessionKey} {slot : Slot}
  {tree saved state : SessionBranchTree} {key : SessionKey} {blob : Blob} {id : NodeIdx}
  {saves : List (SessionKey × SessionBranchTree)}

namespace SessionBranchTree

def blobOf (tree : SessionBranchTree) : Slot → Option Blob
  | .node id => (tree.nodes.lookup id).map codec.serializeNode
  | .edges => some (codec.serializeEdges tree.edges)
  | .headAndNext => some (codec.serializeMeta (tree.activeHead, tree.nextId))

theorem mem_puts :
    (key, blob) ∈ tree.puts codec space ↔
      ∃ slot, key = slotKey space slot ∧ tree.blobOf codec slot = some blob := by
  rw [puts, mem_append, List.mem_map]
  constructor
  · rintro (⟨⟨id, node⟩, stored, same⟩ | inside)
    · cases same
      exact ⟨.node id, rfl, by simp [blobOf, SortedMap.lookup_eq_some.mpr stored]⟩
    · rcases mem_cons.mp inside with same | inside
      · cases same
        exact ⟨.edges, rfl, rfl⟩
      · cases mem_singleton.mp inside
        exact ⟨.headAndNext, rfl, rfl⟩
  · rintro ⟨slot, rfl, found⟩
    cases slot with
    | node id =>
      obtain ⟨node, stored, rfl⟩ := map_eq_some_iff.mp found
      exact .inl ⟨(id, node), SortedMap.lookup_eq_some.mp stored, rfl⟩
    | edges =>
      cases found
      exact .inr mem_cons_self
    | headAndNext =>
      cases found
      exact .inr (mem_cons_of_mem _ mem_cons_self)

theorem lastEntry_puts :
    lastEntry (tree.puts codec space) (slotKey other slot) =
      if space = other then tree.blobOf codec slot else none := by
  cases found : lastEntry (tree.puts codec space) (slotKey other slot) with
  | some blob =>
    obtain ⟨slot', same, isBlob⟩ := (mem_puts codec).mp (mem_of_lastEntry found)
    obtain ⟨rfl, rfl⟩ := slotKey_injective same
    rw [if_pos rfl, isBlob]
  | none =>
    split
    · rename_i same
      subst same
      by_contra stored
      obtain ⟨blob, isBlob⟩ := ne_none_iff_exists'.mp (Ne.symm stored)
      refine lastEntry_eq_none.mp found (List.mem_map.mpr ⟨(_, blob), ?_, rfl⟩)
      exact (mem_puts codec).mpr ⟨slot, rfl, isBlob⟩
    · rfl

end SessionBranchTree

open SessionBranchTree

def savedEntries (saves : List (SessionKey × SessionBranchTree)) : List (SessionKey × Blob) :=
  saves.flatMap fun save => save.2.puts codec save.1

theorem exists_save_of_lastEntry (found : lastEntry (savedEntries codec saves) key = some blob) :
    ∃ save ∈ saves, ∃ slot, key = slotKey save.1 slot ∧ save.2.blobOf codec slot = some blob := by
  obtain ⟨save, isSave, inside⟩ := mem_flatMap.mp (mem_of_lastEntry found)
  exact ⟨save, isSave, (mem_puts codec).mp inside⟩

theorem lastEntry_isSome_of_save {save : SessionKey × SessionBranchTree} (isSave : save ∈ saves)
    (stored : save.2.blobOf codec slot = some blob) :
    (lastEntry (savedEntries codec saves) (slotKey save.1 slot)).isSome := by
  rw [lastEntry_isSome]
  refine List.mem_map.mpr ⟨(_, blob), mem_flatMap.mpr ⟨save, isSave, ?_⟩, rfl⟩
  exact (mem_puts codec).mpr ⟨slot, rfl, stored⟩

theorem lastEntry_single {Value : Type} (entry : SessionKey × Value) :
    lastEntry [entry] space = if entry.1 = space then some entry.2 else none := by
  simp only [lastEntry, reverse_singleton, List.lookup]
  by_cases same : entry.1 = space
  · simp [same]
  · rw [if_neg same]
    split
    · rename_i isSame
      exact absurd (eq_of_beq isSame).symm same
    · rfl

def HasAllSaved (saves : List (SessionKey × SessionBranchTree)) (space : SessionKey)
    (tree : SessionBranchTree) : Prop :=
  ∀ save ∈ saves, save.1 = space →
    ∀ id, (save.2.nodes.lookup id).isSome → (tree.nodes.lookup id).isSome

theorem lastEntry_savedEntries (isLast : lastEntry saves space = some tree)
    (hasAll : HasAllSaved saves space tree) :
    lastEntry (savedEntries codec saves) (slotKey space slot) = tree.blobOf codec slot := by
  induction saves using reverseRecOn with
  | nil => cases isLast
  | append_singleton saves save ih =>
    have entries : savedEntries codec (saves ++ [save]) =
        savedEntries codec saves ++ save.2.puts codec save.1 := by
      simp [savedEntries]
    rw [entries, lastEntry_append, lastEntry_puts]
    rw [lastEntry_append] at isLast
    by_cases same : save.1 = space
    · have isTree : save.2 = tree := by
        simpa [lastEntry_single, same] using isLast
      rw [if_pos same, isTree]
      cases stored : tree.blobOf codec slot with
      | some blob => rfl
      | none =>
        rw [none_or]
        by_contra left
        obtain ⟨blob, found⟩ := ne_none_iff_exists'.mp left
        obtain ⟨earlier, isEarlier, slot', sameKey, isBlob⟩ :=
          exists_save_of_lastEntry codec found
        obtain ⟨isSpace, rfl⟩ := slotKey_injective sameKey
        cases slot with
        | node id =>
          obtain ⟨node, isNode, -⟩ := map_eq_some_iff.mp isBlob
          have kept := hasAll earlier (mem_append_left _ isEarlier) isSpace.symm id
            (by rw [isNode]; rfl)
          rw [blobOf, map_eq_none_iff] at stored
          rw [stored] at kept
          cases kept
        | edges => cases stored
        | headAndNext => cases stored
    · have earlier : lastEntry saves space = some tree := by
        simpa [lastEntry_single, same] using isLast
      rw [if_neg same, none_or]
      exact ih earlier fun save isSave =>
        hasAll save (mem_append_left _ isSave)

namespace SessionBranchTree

def takeSlot (state saved : SessionBranchTree) : Slot → SessionBranchTree
  | .node id =>
    match saved.nodes.lookup id with
    | some node => { state with nodes := state.nodes.insert node.stepId node }
    | none => state
  | .edges => { state with edges := saved.edges }
  | .headAndNext => { state with activeHead := saved.activeHead, nextId := saved.nextId }

variable {codec}

theorem not_isSuffixOf {ending key : List Char} (front : List Char) (last final : Char)
    (isLast : ending.getLast? = some last) (isFinal : key.getLast? = some final)
    (different : last ≠ final) : ending.isSuffixOf (front ++ key) = false := by
  rw [Bool.eq_false_iff, ne_eq, isSuffixOf_iff_suffix]
  rintro ⟨rest, whole⟩
  have same := congrArg List.getLast? whole
  rw [getLast?_append, getLast?_append, isLast, isFinal] at same
  exact different (by simpa using same)

theorem loadEntry_slotKey (roundTrips : codec.RoundTrips)
    (stored : saved.blobOf codec slot = some blob) :
    state.loadEntry codec (slotKey space slot, blob) = .ok (state.takeSlot saved slot) := by
  cases slot with
  | node id =>
    obtain ⟨node, isNode, rfl⟩ := map_eq_some_iff.mp stored
    obtain ⟨digit, isDigit, last⟩ : ∃ digit, digit.isDigit = true ∧
        (Slot.text (.node id)).getLast? = some digit := by
      have nonempty : Nat.toDigits 10 id ≠ [] := Nat.toDigits_ne_nil
      refine ⟨(Nat.toDigits 10 id).getLast nonempty,
        Nat.isDigit_of_mem_toDigits (by decide) (by decide) (getLast_mem nonempty), ?_⟩
      rw [Slot.text, getLast?_append, getLast?_cons,
        getLast?_eq_getLast_of_ne_nil nonempty]
      rfl
    have notEdges : edgesText.isSuffixOf (slotKey space (.node id)) = false := by
      refine not_isSuffixOf _ 's' digit rfl last ?_
      rintro rfl
      revert isDigit
      decide
    have notMeta : metaText.isSuffixOf (slotKey space (.node id)) = false := by
      refine not_isSuffixOf _ 'a' digit rfl last ?_
      rintro rfl
      revert isDigit
      decide
    have isNodeKey : ':' :: (nodeText ++ [':']) <:+: slotKey space (.node id) :=
      ⟨rootText ++ space, Nat.toDigits 10 id,
        by simp [slotKey, sessionPrefix, Slot.text]⟩
    simp [loadEntry, notEdges, notMeta, isNodeKey, roundTrips.node, takeSlot, isNode]
  | edges =>
    cases stored
    have isEdges : edgesText.isSuffixOf (slotKey space .edges) = true :=
      isSuffixOf_iff_suffix.mpr (suffix_append _ _)
    simp [loadEntry, isEdges, roundTrips.edges, takeSlot]
  | headAndNext =>
    cases stored
    have notEdges : edgesText.isSuffixOf (slotKey space .headAndNext) = false :=
      not_isSuffixOf _ 's' 'a' rfl rfl (by decide)
    have isMeta : metaText.isSuffixOf (slotKey space .headAndNext) = true :=
      isSuffixOf_iff_suffix.mpr (suffix_append _ _)
    simp [loadEntry, notEdges, isMeta, roundTrips.headAndNext, takeSlot]

variable {entries : List (SessionKey × Blob)} {loaded : SessionBranchTree}

def IsSaved (codec : Bincode Blob) (entry : SessionKey × Blob) : Prop :=
  ∃ space slot saved, entry.1 = slotKey space slot ∧ blobOf codec saved slot = some entry.2 ∧
    saved.WellFormed

theorem takeSlot_keeps_nodes (slot : Slot) (stored : (state.nodes.lookup id).isSome) :
    ((state.takeSlot saved slot).nodes.lookup id).isSome := by
  cases slot with
  | node other =>
    simp only [takeSlot]
    split
    · rename_i node _
      by_cases same : id = node.stepId
      · subst same
        simp [SortedMap.lookup_insert_self]
      · rw [SortedMap.lookup_insert_ne same]
        exact stored
    · exact stored
  | edges => exact stored
  | headAndNext => exact stored

theorem takeSlot_node (wellFormed : saved.WellFormed) (stored : (saved.nodes.lookup id).isSome) :
    (state.takeSlot saved (.node id)).nodes.lookup id = saved.nodes.lookup id := by
  obtain ⟨node, isNode⟩ := isSome_iff_exists.mp stored
  have stepId := wellFormed.stepId id node isNode
  simp only [takeSlot, isNode]
  rw [stepId, SortedMap.lookup_insert_self]

theorem loadEntries_ok (roundTrips : codec.RoundTrips)
    (areSaved : ∀ entry ∈ entries, IsSaved codec entry) :
    ∃ loaded, entries.foldlM (loadEntry codec) state = .ok loaded ∧
      ∀ id, (state.nodes.lookup id).isSome ∨
        (∃ space, slotKey space (.node id) ∈ entries.map Prod.fst) →
          (loaded.nodes.lookup id).isSome := by
  induction entries generalizing state with
  | nil => exact ⟨state, rfl, by simp⟩
  | cons entry entries ih =>
    obtain ⟨key, blob⟩ := entry
    obtain ⟨space, slot, saved, isKey, stored, wellFormed⟩ := areSaved _ mem_cons_self
    simp only at isKey stored
    subst isKey
    obtain ⟨loaded, isLoaded, keeps⟩ := @ih (state.takeSlot saved slot)
      fun entry inside => areSaved entry (mem_cons_of_mem _ inside)
    refine ⟨loaded, ?_, ?_⟩
    · rw [foldlM_cons, loadEntry_slotKey roundTrips stored]
      exact isLoaded
    · rintro id (before | ⟨other, scanned⟩)
      · exact keeps id (.inl (takeSlot_keeps_nodes slot before))
      · rcases mem_cons.mp scanned with isFirst | later
        · obtain ⟨rfl, rfl⟩ := slotKey_injective isFirst
          refine keeps id (.inl ?_)
          obtain ⟨node, isNode, -⟩ := map_eq_some_iff.mp stored
          rw [takeSlot_node wellFormed (by rw [isNode]; rfl), isNode]
          rfl
        · exact keeps id (.inr ⟨other, later⟩)

def Agrees (state tree : SessionBranchTree) : Slot → Prop
  | .node id => state.nodes.lookup id = tree.nodes.lookup id
  | .edges => state.edges = tree.edges
  | .headAndNext => state.activeHead = tree.activeHead ∧ state.nextId = tree.nextId

theorem agrees_takeSlot_self (wellFormed : tree.WellFormed) {slot : Slot}
    (stored : (blobOf codec tree slot).isSome) : Agrees (state.takeSlot tree slot) tree slot := by
  cases slot with
  | node id => exact takeSlot_node wellFormed (by simpa [blobOf] using stored)
  | edges => rfl
  | headAndNext => exact ⟨rfl, rfl⟩

theorem agrees_takeSlot (wellFormed : tree.WellFormed) {slot other : Slot}
    (agrees : Agrees state tree other) : Agrees (state.takeSlot tree slot) tree other := by
  cases slot with
  | node id =>
    simp only [takeSlot]
    split
    · rename_i node isNode
      cases other with
      | node id' =>
        have stepId := wellFormed.stepId id node isNode
        by_cases same : id' = id
        · rw [Agrees, stepId, same, SortedMap.lookup_insert_self, isNode]
        · rw [Agrees, stepId, SortedMap.lookup_insert_ne same]
          exact agrees
      | edges => exact agrees
      | headAndNext => exact agrees
    · exact agrees
  | edges =>
    cases other with
    | node id => exact agrees
    | edges => rfl
    | headAndNext => exact agrees
  | headAndNext =>
    cases other with
    | node id => exact agrees
    | edges => exact agrees
    | headAndNext => exact ⟨rfl, rfl⟩

theorem loadEntries_agrees (roundTrips : codec.RoundTrips) (wellFormed : tree.WellFormed)
    (own : ∀ entry ∈ entries, ∃ slot, entry.1 = slotKey space slot ∧
      blobOf codec tree slot = some entry.2) :
    ∃ loaded, entries.foldlM (loadEntry codec) state = .ok loaded ∧
      ∀ slot, Agrees state tree slot ∨ slotKey space slot ∈ entries.map Prod.fst →
        Agrees loaded tree slot := by
  induction entries generalizing state with
  | nil => exact ⟨state, rfl, by simp⟩
  | cons entry entries ih =>
    obtain ⟨key, blob⟩ := entry
    obtain ⟨slot, isKey, stored⟩ := own _ mem_cons_self
    simp only at isKey stored
    subst isKey
    obtain ⟨loaded, isLoaded, agrees⟩ := @ih (state.takeSlot tree slot)
      fun entry inside => own entry (mem_cons_of_mem _ inside)
    refine ⟨loaded, ?_, ?_⟩
    · rw [foldlM_cons, loadEntry_slotKey roundTrips stored]
      exact isLoaded
    · rintro other (before | scanned)
      · exact agrees other (.inl (agrees_takeSlot wellFormed before))
      · rcases mem_cons.mp scanned with isFirst | later
        · obtain ⟨-, rfl⟩ := slotKey_injective isFirst
          exact agrees other (.inl (agrees_takeSlot_self wellFormed
            (isSome_of_eq_some stored)))
        · exact agrees other (.inr later)

theorem eq_of_agrees (agrees : ∀ slot, Agrees loaded tree slot) : loaded = tree := by
  obtain ⟨nodes, edges, activeHead, nextId⟩ := loaded
  obtain ⟨nodes', edges', activeHead', nextId'⟩ := tree
  have sameNodes : nodes = nodes' := SortedMap.ext_lookup fun id => agrees (.node id)
  have sameEdges : edges = edges' := agrees .edges
  have sameHead : activeHead = activeHead' := (agrees .headAndNext).1
  have sameNext : nextId = nextId' := (agrees .headAndNext).2
  rw [sameNodes, sameEdges, sameHead, sameNext]

end SessionBranchTree

end Contents

end Contextra.Graph
